import KiteNdn.Security.CommandInterest

/-!
# Authorization of management commands

Each module has a validator with the certificates of the configuration as trust anchors. A command
whose key locator is the identity of digests is checked against its digest, for which no certificate
is needed.
-/

namespace KiteNdn.Security

open Packet Tlv List Option Function

structure Certificate where
  name : Name
  key : List UInt8
  deriving DecidableEq

/-- What the verification of a signature depends on: the digest and the check of a signature with a
key, and what an Interest is encoded with. -/
structure Verifier where
  sha : Sha256
  verify : List (List UInt8) → List UInt8 → List UInt8 → Bool
  autoCheck : Bool
  generated : Packet.Nonce

namespace Verifier

variable (p : Verifier)

structure ParseResult where
  info : SignatureInfo := {}
  bufs : List (List UInt8) := []
  sig : List UInt8 := []

def parse (i : Packet.Interest) : ParseResult :=
  match i.wireEncode p.sha p.autoCheck p.generated with
  | .error _ => {}
  | .ok i =>
    match i.getSignatureInfo, i.getSignatureValue with
    | .error _, _ => {}
    | .ok (some info), some value =>
      match i.extractSignedRanges p.sha p.autoCheck p.generated with
      | .error _ => {}
      | .ok bufs => ⟨info,bufs,value.value⟩
    -- the format v0.2
    | .ok _, _ =>
      match i.name.reverse with
      | sigValue :: sigInfo :: _ =>
        match (blockFromValue sigInfo.value).bind fun e => SignatureInfo.ofElement e .data,
          blockFromValue sigValue.value with
        | .ok info, .ok value =>
          ⟨info,[Element.allOctets (EncodedName.elements i.name.dropLast)],value.value⟩
        | _, _ => {}
      | _ => {}

def verifySignature (i : Packet.Interest) : Option Certificate → Bool
  | some cert => !(p.parse i).bufs.isEmpty && p.verify (p.parse i).bufs (p.parse i).sig cert.key
  | none => (p.parse i).info.type = some digestSha256 && !(p.parse i).bufs.isEmpty &&
      p.sha.digest (p.parse i).bufs.flatten = (p.parse i).sig

end Verifier

/-- The validator of a module. It accepts anything, or has trust anchors in the order of their
names. -/
structure ModuleValidator where
  acceptAll : Bool := false
  anchors : List Certificate := []

namespace ModuleValidator

def addAnchor (cert : Certificate) : List Certificate → List Certificate
  | [] => [cert]
  | c :: cs =>
    if c.name = cert.name then c :: cs
    else if cert.name < c.name then cert :: c :: cs
    else c :: addAnchor cert cs

theorem mem_addAnchor {cert x : Certificate} {cs : List Certificate} (h : x ∈ addAnchor cert cs) :
    x = cert ∨ x ∈ cs := by
  induction cs with
  | nil => exact Or.inl (mem_singleton.mp h)
  | cons c cs ih =>
    rw [addAnchor] at h
    split_ifs at h
    · exact Or.inr h
    · exact mem_cons.mp h
    · rcases mem_cons.mp h with rfl | h
      · exact Or.inr mem_cons_self
      · exact (ih h).imp_right (mem_cons_of_mem c)

/-- `requestCertificate` for the key locator, with no certificate in between: there is nothing to
fetch one from. The result is the signer. -/
def requestCertificate (p : Verifier) (i : Packet.Interest) (klName : Name) (v : ModuleValidator) :
    Except Refusal (Option Name) :=
  let verifyOriginalPacket (cert : Option Certificate) :=
    if p.verifySignature i cert then .ok (some klName)
    else .error (.failed .invalidSignature ("Invalid signature of interest `" ++
      uriText i.name.toName ++ "`"))
  if klName = digestSha256Identity then verifyOriginalPacket none
  else
    match v.anchors.find? fun cert => klName.isPrefixOf cert.name with
    | none => .error (.failed .cannotRetrieveCert ("Cannot fetch certificate " ++ uriText klName ++
        " in offline mode"))
    | some cert => verifyOriginalPacket (some cert)

def validate (p : Verifier) (records : Records) (i : Packet.Interest) (steady system : Int)
    (v : ModuleValidator) : Except Refusal (Option Name) :=
  if v.acceptAll then .ok none
  else do
    let (keyName,timestamp) ← parseCommandInterest i
    checkTimestamp {} (records.cleanup {} steady) keyName timestamp system
    let klName ← getKeyLocatorName i
    v.requestCertificate p i klName

end ModuleValidator

structure AuthSection where
  certfile : Option String
  privileges : Option (List String)

abbrev ConfigSection := List (String × AuthSection)

/-- The validators of the modules that were declared. There is none before a configuration. -/
abbrev Validators := String → Option (Option ModuleValidator)

inductive Signer where
  | any
  | cert (cert : Certificate)

namespace CommandAuthenticator

variable (path : String → String) (load : String → Option Certificate)

def findSigner (certfile : String) : Option Signer :=
  if certfile = "any" then some .any else (load (path certfile)).map .cert

def grant (signer : Signer) (v : ModuleValidator) : ModuleValidator :=
  match signer with
  | .any => { acceptAll := true }
  | .cert cert => { v with anchors := ModuleValidator.addAnchor cert v.anchors }

def grantModules (isDryRun : Bool) (index : Nat) (signer : Signer) :
    List String → Validators → Validators × Option String
  | [], vs => (vs,none)
  | m :: modules, vs =>
    match vs m with
    | none => (vs,some s!"unknown module '{m}' under authorize[{index}]")
    | some v => grantModules isDryRun index signer modules
        (if isDryRun then vs else update vs m (some (v.map (grant signer))))

def processSections (isDryRun : Bool) :
    Nat → ConfigSection → Validators → Validators × Option String
  | _, [], vs => (vs,none)
  | index, (key,auth) :: rest, vs =>
    if key ≠ "authorize" then
      (vs,some s!"'{key}' section is not permitted under 'authorizations'")
    else
      match auth.certfile with
      | none => (vs,some s!"'certfile' is missing under authorize[{index}]")
      | some certfile =>
        match findSigner path load certfile, auth.privileges with
        | none, _ => (vs,some s!"cannot load certfile {path certfile} for authorize[{index}]")
        | some _, none => (vs,some s!"'privileges' is missing under authorize[{index}]")
        | some signer, some modules =>
          match grantModules isDryRun index signer modules vs with
          | (vs,none) => processSections isDryRun (index + 1) rest vs
          | failed => failed

def processConfig (isDryRun : Bool) (config : ConfigSection) (vs : Validators) :
    Validators × Option String :=
  let vs := if isDryRun then vs else fun m => (vs m).map fun _ => some {}
  if config = [] then (vs,some "'authorize' is missing under 'authorizations'")
  else processSections path load isDryRun 0 config vs

def authorization (p : Verifier) (vs : Validators) (records : Records) (module : String)
    (i : Packet.Interest) (steady system : Int) : Except Refusal (Option Name) :=
  match vs module with
  | some (some v) => v.validate p records i steady system
  | _ => .error (.failed .policyError "Unauthorized")

section Authorized

variable {path load}

/-- The configuration authorizes the signer for the module. -/
def Grants (path : String → String) (load : String → Option Certificate) (config : ConfigSection)
    (module : String) (signer : Signer) : Prop :=
  ∃ auth ∈ config, ∃ certfile modules, auth.2.certfile = some certfile ∧
    findSigner path load certfile = some signer ∧ auth.2.privileges = some modules ∧
      module ∈ modules

/-- The validators have no more than what the configuration grants. -/
def Sound (path : String → String) (load : String → Option Certificate) (config : ConfigSection)
    (vs : Validators) : Prop :=
  ∀ module v, vs module = some (some v) →
    (v.acceptAll = true → Grants path load config module .any) ∧
      ∀ cert ∈ v.anchors, Grants path load config module (.cert cert)

variable {config : ConfigSection} {vs : Validators}

theorem Sound.grantModules (h : Sound path load config vs) {index : Nat} {signer : Signer}
    {modules : List String} (hall : ∀ m ∈ modules, Grants path load config m signer) :
    Sound path load config (grantModules false index signer modules vs).1 := by
  induction modules generalizing vs with
  | nil => exact h
  | cons m modules ih =>
    rw [CommandAuthenticator.grantModules]
    cases hm : vs m with
    | none => exact h
    | some v =>
      apply ih _ fun m' hm' => hall m' (mem_cons_of_mem m hm')
      intro module w hw
      rw [if_neg Bool.false_ne_true,update_apply] at hw
      split_ifs at hw with hsame
      · subst hsame
        obtain ⟨v,rfl,rfl⟩ := map_eq_some_iff.mp (some.inj hw)
        obtain ⟨hany,hcerts⟩ := h module v hm
        have hgrant := hall module mem_cons_self
        cases signer with
        | any => exact ⟨fun _ => hgrant,fun _ hc => absurd hc not_mem_nil⟩
        | cert cert =>
          refine ⟨hany,fun c hc => ?_⟩
          rcases ModuleValidator.mem_addAnchor hc with rfl | hc
          · exact hgrant
          · exact hcerts c hc
      · exact h module w hw

theorem Sound.processSections {sections : ConfigSection} (hsub : ∀ a ∈ sections, a ∈ config)
    (h : Sound path load config vs) (index : Nat) :
    Sound path load config (processSections path load false index sections vs).1 := by
  induction sections generalizing vs index with
  | nil => exact h
  | cons a rest ih =>
    obtain ⟨key,auth⟩ := a
    rw [CommandAuthenticator.processSections]
    split_ifs
    · exact h
    · cases hfile : auth.certfile with
      | none => exact h
      | some certfile =>
        dsimp only
        split
        · exact h
        · exact h
        · rename_i signer modules hsigner hmodules
          have hgranted : Sound path load config
              (CommandAuthenticator.grantModules false index signer modules vs).1 :=
            h.grantModules fun m hm => ⟨(key,auth),hsub _ mem_cons_self,certfile,modules,
              hfile,hsigner,hmodules,hm⟩
          split
          · rename_i vs' heq
            rw [heq] at hgranted
            exact ih (fun b hb => hsub b (mem_cons_of_mem _ hb)) hgranted _
          · exact hgranted

theorem sound_processConfig (config : ConfigSection) (vs : Validators) :
    Sound path load config (processConfig path load false config vs).1 := by
  have hreset : Sound path load config fun m => (vs m).map fun _ => some {} := by
    intro module v hv
    obtain ⟨_,_,hv⟩ := map_eq_some_iff.mp hv
    cases hv
    exact ⟨fun h => absurd h Bool.false_ne_true,fun _ h => absurd h not_mem_nil⟩
  rw [processConfig,if_neg Bool.false_ne_true]
  split_ifs
  · exact hreset
  · exact Sound.processSections (fun _ h => h) hreset 0

/-- Anyone may send commands to the module, or the signature verifies under the key of a certificate
that the configuration authorizes for it. -/
def Authorized (path : String → String) (load : String → Option Certificate)
    (config : ConfigSection) (p : Verifier) (module : String) (i : Packet.Interest) : Prop :=
  Grants path load config module .any ∨
    ∃ cert, Grants path load config module (.cert cert) ∧ p.verifySignature i (some cert) = true

/-- The module does not accept anything, and of the command its timestamp and its digest are all that
is checked. -/
def PassesAsDigest (p : Verifier) (vs : Validators) (records : Records) (module : String)
    (i : Packet.Interest) (steady system : Int) : Prop :=
  (∃ v, vs module = some (some v) ∧ v.acceptAll = false) ∧
    (∃ keyName timestamp, parseCommandInterest i = .ok (keyName,timestamp) ∧
      checkTimestamp {} (records.cleanup {} steady) keyName timestamp system = .ok ()) ∧
    getKeyLocatorName i = .ok digestSha256Identity ∧ p.verifySignature i none = true

variable {p : Verifier} {records : Records} {module : String} {i : Packet.Interest}
  {steady system : Int}

theorem PassesAsDigest.accepted (h : PassesAsDigest p vs records module i steady system) :
    authorization p vs records module i steady system = .ok (some digestSha256Identity) := by
  obtain ⟨⟨v,hv,hall⟩,⟨keyName,timestamp,hparse,hcheck⟩,hname,hverified⟩ := h
  rw [authorization,hv]
  dsimp only
  rw [ModuleValidator.validate,if_neg (by simp [hall]),hparse]
  simp only [bind,Except.bind,hcheck,hname,ModuleValidator.requestCertificate,if_true,hverified]

theorem accepted_cases {signer : Option Name} (hsound : Sound path load config vs)
    (h : authorization p vs records module i steady system = .ok signer) :
    Authorized path load config p module i ∨ PassesAsDigest p vs records module i steady system := by
  rw [authorization] at h
  split at h
  · rename_i v hv
    obtain ⟨hany,hcerts⟩ := hsound module v hv
    rw [ModuleValidator.validate] at h
    split_ifs at h with hall
    · exact Or.inl (Or.inl (hany hall))
    · cases hparse : parseCommandInterest i with
      | error refusal => rw [hparse] at h; cases h
      | ok parsed =>
        rw [hparse] at h
        cases hcheck : checkTimestamp {} (records.cleanup {} steady) parsed.1 parsed.2 system with
        | error refusal => simp [bind,Except.bind,hcheck] at h
        | ok _ =>
          cases hname : getKeyLocatorName i with
          | error refusal => simp [bind,Except.bind,hcheck,hname] at h
          | ok klName =>
            simp only [bind,Except.bind,hcheck,hname,ModuleValidator.requestCertificate] at h
            split_ifs at h with hdigest hverified
            · subst hdigest
              exact Or.inr ⟨⟨v,hv,Bool.eq_false_of_not_eq_true hall⟩,
                ⟨parsed.1,parsed.2,hparse,hcheck⟩,hname,hverified⟩
            · split at h
              · cases h
              · rename_i cert hfind
                split_ifs at h with hverified
                exact Or.inl (Or.inr ⟨cert,hcerts cert (mem_of_find?_eq_some hfind),hverified⟩)
  · cases h

end Authorized

/-- After a configuration a command is accepted only with authorization, if and only if the command
does not pass for its digest without it. -/
theorem accepted_authorized_iff (path : String → String) (load : String → Option Certificate)
    (config : ConfigSection) (vs : Validators) (p : Verifier) (records : Records) (module : String)
    (i : Packet.Interest) (steady system : Int) :
    ((∃ signer, authorization p (processConfig path load false config vs).1 records module i steady
        system = .ok signer) → Authorized path load config p module i) ↔
      (PassesAsDigest p (processConfig path load false config vs).1 records module i steady
        system → Authorized path load config p module i) := by
  constructor
  · intro h hdigest
    exact h ⟨_,hdigest.accepted⟩
  · rintro h ⟨signer,haccepted⟩
    exact (accepted_cases (sound_processConfig config vs) haccepted).elim id h

def digestCommand : Packet.Interest :=
  { name := [[1],[],[22,3,27,1,0],23 :: 32 :: replicate 32 0].map
      CommandPolicy.genericComponent }

def zeroVerifier : Verifier where
  sha := Packet.Interest.zeroSha256
  verify _ _ _ := false
  autoCheck := true
  generated := ⟨[0,0,0,0],rfl⟩

def facesForAny : ConfigSection := [("authorize",⟨some "any",some ["faces"]⟩)]

def facesAndRib : Validators := fun m => if m = "faces" ∨ m = "rib" then some none else none

private theorem ok_of_toOption {α : Type} {x : Except Refusal α} {a : α}
    (h : x.toOption = some a) : x = .ok a := by
  cases x with
  | error refusal => cases h
  | ok b => exact congrArg _ (some.inj h)

/-- A command for a module without privileges is accepted with nothing but its digest. -/
theorem digestCommand_accepted :
    authorization zeroVerifier (processConfig id (fun _ => none) false facesForAny facesAndRib).1
        ⟨[],nodup_nil⟩ "rib" digestCommand 0 0 = .ok (some digestSha256Identity) ∧
      ¬Authorized id (fun _ => none) facesForAny zeroVerifier "rib" digestCommand := by
  have hnone : ∀ signer, ¬Grants id (fun _ => none) facesForAny "rib" signer := by
    rintro signer ⟨auth,hauth,certfile,modules,-,-,hmodules,hmem⟩
    rw [mem_singleton.mp hauth] at hmodules
    rw [← some.inj hmodules] at hmem
    exact absurd hmem (by decide)
  refine ⟨ok_of_toOption (by decide +kernel),?_⟩
  rintro (h | ⟨cert,h,-⟩)
  · exact hnone _ h
  · exact hnone _ h

end CommandAuthenticator

end KiteNdn.Security
