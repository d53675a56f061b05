import KiteNdn.Kite.RequestDecoding
import KiteNdn.Security.CommandInterest

/-!
# Signed Interests and their single outcome

The policy reads the name of the key, checks the timestamp, the sequence number and the nonce
against the record of the key, and leaves the rest to an inner policy. Where the name cannot be
read, a failure is reported and the checks go on with an empty name.
-/

namespace KiteNdn

open Tlv

namespace Packet.SignatureInfo

def getSeqNum (info : SignatureInfo) : Except String (Option Nat) :=
  match info.findOtherTlv TlvType.signatureSeqNum with
  | none => .ok none
  | some e => (readNonNegativeInteger e.value).map some

end Packet.SignatureInfo

namespace Security.SignedInterest

open Packet

section State

inductive Callback where
  | success
  | failure (code : ErrorCode) (info : String)
  deriving DecidableEq, Repr

/-- `InterestValidationState`: the outcome, and the callbacks that were invoked. The assertions that
the outcome is not known yet stand behind the callbacks, and without them the validation goes on. -/
structure State where
  outcome : Option Bool := none
  callbacks : List Callback := []
  deriving DecidableEq, Repr

def State.fail (code : ErrorCode) (info : String) (s : State) : State :=
  ⟨some false,s.callbacks ++ [.failure code info]⟩

def State.succeed (s : State) : State := ⟨some true,s.callbacks ++ [.success]⟩

def State.destroy (s : State) : State :=
  if s.outcome = none then
    s.fail .implementationError "Validator/policy did not invoke success or failure callback"
  else s

/-- An empty name comes with a failure. -/
def getKeyLocatorName (si : SignatureInfo) (s : State) : Name × State :=
  match keyLocatorName si with
  | .ok keyName => (keyName,s)
  | .error (.failed code info) => ([],s.fail code info)
  | .error (.thrown _) => ([],s)

end State

section Records

/-- Times are in nanoseconds. -/
structure Options where
  shouldValidateTimestamps : Bool := true
  timestampGracePeriod : Int := 120000000000
  shouldValidateSeqNums : Bool := false
  shouldValidateNonces : Bool := true
  maxNonceRecordCount : Int := 1000
  maxRecordCount : Int := 1000

structure Fields where
  timestamp : Option Time
  seqNum : Option Nat
  nonce : Option (List UInt8)

structure LastInterestRecord where
  keyName : Name
  timestamp : Option Time
  seqNum : Option Nat
  observedNonces : List (List UInt8) := []
  lastRefreshed : Int
  deriving DecidableEq

def addNonce (o : Options) (f : Fields) (r : LastInterestRecord) : LastInterestRecord :=
  match f.nonce with
  | none => r
  | some nonce =>
    if o.shouldValidateNonces ∧ o.maxNonceRecordCount ≠ 0 then
      let nonces := if nonce ∈ r.observedNonces then r.observedNonces
        else r.observedNonces ++ [nonce]
      { r with observedNonces :=
          if 0 ≤ o.maxNonceRecordCount ∧ o.maxNonceRecordCount < nonces.length then nonces.tail
          else nonces }
    else r

def insertRecord (o : Options) (keyName : Name) (f : Fields) (steady : Int)
    (records : List LastInterestRecord) : List LastInterestRecord :=
  let refreshed := match records.find? (·.keyName = keyName) with
    | none => { keyName, timestamp := f.timestamp, seqNum := f.seqNum, lastRefreshed := steady }
    | some r => { r with
        timestamp := f.timestamp.or r.timestamp
        seqNum := f.seqNum.or r.seqNum
        lastRefreshed := steady }
  let records := records.filter (·.keyName ≠ keyName) ++ [addNonce o f refreshed]
  if 0 ≤ o.maxRecordCount ∧ o.maxRecordCount < records.length then records.tail else records

end Records

section Checks

def readFields (si : SignatureInfo) : Except String Fields := do
  let timestamp ← si.getTime
  let seqNum ← si.getSeqNum
  return ⟨timestamp,seqNum,si.getNonce⟩

variable (o : Options) (record : Option LastInterestRecord) (keyName : Name) (f : Fields)

def checkTimestamp (system : Int) : Option String :=
  if o.shouldValidateTimestamps then
    match f.timestamp with
    | none => some "Timestamp is required by policy but is not present"
    | some timestamp =>
      if |system - timestamp| > max o.timestampGracePeriod 0 then
        some ("Timestamp is outside the grace period for key " ++ uriText keyName)
      else if record.any fun r => r.timestamp.any (timestamp ≤ ·) then
        some ("Timestamp is reordered for key " ++ uriText keyName)
      else none
  else none

def checkSeqNum : Option String :=
  if o.shouldValidateSeqNums then
    match f.seqNum with
    | none => some "Sequence number is required by policy but is not present"
    | some seqNum =>
      if record.any fun r => r.seqNum.any (seqNum ≤ ·) then
        some ("Sequence number is reordered for key " ++ uriText keyName)
      else none
  else none

def checkNonce : Option String :=
  if o.shouldValidateNonces then
    match f.nonce with
    | none => some "Nonce is required by policy but is not present"
    | some nonce =>
      if record.any fun r => nonce ∈ r.observedNonces then
        some ("Nonce matches previously-seen nonce for key " ++ uriText keyName)
      else none
  else none

def checkFields (system : Int) : Option String :=
  (checkTimestamp o record keyName f system).or
    ((checkSeqNum o record keyName f).or (checkNonce o record keyName f))

end Checks

section Policy

inductive Verdict where
  | success
  | failure (code : ErrorCode) (info : String)
  | silent
  deriving DecidableEq, Repr

structure Policy where
  options : Options := {}
  records : List LastInterestRecord := []

/-- The record is made by the signal that also invokes the callback of the caller. -/
def Verdict.report (insert : Policy → Policy) (p : Policy) (s : State) : Verdict → Policy × State
  | .success => (insert p,s.succeed)
  | .failure code info => (p,s.fail code info)
  | .silent => (p,s)

/-- Every check of an Interest in the format v0.3. The inner policy may look at the outcome that it
finds. An exception leaves the validator, which gives the state up. -/
def checkSigned (inner : Option Bool → Verdict) (si : SignatureInfo) (system steady : Int)
    (p : Policy) (s : State) : Policy × State :=
  let (keyName,s) := getKeyLocatorName si s
  match readFields si with
  | .error _ => (p,s)
  | .ok f =>
    match checkFields p.options (p.records.find? (·.keyName = keyName)) keyName f system with
    | some info => (p,s.fail .policyError info)
    | none =>
      let insert (p : Policy) : Policy :=
        if p.options.maxRecordCount = 0 then p
        else { p with records := insertRecord p.options keyName f steady p.records }
      (inner s.outcome).report insert p s

def checkPolicy (inner : Option Bool → Verdict) (i : Packet.Interest) (system steady : Int)
    (p : Policy) (s : State) : Policy × State :=
  if s.outcome = some false then (p,s)
  else
    match i.getSignatureInfo with
    | .error _ => (p,s)
    | .ok none => (inner s.outcome).report id p s
    | .ok (some si) => checkSigned inner si system steady p s

def validate (inner : Option Bool → Verdict) (i : Packet.Interest) (system steady : Int)
    (p : Policy) : Policy × State :=
  let (p,s) := checkPolicy inner i system steady p {}
  (p,s.destroy)

end Policy

section Outcome

variable {inner : Option Bool → Verdict} {i : Packet.Interest} {si : SignatureInfo}
  {system steady : Int} {p : Policy}

/-- One callback is invoked, and a failure leaves the records as they were. -/
structure IsSingle (p : Policy) (result : Policy × State) : Prop where
  once : result.2.callbacks.length = 1
  unrecorded : ∀ code info, .failure code info ∈ result.2.callbacks → result.1.records = p.records

/-- Nothing is reported after a failure: a field cannot be read, or all checks pass with the empty
name and the inner policy does not go on if the outcome is known. -/
def IsQuiet (inner : Option Bool → Verdict) (si : SignatureInfo) (system : Int) (p : Policy) : Prop :=
  match readFields si with
  | .error _ => True
  | .ok f => checkFields p.options (p.records.find? (·.keyName = [])) [] f system = none ∧
      inner (some false) = .silent

private theorem keyLocatorName_error {refusal : Refusal} (h : keyLocatorName si = .error refusal) :
    ∃ code info, refusal = .failed code info := by
  unfold keyLocatorName at h
  split_ifs at h
  split at h
  · exact ⟨_,_,(Except.error.inj h).symm⟩
  · cases h
  · exact ⟨_,_,(Except.error.inj h).symm⟩

private theorem validate_signed (h : i.getSignatureInfo = .ok (some si)) :
    validate inner i system steady p = ((checkSigned inner si system steady p {}).1,
        (checkSigned inner si system steady p {}).2.destroy) := by
  simp [validate,checkPolicy,h]

theorem isSingle_report (insert : Policy → Policy) (p : Policy) (v : Verdict) :
    IsSingle p ((v.report insert p {}).1,(v.report insert p {}).2.destroy) := by
  cases v with
  | success => exact ⟨rfl,fun code info h => absurd h (by simp [Verdict.report,State.succeed,
      State.destroy])⟩
  | _ => exact ⟨rfl,fun _ _ _ => rfl⟩

theorem isSingle_of_keyName {keyName : Name} (h : keyLocatorName si = .ok keyName) :
    IsSingle p ((checkSigned inner si system steady p {}).1,
      (checkSigned inner si system steady p {}).2.destroy) := by
  simp only [checkSigned,getKeyLocatorName,h]
  cases readFields si with
  | error message => exact isSingle_report id p .silent
  | ok f =>
    dsimp only
    cases checkFields p.options (p.records.find? (·.keyName = keyName)) keyName f system with
    | some info => exact isSingle_report id p (.failure .policyError info)
    | none => exact isSingle_report _ p _

theorem isSingle_failed_iff {code : ErrorCode} {info : String}
    (h : keyLocatorName si = .error (.failed code info)) :
    IsSingle p ((checkSigned inner si system steady p {}).1,
      (checkSigned inner si system steady p {}).2.destroy) ↔ IsQuiet inner si system p := by
  have hquiet : IsSingle p (p,(({} : State).fail code info).destroy) := ⟨rfl,fun _ _ _ => rfl⟩
  simp only [checkSigned,getKeyLocatorName,h,IsQuiet]
  cases readFields si with
  | error message => exact iff_of_true hquiet trivial
  | ok f =>
    dsimp only
    cases checkFields p.options (p.records.find? (·.keyName = [])) [] f system with
    | some text =>
      exact iff_of_false (fun hs => absurd (IsSingle.once hs) (by simp [State.fail,State.destroy]))
        (by simp)
    | none =>
      rw [show (State.fail code info {}).outcome = some false from rfl]
      cases inner (some false) with
      | silent => exact iff_of_true hquiet ⟨rfl,rfl⟩
      | success =>
        exact iff_of_false (fun hs => absurd (IsSingle.once hs) (by
          simp [Verdict.report,State.fail,State.succeed,State.destroy])) (by simp)
      | failure c t =>
        exact iff_of_false (fun hs => absurd (IsSingle.once hs) (by
          simp [Verdict.report,State.fail,State.destroy])) (by simp)

/-- The validation of a signed Interest has one outcome exactly if the name of the key can be read,
or nothing more is reported after the failure to read it. -/
theorem validate_single_iff (inner : Option Bool → Verdict) (i : Packet.Interest)
    (si : SignatureInfo) (system steady : Int) (p : Policy)
    (h : i.getSignatureInfo = .ok (some si)) :
    IsSingle p (validate inner i system steady p) ↔
      (∃ keyName, keyLocatorName si = .ok keyName) ∨ IsQuiet inner si system p := by
  rw [validate_signed h]
  cases hkey : keyLocatorName si with
  | ok keyName => exact iff_of_true (isSingle_of_keyName hkey) (Or.inl ⟨keyName,rfl⟩)
  | error refusal =>
    obtain ⟨code,info,rfl⟩ := keyLocatorName_error hkey
    rw [isSingle_failed_iff hkey]
    simp

def signedInterest (info : List UInt8) : Packet.Interest :=
  { parameters := [{ toElement := .ofValue TlvType.interestSignatureInfo info }] }

theorem validate_single_iff_digest :
    IsSingle {} (validate (fun _ => .success) (signedInterest [27,1,0,38,1,7,40,1,0]) 0 0 {}) := by
  apply (validate_single_iff _ _ _ 0 0 {} rfl).mpr
  exact Or.inl ⟨digestSha256Identity,rfl⟩

/-- Without a key locator the failure is reported, and then the nonce is found missing, the inner
policy finds the key locator missing again, or the Interest is accepted and recorded. -/
theorem reported_twice :
    let inner (_ : Option Bool) := Verdict.failure .invalidKeyLocator "KeyLocator is missing"
    let accepted := validate (fun _ => .success) (signedInterest [27,1,1,38,1,7,40,1,0]) 0 0 {}
    (validate inner (signedInterest [27,1,1,40,1,0]) 0 0 {}).2.callbacks =
        [.failure .invalidKeyLocator "KeyLocator is missing",
          .failure .policyError "Nonce is required by policy but is not present"] ∧
      (validate inner (signedInterest [27,1,1,38,1,7,40,1,0]) 0 0 {}).2.callbacks =
        [.failure .invalidKeyLocator "KeyLocator is missing",
          .failure .invalidKeyLocator "KeyLocator is missing"] ∧
      accepted.2.callbacks = [.failure .invalidKeyLocator "KeyLocator is missing",.success] ∧
      accepted.1.records.map LastInterestRecord.keyName = [[]] := by
  decide +kernel

end Outcome

end Security.SignedInterest

end KiteNdn
