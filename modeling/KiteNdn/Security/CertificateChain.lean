import Mathlib.Data.List.Perm.Subperm
import KiteNdn.Framework.Run
import KiteNdn.Security.CommandAuthenticator

/-!
# Chains of certificates

A validation collects certificates until one is signed by a trust anchor or by a certificate in the
cache of verified ones. The policy and the fetcher answer later, or repeatedly, by calling the
continuation that they were given.
-/

namespace KiteNdn.Security

open List Option Bool

structure SignedCertificate extends Certificate where
  notBefore : Int
  notAfter : Int
  octets : List UInt8
  deriving DecidableEq

/-- A certificate that was inside its validity period when it was processed. -/
structure Processed where
  cert : SignedCertificate
  now : Int
  valid : cert.notBefore ≤ now ∧ now ≤ cert.notAfter

structure Trust (π : Type) where
  anchors : List SignedCertificate
  maxDepth : Nat := 25
  verifyPacket : π → SignedCertificate → Bool
  verifyCert : SignedCertificate → SignedCertificate → Bool
  isDigest : π → Bool
  digestMatches : π → Bool

/-- What the policy (for the packet or a certificate) or the fetcher was given. -/
inductive Continuation where
  | original
  | fetched
  | checked (c : Processed)

inductive Reply where
  | request (name : Name)
  | bypass
  | certificate (c : SignedCertificate)
  | fail (code : ErrorCode)

inductive Callback where
  | bypassed
  | digest
  | verified (c : SignedCertificate)
  | failure (code : ErrorCode)
  deriving DecidableEq

/-- Continuations are never taken back. Those that were called are kept by their numbers. -/
structure ValidationState (π : Type) where
  packet : π
  certificateChain : List Processed := []
  seenCertificateNames : List Name := []
  issued : List Continuation := [.original]
  answered : List Nat := []
  callbacks : List Callback := []
  released : Bool := false

/-- The cache is in the order of names. What was ever put into it and what the policy has accepted is
kept for the proofs, the newest first. -/
structure Validator (π : Type) where
  verified : List (SignedCertificate × Int) := []
  cached : List SignedCertificate := []
  accepted : List Processed := []
  states : List (ValidationState π) := []

section Steps

variable {π : Type} (t : Trust π) (v : Validator π) (s : ValidationState π) (now : Int)

def ValidationState.call (callback : Callback) : ValidationState π :=
  { s with callbacks := s.callbacks ++ [callback] }

def ValidationState.issue (c : Continuation) : ValidationState π :=
  { s with issued := s.issued ++ [c] }

def verifyCertificateChain (trusted : SignedCertificate) : List Processed → List Processed × Bool
  | [] => ([],true)
  | c :: chain =>
    if t.verifyCert c.cert trusted then
      let rest := verifyCertificateChain c.cert chain
      (c :: rest.1,rest.2)
    else ([],false)

def chainEnd (root : SignedCertificate) (chain : List Processed) : SignedCertificate :=
  (chain.map Processed.cert).getLastD root

def findTrustedCert (name : Name) : Option SignedCertificate :=
  (t.anchors ++ (v.verified.filter fun e => now ≤ e.2).map Prod.fst).find? fun c =>
    name.isPrefixOf c.name

def refresh (name : Name) : List (SignedCertificate × Int) :=
  if t.anchors.any fun c => name.isPrefixOf c.name then v.verified
  else v.verified.filter fun e => now ≤ e.2

def cacheVerified (entries : List (SignedCertificate × Int)) (c : SignedCertificate) :
    List (SignedCertificate × Int) :=
  if c.notAfter < now ∨ entries.any (·.1.name = c.name) then entries
  else entries.takeWhile (·.1.name < c.name) ++ (c,min c.notAfter (now + 3600000000000)) ::
    entries.dropWhile (·.1.name < c.name)

abbrev Result (π : Type) :=
  ValidationState π × List (SignedCertificate × Int) × List SignedCertificate

def requestCertificate (name : Name) : Result π :=
  if t.maxDepth ≤ s.certificateChain.length then
    (s.call (.failure .exceededDepthLimit),v.verified,[])
  else if name = digestSha256Identity then
    (s.call (if t.isDigest s.packet && t.digestMatches s.packet then .digest
      else .failure .invalidSignature),v.verified,[])
  else if name ∈ s.seenCertificateNames then (s.call (.failure .loopDetected),v.verified,[])
  else
    let s := { s with seenCertificateNames := name :: s.seenCertificateNames }
    match findTrustedCert t v now name with
    | none => (s.issue .fetched,refresh t v now name,[])
    | some root =>
      let checked := verifyCertificateChain t root s.certificateChain
      let certs := checked.1.map Processed.cert
      let last := chainEnd root checked.1
      ({ s with certificateChain := checked.1 }.call
          (if checked.2 && t.verifyPacket s.packet last then .verified last
            else .failure .invalidSignature),
        certs.foldl (cacheVerified now) (refresh t v now name),certs)

section Offline

/-- The anchors of a module, for commands. There is never a chain. -/
def offlineTrust (p : Verifier) (anchors : List SignedCertificate) : Trust Packet.Interest where
  anchors := anchors
  verifyPacket i c := p.verifySignature i (some c.toCertificate)
  verifyCert _ _ := false
  isDigest i := (p.parse i).info.type = some digestSha256
  digestMatches i := !(p.parse i).bufs.isEmpty &&
    p.sha.digest (p.parse i).bufs.flatten = (p.parse i).sig

def Callback.outcome (klName : Name) : Callback → Except (Option ErrorCode) (Option Name)
  | .failure code => .error (some code)
  | .bypassed => .ok none
  | _ => .ok (some klName)

def Refusal.code? : Refusal → Option ErrorCode
  | .failed code _ => some code
  | .thrown _ => none

private theorem callbacks_requestCertificate (packet : π) (name : Name) (hpos : 0 < t.maxDepth) :
    (requestCertificate t v { packet := packet } now name).1.callbacks =
      if name = digestSha256Identity then [if t.isDigest packet && t.digestMatches packet then .digest
        else .failure .invalidSignature]
      else match findTrustedCert t v now name with
        | none => []
        | some root => [if t.verifyPacket packet root then .verified root
            else .failure .invalidSignature] := by
  unfold requestCertificate
  dsimp only [length_nil]
  rw [if_neg (not_le.mpr hpos)]
  by_cases hdigest : name = digestSha256Identity
  · rw [if_pos hdigest,if_pos hdigest]
    rfl
  · rw [if_neg hdigest,if_neg hdigest,if_neg not_mem_nil]
    cases findTrustedCert t v now name <;> rfl

/-- For the validator of a module, with a fetcher that has nothing to give. -/
theorem ModuleValidator.requestCertificate_eq (p : Verifier) (i : Packet.Interest) (klName : Name)
    (anchors : List SignedCertificate) (now : Int) :
    (ModuleValidator.requestCertificate p i klName
      { anchors := anchors.map SignedCertificate.toCertificate }).mapError Refusal.code? =
      Callback.outcome klName ((Security.requestCertificate (offlineTrust p anchors) {}
        { packet := i } now klName).1.callbacks.head?.getD (.failure .cannotRetrieveCert)) := by
  have hdigest : ((offlineTrust p anchors).isDigest i && (offlineTrust p anchors).digestMatches i) =
      p.verifySignature i none := (Bool.and_assoc _ _ _).symm
  have hfind : findTrustedCert (offlineTrust p anchors) {} now klName =
      anchors.find? fun c => klName.isPrefixOf c.name := by
    rw [findTrustedCert]
    exact congrArg (List.find? _) (append_nil anchors)
  have hmap : (anchors.map SignedCertificate.toCertificate).find? (fun c => klName.isPrefixOf c.name) =
      (anchors.find? fun c => klName.isPrefixOf c.name).map SignedCertificate.toCertificate :=
    find?_map
  rw [callbacks_requestCertificate _ _ _ _ _ (show 0 < 25 by decide),hdigest,hfind]
  unfold ModuleValidator.requestCertificate
  dsimp only
  rw [hmap]
  by_cases hname : klName = digestSha256Identity
  · rw [if_pos hname,if_pos hname]
    cases p.verifySignature i none <;> rfl
  · rw [if_neg hname,if_neg hname]
    cases anchors.find? fun c => klName.isPrefixOf c.name with
    | none => rfl
    | some root =>
      have hpacket : (offlineTrust p anchors).verifyPacket i root =
          p.verifySignature i (some root.toCertificate) := rfl
      dsimp only [map_some]
      rw [hpacket]
      cases p.verifySignature i (some root.toCertificate) <;> rfl

end Offline

def proceed : Continuation → Reply → Option (Result π)
  | _, .fail code => some (s.call (.failure code),v.verified,[])
  | .original, .request name => some (requestCertificate t v s now name)
  | .original, .bypass => some (s.call .bypassed,v.verified,[])
  | .fetched, .certificate c =>
    some (if h : c.notBefore ≤ now ∧ now ≤ c.notAfter then s.issue (.checked ⟨c,now,h⟩)
      else s.call (.failure .expiredCert),v.verified,[])
  | .checked c, .request name =>
    some (requestCertificate t v { s with certificateChain := c :: s.certificateChain } now name)
  | .checked _, .bypass => some (s.call (.failure .policyError),v.verified,[])
  | _, _ => none

/-- The policy accepts a certificate by a request for the next one. -/
def acceptedBy : Continuation → Reply → List Processed
  | .checked c, .request _ => [c]
  | _, _ => []

end Steps

namespace Validator

inductive Event (π : Type) where
  | validate (packet : π)
  | answer (state continuation : Nat) (reply : Reply) (now : Int)
  | release (state : Nat)

variable {π : Type} (t : Trust π) {e : SignedCertificate × Int} {root : SignedCertificate}

def step (v : Validator π) : Event π → Option (Validator π)
  | .validate packet => some { v with states := v.states ++ [{ packet := packet }] }
  | .answer k j reply now =>
    v.states[k]?.bind fun s => s.issued[j]?.bind fun c =>
      if s.released then none
      else (proceed t v { s with answered := s.answered ++ [j] } now c reply).map fun r =>
        { states := v.states.set k r.1
          verified := r.2.1
          cached := r.2.2.reverse ++ v.cached
          accepted := acceptedBy c reply ++ v.accepted }
  -- the destructor
  | .release k => v.states[k]?.map fun s =>
    { v with states := v.states.set k { s with
        released := true
        callbacks := if s.callbacks = [] then [.failure .implementationError]
          else s.callbacks } }

/-- Each certificate verifies under the one before it. -/
def Chained (root : SignedCertificate) : List Processed → Prop
  | [] => True
  | c :: chain => t.verifyCert c.cert root = true ∧ Chained c.cert chain

/-- A trust anchor, a certificate that is known, or the end of a chain of accepted certificates from
one of these. -/
def Linked (accepted : List Processed) (known : List SignedCertificate) (c : SignedCertificate) :
    Prop :=
  ∃ root chain, (root ∈ t.anchors ∨ root ∈ known) ∧ Chained t root chain ∧
    chain.length ≤ t.maxDepth ∧ (∀ p ∈ chain, p ∈ accepted) ∧ chainEnd root chain = c

/-- Each certificate in the cache was linked to one that was there before. -/
def Grounded (accepted : List Processed) : List SignedCertificate → Prop
  | [] => True
  | c :: older => Linked t accepted older c ∧ Grounded accepted older

/-- What a packet is accepted for, if the policy does not bypass. -/
def Proves (accepted : List Processed) (known : List SignedCertificate) (packet : π) :
    Callback → Prop
  | .bypassed => False
  | .digest => t.isDigest packet = true
  | .verified c => Linked t accepted known c ∧ t.verifyPacket packet c = true
  | .failure _ => True

/-- Each call of a continuation gives out another one or calls back. Without either, the destructor
calls back. -/
structure Counted (s : ValidationState π) : Prop where
  answered : ∀ j ∈ s.answered, j < s.issued.length
  balanced : s.callbacks.length + s.issued.length = s.answered.length + 1 ∨
    s.released = true ∧ s.callbacks.length = 1
  released : s.released = true → s.callbacks ≠ []

structure Sound (v : Validator π) : Prop where
  verified : ∀ e ∈ v.verified, e.1 ∈ v.cached
  grounded : Grounded t v.accepted v.cached
  chains : ∀ s ∈ v.states, ∀ p ∈ s.certificateChain, p ∈ v.accepted
  proved : ∀ s ∈ v.states, ∀ callback ∈ s.callbacks, Proves t v.accepted v.cached s.packet callback
  counted : ∀ s ∈ v.states, Counted s

variable {t}

theorem Chained.of_append {chain rest : List Processed} (h : Chained t root (chain ++ rest)) :
    Chained t root chain := by
  induction chain generalizing root with
  | nil => trivial
  | cons c chain ih => exact ⟨h.1,ih h.2⟩

theorem chained_verify (root : SignedCertificate) (chain : List Processed) :
    Chained t root (verifyCertificateChain t root chain).1 ∧
      (verifyCertificateChain t root chain).1 <+: chain := by
  induction chain generalizing root with
  | nil => exact ⟨trivial,prefix_rfl⟩
  | cons c chain ih =>
    rw [verifyCertificateChain]
    split_ifs with h
    · exact ⟨⟨h,(ih c.cert).1⟩,cons_prefix_cons.mpr ⟨rfl,(ih c.cert).2⟩⟩
    · exact ⟨trivial,List.nil_prefix⟩

variable {accepted accepted' : List Processed} {known known' : List SignedCertificate}

theorem Linked.mono {c : SignedCertificate} (h : Linked t accepted known c)
    (ha : accepted ⊆ accepted') (hk : known ⊆ known') : Linked t accepted' known' c := by
  obtain ⟨root,chain,hroot,hchain,hlen,hall,hend⟩ := h
  exact ⟨root,chain,hroot.imp_right fun h => hk h,hchain,hlen,fun p hp => ha (hall p hp),hend⟩

theorem Grounded.mono (h : Grounded t accepted known) (ha : accepted ⊆ accepted') :
    Grounded t accepted' known := by
  induction known with
  | nil => trivial
  | cons c older ih => exact ⟨h.1.mono ha fun _ hx => hx,ih h.2⟩

variable {callback : Callback}

theorem Proves.mono {packet : π} (h : Proves t accepted known packet callback)
    (ha : accepted ⊆ accepted') (hk : known ⊆ known') :
    Proves t accepted' known' packet callback := by
  cases callback with
  | verified c => exact ⟨h.1.mono ha hk,h.2⟩
  | _ => exact h

theorem grounded_chain (h : Grounded t accepted known) (hroot : root ∈ t.anchors ∨ root ∈ known)
    {chain : List Processed} (hchain : Chained t root chain) (hlen : chain.length ≤ t.maxDepth)
    (hall : ∀ p ∈ chain, p ∈ accepted) :
    Grounded t accepted ((chain.map Processed.cert).reverse ++ known) := by
  induction chain using reverseRecOn with
  | nil => exact h
  | append_singleton chain c ih =>
    have hshort : chain.length ≤ t.maxDepth :=
      (by simp : chain.length ≤ (chain ++ [c]).length).trans hlen
    rw [map_append,reverse_append]
    exact ⟨⟨root,chain ++ [c],hroot.imp_right (mem_append_right _),hchain,hlen,hall,
      by simp [chainEnd]⟩,ih hchain.of_append hshort fun p hp => hall p (mem_append_left _ hp)⟩

structure Proceeds (t : Trust π) (accepted : List Processed) (v : Validator π)
    (s : ValidationState π) (r : Result π) : Prop where
  packet : r.1.packet = s.packet
  answered : r.1.answered = s.answered
  released : r.1.released = s.released
  moved : (∃ c, r.1.issued = s.issued ++ [c] ∧ r.1.callbacks = s.callbacks) ∨
    r.1.issued = s.issued ∧ ∃ callback, r.1.callbacks = s.callbacks ++ [callback] ∧
        Proves t accepted v.cached s.packet callback
  chain : ∀ p ∈ r.1.certificateChain, p ∈ accepted
  verified : ∀ e ∈ r.2.1, e.1 ∈ r.2.2 ∨ e ∈ v.verified
  grounded : Grounded t accepted v.cached → Grounded t accepted (r.2.2.reverse ++ v.cached)

variable {v : Validator π} {s : ValidationState π} {now : Int}

theorem proceeds_call (hs : ∀ p ∈ s.certificateChain, p ∈ accepted)
    (h : Proves t accepted v.cached s.packet callback) :
    Proceeds t accepted v s (s.call callback,v.verified,[]) :=
  ⟨rfl,rfl,rfl,Or.inr ⟨rfl,callback,rfl,h⟩,hs,fun _ he => Or.inr he,id⟩

theorem mem_refresh {name : Name} (h : e ∈ refresh t v now name) : e ∈ v.verified := by
  rw [refresh] at h
  split_ifs at h
  · exact h
  · exact (mem_filter.mp h).1

theorem mem_cacheVerified {certs : List SignedCertificate}
    {entries : List (SignedCertificate × Int)} (h : e ∈ certs.foldl (cacheVerified now) entries) :
    e.1 ∈ certs ∨ e ∈ entries := by
  induction certs generalizing entries with
  | nil => exact Or.inr h
  | cons c certs ih =>
    rcases ih h with h | h
    · exact Or.inl (mem_cons_of_mem c h)
    · rw [cacheVerified] at h
      split_ifs at h
      · exact Or.inr h
      · rcases mem_append.mp h with h | h
        · exact Or.inr (takeWhile_subset _ h)
        · rcases mem_cons.mp h with rfl | h
          · exact Or.inl mem_cons_self
          · exact Or.inr (dropWhile_subset _ h)

theorem proceeds_requestCertificate (hv : ∀ e ∈ v.verified, e.1 ∈ v.cached)
    (hs : ∀ p ∈ s.certificateChain, p ∈ accepted) (name : Name) :
    Proceeds t accepted v s (requestCertificate t v s now name) := by
  rw [requestCertificate]
  split_ifs with hdepth hdigest hverifies hseen
  · exact proceeds_call hs trivial
  · exact proceeds_call hs (and_eq_true_iff.mp hverifies).1
  · exact proceeds_call hs trivial
  · exact proceeds_call hs trivial
  · dsimp only
    cases hfind : findTrustedCert t v now name with
    | none =>
      exact ⟨rfl,rfl,rfl,Or.inl ⟨_,rfl,rfl⟩,hs,fun _ he => Or.inr (mem_refresh he),id⟩
    | some root =>
      have hroot : root ∈ t.anchors ∨ root ∈ v.cached := by
        refine (mem_append.mp (mem_of_find?_eq_some hfind)).imp_right fun h => ?_
        obtain ⟨e,he,rfl⟩ := mem_map.mp h
        exact hv e (mem_filter.mp he).1
      obtain ⟨hchain,hkept⟩ := chained_verify (t := t) root s.certificateChain
      have hshort := hkept.length_le.trans (not_le.mp hdepth).le
      have hall := fun p hp => hs p (hkept.subset hp)
      refine ⟨rfl,rfl,rfl,Or.inr ⟨rfl,_,rfl,?_⟩,hall,fun _ he => ?_,
        fun h => grounded_chain h hroot hchain hshort hall⟩
      · split_ifs with hverified
        · exact ⟨⟨root,_,hroot,hchain,hshort,hall,rfl⟩,(and_eq_true_iff.mp hverified).2⟩
        · trivial
      · exact (mem_cacheVerified he).imp_right mem_refresh

theorem proceeds_proceed (hv : ∀ e ∈ v.verified, e.1 ∈ v.cached) {c : Continuation} {reply : Reply}
    {r : Result π} (hreply : reply ≠ .bypass) (h : proceed t v s now c reply = some r)
    (hs : ∀ p ∈ s.certificateChain, p ∈ accepted) :
    Proceeds t (acceptedBy c reply ++ accepted) v s r := by
  cases reply with
  | bypass => exact absurd rfl hreply
  | fail code => cases c <;> exact some.inj h ▸ proceeds_call hs trivial
  | certificate cert =>
    cases c with
    | original => cases h
    | checked c => cases h
    | fetched =>
      cases h
      split_ifs
      · exact ⟨rfl,rfl,rfl,Or.inl ⟨_,rfl,rfl⟩,hs,fun _ he => Or.inr he,id⟩
      · exact proceeds_call hs trivial
  | request name =>
    cases c with
    | fetched => cases h
    | original => exact some.inj h ▸ proceeds_requestCertificate hv hs name
    | checked c =>
      cases h
      let s' := { s with certificateChain := c :: s.certificateChain }
      have hs' : ∀ p ∈ s'.certificateChain, p ∈ c :: accepted := by
        intro p hp
        rcases mem_cons.mp hp with rfl | hp
        · exact mem_cons_self
        · exact mem_cons_of_mem c (hs p hp)
      have hr : Proceeds t (c :: accepted) v s' (requestCertificate t v s' now name) :=
        proceeds_requestCertificate hv hs' name
      exact ⟨hr.1,hr.2,hr.3,hr.4,hr.5,hr.6,hr.7⟩

theorem Counted.proceed (h : Counted s) (hopen : s.released = false) {j : Nat}
    (hj : j < s.issued.length) {r : Result π}
    (hr : Proceeds t accepted v { s with answered := s.answered ++ [j] } r) : Counted r.1 := by
  have hlen : s.issued.length ≤ r.1.issued.length := by
    rcases hr.moved with ⟨c,hissued,-⟩ | ⟨hissued,-⟩ <;> simp [hissued]
  have hbalanced := h.balanced.resolve_right fun hclosed => by simp [hopen] at hclosed
  refine ⟨?_,Or.inl ?_,fun hclosed => by simp [hr.released,hopen] at hclosed⟩
  · intro i hi
    rw [hr.answered] at hi
    rcases mem_append.mp hi with hi | hi
    · exact (h.answered i hi).trans_le hlen
    · exact (mem_singleton.mp hi ▸ hj).trans_le hlen
  · rw [hr.answered,length_append,length_singleton]
    rcases hr.moved with ⟨c,hissued,hcallbacks⟩ | ⟨hissued,callback,hcallbacks,-⟩ <;>
      rw [hissued,hcallbacks,length_append,length_singleton] <;> dsimp only <;> omega

theorem Sound.answer (h : Sound t v) {k j : Nat} {reply : Reply} (hreply : reply ≠ .bypass)
    {v' : Validator π} (hstep : v.step t (.answer k j reply now) = some v') : Sound t v' := by
  obtain ⟨s,hs,hstep⟩ := bind_eq_some_iff.mp hstep
  obtain ⟨c,hc,hstep⟩ := bind_eq_some_iff.mp hstep
  split_ifs at hstep with hreleased
  obtain ⟨r,hr,rfl⟩ := map_eq_some_iff.mp hstep
  have hmem := mem_of_getElem? hs
  have hproceeds := proceeds_proceed h.verified hreply hr (h.chains s hmem)
  have hknown := subset_append_right r.2.2.reverse v.cached
  have haccepted := subset_append_right (acceptedBy c reply) v.accepted
  refine ⟨fun e he => ?_,hproceeds.grounded (h.grounded.mono haccepted),fun s' hs' p hp => ?_,
    fun s' hs' callback hcallback => ?_,fun s' hs' => ?_⟩
  · rcases hproceeds.verified e he with hnew | hold
    · exact mem_append_left _ (mem_reverse.mpr hnew)
    · exact hknown (h.verified e hold)
  · rcases mem_or_eq_of_mem_set hs' with hs' | rfl
    · exact haccepted (h.chains s' hs' p hp)
    · exact hproceeds.chain p hp
  · rcases mem_or_eq_of_mem_set hs' with hs' | rfl
    · exact (h.proved s' hs' callback hcallback).mono haccepted hknown
    · rw [hproceeds.packet]
      rcases hproceeds.moved with ⟨_,-,hsame⟩ | ⟨-,new,hnew,hproves⟩
      · rw [hsame] at hcallback
        exact (h.proved s hmem callback hcallback).mono haccepted hknown
      · rw [hnew] at hcallback
        rcases mem_append.mp hcallback with hcallback | hcallback
        · exact (h.proved s hmem callback hcallback).mono haccepted hknown
        · exact mem_singleton.mp hcallback ▸ hproves.mono (List.Subset.refl _) hknown
  · rcases mem_or_eq_of_mem_set hs' with hs' | rfl
    · exact h.counted s' hs'
    · exact (h.counted s hmem).proceed (by simpa using hreleased)
        (List.getElem?_eq_some_iff.mp hc).1 hproceeds

theorem Sound.step (h : Sound t v) {e : Event π} (hbypass : ∀ k j now, e ≠ .answer k j .bypass now)
    {v' : Validator π} (hstep : v.step t e = some v') : Sound t v' := by
  cases e with
  | answer k j reply now =>
    exact h.answer (fun hreply => hbypass k j now (by rw [hreply])) hstep
  | validate packet =>
    cases hstep
    refine ⟨h.verified,h.grounded,fun s hs => ?_,fun s hs => ?_,fun s hs => ?_⟩
    · rcases mem_append.mp hs with hs | hs
      · exact h.chains s hs
      · obtain rfl := mem_singleton.mp hs
        exact fun _ hp => absurd hp not_mem_nil
    · rcases mem_append.mp hs with hs | hs
      · exact h.proved s hs
      · obtain rfl := mem_singleton.mp hs
        exact fun _ hc => absurd hc not_mem_nil
    · rcases mem_append.mp hs with hs | hs
      · exact h.counted s hs
      · exact mem_singleton.mp hs ▸ ⟨fun _ hj => absurd hj not_mem_nil,Or.inl rfl,
          fun hr => absurd hr false_ne_true⟩
  | release k =>
    obtain ⟨s,hs,rfl⟩ := map_eq_some_iff.mp hstep
    have hmem := mem_of_getElem? hs
    have hcounted := h.counted s hmem
    refine ⟨h.verified,h.grounded,fun s' hs' => ?_,fun s' hs' callback hcallback => ?_,
      fun s' hs' => ?_⟩
    · rcases mem_or_eq_of_mem_set hs' with hs' | rfl
      · exact h.chains s' hs'
      · exact h.chains s hmem
    · rcases mem_or_eq_of_mem_set hs' with hs' | rfl
      · exact h.proved s' hs' callback hcallback
      · dsimp only at hcallback
        split_ifs at hcallback
        · rw [mem_singleton.mp hcallback]
          trivial
        · exact h.proved s hmem callback hcallback
    · rcases mem_or_eq_of_mem_set hs' with hs' | rfl
      · exact h.counted s' hs'
      · by_cases hnil : s.callbacks = []
        · exact ⟨hcounted.answered,Or.inr ⟨rfl,by simp [hnil]⟩,fun _ => by simp [hnil]⟩
        · refine ⟨hcounted.answered,?_,fun _ => by simp [hnil]⟩
          rw [if_neg hnil]
          exact hcounted.balanced.imp_right fun hb => ⟨rfl,hb.2⟩

/-- If the policy does not bypass, a packet without a digest for its signature is accepted only with
a certificate that is linked to a trust anchor or to one in the cache, and so is each certificate in
the cache. If each continuation is called at most once, there is one callback at most, and exactly
one when the state is released. -/
theorem run_sound (t : Trust π) (events : List (Event π)) (v : Validator π)
    (hrun : events.foldlM (step t) {} = some v)
    (hbypass : ∀ k j now, Event.answer k j .bypass now ∉ events) :
    Grounded t v.accepted v.cached ∧ ∀ s ∈ v.states,
      (∀ callback ∈ s.callbacks, Proves t v.accepted v.cached s.packet callback) ∧
      (s.answered.Nodup → s.callbacks.length ≤ 1 ∧
        (s.released = true → s.callbacks.length = 1)) := by
  have hstart : Sound t ({} : Validator π) :=
    ⟨fun _ h => absurd h not_mem_nil,trivial,fun _ h => absurd h not_mem_nil,
      fun _ h => absurd h not_mem_nil,fun _ h => absurd h not_mem_nil⟩
  have h := Framework.foldlM_invariant_of_some (step t) (Sound t)
    (fun _ e => ∀ k j now, e ≠ .answer k j .bypass now)
    (fun _ _ _ h hbypass hstep => h.step hbypass hstep) {} hstart events
    (fun past e future _ hevents _ k j now he => hbypass k j now (by simp [hevents,he])) hrun
  refine ⟨h.grounded,fun s hs => ⟨h.proved s hs,fun hnodup => ?_⟩⟩
  have hcounted := h.counted s hs
  have hle : s.answered.length ≤ s.issued.length := by
    have hsub : s.answered ⊆ List.range s.issued.length := fun j hj =>
      mem_range.mpr (hcounted.answered j hj)
    simpa using (subperm_of_subset hnodup hsub).length_le
  have hpos : s.released = true → 0 < s.callbacks.length := fun hr =>
    length_pos_iff.mpr (hcounted.released hr)
  rcases hcounted.balanced with hbalanced | ⟨-,hone⟩
  · exact ⟨by omega,fun hr => by have := hpos hr; omega⟩
  · exact ⟨hone.le,fun _ => hone⟩

def sampleCertificate (c : UInt8) : SignedCertificate := ⟨⟨[.generic [c]],[c]⟩,0,9,[c]⟩

def sampleTrust : Trust Unit where
  anchors := [sampleCertificate 114]
  verifyPacket _ _ := true
  verifyCert _ _ := true
  isDigest _ := false
  digestMatches _ := false

def sampleEvents : List (Event Unit) :=
  [.validate (),.answer 0 0 (.request [.generic [107]]) 1,
    .answer 0 1 (.certificate (sampleCertificate 107)) 1,.answer 0 2 (.request [.generic [114]]) 1]

theorem run_sound_sample : ∃ v, sampleEvents.foldlM (step sampleTrust) {} = some v ∧
    v.cached = [sampleCertificate 107] ∧ Grounded sampleTrust v.accepted v.cached :=
  ⟨_,rfl,rfl,(run_sound sampleTrust sampleEvents _ rfl (by simp [sampleEvents])).1⟩

/-- The fetcher answers again after the packet was accepted: a failure is reported as well. -/
theorem repeated_answer_fails : ∃ v s, (sampleEvents ++
      [Event.answer 0 1 (.certificate (sampleCertificate 107)) 1,
        .answer 0 3 (.request [.generic [114]]) 1]).foldlM (step sampleTrust) {} = some v ∧
    v.states = [s] ∧ s.callbacks = [.verified (sampleCertificate 107),.failure .loopDetected] :=
  ⟨_,_,rfl,rfl,rfl⟩

end Validator

end KiteNdn.Security
