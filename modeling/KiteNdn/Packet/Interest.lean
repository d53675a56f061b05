import KiteNdn.Packet.SignatureInfo

/-!
# Interests

An Interest keeps the block it was decoded from or encoded to until a field changes. Encoding
decodes its own output. The hash function and random numbers are parameters.

The signed ranges are the name up to its last component and the octets from the application
parameters to the element before the first signature value. The decoder accepts the elements of the
signature in any order, so information that follows the value is returned, but it is not signed.
-/

namespace KiteNdn.Packet

open Tlv Encoding List Except
open PrefixAnnouncement (isCriticalType)
open Kite (findParametersDigestComponent)

structure Sha256 where
  digest : List UInt8 → List UInt8
  length_digest : ∀ octets, (digest octets).length = 32

structure Nonce where
  octets : List UInt8
  length_octets : octets.length = 4
  deriving DecidableEq

/-- An element from the application parameters on, and where it begins in the block that it was
decoded from. -/
structure Parameter extends Element where
  offset : Nat := 0
  deriving DecidableEq

structure Interest where
  name : EncodedName := []
  canBePrefix : Bool := false
  mustBeFresh : Bool := false
  forwardingHint : List EncodedName := []
  nonce : Option Nonce := none
  interestLifetime : Int64 := 4000
  hopLimit : Option UInt8 := none
  parameters : List Parameter := []
  wire : Option Element := none
  deriving DecidableEq

/-- An exception, or behaviour that the language leaves undefined. Failed assertions are of the
second kind. -/
inductive Failure where
  | thrown (message : String) (left : Interest)
  | undefined
  deriving DecidableEq

namespace Interest

def defaultLifetime : Int64 := 4000

def fail {α : Type} (message : String) (left : Interest) : Except Failure α :=
  .error (.thrown message left)

section Parameters

variable (sha : Sha256)

def parameterElements (i : Interest) : List Element := i.parameters.map Parameter.toElement

def findFirstParameter (type : Nat) (i : Interest) : Option Parameter :=
  i.parameters.find? fun p => p.type = type

def computeParametersDigest (i : Interest) : Except Failure (List UInt8) :=
  if i.parameters.all fun p => p.hasWire then
    .ok (sha.digest (Element.allOctets i.parameterElements))
  else fail "Underlying wire buffer is empty" i

def isParametersDigestValid (i : Interest) : Except Failure Bool :=
  let digestIndex := findParametersDigestComponent i.name.toName
  if digestIndex = -1 then .ok i.parameters.isEmpty
  else if digestIndex = -2 then .error .undefined
  else if i.parameters.isEmpty then .ok false
  else (i.computeParametersDigest sha).map fun digest =>
    i.name[digestIndex.toNat]?.map (fun c => c.value) = some digest

end Parameters

section Decoding

/-- One element of the forwarding hint, a name or a delegation of the previous format. -/
def decodeDelegation (i : Interest) (del : Element) : Except Failure Interest :=
  if del.type = TlvType.name then
    match EncodedName.ofElement del with
    | .error _ => fail "Invalid Name in ForwardingHint" i
    | .ok n => .ok { i with forwardingHint := i.forwardingHint ++ [n] }
  else if del.type = TlvType.linkDelegation then
    let first := (Element.parse del.value).toOption.bind fun elements =>
      elements.find? fun e => e.type = TlvType.name
    match first.bind fun e => (EncodedName.ofElement e).toOption with
    | none => fail "Invalid Name in ForwardingHint.Delegation" i
    | some n => .ok { i with forwardingHint := i.forwardingHint ++ [n] }
  else if isCriticalType del.type then
    fail s!"Unexpected TLV-TYPE {del.type} while decoding ForwardingHint" i
  else .ok i

/-- One element after the name. `lastElement` is the index of the last recognized element, in the
order of the format. -/
def decodeElement (s : Interest × Nat) (element : Parameter) : Except Failure (Interest × Nat) :=
  let (i,lastElement) := s
  if element.type = TlvType.canBePrefix then
    if lastElement ≥ 2 then fail "CanBePrefix element is out of order" i
    else if element.value.length ≠ 0 then fail "CanBePrefix element has non-zero TLV-LENGTH" i
    else .ok ({ i with canBePrefix := true },2)
  else if element.type = TlvType.mustBeFresh then
    if lastElement ≥ 3 then fail "MustBeFresh element is out of order" i
    else if element.value.length ≠ 0 then fail "MustBeFresh element has non-zero TLV-LENGTH" i
    else .ok ({ i with mustBeFresh := true },3)
  else if element.type = TlvType.forwardingHint then
    if lastElement ≥ 4 then fail "ForwardingHint element is out of order" i
    else
      match Element.parse element.value with
      | .error message => fail message i
      | .ok delegations => (delegations.foldlM decodeDelegation i).map fun i => (i,4)
  else if element.type = TlvType.nonce then
    if lastElement ≥ 5 then fail "Nonce element is out of order" i
    else if h : element.value.length = 4 then .ok ({ i with nonce := some ⟨element.value,h⟩ },5)
    else fail "Nonce element is malformed" i
  else if element.type = TlvType.interestLifetime then
    if lastElement ≥ 6 then fail "InterestLifetime element is out of order" i
    else
      match readNonNegativeInteger element.value with
      | .error message => fail message i
      | .ok count => .ok ({ i with interestLifetime := (UInt64.ofNat count).toInt64 },6)
  else if element.type = TlvType.hopLimit then
    -- not critical, so out of order it is ignored
    if lastElement ≥ 7 then .ok (i,lastElement)
    else
      match element.value with
      | [hopLimit] => .ok ({ i with hopLimit := some hopLimit },7)
      | _ => fail "HopLimit element is malformed" i
  else if element.type = TlvType.applicationParameters then
    if lastElement ≥ 8 then .ok (i,lastElement)
    else if i.parameters ≠ [] then .error .undefined
    else .ok ({ i with parameters := i.parameters ++ [element] },8)
  else if isCriticalType element.type then
    fail s!"Unrecognized element of critical type {element.type}" i
  else if i.parameters ≠ [] then
    .ok ({ i with parameters := i.parameters ++ [element] },lastElement)
  else .ok (i,lastElement)

def locate : Nat → List Element → List Parameter
  | _, [] => []
  | offset, e :: es => { toElement := e, offset := offset } :: locate (offset + e.octets.length) es

def checkDigest (sha : Sha256) (autoCheck : Bool) (i : Interest) : Except Failure Interest :=
  if autoCheck then
    match i.isParametersDigestValid sha with
    | .error failure => .error failure
    | .ok true => .ok i
    | .ok false =>
      fail "ParametersSha256DigestComponent does not match the SHA-256 of Interest parameters" i
  else .ok i

/-- `autoCheck` is the switch `s_autoCheckParametersDigest`. The name is assigned only after it has
been checked, and the other fields are then given their defaults. -/
def wireDecode (sha : Sha256) (autoCheck : Bool) (wire : Element) (i : Interest) :
    Except Failure Interest :=
  if wire.type ≠ TlvType.interest then fail (expecting "Interest" wire.type) i
  else
    let i := { i with wire := some wire }
    match Element.parse wire.value with
    | .error message => fail message i
    | .ok [] => fail "Name element is missing or out of order" i
    | .ok (element :: elements) =>
      if element.type ≠ TlvType.name then fail "Name element is missing or out of order" i
      else
        match EncodedName.ofElement element with
        | .error message => fail message i
        | .ok tempName =>
          if tempName = [] then fail "Name has zero name components" i
          else if findParametersDigestComponent tempName.toName = -2 then
            fail "Name has more than one ParametersSha256DigestComponent" i
          else
            match (locate element.octets.length elements).foldlM decodeElement
                ({ name := tempName, wire := some wire },1) with
            | .error failure => .error failure
            | .ok (i,_) => i.checkDigest sha autoCheck

end Decoding

section Encoding

/-- A random number is taken if there is no nonce. -/
def getNonce (generated : Nonce) (i : Interest) : Interest :=
  match i.nonce with
  | some _ => i
  | none => { i with nonce := some generated, wire := none }

def items (i : Interest) : List Item :=
  i.name.item ::
  (if i.canBePrefix then [.empty TlvType.canBePrefix] else []) ++
  (if i.mustBeFresh then [.empty TlvType.mustBeFresh] else []) ++
  (if i.forwardingHint.isEmpty then []
    else [.nested TlvType.forwardingHint (i.forwardingHint.map EncodedName.item)]) ++
  (i.nonce.toList.map fun nonce => .binary TlvType.nonce nonce.octets) ++
  (if i.interestLifetime ≠ defaultLifetime then
    [.nonNegativeInteger TlvType.interestLifetime i.interestLifetime.toUInt64.toNat] else []) ++
  (i.hopLimit.toList.map fun hopLimit => .binary TlvType.hopLimit [hopLimit]) ++
  i.parameterElements.map .block

/-- The block that is returned is the one kept afterwards. -/
def wireEncode (sha : Sha256) (autoCheck : Bool) (generated : Nonce) (i : Interest) :
    Except Failure Interest :=
  match i.wire.filter Element.hasWire with
  | some _ => .ok i
  | none =>
    let digestIndex := findParametersDigestComponent i.name.toName
    if digestIndex = -2 then .error .undefined
    else if digestIndex = -1 ∧ i.parameters ≠ [] then
      fail "Interest with parameters must have a ParametersSha256DigestComponent" i
    else if digestIndex ≠ -1 ∧ i.parameters = [] then
      fail "Interest without parameters must not have a ParametersSha256DigestComponent" i
    else
      let i := i.getNonce generated
      match (Item.nested TlvType.interest i.items).write with
      | .error message => fail message i
      | .ok wire => i.wireDecode sha autoCheck wire

end Encoding

section Elements

variable {i : Interest} {last : Nat} {p : Parameter}

def recognized : List Nat :=
  [TlvType.canBePrefix,TlvType.mustBeFresh,TlvType.forwardingHint,TlvType.nonce,
    TlvType.interestLifetime,TlvType.hopLimit,TlvType.applicationParameters]

theorem decodeElement_unrecognized (htype : p.type ∉ recognized) : decodeElement (i,last) p =
      if isCriticalType p.type then
        fail s!"Unrecognized element of critical type {p.type}" i
      else if i.parameters ≠ [] then .ok ({ i with parameters := i.parameters ++ [p] },last)
      else .ok (i,last) := by
  simp only [recognized,mem_cons,not_mem_nil,not_or,or_false] at htype
  simp only [decodeElement,htype,if_false]

end Elements

section Decoder

variable {sha : Sha256} {autoCheck : Bool} {wire : Element} {i j : Interest}

theorem checkDigest_eq (h : i.checkDigest sha autoCheck = .ok j) : j = i := by
  unfold checkDigest at h
  split_ifs at h
  · split at h
    · exact nomatch h
    · exact (ok.inj h).symm
    · exact nomatch h
  · exact (ok.inj h).symm

theorem fold_of_wireDecode (h : i.wireDecode sha autoCheck wire = .ok j) :
    ∃ element elements name last, Element.parse wire.value = .ok (element :: elements) ∧
      element.type = TlvType.name ∧ (locate element.octets.length elements).foldlM decodeElement
        ({ name := name, wire := some wire },1) = .ok (j,last) := by
  unfold wireDecode at h
  split_ifs at h
  · exact nomatch h
  dsimp only at h
  split at h
  · exact nomatch h
  · exact nomatch h
  · next element elements hparse =>
    split_ifs at h with htype
    · exact nomatch h
    · split at h
      · exact nomatch h
      · next name _ =>
        split_ifs at h
        · exact nomatch h
        · exact nomatch h
        · split at h
          · exact nomatch h
          · next last hfold =>
            obtain rfl := checkDigest_eq h
            exact ⟨element,elements,name,last,hparse,not_not.mp htype,hfold⟩

theorem locate_elements (offset : Nat) (es : List Element) :
    (locate offset es).map Parameter.toElement = es := by
  induction es generalizing offset with
  | nil => rfl
  | cons e es ih => rw [locate,map_cons,ih]

end Decoder

section Samples

def nonceOne : Nonce := ⟨[0,0,0,1],rfl⟩

def zeroSha256 : Sha256 := ⟨fun _ => replicate 32 0,by simp⟩

theorem exists_decoded (wire : Element) {P : Interest → Prop} [DecidablePred P]
    (h : (wireDecode zeroSha256 true wire {}).toOption.any (fun i => P i) = true) :
    ∃ i, wireDecode zeroSha256 true wire {} = .ok i ∧ P i := by
  cases hdecode : wireDecode zeroSha256 true wire {} with
  | error failure =>
    rw [hdecode] at h
    exact nomatch h
  | ok i =>
    rw [hdecode] at h
    exact ⟨i,rfl,of_decide_eq_true h⟩

end Samples

section Accessors

def getSignatureInfo (i : Interest) : Except String (Option SignatureInfo) :=
  match i.findFirstParameter TlvType.interestSignatureInfo with
  | none => .ok none
  | some p => (SignatureInfo.ofElement p.toElement .interest).map some

def getSignatureValue (i : Interest) : Option Element :=
  (i.findFirstParameter TlvType.interestSignatureValue).map Parameter.toElement

def getApplicationParameters (i : Interest) : Option Element :=
  i.parameters.head?.map Parameter.toElement

/-- The function is `noexcept`: information that cannot be decoded ends the program. -/
def isSigned (i : Interest) : Option Bool :=
  if i.parameters.length < 3 then some false
  else
    match i.getSignatureInfo with
    | .error _ => none
    | .ok none => some false
    | .ok (some _) => some (i.getSignatureValue.isSome &&
        i.name.getLast?.any fun c => c.type = Component.parametersSha256DigestComponent)

/-- From the application parameters to the element before the first signature value, or to the last
one if there is none. -/
def signedBounds (i : Interest) : Option (Nat × Nat) :=
  let valuePos := i.parameters.findIdx fun p => p.type = TlvType.interestSignatureValue
  match i.parameters.head?, i.parameters[valuePos - 1]? with
  | some front, some lastSigned =>
    if front.type = TlvType.applicationParameters then
      some (front.offset,lastSigned.offset + lastSigned.octets.length)
    else none
  | _, _ => none

def octetsBetween (value : List UInt8) (bounds : Nat × Nat) : List UInt8 :=
  (value.take bounds.2).drop bounds.1

def extractSignedRanges (sha : Sha256) (autoCheck : Bool) (generated : Nonce) (i : Interest) :
    Except Failure (List (List UInt8)) :=
  match i.wireEncode sha autoCheck generated with
  | .error failure => .error failure
  | .ok i =>
    match i.name.getLast?, i.wire with
    | some c, some wire =>
      if c.type ≠ Component.parametersSha256DigestComponent then
        fail "Interest Name must end with a ParametersSha256DigestComponent" i
      else if i.findFirstParameter TlvType.interestSignatureInfo = none then
        fail "Interest missing InterestSignatureInfo" i
      else
        match i.signedBounds with
        | none => .error .undefined
        | some bounds =>
          .ok [Element.allOctets (EncodedName.elements i.name.dropLast),
            octetsBetween wire.value bounds]
    | _, _ => .error .undefined

end Accessors

section Decoded

variable {i j : Interest} {last l : Nat} {p : Parameter} {ps : List Parameter}

private theorem fail_ne_ok {α : Type} {message : String} {a : α} : fail message i ≠ .ok a := by
  simp [fail]

private theorem decodeDelegation_keeps {d : Element} (h : decodeDelegation i d = .ok j) :
    ∃ hint, j = { i with forwardingHint := hint } := by
  unfold decodeDelegation at h
  split_ifs at h
  · split at h
    · exact absurd h fail_ne_ok
    · exact ⟨_,(ok.inj h).symm⟩
  · dsimp only at h
    split at h
    · exact absurd h fail_ne_ok
    · exact ⟨_,(ok.inj h).symm⟩
  · exact absurd h fail_ne_ok
  · exact ⟨i.forwardingHint,(ok.inj h).symm⟩

private theorem fold_delegations_keep {ds : List Element} (h : ds.foldlM decodeDelegation i = .ok j) :
    ∃ hint, j = { i with forwardingHint := hint } := by
  induction ds generalizing i with
  | nil => exact ⟨i.forwardingHint,(ok.inj h).symm⟩
  | cons d ds ih =>
    rw [foldlM_cons] at h
    cases hd : decodeDelegation i d with
    | error failure =>
      rw [hd] at h
      exact absurd h (by simp [bind,Except.bind])
    | ok k =>
      rw [hd] at h
      obtain ⟨hint,rfl⟩ := decodeDelegation_keeps hd
      exact ih (i := { i with forwardingHint := hint }) h

/-- What an element that the decoder accepts does. -/
inductive TakesElement (i : Interest) (last : Nat) (p : Parameter) : Interest → Nat → Prop where
  | canBePrefix (htype : p.type = TlvType.canBePrefix) (hlast : last < 2) :
      TakesElement i last p { i with canBePrefix := true } 2
  | mustBeFresh (htype : p.type = TlvType.mustBeFresh) (hlast : last < 3) :
      TakesElement i last p { i with mustBeFresh := true } 3
  | forwardingHint (hint : List EncodedName) (htype : p.type = TlvType.forwardingHint)
      (hlast : last < 4) : TakesElement i last p { i with forwardingHint := hint } 4
  | nonce (nonce : Nonce) (htype : p.type = TlvType.nonce) (hlast : last < 5) :
      TakesElement i last p { i with nonce := some nonce } 5
  | interestLifetime (count : Nat) (htype : p.type = TlvType.interestLifetime) (hlast : last < 6)
      (hcount : readNonNegativeInteger p.value = .ok count) :
      TakesElement i last p { i with interestLifetime := (UInt64.ofNat count).toInt64 } 6
  | hopLimit (hopLimit : UInt8) (htype : p.type = TlvType.hopLimit) (hlast : last < 7) :
      TakesElement i last p { i with hopLimit := some hopLimit } 7
  | applicationParameters (htype : p.type = TlvType.applicationParameters) (hlast : last < 8)
      (hnil : i.parameters = []) : TakesElement i last p { i with parameters := [p] } 8
  | kept (htype : p.type ∉ recognized) (hne : i.parameters ≠ []) :
      TakesElement i last p { i with parameters := i.parameters ++ [p] } last
  | ignored (htype : p.type = TlvType.hopLimit ∧ 7 ≤ last ∨
      p.type = TlvType.applicationParameters ∧ 8 ≤ last ∨ p.type ∉ recognized ∧ i.parameters = []) :
      TakesElement i last p i last

private theorem TakesElement.of_eq {k : Interest} {n : Nat} (hd : TakesElement i last p k n)
    (h : (.ok (k,n) : Except Failure (Interest × Nat)) = .ok (j,l)) : TakesElement i last p j l := by
  cases h
  exact hd

theorem decodeElement_cases (h : decodeElement (i,last) p = .ok (j,l)) :
    TakesElement i last p j l := by
  by_cases hmem : p.type ∉ recognized
  · rw [decodeElement_unrecognized hmem] at h
    split_ifs at h with hcritical hnil
    · exact absurd h fail_ne_ok
    · exact (TakesElement.kept hmem hnil).of_eq h
    · exact (TakesElement.ignored (.inr (.inr ⟨hmem,not_not.mp hnil⟩))).of_eq h
  unfold decodeElement at h
  dsimp only at h
  by_cases h₁ : p.type = TlvType.canBePrefix
  · rw [if_pos h₁] at h
    split_ifs at h with hlast
    · exact absurd h fail_ne_ok
    · exact absurd h fail_ne_ok
    · exact (TakesElement.canBePrefix h₁ (not_le.mp hlast)).of_eq h
  rw [if_neg h₁] at h
  by_cases h₂ : p.type = TlvType.mustBeFresh
  · rw [if_pos h₂] at h
    split_ifs at h with hlast
    · exact absurd h fail_ne_ok
    · exact absurd h fail_ne_ok
    · exact (TakesElement.mustBeFresh h₂ (not_le.mp hlast)).of_eq h
  rw [if_neg h₂] at h
  by_cases h₃ : p.type = TlvType.forwardingHint
  · rw [if_pos h₃] at h
    split_ifs at h with hlast
    · exact absurd h fail_ne_ok
    · split at h
      · exact absurd h fail_ne_ok
      · rename_i ds _
        cases hfold : ds.foldlM decodeDelegation i with
        | error failure =>
          rw [hfold] at h
          exact absurd h (by simp [Except.map])
        | ok k =>
          rw [hfold] at h
          obtain ⟨hint,rfl⟩ := fold_delegations_keep hfold
          exact (TakesElement.forwardingHint hint h₃ (not_le.mp hlast)).of_eq h
  rw [if_neg h₃] at h
  by_cases h₄ : p.type = TlvType.nonce
  · rw [if_pos h₄] at h
    split_ifs at h with hlast
    · exact absurd h fail_ne_ok
    · exact (TakesElement.nonce _ h₄ (not_le.mp hlast)).of_eq h
    · exact absurd h fail_ne_ok
  rw [if_neg h₄] at h
  by_cases h₅ : p.type = TlvType.interestLifetime
  · rw [if_pos h₅] at h
    split_ifs at h with hlast
    · exact absurd h fail_ne_ok
    · split at h
      · exact absurd h fail_ne_ok
      · rename_i count hcount
        exact (TakesElement.interestLifetime count h₅ (not_le.mp hlast) hcount).of_eq h
  rw [if_neg h₅] at h
  by_cases h₆ : p.type = TlvType.hopLimit
  · rw [if_pos h₆] at h
    split_ifs at h with hlast
    · exact (TakesElement.ignored (.inl ⟨h₆,hlast⟩)).of_eq h
    · split at h
      · exact (TakesElement.hopLimit _ h₆ (not_le.mp hlast)).of_eq h
      · exact absurd h fail_ne_ok
  rw [if_neg h₆] at h
  have h₇ : p.type = TlvType.applicationParameters := by
    simp only [recognized,mem_cons,not_mem_nil,or_false] at hmem
    omega
  rw [if_pos h₇] at h
  split_ifs at h with hlast hnil
  · exact (TakesElement.ignored (.inr (.inl ⟨h₇,hlast⟩))).of_eq h
  · rw [not_not.mp hnil] at h
    exact (TakesElement.applicationParameters h₇ (not_le.mp hlast) (not_not.mp hnil)).of_eq h

theorem exists_of_fold_cons {s t : Interest × Nat} (h : (p :: ps).foldlM decodeElement s = .ok t) :
    ∃ k m, decodeElement s p = .ok (k,m) ∧ ps.foldlM decodeElement (k,m) = .ok t := by
  rw [foldlM_cons] at h
  cases hp : decodeElement s p with
  | error failure =>
    rw [hp] at h
    exact absurd h (by simp [bind,Except.bind])
  | ok next =>
    rw [hp] at h
    exact ⟨next.1,next.2,rfl,h⟩

end Decoded

end Interest

end KiteNdn.Packet
