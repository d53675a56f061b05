import KiteNdn.Encoding.Tlv
import KiteNdn.Fw.Packet

/-!
# KITE requests and acknowledgments

A request is a signed Interest: its name holds the rendezvous prefix and the producer suffix, its
parameters the expiration period. Signing appends the digest of the parameters to the name, unless
the name has a digest component already. An acknowledgment carries a prefix announcement in its
content.

The hash function and the signer's nonce, clock and key are parameters.
-/

namespace KiteNdn

namespace PrefixAnnouncement

def contentTypePrefixAnn : Nat := 5

def keywordComponent : Component := ⟨Component.keywordNameComponent,[0x50,0x41]⟩

def isCriticalType (type : Nat) : Bool := type ≤ 31 || type % 2 = 1

def findExpiration : List AnnouncementElement → Except String Nat
  | [] => .error "No sub-element of type 109 found in block of type 21"
  | .expirationPeriod value :: _ => Tlv.readNonNegativeInteger value
  | _ :: elements => findExpiration elements

def findValidity : List AnnouncementElement → Except String (Option (Time × Time))
  | [] => .ok none
  | .validityPeriod period :: _ => period.map some
  | _ :: elements => findValidity elements

def unrecognizedType : AnnouncementElement → Option Nat
  | .other type => if isCriticalType type then some type else none
  | _ => none

/-- The conversion of an unsigned 64-bit count to a signed one. -/
def toMilliseconds (count : Nat) : Int := if count < 2^63 then count else count - 2^64

def ofData (d : AnnouncementData) : Except String PrefixAnnouncement :=
  match d.name.reverse with
  | segment :: version :: keyword :: announced =>
    if keyword ≠ keywordComponent ∨ version.isVersion = false ∨ segment.isSegment = false then
      .error "Data is not a prefix announcement: wrong name structure"
    else if d.contentType ≠ contentTypePrefixAnn then
      .error s!"Data is not a prefix announcement: ContentType is {d.contentType}"
    else
      match d.content with
      | .error e => .error e
      | .ok [] => .error "Prefix announcement is empty"
      | .ok elements => do
        let expiration ← findExpiration elements
        let validity ← findValidity elements
        match elements.findSome? unrecognizedType with
        | some type => .error s!"Unrecognized element of critical type {type}"
        | none => .ok ⟨announced.reverse,toMilliseconds expiration,validity⟩
  | _ => .error "Data is not a prefix announcement: wrong name structure"

end PrefixAnnouncement

namespace Kite

def kiteKeyword : Component := ⟨Component.keywordNameComponent,[0x4B,0x49,0x54,0x45]⟩

def contentTypeKiteAck : Nat := 6

/-- Splits the name of a request into the rendezvous prefix and the producer suffix. -/
def extractPrefixes (name : Name) : Except String (Name × Name) :=
  let keywordPos := name.findIdx fun c => c = kiteKeyword
  if keywordPos = 0 then .error "Missing RV prefix"
  else if keywordPos = name.length then .error "Missing \"KITE\" keyword"
  else
    let producerSuffixLength : Int := (name.length : Int) - keywordPos - 1 - 1
    if producerSuffixLength > 0 then
      .ok (name.take keywordPos,(name.drop (keywordPos + 1)).take producerSuffixLength.toNat)
    else .error "Missing producer suffix"

structure Ack where
  prefixAnnouncement : PrefixAnnouncement
  deriving DecidableEq, Repr

def findData : List ContentElement → Except String AnnouncementData
  | [] => .error "No sub-element of type 6 found in block of type 21"
  | .data decoded :: _ => decoded
  | .other _ :: elements => findData elements

def Ack.ofData (d : Data) : Except String Ack :=
  if d.contentType ≠ contentTypeKiteAck then
    .error s!"Not a KITE acknowledgment, ContentType is {d.contentType}"
  else
    match d.content with
    | .error e => .error e
    | .ok elements =>
      match findData elements >>= PrefixAnnouncement.ofData with
      | .error _ => .error "No valid prefix announcement"
      | .ok pa => .ok ⟨pa⟩

end Kite

namespace Component

def parametersSha256DigestComponent : Nat := 2

def isParametersSha256Digest (c : Component) : Bool :=
  c.type = parametersSha256DigestComponent && c.value.length = 32

end Component

namespace Kite

section Interests

structure SignatureInfo where
  nonce : Option (List UInt8)
  time : Option Int
  deriving DecidableEq, Repr

inductive Parameter where
  | applicationParameters (value : List UInt8)
  | interestSignatureInfo (info : SignatureInfo)
  | interestSignatureValue (value : List UInt8)
  | other (block : Tlv.Block)
  deriving DecidableEq, Repr

def Parameter.isSignatureInfo : Parameter → Bool
  | interestSignatureInfo _ => true
  | _ => false

def Parameter.isSignatureValue : Parameter → Bool
  | interestSignatureValue _ => true
  | _ => false

structure SignableInterest where
  name : Name
  canBePrefix : Bool := false
  parameters : List Parameter := []
  deriving DecidableEq, Repr

structure Sha256 where
  digest : List Parameter → List UInt8
  length_digest : ∀ parameters, (digest parameters).length = 32

/-- What the signer contributes: a random nonce, a fresh timestamp, and the signature. -/
structure Signer where
  nonce : List UInt8
  timestamp : Int
  sign : Name × List Parameter → List UInt8

def applicationParametersType : Nat := 36

/-- The position of the digest component, -1 if there is none, and -2 if there are several. -/
def findParametersDigestComponent (name : Name) : Int :=
  match (name.zipIdx.filter fun p => p.1.isParametersSha256Digest).map Prod.snd with
  | [] => -1
  | [pos] => pos
  | _ => -2

namespace SignableInterest

variable (sha : Sha256)

def ofName (name : Name) : Except String SignableInterest :=
  if findParametersDigestComponent name = -2 then
    .error "Name cannot have more than one ParametersSha256DigestComponent"
  else .ok { name := name }

def addOrReplaceParametersDigestComponent (i : SignableInterest) : SignableInterest :=
  let digestIndex := findParametersDigestComponent i.name
  let digestComponent := ⟨Component.parametersSha256DigestComponent,sha.digest i.parameters⟩
  if digestIndex = -1 then { i with name := i.name ++ [digestComponent] }
  else { i with name := i.name.set digestIndex.toNat digestComponent }

def setApplicationParameters (block : Tlv.Block) (i : SignableInterest) : SignableInterest :=
  let value := if block.type = applicationParametersType then block.value else block.encode
  addOrReplaceParametersDigestComponent sha
    { i with parameters := .applicationParameters value :: i.parameters.tail }

def setSignatureInfo (info : SignatureInfo) (i : SignableInterest) : SignableInterest :=
  let parameters := if i.parameters = [] then [.applicationParameters []] else i.parameters
  match parameters.findIdx? Parameter.isSignatureInfo with
  | some pos =>
    if parameters[pos]? = some (.interestSignatureInfo info) then { i with parameters := parameters }
    else addOrReplaceParametersDigestComponent sha
      { i with parameters := parameters.set pos (.interestSignatureInfo info) }
  | none =>
    let pos := parameters.findIdx Parameter.isSignatureValue
    addOrReplaceParametersDigestComponent sha
      { i with parameters := parameters.insertIdx pos (.interestSignatureInfo info) }

def setSignatureValue (value : List UInt8) (i : SignableInterest) : Except String SignableInterest :=
  match i.parameters.findIdx? Parameter.isSignatureInfo with
  | none => .error "InterestSignatureInfo must be present to set InterestSignatureValue"
  | some infoPos =>
    match i.parameters.findIdx? Parameter.isSignatureValue with
    | some pos =>
      if i.parameters[pos]? = some (.interestSignatureValue value) then .ok i
      else .ok (addOrReplaceParametersDigestComponent sha
        { i with parameters := i.parameters.set pos (.interestSignatureValue value) })
    | none =>
      .ok (addOrReplaceParametersDigestComponent sha { i with
        parameters := i.parameters.insertIdx (infoPos + 1) (.interestSignatureValue value) })

/-- The name without the digest, and the parameters before the signature. -/
def extractSignedRanges (i : SignableInterest) : Except String (Name × List Parameter) :=
  if i.name.getLast?.map Component.type ≠ some Component.parametersSha256DigestComponent then
    .error "Interest Name must end with a ParametersSha256DigestComponent"
  else if i.parameters.any Parameter.isSignatureInfo = false then
    .error "Interest missing InterestSignatureInfo"
  else .ok (i.name.dropLast,i.parameters.takeWhile fun p => !p.isSignatureValue)

def makeSignedInterest (signer : Signer) (i : SignableInterest) : Except String SignableInterest :=
  let signed := i.setSignatureInfo sha ⟨some signer.nonce,some signer.timestamp⟩
  match signed.extractSignedRanges with
  | .error e => .error e
  | .ok ranges => signed.setSignatureValue sha (signer.sign ranges)

def getSignatureInfo (i : SignableInterest) : Option SignatureInfo :=
  i.parameters.findSome? fun p =>
    match p with
    | .interestSignatureInfo info => some info
    | _ => none

def isSigned (i : SignableInterest) : Bool :=
  i.parameters.length ≥ 3 && i.getSignatureInfo.isSome &&
    i.parameters.any Parameter.isSignatureValue &&
    i.name.getLast?.map Component.type = some Component.parametersSha256DigestComponent

def getApplicationParameters (i : SignableInterest) : Except String (List Tlv.Block) :=
  match i.parameters with
  | .applicationParameters value :: _ => Tlv.parse value
  | .other block :: _ => Tlv.parse block.value
  | _ => .ok []

end SignableInterest

end Interests

section Requests

structure Request where
  rvPrefix : Name := []
  producerSuffix : Name := []
  timestamp : Option Int := none
  nonce : Option (List UInt8) := none
  expiration : Option Int := none
  deriving DecidableEq, Repr

namespace Request

def expirationPeriod : Nat := 109

def setRvPrefix (rvPrefix : Name) (r : Request) : Request := { r with rvPrefix := rvPrefix }

def setProducerSuffix (producerSuffix : Name) (r : Request) : Request :=
  { r with producerSuffix := producerSuffix }

def setExpiration (expiration : Int) (r : Request) : Except String Request :=
  if expiration < 0 then .error "Negative expiration period"
  else .ok { r with expiration := some expiration }

def getProducerPrefix (r : Request) : Name := r.producerSuffix

def canMatch (r : Request) (ack : Ack) : Bool :=
  ack.prefixAnnouncement.announcedName = r.getProducerPrefix

/-- A member that the Interest has nothing for keeps its value. -/
def decode (i : SignableInterest) (r : Request) : Except String Request :=
  if i.isSigned = false then .error "Not signed"
  else
    match i.getSignatureInfo with
    | some ⟨some nonce,some time⟩ =>
      match extractPrefixes i.name with
      | .error _ => .error "Name is in the wrong format"
      | .ok (rvPrefix,producerSuffix) => do
        let elements ← i.getApplicationParameters
        let r := { r with
          rvPrefix := rvPrefix, producerSuffix := producerSuffix
          nonce := some nonce, timestamp := some time }
        match elements.find? fun b => b.type = expirationPeriod with
        | none => .ok r
        | some b =>
          let count ← Tlv.readNonNegativeInteger b.value
          .ok { r with expiration := some (PrefixAnnouncement.toMilliseconds count) }
    | _ => .error "Missing nonce or timestamp"

def expirationBlock (expiration : Int) : Tlv.Block :=
  ⟨expirationPeriod,Tlv.writeNonNegativeInteger (expiration % 2^64).toNat⟩

def makeInterest (sha : Sha256) (signer : Signer) (r : Request) :
    Except String (SignableInterest × Request) :=
  if r.rvPrefix = [] then .error "RV prefix not set"
  else if r.producerSuffix = [] then .error "Producer suffix not set"
  else do
    let i ← SignableInterest.ofName (r.rvPrefix ++ [kiteKeyword] ++ r.producerSuffix)
    let i :=
      match r.expiration with
      | some expiration => i.setApplicationParameters sha (expirationBlock expiration)
      | none => i
    let i ← i.makeSignedInterest sha signer
    .ok (i,{ r with nonce := some signer.nonce, timestamp := some signer.timestamp })

end Request

end Requests

end Kite

end KiteNdn
