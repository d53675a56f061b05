import KiteNdn.Framework.FixedWidth
import KiteNdn.Name.Basic

/-!
# Faces, time and prefix announcements

Packets as the forwarder reads them; the type of the name components is a parameter. The content of
a Data is given by its elements, or by the text of the error if the TLV decoder rejects it.
-/

namespace KiteNdn

abbrev FaceId := Nat

/-- Steady-clock time points and durations, in nanoseconds. -/
abbrev Time := Int

abbrev EventId := Nat

def nanosecondsPerMillisecond : Int := 1000000

def toNanoseconds (milliseconds : Int) : Time :=
  Framework.wrap64 (milliseconds * nanosecondsPerMillisecond)

def addDuration (t duration : Time) : Time := Framework.wrap64 (t + duration)

def maxNameDepth : Nat := 32

structure PrefixAnnouncement where
  announcedName : Name
  expiration : Int
  /-- First and last valid instant on the system clock, in nanoseconds. -/
  validityPeriod : Option (Time × Time)
  deriving DecidableEq, Repr

namespace Component

def implicitSha256Digest : Nat := 1

def genericNameComponent : Nat := 8

def keywordNameComponent : Nat := 32

def segmentNameComponent : Nat := 50

def versionNameComponent : Nat := 54

def segmentMarker : UInt8 := 0x00

def versionMarker : UInt8 := 0xFD

def isImplicitSha256Digest (c : Component) : Bool :=
  c.type = implicitSha256Digest && c.value.length = 32

def isNumber (c : Component) : Bool := c.value.length ∈ [1,2,4,8]

def isNumberWithMarker (c : Component) (marker : UInt8) : Bool :=
  c.value.length ∈ [2,3,5,9] && c.value.head? = some marker

def isSegment (c : Component) : Bool :=
  (c.type = genericNameComponent && c.isNumberWithMarker segmentMarker) ||
    (c.type = segmentNameComponent && c.isNumber)

def isVersion (c : Component) : Bool :=
  (c.type = genericNameComponent && c.isNumberWithMarker versionMarker) ||
    (c.type = versionNameComponent && c.isNumber)

end Component

abbrev Nonce := List UInt8

structure Interest (κ : Type := Component) where
  name : List κ
  canBePrefix : Bool := false
  mustBeFresh : Bool := false
  nonce : Nonce
  interestLifetime : Int := 4000
  hopLimit : Option Nat := none
  forwardingHint : List (List κ) := []
  nextHopFaceId : Option FaceId := none
  deriving DecidableEq, Repr

inductive AnnouncementElement where
  | expirationPeriod (value : List UInt8)
  | validityPeriod (period : Except String (Time × Time))
  | other (type : Nat)
  deriving DecidableEq, Repr

structure AnnouncementData where
  name : Name
  contentType : Nat
  content : Except String (List AnnouncementElement)
  deriving DecidableEq, Repr

inductive ContentElement where
  | data (decoded : Except String AnnouncementData)
  | other (type : Nat)
  deriving DecidableEq, Repr

structure Data (κ : Type := Component) where
  name : List κ
  contentType : Nat := 0
  freshnessPeriod : Int := 0
  /-- The digest of the packet, the last component of its full name. -/
  digest : List UInt8 := []
  content : Except String (List ContentElement) := .ok []
  deriving DecidableEq, Repr

section Matching

variable {κ : Type} [NameComponent κ]

def Interest.matchesInterest (i j : Interest κ) : Bool :=
  toName i.name = toName j.name && i.canBePrefix = j.canBePrefix && i.mustBeFresh = j.mustBeFresh

def Interest.sameSelectors (i j : Interest κ) : Bool :=
  i.name = j.name && i.canBePrefix = j.canBePrefix && i.mustBeFresh = j.mustBeFresh

def Data.getFullName (d : Data κ) : Name :=
  toName d.name ++ [⟨Component.implicitSha256Digest,d.digest⟩]

def Interest.matchesData (i : Interest κ) (d : Data κ) : Bool :=
  let nameMatches :=
    if i.name.length = d.name.length + 1 then
      ((toName i.name).getLast?.any Component.isImplicitSha256Digest) &&
        toName i.name = d.getFullName
    else if i.canBePrefix then (toName i.name).isPrefixOf (toName d.name)
    else toName i.name = toName d.name
  nameMatches && !(i.mustBeFresh && d.freshnessPeriod ≤ 0)

end Matching

inductive NackReason where
  | none | congestion | duplicate | noRoute
  deriving DecidableEq, Repr

def NackReason.code : NackReason → Nat
  | none => 0
  | congestion => 50
  | duplicate => 100
  | noRoute => 150

def NackReason.isLessSevere (x y : NackReason) : Bool :=
  if x = none then false
  else if y = none then true
  else x.code < y.code

structure Nack where
  interest : Interest
  reason : NackReason
  deriving DecidableEq, Repr

end KiteNdn
