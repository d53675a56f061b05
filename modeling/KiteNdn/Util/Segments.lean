import KiteNdn.Encoding.Tlv
import KiteNdn.Fw.Packet

/-!
# Segmented objects

An object is published as Data packets with consecutive segment numbers. The segment number is the
last component of the name, in one of two conventions.
-/

namespace KiteNdn

open Framework Tlv

namespace Component

/-- `name::Convention`, for encoding. Both are decoded. -/
inductive Convention where
  | marker
  | typed
  deriving DecidableEq, Repr

def segment? (c : Component) : Option Nat :=
  if c.isSegment then
    (readNonNegativeInteger (if c.type = genericNameComponent then c.value.drop 1 else c.value)).toOption
  else none

def version? (c : Component) : Option Nat :=
  if c.isVersion then
    (readNonNegativeInteger (if c.type = genericNameComponent then c.value.drop 1 else c.value)).toOption
  else none

def fromSegment (convention : Convention) (segmentNo : Nat) : Component :=
  match convention with
  | .marker => ⟨genericNameComponent,segmentMarker :: writeNonNegativeInteger segmentNo⟩
  | .typed => ⟨segmentNameComponent,writeNonNegativeInteger segmentNo⟩

def fromVersion (convention : Convention) (version : Nat) : Component :=
  match convention with
  | .marker => ⟨genericNameComponent,versionMarker :: writeNonNegativeInteger version⟩
  | .typed => ⟨versionNameComponent,writeNonNegativeInteger version⟩

private theorem length_written (number : Nat) :
    (writeNonNegativeInteger number).length ∈ [1,2,4,8] := by
  unfold writeNonNegativeInteger
  rw [length_toBytes]
  unfold sizeOfNonNegativeInteger
  split_ifs <;> decide

theorem isVersion_fromVersion (convention : Convention) (version : Nat) :
    (fromVersion convention version).isVersion = true := by
  have hlength := length_written version
  cases convention <;> simp_all [isVersion,fromVersion,isNumberWithMarker,isNumber]

theorem isSegment_fromSegment (convention : Convention) (segmentNo : Nat) :
    (fromSegment convention segmentNo).isSegment = true := by
  have hlength := length_written segmentNo
  cases convention <;> simp_all [isSegment,fromSegment,isNumberWithMarker,isNumber]

private theorem number_written {c : Component} {number : Nat} (h : number < 2^64)
    (hvalue : (if c.type = genericNameComponent then c.value.drop 1 else c.value) =
      writeNonNegativeInteger number) :
    (readNonNegativeInteger
      (if c.type = genericNameComponent then c.value.drop 1 else c.value)).toOption = some number := by
  rw [hvalue,readNonNegativeInteger_write h]
  rfl

theorem version?_fromVersion (convention : Convention) {version : Nat} (h : version < 2^64) :
    (fromVersion convention version).version? = some version := by
  rw [version?,if_pos (isVersion_fromVersion convention version)]
  exact number_written h (by cases convention <;> rfl)

private theorem number_lt {value : List UInt8} {n : Nat}
    (h : (readNonNegativeInteger value).toOption = some n) : n < 2^64 := by
  cases hvalue : readNonNegativeInteger value with
  | error message => rw [hvalue] at h; exact nomatch h
  | ok integer =>
    rw [hvalue] at h
    cases h
    exact readNonNegativeInteger_lt hvalue

theorem version?_lt {c : Component} {version : Nat} (h : c.version? = some version) :
    version < 2^64 := by
  unfold version? at h
  split_ifs at h <;> exact number_lt h

end Component

/-- A Data packet of an object, as its consumers read it. -/
structure Segment where
  name : Name
  content : List UInt8
  finalBlock : Option Component := none
  contentType : Nat := 0
  deriving DecidableEq, Repr

namespace Segment

def number (d : Segment) : Option Nat := d.name.getLast?.bind Component.segment?

end Segment

namespace Util

/-- An Interest, as far as it decides which Data matches. -/
structure Request where
  name : Name
  canBePrefix : Bool
  deriving DecidableEq, Repr

def Request.matchesData (i : Request) (d : Segment) : Bool :=
  if i.canBePrefix then i.name.isPrefixOf d.name else i.name = d.name

end Util

end KiteNdn
