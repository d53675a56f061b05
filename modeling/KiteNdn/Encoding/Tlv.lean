import KiteNdn.Framework.FixedWidth

/-!
# TLV blocks

The type-length-value encoding: numbers of variable size, blocks, and the elements inside a block.
Errors are the texts of the exceptions.
-/

namespace KiteNdn.Tlv

open Framework List

section Numbers

def writeVarNumber (number : Nat) : List UInt8 :=
  if number < 253 then [UInt8.ofNat number]
  else if number ≤ 0xFFFF then 253 :: toBytes 2 number
  else if number ≤ 0xFFFFFFFF then 254 :: toBytes 4 number
  else 255 :: toBytes 8 number

def sizeOfVarNumber (number : Nat) : Nat :=
  if number < 253 then 1
  else if number ≤ 0xFFFF then 3
  else if number ≤ 0xFFFFFFFF then 5
  else 9

def readVarNumber : List UInt8 → Except String (Nat × List UInt8)
  | [] => .error "Empty buffer during TLV parsing"
  | firstOctet :: rest =>
    if firstOctet < 253 then .ok (firstOctet.toNat,rest)
    else
      let size := if firstOctet = 253 then 2 else if firstOctet = 254 then 4 else 8
      if size ≤ rest.length then .ok (ofBytes (rest.take size),rest.drop size)
      else .error "Insufficient data during TLV parsing"

def readType (octets : List UInt8) : Except String (Nat × List UInt8) := do
  let (type,rest) ← readVarNumber octets
  if type = 0 ∨ type > 0xFFFFFFFF then .error s!"Illegal TLV-TYPE {type}" else .ok (type,rest)

def sizeOfNonNegativeInteger (integer : Nat) : Nat :=
  if integer ≤ 0xFF then 1
  else if integer ≤ 0xFFFF then 2
  else if integer ≤ 0xFFFFFFFF then 4
  else 8

def writeNonNegativeInteger (integer : Nat) : List UInt8 :=
  toBytes (sizeOfNonNegativeInteger integer) integer

def readNonNegativeInteger (value : List UInt8) : Except String Nat :=
  if value.length ∈ [1,2,4,8] then .ok (ofBytes value)
  else .error s!"Invalid length {value.length} for NonNegativeInteger"

theorem length_writeVarNumber (number : Nat) :
    (writeVarNumber number).length = sizeOfVarNumber number := by
  unfold writeVarNumber sizeOfVarNumber
  split_ifs <;> simp [length_toBytes]

theorem readVarNumber_octet {number : Nat} (h : number < 253) (rest : List UInt8) :
    readVarNumber (UInt8.ofNat number :: rest) = .ok (number,rest) := by
  have hoctet : (UInt8.ofNat number).toNat = number := by
    rw [UInt8.toNat_ofNat']
    omega
  have hlt : UInt8.ofNat number < 253 := by
    rw [UInt8.lt_iff_toNat_lt,hoctet]
    exact h
  rw [readVarNumber,if_pos hlt,hoctet]

theorem readVarNumber_wide {firstOctet : UInt8} {size number : Nat} (hfirst : ¬firstOctet < 253)
    (hsize : (if firstOctet = 253 then 2 else if firstOctet = 254 then 4 else 8) = size)
    (hlt : number < 256^size) (rest : List UInt8) :
    readVarNumber (firstOctet :: toBytes size number ++ rest) = .ok (number,rest) := by
  rw [cons_append,readVarNumber,if_neg hfirst]
  dsimp only
  have hlen := length_toBytes size number
  rw [hsize,if_pos (by rw [length_append,hlen]; omega),take_left' hlen,
    drop_left' hlen,ofBytes_toBytes hlt]

theorem readVarNumber_writeVarNumber {number : Nat} (h : number < 2^64) (rest : List UInt8) :
    readVarNumber (writeVarNumber number ++ rest) = .ok (number,rest) := by
  unfold writeVarNumber
  split_ifs with h₁ h₂ h₃
  · exact readVarNumber_octet h₁ rest
  · exact readVarNumber_wide (by decide) (by decide) (by omega) rest
  · exact readVarNumber_wide (by decide) (by decide) (by omega) rest
  · exact readVarNumber_wide (by decide) (by decide) (by omega) rest

theorem readType_writeVarNumber {type : Nat} (hpos : 0 < type) (h : type < 2^32)
    (rest : List UInt8) : readType (writeVarNumber type ++ rest) = .ok (type,rest) := by
  unfold readType
  rw [readVarNumber_writeVarNumber (by omega)]
  exact if_neg (by omega)

theorem readNonNegativeInteger_lt {value : List UInt8} {integer : Nat}
    (h : readNonNegativeInteger value = .ok integer) : integer < 2^64 := by
  unfold readNonNegativeInteger at h
  split_ifs at h with hlen
  cases h
  have hle : value.length ≤ 8 := by
    simp only [mem_cons,not_mem_nil,or_false] at hlen
    omega
  exact (ofBytes_lt value).trans_le (Nat.pow_le_pow_right (by decide) hle)

theorem readNonNegativeInteger_write {integer : Nat} (h : integer < 2^64) :
    readNonNegativeInteger (writeNonNegativeInteger integer) = .ok integer := by
  unfold readNonNegativeInteger writeNonNegativeInteger
  rw [length_toBytes]
  unfold sizeOfNonNegativeInteger
  split_ifs
  all_goals first
    | rw [ofBytes_toBytes (by omega)]
    | simp_all

end Numbers

section Blocks

structure Block where
  type : Nat
  value : List UInt8
  deriving DecidableEq, Repr

def Block.encode (b : Block) : List UInt8 :=
  writeVarNumber b.type ++ writeVarNumber b.value.length ++ b.value

/-- Blocks whose type and length can be written. -/
def Block.Valid (b : Block) : Prop := 0 < b.type ∧ b.type < 2^32 ∧ b.value.length < 2^64

def parseElements : Nat → List UInt8 → Except String (List Block)
  | 0, _ => .ok []
  | fuel + 1, octets =>
    if octets = [] then .ok []
    else do
      let (type,rest) ← readType octets
      let (length,rest) ← readVarNumber rest
      if length > rest.length then
        .error s!"TLV-LENGTH of sub-element of type {type} exceeds TLV-VALUE boundary of parent block"
      else
        let elements ← parseElements fuel (rest.drop length)
        .ok (⟨type,rest.take length⟩ :: elements)

def parse (value : List UInt8) : Except String (List Block) := parseElements value.length value

theorem Block.two_le_length_encode (b : Block) : 2 ≤ b.encode.length := by
  have hsize : ∀ number, 1 ≤ sizeOfVarNumber number := by
    intro number
    unfold sizeOfVarNumber
    split_ifs <;> omega
  have htype := hsize b.type
  have hlength := hsize b.value.length
  rw [encode,length_append,length_append,length_writeVarNumber,length_writeVarNumber]
  omega

private theorem parseElements_encode {b : Block} (h : b.Valid) (fuel : Nat) (rest : List UInt8) :
    parseElements (fuel + 1) (b.encode ++ rest) =
      (parseElements fuel rest).map fun elements => b :: elements := by
  have hne : b.encode ++ rest ≠ [] := by
    intro hnil
    have hlen := b.two_le_length_encode
    rw [(append_eq_nil_iff.mp hnil).1] at hlen
    exact absurd hlen (by decide)
  rw [parseElements,if_neg hne,Block.encode,append_assoc,append_assoc,
    readType_writeVarNumber h.1 h.2.1]
  dsimp only [bind,Except.bind]
  rw [readVarNumber_writeVarNumber h.2.2]
  dsimp only
  rw [if_neg (by rw [length_append]; omega),drop_left,take_left]
  cases parseElements fuel rest <;> rfl

private theorem parseElements_flatMap (blocks : List Block) (h : ∀ b ∈ blocks, b.Valid) :
    ∀ fuel, blocks.length ≤ fuel →
      parseElements fuel (blocks.flatMap Block.encode) = .ok blocks := by
  induction blocks with
  | nil =>
    intro fuel _
    cases fuel <;> rfl
  | cons b blocks ih =>
    intro fuel hfuel
    cases fuel with
    | zero => exact absurd hfuel (Nat.not_succ_le_zero _)
    | succ fuel =>
      rw [flatMap_cons,parseElements_encode (h b mem_cons_self),
        ih (fun b' hb' => h b' (mem_cons_of_mem b hb')) fuel (Nat.le_of_succ_le_succ hfuel)]
      rfl

theorem parse_flatMap_encode (blocks : List Block) (h : ∀ b ∈ blocks, b.Valid) :
    parse (blocks.flatMap Block.encode) = .ok blocks := by
  have hlength : 2 * blocks.length ≤ (blocks.flatMap Block.encode).length := by
    clear h
    induction blocks with
    | nil => exact le_rfl
    | cons b blocks ih =>
      have hb := b.two_le_length_encode
      rw [flatMap_cons,length_append,length_cons]
      omega
  exact parseElements_flatMap blocks h _ (by omega)

end Blocks

end KiteNdn.Tlv
