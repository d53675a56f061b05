import KiteNdn.Encoding.Element

/-!
# The encoder and the estimator

Blocks are written from their end to their front, into a buffer that is replaced by a larger one
when its room is used up. The estimator returns the numbers of octets and writes none.
-/

namespace KiteNdn.Encoding

open Framework Tlv List

/-- A buffer, and the part of it that has been written. -/
structure Encoder where
  buffer : List UInt8
  beginPos : Nat
  endPos : Nat
  begin_le : beginPos ≤ endPos
  end_le : endPos ≤ buffer.length

namespace Encoder

section Buffers

def content (e : Encoder) : List UInt8 := (e.buffer.take e.endPos).drop e.beginPos

def make (totalReserve reserveFromBack : Nat) : Encoder :=
  let pos := totalReserve - if reserveFromBack < totalReserve then reserveFromBack else 0
  ⟨replicate totalReserve 0,pos,pos,le_rfl,by rw [length_replicate]; exact Nat.sub_le _ _⟩

def growFront (added : Nat) (e : Encoder) : Encoder :=
  ⟨replicate added 0 ++ e.buffer,e.beginPos + added,e.endPos + added,
    Nat.add_le_add_right e.begin_le added,by
      have := e.end_le
      rw [length_append,length_replicate]
      omega⟩

def growBack (added : Nat) (e : Encoder) : Encoder :=
  ⟨e.buffer ++ replicate added 0,e.beginPos,e.endPos,e.begin_le,by
    have := e.end_le
    rw [length_append]
    omega⟩

def reserve (size : Nat) (addInFront : Bool) (e : Encoder) : Encoder :=
  let size := if size < e.buffer.length then e.buffer.length else size
  let added := size - e.buffer.length
  if addInFront then e.growFront added else e.growBack added

def reserveBack (size : Nat) (e : Encoder) : Encoder :=
  if e.endPos + size > e.buffer.length then e.reserve (e.buffer.length * 2 + size) false else e

def reserveFront (size : Nat) (e : Encoder) : Encoder :=
  if size > e.beginPos then e.reserve (e.buffer.length * 2 + size) true else e

def copyTo (buffer : List UInt8) (pos : Nat) (octets : List UInt8) : List UInt8 :=
  buffer.take pos ++ (octets ++ buffer.drop (pos + octets.length))

theorem length_copyTo_ge (buffer : List UInt8) (pos : Nat) (octets : List UInt8) :
    buffer.length ≤ (copyTo buffer pos octets).length := by
  simp only [copyTo,length_append,length_take,length_drop]
  omega

def copyFront (octets : List UInt8) (e : Encoder) : Encoder :=
  let pos := e.beginPos - octets.length
  ⟨copyTo e.buffer pos octets,pos,e.endPos,(Nat.sub_le _ _).trans e.begin_le,
    e.end_le.trans (length_copyTo_ge _ _ _)⟩

def copyBack (octets : List UInt8) (e : Encoder) : Encoder :=
  ⟨copyTo e.buffer e.endPos octets,e.beginPos,e.endPos + octets.length,
    e.begin_le.trans (Nat.le_add_right _ _),by
      have := e.end_le
      simp only [copyTo,length_append,length_take,length_drop]
      omega⟩

def prependBytes (octets : List UInt8) (e : Encoder) : Nat × Encoder :=
  (octets.length,(e.reserveFront octets.length).copyFront octets)

def appendBytes (octets : List UInt8) (e : Encoder) : Nat × Encoder :=
  (octets.length,(e.reserveBack octets.length).copyBack octets)

def prependVarNumber (varNumber : Nat) (e : Encoder) : Nat × Encoder :=
  if varNumber < 253 then (1,(e.prependBytes [UInt8.ofNat varNumber]).2)
  else if varNumber ≤ 0xFFFF then
    (3,((e.prependBytes (toBytes 2 varNumber)).2.prependBytes [253]).2)
  else if varNumber ≤ 0xFFFFFFFF then
    (5,((e.prependBytes (toBytes 4 varNumber)).2.prependBytes [254]).2)
  else (9,((e.prependBytes (toBytes 8 varNumber)).2.prependBytes [255]).2)

def appendVarNumber (varNumber : Nat) (e : Encoder) : Nat × Encoder :=
  if varNumber < 253 then (1,(e.appendBytes [UInt8.ofNat varNumber]).2)
  else if varNumber ≤ 0xFFFF then
    (3,((e.appendBytes [253]).2.appendBytes (toBytes 2 varNumber)).2)
  else if varNumber ≤ 0xFFFFFFFF then
    (5,((e.appendBytes [254]).2.appendBytes (toBytes 4 varNumber)).2)
  else (9,((e.appendBytes [255]).2.appendBytes (toBytes 8 varNumber)).2)

def prependNonNegativeInteger (integer : Nat) (e : Encoder) : Nat × Encoder :=
  if integer ≤ 0xFF then e.prependBytes [UInt8.ofNat integer]
  else if integer ≤ 0xFFFF then e.prependBytes (toBytes 2 integer)
  else if integer ≤ 0xFFFFFFFF then e.prependBytes (toBytes 4 integer)
  else e.prependBytes (toBytes 8 integer)

def appendNonNegativeInteger (integer : Nat) (e : Encoder) : Nat × Encoder :=
  if integer ≤ 0xFF then e.appendBytes [UInt8.ofNat integer]
  else if integer ≤ 0xFFFF then e.appendBytes (toBytes 2 integer)
  else if integer ≤ 0xFFFFFFFF then e.appendBytes (toBytes 4 integer)
  else e.appendBytes (toBytes 8 integer)

end Buffers

section Contents

variable (e : Encoder)

private theorem buffer_eq :
    e.buffer = e.buffer.take e.beginPos ++ (e.content ++ e.buffer.drop e.endPos) := by
  have hfront : e.buffer.take e.beginPos = (e.buffer.take e.endPos).take e.beginPos := by
    rw [take_take,min_eq_left e.begin_le]
  rw [hfront,content,← append_assoc,take_append_drop,take_append_drop]

private theorem length_content : e.content.length = e.endPos - e.beginPos := by
  rw [content,length_drop,length_take,min_eq_left e.end_le]

private theorem content_eq {e : Encoder} (front octets back : List UInt8)
    (hbuffer : e.buffer = front ++ (octets ++ back)) (hfront : front.length = e.beginPos)
    (hoctets : front.length + octets.length = e.endPos) : e.content = octets := by
  rw [content,hbuffer,← hoctets,← append_assoc,← length_append,take_left,hfront.symm,drop_left]

private theorem length_front : (e.buffer.take e.beginPos).length = e.beginPos := by
  rw [length_take,min_eq_left (e.begin_le.trans e.end_le)]

theorem content_make (totalReserve reserveFromBack : Nat) :
    (make totalReserve reserveFromBack).content = [] := by
  apply eq_nil_of_length_eq_zero
  rw [length_content]
  exact Nat.sub_self _

private theorem content_growFront (added : Nat) : (e.growFront added).content = e.content := by
  have hle := e.begin_le
  apply content_eq (replicate added 0 ++ e.buffer.take e.beginPos) _ (e.buffer.drop e.endPos)
  · rw [append_assoc,← e.buffer_eq]
    rfl
  · rw [length_append,length_replicate,e.length_front,Nat.add_comm]
    rfl
  · show _ = e.endPos + added
    rw [length_append,length_replicate,e.length_front,e.length_content]
    omega

private theorem content_growBack (added : Nat) : (e.growBack added).content = e.content := by
  have hle := e.begin_le
  apply content_eq (e.buffer.take e.beginPos) _ (e.buffer.drop e.endPos ++ replicate added 0)
  · rw [← append_assoc e.content,← append_assoc (e.buffer.take e.beginPos),← e.buffer_eq]
    rfl
  · exact e.length_front
  · show _ = e.endPos
    rw [e.length_front,e.length_content]
    omega

theorem content_reserve (size : Nat) (addInFront : Bool) :
    (e.reserve size addInFront).content = e.content := by
  unfold reserve
  cases addInFront with
  | true => exact e.content_growFront _
  | false => exact e.content_growBack _

theorem content_reserveFront (size : Nat) : (e.reserveFront size).content = e.content := by
  unfold reserveFront
  split_ifs
  · exact e.content_reserve _ true
  · rfl

theorem content_reserveBack (size : Nat) : (e.reserveBack size).content = e.content := by
  unfold reserveBack
  split_ifs
  · exact e.content_reserve _ false
  · rfl

theorem le_beginPos_reserveFront (size : Nat) : size ≤ (e.reserveFront size).beginPos := by
  unfold reserveFront
  split_ifs with h
  · show size ≤ e.beginPos + _
    split_ifs <;> omega
  · exact not_lt.mp h

private theorem content_copyFront {octets : List UInt8} (hroom : octets.length ≤ e.beginPos) :
    (e.copyFront octets).content = octets ++ e.content := by
  have hle := e.begin_le
  have hlen : (e.buffer.take (e.beginPos - octets.length)).length = e.beginPos - octets.length := by
    have hfront := e.length_front
    rw [length_take] at hfront ⊢
    omega
  apply content_eq (e.buffer.take (e.beginPos - octets.length)) _ (e.buffer.drop e.endPos)
  · show copyTo e.buffer (e.beginPos - octets.length) octets = _
    have hdrop : e.buffer.drop e.beginPos = e.content ++ e.buffer.drop e.endPos := by
      have hbuffer := congrArg (List.drop e.beginPos) e.buffer_eq
      rwa [drop_left' e.length_front] at hbuffer
    rw [copyTo,Nat.sub_add_cancel hroom,hdrop,append_assoc]
  · exact hlen
  · show _ = e.endPos
    rw [hlen,length_append,e.length_content]
    omega

private theorem content_copyBack (octets : List UInt8) :
    (e.copyBack octets).content = e.content ++ octets := by
  have hle := e.begin_le
  apply content_eq (e.buffer.take e.beginPos) _ (e.buffer.drop (e.endPos + octets.length))
  · show copyTo e.buffer e.endPos octets = _
    have htake : e.buffer.take e.endPos = e.buffer.take e.beginPos ++ e.content := by
      have hfront : e.buffer.take e.beginPos = (e.buffer.take e.endPos).take e.beginPos := by
        rw [take_take,min_eq_left e.begin_le]
      rw [hfront,content,take_append_drop]
    rw [copyTo,htake,append_assoc,append_assoc]
  · exact e.length_front
  · show _ = e.endPos + octets.length
    rw [e.length_front,length_append,e.length_content]
    omega

theorem content_prependBytes (octets : List UInt8) :
    (e.prependBytes octets).2.content = octets ++ e.content := by
  rw [prependBytes,content_copyFront _ (e.le_beginPos_reserveFront octets.length),
    e.content_reserveFront]

theorem content_appendBytes (octets : List UInt8) :
    (e.appendBytes octets).2.content = e.content ++ octets := by
  rw [appendBytes,content_copyBack,e.content_reserveBack]

theorem prependVarNumber_spec (varNumber : Nat) :
    (e.prependVarNumber varNumber).1 = sizeOfVarNumber varNumber ∧
      (e.prependVarNumber varNumber).2.content = writeVarNumber varNumber ++ e.content := by
  unfold prependVarNumber sizeOfVarNumber writeVarNumber
  split_ifs <;> exact ⟨rfl,by simp [content_prependBytes]⟩

theorem appendVarNumber_spec (varNumber : Nat) :
    (e.appendVarNumber varNumber).1 = sizeOfVarNumber varNumber ∧
      (e.appendVarNumber varNumber).2.content = e.content ++ writeVarNumber varNumber := by
  unfold appendVarNumber sizeOfVarNumber writeVarNumber
  split_ifs <;> exact ⟨rfl,by simp [content_appendBytes]⟩

theorem prependNonNegativeInteger_eq (integer : Nat) :
    e.prependNonNegativeInteger integer = e.prependBytes (writeNonNegativeInteger integer) := by
  unfold prependNonNegativeInteger writeNonNegativeInteger sizeOfNonNegativeInteger
  split_ifs with h
  · have hbyte : toBytes 1 integer = [UInt8.ofNat integer] := by
      show [UInt8.ofNat (integer % 256)] = _
      rw [Nat.mod_eq_of_lt (by omega)]
    rw [hbyte]
  all_goals rfl

theorem appendNonNegativeInteger_eq (integer : Nat) :
    e.appendNonNegativeInteger integer = e.appendBytes (writeNonNegativeInteger integer) := by
  unfold appendNonNegativeInteger writeNonNegativeInteger sizeOfNonNegativeInteger
  split_ifs with h
  · have hbyte : toBytes 1 integer = [UInt8.ofNat integer] := by
      show [UInt8.ofNat (integer % 256)] = _
      rw [Nat.mod_eq_of_lt (by omega)]
    rw [hbyte]
  all_goals rfl

end Contents

end Encoder

theorem length_writeNonNegativeInteger (integer : Nat) :
    (writeNonNegativeInteger integer).length = sizeOfNonNegativeInteger integer := by
  rw [writeNonNegativeInteger,length_toBytes]

section Elements

/-- The operations that the encoder and the estimator share. Each returns a number of octets. -/
structure EncodingImpl (σ : Type) where
  prependBytes : List UInt8 → σ → Nat × σ
  prependVarNumber : Nat → σ → Nat × σ
  prependNonNegativeInteger : Nat → σ → Nat × σ

def encodingBuffer : EncodingImpl Encoder where
  prependBytes octets e := e.prependBytes octets
  prependVarNumber n e := e.prependVarNumber n
  prependNonNegativeInteger n e := e.prependNonNegativeInteger n

def encodingEstimator : EncodingImpl Unit where
  prependBytes octets _ := (octets.length,())
  prependVarNumber n _ := (sizeOfVarNumber n,())
  prependNonNegativeInteger n _ := (sizeOfNonNegativeInteger n,())

inductive Item where
  | nonNegativeInteger (type value : Nat)
  | empty (type : Nat)
  | binary (type : Nat) (value : List UInt8)
  | block (e : Element)
  | nested (type : Nat) (items : List Item)

namespace EncodingImpl

variable {σ : Type} (impl : EncodingImpl σ)

def prependTypeLength (type : Nat) (value : Nat × σ) : Nat × σ :=
  let length := impl.prependVarNumber value.1 value.2
  let type := impl.prependVarNumber type length.2
  (value.1 + length.1 + type.1,type.2)

def prependNonNegativeIntegerBlock (type value : Nat) (s : σ) : Nat × σ :=
  impl.prependTypeLength type (impl.prependNonNegativeInteger value s)

def prependEmptyBlock (type : Nat) (s : σ) : Nat × σ :=
  let length := impl.prependVarNumber 0 s
  let type := impl.prependVarNumber type length.2
  (length.1 + type.1,type.2)

def prependBinaryBlock (type : Nat) (value : List UInt8) (s : σ) : Nat × σ :=
  impl.prependTypeLength type (impl.prependBytes value s)

def prependBlock (e : Element) (s : σ) : Nat × σ :=
  match e.wire with
  | some octets => impl.prependBytes octets s
  | none => impl.prependBinaryBlock e.type e.value s

mutual

def prependItem : Item → σ → Nat × σ
  | .nonNegativeInteger type value, s => impl.prependNonNegativeIntegerBlock type value s
  | .empty type, s => impl.prependEmptyBlock type s
  | .binary type value, s => impl.prependBinaryBlock type value s
  | .block e, s => impl.prependBlock e s
  | .nested type items, s => impl.prependTypeLength type (prependItems items s)

def prependItems : List Item → σ → Nat × σ
  | [], s => (0,s)
  | item :: items, s =>
    let rest := prependItems items s
    let first := prependItem item rest.2
    (rest.1 + first.1,first.2)

end

end EncodingImpl

end Elements

end KiteNdn.Encoding
