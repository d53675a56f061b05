import KiteNdn.Encoding.Codec

/-!
# Blocks from a stream

`Block::fromStream` reads type and length through an iterator that is one octet ahead, puts that
octet back, and takes the value only if the block is not too large. The sum that is compared with
the limit is one of 64-bit numbers.
-/

namespace KiteNdn.Encoding

open Tlv List

section Buffers

variable {e : Encoder}

/-- The octets are written behind the end, which stays where it is. -/
def Encoder.fill (octets : List UInt8) (e : Encoder) : Encoder :=
  ⟨Encoder.copyTo e.buffer e.beginPos octets,e.beginPos,e.endPos,e.begin_le,
    e.end_le.trans (Encoder.length_copyTo_ge _ _ _)⟩

/-- The octets stand just before what was written, and the rest of the buffer is as it was. -/
def Encoder.Prepends (octets : List UInt8) (e e' : Encoder) : Prop :=
  e'.beginPos + octets.length = e.beginPos ∧
    e'.buffer = e.buffer.take e'.beginPos ++ (octets ++ e.buffer.drop e.beginPos)

theorem Encoder.prepends_prependBytes {octets : List UInt8} (h : octets.length ≤ e.beginPos) :
    e.Prepends octets (e.prependBytes octets).2 := by
  have hroom : e.reserveFront octets.length = e := by simp [reserveFront,not_lt.mpr h]
  simp only [Prepends,prependBytes,hroom,copyFront,copyTo]
  simp [Nat.sub_add_cancel h]

theorem Encoder.Prepends.trans {front back : List UInt8} {e₁ e₂ : Encoder}
    (hback : e.Prepends back e₁) (hfront : e₁.Prepends front e₂) :
    e.Prepends (front ++ back) e₂ := by
  obtain ⟨hpos,hbuffer⟩ := hback
  obtain ⟨hpos',hbuffer'⟩ := hfront
  have hend := e.begin_le.trans e.end_le
  have hlen : (e.buffer.take e₁.beginPos).length = e₁.beginPos := by
    rw [length_take]
    omega
  constructor
  · rw [length_append]
    omega
  · rw [hbuffer',hbuffer,List.take_append_of_le_length (by omega),List.take_take,
      min_eq_left (by omega),drop_left' hlen]
    simp

theorem Encoder.prepends_prependVarNumber {number : Nat}
    (h : (writeVarNumber number).length ≤ e.beginPos) :
    e.Prepends (writeVarNumber number) (e.prependVarNumber number).2 := by
  have htwo : ∀ marker octets, ([marker] ++ octets).length ≤ e.beginPos →
      e.Prepends ([marker] ++ octets)
        ((e.prependBytes octets).2.prependBytes [marker]).2 := by
    intro marker octets hle
    rw [length_append,length_singleton] at hle
    have hback : e.Prepends octets (e.prependBytes octets).2 := prepends_prependBytes (by omega)
    apply hback.trans
    apply prepends_prependBytes
    rw [length_singleton]
    have hpos := hback.1
    omega
  unfold writeVarNumber at h ⊢
  unfold prependVarNumber
  split_ifs at h ⊢
  · exact prepends_prependBytes h
  · exact htwo _ _ h
  · exact htwo _ _ h
  · exact htwo _ _ h

theorem Encoder.buffer_header (type : Nat) (value : List UInt8) :
    let eb := (make (sizeOfVarNumber type + sizeOfVarNumber value.length + value.length)
      value.length).fill value
    ((eb.prependVarNumber value.length).2.prependVarNumber type).2.buffer =
      Block.encode ⟨type,value⟩ := by
  intro eb
  have htype := length_writeVarNumber type
  have hlength := length_writeVarNumber value.length
  have hpos : eb.beginPos = sizeOfVarNumber type + sizeOfVarNumber value.length := by
    have htwo : 0 < sizeOfVarNumber type := by
      unfold sizeOfVarNumber
      split_ifs <;> omega
    simp only [eb,fill,make]
    rw [if_pos (by omega)]
    omega
  have hbuffer : eb.buffer.drop eb.beginPos = value := by
    have hmake : (make (sizeOfVarNumber type + sizeOfVarNumber value.length + value.length)
        value.length).beginPos = sizeOfVarNumber type + sizeOfVarNumber value.length := hpos
    rw [hpos]
    simp only [eb,fill,copyTo,hmake]
    rw [drop_left' (by simp [make])]
    simp [make]
  have hfirst : eb.Prepends (writeVarNumber value.length) (eb.prependVarNumber value.length).2 :=
    prepends_prependVarNumber (by omega)
  have hbegin := hfirst.1
  have hsecond : (eb.prependVarNumber value.length).2.Prepends (writeVarNumber type)
      ((eb.prependVarNumber value.length).2.prependVarNumber type).2 :=
    prepends_prependVarNumber (by omega)
  have hall := hfirst.trans hsecond
  obtain ⟨hzero,hall⟩ := hall
  rw [length_append] at hzero
  rw [hall,hbuffer,show ((eb.prependVarNumber value.length).2.prependVarNumber type).2.beginPos = 0
    by omega,List.take_zero,Block.encode]
  rfl

end Buffers

end KiteNdn.Encoding

namespace KiteNdn.Tlv

open Framework Encoding List

/-- What is left of an `std::istream`, and whether it is in a failed state. -/
structure IStream where
  octets : List UInt8
  failed : Bool := false
  deriving DecidableEq, Repr

namespace IStream

def sequence (is : IStream) : List UInt8 := if is.failed then [] else is.octets

/-- The stream behind an iterator, which has read the octet that it is at. -/
def behind : List UInt8 → IStream
  | [] => ⟨[],true⟩
  | _ :: octets => ⟨octets,false⟩

def putback (octet : UInt8) (is : IStream) : IStream := { is with octets := octet :: is.octets }

def read (n : Int) (is : IStream) : List UInt8 × IStream :=
  if is.failed then ([],is)
  else (is.octets.take n.toNat,⟨is.octets.drop n.toNat,decide (n < 0 ∨ is.octets.length < n.toNat)⟩)

end IStream

def maxSizeOfBlockFromStream : Nat := 8800

namespace Element

/-- Where the iterator is after an exception from `readType` or `readVarNumber`. -/
def brokenAt (octets : List UInt8) : List UInt8 :=
  match Iterator.generic.readVarNumber octets with
  | .error _ => []
  | .ok (type,rest) => if type = 0 ∨ type > 0xFFFFFFFF then rest else []

def fromStream (is : IStream) : Except String Element × IStream :=
  match Iterator.generic.readHeader is.sequence with
  | .error message => (.error message,.behind (brokenAt is.sequence))
  | .ok (type,length,rest) =>
    let is := match rest with
      | [] => IStream.behind rest
      | octet :: _ => (IStream.behind rest).putback octet
    let tlSize := sizeOfVarNumber type + sizeOfVarNumber length
    let total := (tlSize + length) % 2^64
    if total > maxSizeOfBlockFromStream then (.error "TLV-LENGTH from stream exceeds limit",is)
    else
      let r := is.read (wrap64 length)
      if r.1.length ≠ length then
        (.error "Not enough bytes from stream to fully parse TLV",r.2)
      else
        let eb := (Encoder.make total length).fill r.1
        (ofRange ((eb.prependVarNumber length).2.prependVarNumber type).2.buffer,r.2)

section Reading

variable {is : IStream} {type length : Nat} {rest : List UInt8}

theorem fromStream_of_readHeader
    (h : Iterator.generic.readHeader is.sequence = .ok (type,length,rest)) :
    fromStream is = if maxSizeOfBlockFromStream < (sizeOfVarNumber type + sizeOfVarNumber length +
        length) % 2^64 then (.error "TLV-LENGTH from stream exceeds limit",⟨rest,rest.isEmpty⟩)
      else
        let r := IStream.read (wrap64 length) ⟨rest,rest.isEmpty⟩
        if r.1.length ≠ length then
          (.error "Not enough bytes from stream to fully parse TLV",r.2)
        else
          let eb := (Encoder.make ((sizeOfVarNumber type + sizeOfVarNumber length + length) % 2^64)
            length).fill r.1
          (ofRange ((eb.prependVarNumber length).2.prependVarNumber type).2.buffer,r.2) := by
  unfold fromStream
  rw [h]
  cases rest <;> rfl

theorem fromStream_small
    (h : Iterator.generic.readHeader is.sequence = .ok (type,length,rest))
    (hsize : sizeOfVarNumber type + sizeOfVarNumber length + length ≤ maxSizeOfBlockFromStream) :
    fromStream is = if rest.length < length then
        (.error "Not enough bytes from stream to fully parse TLV",⟨[],true⟩)
      else (ofRange (Block.encode ⟨type,rest.take length⟩),
        ⟨rest.drop length,rest.isEmpty⟩) := by
  rw [maxSizeOfBlockFromStream] at hsize
  have hlength : wrap64 length = length := wrap64_of_fits (by omega) (by omega)
  rw [fromStream_of_readHeader h,Nat.mod_eq_of_lt (by omega),maxSizeOfBlockFromStream,
    if_neg (by omega),hlength]
  have hread : IStream.read length ⟨rest,rest.isEmpty⟩ =
      (rest.take length,⟨rest.drop length,rest.isEmpty || decide (rest.length < length)⟩) := by
    cases rest <;> simp [IStream.read]
  simp only [hread,length_take]
  by_cases hshort : rest.length < length
  · rw [if_pos hshort,if_pos (by omega),List.drop_eq_nil_of_le (by omega)]
    simp [hshort]
  · have htake : (rest.take length).length = length := by
      rw [length_take]
      omega
    have hbuffer := Encoder.buffer_header type (rest.take length)
    simp only [htake] at hbuffer
    rw [if_neg hshort,if_neg (by omega),hbuffer]
    simp [hshort]

/-- A block that is too large is not taken, and its value stays in the stream. A sum that has
wrapped around asks for a negative number of octets. -/
theorem fromStream_large
    (h : Iterator.generic.readHeader is.sequence = .ok (type,length,rest))
    (hsize : maxSizeOfBlockFromStream < sizeOfVarNumber type + sizeOfVarNumber length + length) :
    ∃ message failed, fromStream is = (.error message,⟨rest,failed⟩) := by
  have hlength : length < 2^64 := by
    obtain ⟨mid,_,hread⟩ := Iterator.readHeader_eq_ok.mp h
    obtain ⟨form,hfits,_⟩ := readVarNumber_eq_ok.mp hread
    exact hfits.lt
  have htype := sizeOfVarNumber_le type
  have hlen := sizeOfVarNumber_le length
  rw [fromStream_of_readHeader h]
  split_ifs with hlimit
  · exact ⟨_,_,rfl⟩
  · rw [maxSizeOfBlockFromStream] at hsize hlimit
    have hnegative : wrap64 length < 0 := by
      rw [wrap64_of_large (by omega) (by omega)]
      omega
    have hread : ∀ failed,
        IStream.read (wrap64 length) ⟨rest,failed⟩ = ([],⟨rest,true⟩) := by
      intro failed
      cases failed <;> simp [IStream.read,hnegative,Int.toNat_of_nonpos hnegative.le]
    simp only [hread,List.length_nil]
    rw [if_pos (by omega)]
    exact ⟨_,_,rfl⟩

theorem fromStream_framed {b : Block} {wire : List UInt8} (h : Framed b wire)
    (hsequence : is.sequence = wire ++ rest) (hsize : b.size ≤ maxSizeOfBlockFromStream) :
    ∃ e failed, fromStream is = (.ok e,⟨rest,failed⟩) ∧ e.toBlock = b ∧
      e.wire = some b.encode := by
  have hread := h.readHeader .generic rest
  rw [← hsequence] at hread
  have hvalid : b.Valid := by
    rw [Block.size_eq,maxSizeOfBlockFromStream] at hsize
    exact ⟨h.1,h.2.1,by omega⟩
  have hrange : ofRange b.encode = .ok (encoded b hvalid) := ofRange_eq_ok.mpr rfl
  rw [fromStream_small hread (by rwa [← Block.size_eq]),if_neg (by simp)]
  refine ⟨encoded b hvalid,(b.value ++ rest).isEmpty,?_,rfl,rfl⟩
  rw [take_left,drop_left,hrange]

theorem framed_of_fromStream {e : Element} (h : (fromStream is).1 = .ok e) :
    e.toBlock.size ≤ maxSizeOfBlockFromStream ∧ e.wire = some e.toBlock.encode ∧
      ∃ wire rest, Framed e.toBlock wire ∧ is.sequence = wire ++ rest := by
  cases hread : Iterator.generic.readHeader is.sequence with
  | error message => simp [fromStream,hread] at h
  | ok r =>
    obtain ⟨type,length,rest⟩ := r
    by_cases hlarge : maxSizeOfBlockFromStream <
        sizeOfVarNumber type + sizeOfVarNumber length + length
    · obtain ⟨message,failed,heq⟩ := fromStream_large hread hlarge
      simp [heq] at h
    · rw [fromStream_small hread (not_lt.mp hlarge)] at h
      split_ifs at h with hshort
      obtain ⟨header,value,tail,hsequence,rfl,rfl,hframed⟩ :=
        exists_framed_of_readHeader hread (not_lt.mp hshort)
      rw [take_left] at h
      have hvalid : Block.Valid ⟨type,value⟩ := by
        rw [maxSizeOfBlockFromStream] at hlarge
        exact ⟨hframed.1,hframed.2.1,by dsimp only; omega⟩
      have hrange : ofRange (Block.encode ⟨type,value⟩) =
          .ok (encoded ⟨type,value⟩ hvalid) := ofRange_eq_ok.mpr rfl
      obtain rfl := Except.ok.inj (hrange.symm.trans h)
      refine ⟨?_,rfl,header ++ value,tail,hframed,by simpa using hsequence⟩
      rw [Block.size_eq]
      exact not_lt.mp hlarge

end Reading

/-- A block is taken from the stream exactly if it is at the front and its shortest encoding is
within the limit; type and value are those in the stream. Such a block is always taken, and what
follows it is left. The value of a block that is too large is not read. -/
theorem fromStream_spec (is : IStream) :
    (∀ e, (fromStream is).1 = .ok e ↔
      e.toBlock.size ≤ maxSizeOfBlockFromStream ∧ e.wire = some e.toBlock.encode ∧
        ∃ wire rest, Framed e.toBlock wire ∧ is.sequence = wire ++ rest) ∧
    (∀ b wire rest, Framed b wire → is.sequence = wire ++ rest →
      b.size ≤ maxSizeOfBlockFromStream →
        (∃ e, (fromStream is).1 = .ok e ∧ e.toBlock = b) ∧ (fromStream is).2.octets = rest) ∧
    ∀ type length rest, Iterator.generic.readHeader is.sequence = .ok (type,length,rest) →
      maxSizeOfBlockFromStream < sizeOfVarNumber type + sizeOfVarNumber length + length →
        (∃ message, (fromStream is).1 = .error message) ∧ (fromStream is).2.octets = rest := by
  refine ⟨fun e => ⟨framed_of_fromStream,?_⟩,?_,?_⟩
  · rintro ⟨hsize,hwire,wire,rest,hframed,hsequence⟩
    obtain ⟨e',failed,heq,hblock,hwire'⟩ := fromStream_framed hframed hsequence hsize
    rw [heq]
    apply congrArg Except.ok
    exact ext_wire hblock (hwire'.trans hwire.symm)
  · intro b wire rest hframed hsequence hsize
    obtain ⟨e,failed,heq,hblock,_⟩ := fromStream_framed hframed hsequence hsize
    rw [heq]
    exact ⟨⟨e,rfl,hblock⟩,rfl⟩
  · intro type length rest hread hlarge
    obtain ⟨message,failed,heq⟩ := fromStream_large hread hlarge
    rw [heq]
    exact ⟨⟨message,rfl⟩,rfl⟩

/-- The octets of a value that breaks off are read before the exception, and a block whose type is
not in its shortest form is taken with more octets than the limit. -/
theorem fromStream_beyond : (∃ message, fromStream ⟨[1,2,7],false⟩ = (.error message,⟨[],true⟩)) ∧
      ∃ wire e failed, wire.length > maxSizeOfBlockFromStream ∧ Framed e.toBlock wire ∧
        fromStream ⟨wire,false⟩ = (.ok e,⟨[],failed⟩) := by
  constructor
  · rw [fromStream_small (show Iterator.generic.readHeader _ = .ok (1,2,[7]) from rfl) (by decide)]
    exact ⟨_,rfl⟩
  · have hlength : (replicate 8796 (0 : UInt8)).length = 8796 := List.length_replicate
    let b : Block := ⟨1,replicate 8796 0⟩
    let wire := Form.two.write 1 ++ (Form.two.write 8796 ++ b.value)
    have hframed : Framed b wire := by
      refine ⟨by decide,by decide,.two,.two,by decide,?_,?_⟩
      · show Form.two.Fits (replicate 8796 (0 : UInt8)).length
        rw [hlength]
        decide
      · show _ = Form.two.write 1 ++ (Form.two.write (replicate 8796 (0 : UInt8)).length ++ _)
        rw [hlength]
    have hsize : b.size ≤ maxSizeOfBlockFromStream := by
      rw [Block.size_eq]
      show sizeOfVarNumber 1 + sizeOfVarNumber (replicate 8796 (0 : UInt8)).length +
        (replicate 8796 (0 : UInt8)).length ≤ _
      rw [hlength]
      decide
    have hsequence : IStream.sequence ⟨wire,false⟩ = wire ++ [] := by simp [IStream.sequence]
    obtain ⟨e,failed,heq,hblock,_⟩ := fromStream_framed hframed hsequence hsize
    refine ⟨wire,e,failed,?_,by rw [hblock]; exact hframed,heq⟩
    simp only [wire,length_append,Form.length_write]
    show 8800 < 3 + (3 + (replicate 8796 (0 : UInt8)).length)
    rw [hlength]
    decide

end Element

end KiteNdn.Tlv
