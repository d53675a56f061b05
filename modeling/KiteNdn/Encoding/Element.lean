import KiteNdn.Encoding.Readers

/-!
# Blocks and their octets

A block that was decoded keeps its octets, with the forms of type and length that its sender chose.

`Block::parse` puts one element after the other into a list that the block keeps, and returns at
once when that list is not empty. A length that is too large clears the list before the exception; a
type or a length that cannot be read does not.
-/

namespace KiteNdn.Tlv

open List Option Except Form

variable {buffer : List UInt8} {b : Block}

section Blocks

def Block.size (b : Block) : Nat := b.encode.length

theorem Block.size_eq (b : Block) :
    b.size = sizeOfVarNumber b.type + sizeOfVarNumber b.value.length + b.value.length := by
  rw [size,encode,length_append,length_append,length_writeVarNumber,length_writeVarNumber]

theorem Block.length_value_le (b : Block) : b.value.length ≤ b.encode.length := by
  have hsize := b.size_eq
  rw [size] at hsize
  omega

theorem sizeOfVarNumber_le (number : Nat) : sizeOfVarNumber number ≤ 9 := by
  unfold sizeOfVarNumber
  split_ifs <;> omega

theorem sizeOfNonNegativeInteger_le (integer : Nat) : sizeOfNonNegativeInteger integer ≤ 8 := by
  unfold sizeOfNonNegativeInteger
  split_ifs <;> omega

end Blocks

section Framing

/-- Octets that are read as the block. -/
def Framed (b : Block) (octets : List UInt8) : Prop :=
  0 < b.type ∧ b.type < 2^32 ∧ ∃ t l : Form, t.Fits b.type ∧ l.Fits b.value.length ∧
    octets = t.write b.type ++ (l.write b.value.length ++ b.value)

theorem framed_encode (h : b.Valid) : Framed b b.encode := by
  refine ⟨h.1,h.2.1,.shortest b.type,.shortest b.value.length,?_,?_,?_⟩
  · exact fits_shortest (lt_trans h.2.1 (by decide))
  · exact fits_shortest h.2.2
  · rw [Block.encode,writeVarNumber_eq,writeVarNumber_eq,append_assoc]

variable {octets : List UInt8}

theorem Framed.readHeader (h : Framed b octets) (it : Iterator) (rest : List UInt8) :
    it.readHeader (octets ++ rest) = .ok (b.type,b.value.length,b.value ++ rest) := by
  obtain ⟨hpos,hlt,t,l,ht,hl,rfl⟩ := h
  apply Iterator.readHeader_eq_ok.mpr
  refine ⟨l.write b.value.length ++ (b.value ++ rest),?_,readVarNumber_write hl _⟩
  rw [readType_eq_ok]
  exact ⟨hpos,hlt,t,ht,by simp⟩

theorem exists_framed_of_readHeader {it : Iterator} {rest : List UInt8} {type length : Nat}
    (h : it.readHeader buffer = .ok (type,length,rest)) (hle : length ≤ rest.length) :
    ∃ header value tail, buffer = header ++ (value ++ tail) ∧ rest = value ++ tail ∧
      value.length = length ∧ Framed ⟨type,value⟩ (header ++ value) := by
  obtain ⟨mid,htype,hlength⟩ := Iterator.readHeader_eq_ok.mp h
  obtain ⟨hpos,hlt,t,ht,rfl⟩ := readType_eq_ok.mp htype
  obtain ⟨l,hl,rfl⟩ := readVarNumber_eq_ok.mp hlength
  have hlen : (rest.take length).length = length := by
    rw [length_take]
    omega
  refine ⟨t.write type ++ l.write length,rest.take length,rest.drop length,?_,?_,hlen,?_⟩
  · rw [take_append_drop,append_assoc]
  · rw [take_append_drop]
  · refine ⟨hpos,hlt,t,l,ht,?_,?_⟩
    · show l.Fits (rest.take length).length
      rw [hlen]
      exact hl
    · show _ = t.write type ++ (l.write (rest.take length).length ++ rest.take length)
      rw [hlen,append_assoc]

theorem Framed.value_lt_length (h : Framed b octets) :
    b.value.length + 1 < octets.length := by
  obtain ⟨_,_,t,l,_,_,rfl⟩ := h
  rw [length_append,length_append,length_write,length_write,Form.size,Form.size]
  omega

theorem Framed.two_le_length (h : Framed b octets) : 2 ≤ octets.length :=
  (Nat.le_add_left 2 b.value.length).trans h.value_lt_length

/-- Octets of the size that the encoder needs are those that it writes. -/
theorem Framed.eq_encode_iff (h : Framed b octets) :
    b.size ≤ octets.length ∧ (octets.length = b.size ↔ octets = b.encode) := by
  obtain ⟨_,_,t,l,ht,hl,rfl⟩ := h
  have htype := size_shortest_le ht
  have hlength := size_shortest_le hl
  rw [size_shortest] at htype hlength
  have hoctets : (t.write b.type ++ (l.write b.value.length ++ b.value)).length =
      t.size + (l.size + b.value.length) := by
    rw [length_append,length_append,length_write,length_write]
  constructor
  · rw [hoctets,Block.size_eq]
    omega
  · constructor
    · intro heq
      rw [hoctets,Block.size_eq] at heq
      have ht' : t = .shortest b.type :=
        eq_shortest_of_size (by rw [size_shortest]; omega)
      have hl' : l = .shortest b.value.length :=
        eq_shortest_of_size (by rw [size_shortest]; omega)
      rw [ht',hl',Block.encode,writeVarNumber_eq,writeVarNumber_eq,append_assoc]
    · intro heq
      rw [heq]
      rfl

end Framing

/-- A block as it is kept: the value, and the octets of the whole block if it has been encoded or
was decoded. -/
structure Element extends Block where
  wire : Option (List UInt8)
  framed : ∀ octets ∈ wire, Framed toBlock octets

variable {value : List UInt8} {e : Element} {elements : List Element} {offset : Nat}

namespace Element

theorem ext_wire {f : Element} (hblock : e.toBlock = f.toBlock) (hwire : e.wire = f.wire) :
    e = f := by
  cases e
  cases f
  cases hblock
  cases hwire
  rfl

instance : DecidableEq Element := fun e f =>
  if h : e.toBlock = f.toBlock ∧ e.wire = f.wire then isTrue (ext_wire h.1 h.2)
  else isFalse fun heq => h (heq ▸ ⟨rfl,rfl⟩)

def hasWire (e : Element) : Bool := e.wire.isSome

def size (e : Element) : Nat :=
  match e.wire with
  | some octets => octets.length
  | none => e.toBlock.size

def ofValue (type : Nat) (value : List UInt8) : Element := ⟨⟨type,value⟩,none,by simp⟩

def encoded (b : Block) (h : b.Valid) : Element :=
  ⟨b,some b.encode,fun _ hoctets => mem_some_iff.mp hoctets ▸ framed_encode h⟩

def octets (e : Element) : List UInt8 := e.wire.getD e.toBlock.encode

section Decoding

/-- The first octets of a buffer are those of the element. -/
def IsFront (e : Element) (buffer : List UInt8) : Prop :=
  ∃ octets rest, e.wire = some octets ∧ buffer = octets ++ rest

theorem IsFront.unique {f : Element} (he : e.IsFront buffer) (hf : f.IsFront buffer) : e = f := by
  obtain ⟨octets,rest,hwire,rfl⟩ := he
  obtain ⟨octets',rest',hwire',hbuffer⟩ := hf
  have hread := (e.framed octets hwire).readHeader .contiguous rest
  rw [hbuffer,(f.framed octets' hwire').readHeader .contiguous rest'] at hread
  obtain ⟨htype,hread'⟩ := Prod.mk.inj (ok.inj hread)
  obtain ⟨hlength,hrest⟩ := Prod.mk.inj hread'
  obtain ⟨hvalue,rfl⟩ := append_inj hrest hlength
  apply ext_wire
  · rw [show e.toBlock = ⟨e.type,e.value⟩ from rfl,← htype,← hvalue]
  · rw [hwire,hwire',append_cancel_right hbuffer]

theorem IsFront.readHeader (h : e.IsFront buffer) (it : Iterator) :
    ∃ rest, it.readHeader buffer = .ok (e.type,e.value.length,e.value ++ rest) := by
  obtain ⟨octets,rest,hwire,rfl⟩ := h
  exact ⟨rest,(e.framed octets hwire).readHeader it rest⟩

section Cuts

variable {it : Iterator} {buffer rest : List UInt8} {type length : Nat}

private theorem framed_copy (h : it.readHeader buffer = .ok (type,length,rest))
    (hle : ¬length > rest.length) {wire : List UInt8}
    (hwire : wire = buffer.take (buffer.length - rest.length + length)) :
    Framed ⟨type,wire.drop (wire.length - length)⟩ wire := by
  obtain ⟨header,value,tail,rfl,rfl,rfl,hframed⟩ :=
    exists_framed_of_readHeader h (not_lt.mp hle)
  have hlen : (header ++ (value ++ tail)).length - (value ++ tail).length + value.length =
      (header ++ value).length := by
    simp only [length_append]
    omega
  rw [hlen,← append_assoc,take_left] at hwire
  rw [hwire,length_append,Nat.add_sub_cancel,drop_left]
  exact hframed

private theorem exists_parts (h : it.readHeader (buffer.drop offset) = .ok (type,length,rest))
    (hle : ¬length > rest.length) :
    ∃ front header value tail, buffer = front ++ (header ++ (value ++ tail)) ∧
      front.length = offset ∧ rest = value ++ tail ∧ value.length = length ∧
        Framed ⟨type,value⟩ (header ++ value) := by
  obtain ⟨header,value,tail,hbuffer,hrest,hlength,hframed⟩ :=
    exists_framed_of_readHeader h (not_lt.mp hle)
  have hoffset : offset ≤ buffer.length := by
    by_contra hgt
    have htwo := hframed.two_le_length
    have hlen := congrArg List.length hbuffer
    simp only [length_drop,length_append] at hlen htwo
    omega
  refine ⟨buffer.take offset,header,value,tail,?_,?_,hrest,hlength,hframed⟩
  · rw [← hbuffer,take_append_drop]
  · rw [length_take]
    omega

private theorem slices (front header value tail : List UInt8) :
    let buffer := front ++ (header ++ (value ++ tail))
    let pos := buffer.length - (value ++ tail).length
    (buffer.drop pos).take value.length = value ∧
      (buffer.take (pos + value.length)).drop front.length = header ++ value := by
  intro buffer pos
  have hpos : pos = front.length + header.length := by
    simp only [pos,buffer,length_append]
    omega
  simp only [hpos,buffer]
  constructor
  · rw [← drop_drop,drop_left,drop_left,take_left]
  · rw [Nat.add_assoc,take_length_add_append,drop_left,take_length_add_append,
      take_left]

private theorem framed_slice (h : it.readHeader (buffer.drop offset) = .ok (type,length,rest))
    (hle : ¬length > rest.length) {pos : Nat} (hpos : pos = buffer.length - rest.length) :
    Framed ⟨type,(buffer.drop pos).take length⟩ ((buffer.take (pos + length)).drop offset) := by
  obtain ⟨front,header,value,tail,rfl,rfl,rfl,rfl,hframed⟩ := exists_parts h hle
  obtain ⟨hvalue,hwire⟩ := slices front header value tail
  rw [hpos,hvalue,hwire]
  exact hframed

end Cuts

def ofSpan (buffer : List UInt8) : Except String Element :=
  match h : Iterator.contiguous.readHeader buffer with
  | .error message => .error message
  | .ok (type,length,rest) =>
    if hle : length > rest.length then
      .error "Not enough bytes in the buffer to fully parse TLV"
    else
      let wire := buffer.take (buffer.length - rest.length + length)
      .ok ⟨⟨type,wire.drop (wire.length - length)⟩,some wire,fun _ hwire =>
        mem_some_iff.mp hwire ▸ framed_copy h hle rfl⟩

def fromBuffer (buffer : List UInt8) : Option Element :=
  match h : Iterator.contiguous.readHeader? buffer with
  | none => none
  | some (type,length,rest) =>
    if hle : length > rest.length then none
    else
      let wire := buffer.take (buffer.length - rest.length + length)
      some ⟨⟨type,wire.drop (wire.length - length)⟩,some wire,fun _ hwire =>
        mem_some_iff.mp hwire ▸ framed_copy (Iterator.readHeader?_eq_some.mp h) hle rfl⟩

def fromBufferAt (buffer : List UInt8) (offset : Nat) : Option Element :=
  match h : Iterator.contiguous.readHeader? (buffer.drop offset) with
  | none => none
  | some (type,length,rest) =>
    if hle : length > rest.length then none
    else
      let pos := buffer.length - rest.length
      some ⟨⟨type,(buffer.drop pos).take length⟩,some ((buffer.take (pos + length)).drop offset),
        fun _ hwire => mem_some_iff.mp hwire ▸
          framed_slice (Iterator.readHeader?_eq_some.mp h) hle rfl⟩

private theorem isFront_of_ofSpan (h : ofSpan buffer = .ok e) : e.IsFront buffer := by
  unfold ofSpan at h
  split at h
  · exact absurd h (by simp)
  · split_ifs at h
    rw [← ok.inj h]
    exact ⟨_,_,rfl,(take_append_drop _ _).symm⟩

theorem ofSpan_eq_ok : ofSpan buffer = .ok e ↔ e.IsFront buffer := by
  constructor
  · exact isFront_of_ofSpan
  · intro hfront
    cases h : ofSpan buffer with
    | ok f => rw [(isFront_of_ofSpan h).unique hfront]
    | error message =>
      obtain ⟨rest,hread⟩ := hfront.readHeader .contiguous
      unfold ofSpan at h
      split at h
      · simp_all
      · simp_all

private theorem isFront_of_fromBuffer (h : fromBuffer buffer = some e) : e.IsFront buffer := by
  unfold fromBuffer at h
  split at h
  · exact absurd h (by simp)
  · split_ifs at h
    rw [← some.inj h]
    exact ⟨_,_,rfl,(take_append_drop _ _).symm⟩

theorem fromBuffer_eq_some : fromBuffer buffer = some e ↔ e.IsFront buffer := by
  constructor
  · exact isFront_of_fromBuffer
  · intro hfront
    cases h : fromBuffer buffer with
    | some f => rw [(isFront_of_fromBuffer h).unique hfront]
    | none =>
      obtain ⟨rest,hread⟩ := hfront.readHeader .contiguous
      have hread := Iterator.readHeader?_eq_some.mpr hread
      unfold fromBuffer at h
      split at h
      · simp_all
      · simp_all

private theorem isFront_of_fromBufferAt (h : fromBufferAt buffer offset = some e) :
    e.IsFront (buffer.drop offset) := by
  unfold fromBufferAt at h
  split at h
  · exact absurd h (by simp)
  · rename_i hread
    split_ifs at h with hle
    rw [← some.inj h]
    obtain ⟨front,header,value,tail,rfl,rfl,rfl,rfl,_⟩ :=
      exists_parts (Iterator.readHeader?_eq_some.mp hread) hle
    refine ⟨header ++ value,tail,?_,?_⟩
    · exact congrArg some (slices front header value tail).2
    · rw [drop_left,append_assoc]

theorem fromBufferAt_eq_some :
    fromBufferAt buffer offset = some e ↔ e.IsFront (buffer.drop offset) := by
  constructor
  · exact isFront_of_fromBufferAt
  · intro hfront
    cases h : fromBufferAt buffer offset with
    | some f => rw [(isFront_of_fromBufferAt h).unique hfront]
    | none =>
      obtain ⟨rest,hread⟩ := hfront.readHeader .contiguous
      have hread := Iterator.readHeader?_eq_some.mpr hread
      unfold fromBufferAt at h
      split at h
      · simp_all
      · simp_all

/-- The decoders accept the same octets with the same result. -/
theorem fromBuffer_eq_toOption (buffer : List UInt8) :
    fromBuffer buffer = (ofSpan buffer).toOption := by
  apply Option.ext
  intro e
  rw [fromBuffer_eq_some,← ofSpan_eq_ok]
  cases ofSpan buffer <;> simp [Except.toOption]

theorem fromBufferAt_eq (buffer : List UInt8) (offset : Nat) :
    fromBufferAt buffer offset = fromBuffer (buffer.drop offset) := by
  apply Option.ext
  intro e
  rw [fromBufferAt_eq_some,fromBuffer_eq_some]

end Decoding

section Parsing

theorem framed_subElement {it : Iterator} {octets rest : List UInt8} {type length : Nat}
    (h : it.readHeader octets = .ok (type,length,rest))
    (hle : ¬length > rest.length) :
    Framed ⟨type,rest.take length⟩ (octets.take (octets.length - (rest.drop length).length)) := by
  obtain ⟨header,value,tail,rfl,rfl,rfl,hframed⟩ :=
    exists_framed_of_readHeader h (not_lt.mp hle)
  have hlen : (header ++ (value ++ tail)).length - tail.length = (header ++ value).length := by
    simp only [length_append]
    omega
  rw [take_left,drop_left,hlen,← append_assoc,take_left]
  exact hframed

def parseElements : Nat → List UInt8 → Except String (List Element)
  | 0, _ => .ok []
  | fuel + 1, octets =>
    if octets = [] then .ok []
    else
      match h : Iterator.contiguous.readHeader octets with
      | .error message => .error message
      | .ok (type,length,rest) =>
        if hle : length > rest.length then
          .error s!"TLV-LENGTH of sub-element of type {type} exceeds TLV-VALUE boundary of parent block"
        else
          match parseElements fuel (rest.drop length) with
          | .error message => .error message
          | .ok elements =>
            .ok (⟨⟨type,rest.take length⟩,
              some (octets.take (octets.length - (rest.drop length).length)),fun _ hwire =>
                mem_some_iff.mp hwire ▸ framed_subElement h hle⟩ :: elements)

def parse (value : List UInt8) : Except String (List Element) := parseElements value.length value

def allOctets (elements : List Element) : List UInt8 := elements.flatMap octets

@[simp] theorem allOctets_nil : allOctets [] = [] := rfl

@[simp] theorem allOctets_cons (e : Element) (es : List Element) :
    allOctets (e :: es) = e.octets ++ allOctets es := rfl

theorem octets_of_wire {wire : List UInt8} (h : e.wire = some wire) : e.octets = wire := by
  rw [octets,h]
  rfl

theorem framed_octets (h : e.hasWire = true) : Framed e.toBlock e.octets := by
  obtain ⟨wire,hwire⟩ := isSome_iff_exists.mp h
  rw [octets_of_wire hwire]
  exact e.framed wire hwire

theorem octets_ne_nil (h : e.hasWire = true) : e.octets ≠ [] := by
  intro hnil
  have htwo := (framed_octets h).two_le_length
  rw [hnil] at htwo
  exact absurd htwo (by decide)

private theorem parseElements_cons (h : e.hasWire = true) (fuel : Nat) (rest : List UInt8) :
    parseElements (fuel + 1) (e.octets ++ rest) =
      (parseElements fuel rest).map fun elements => e :: elements := by
  have hread := (framed_octets h).readHeader .contiguous rest
  have hne : e.octets ++ rest ≠ [] := by
    intro hnil
    exact octets_ne_nil h (append_eq_nil_iff.mp hnil).1
  rw [parseElements,if_neg hne]
  split
  · rename_i hread'
    exact absurd (hread.symm.trans hread') (by simp)
  · rename_i hread'
    obtain ⟨rfl,rfl,rfl⟩ := by simpa using hread.symm.trans hread'
    rw [dif_neg (by rw [length_append]; omega)]
    have hdrop : (e.value ++ rest).drop e.value.length = rest := drop_left
    have htake : (e.octets ++ rest).take ((e.octets ++ rest).length - rest.length) = e.octets := by
      rw [length_append,Nat.add_sub_cancel,take_left]
    simp only [hdrop,htake,take_left]
    cases parseElements fuel rest with
    | error message => rfl
    | ok elements =>
      obtain ⟨wire,hwire⟩ := isSome_iff_exists.mp h
      apply congrArg Except.ok
      apply congrArg (fun f => f :: elements)
      apply ext_wire
      · rfl
      · show some e.octets = e.wire
        rw [octets_of_wire hwire,hwire]

private theorem exists_of_parseElements {fuel : Nat} (hne : value ≠ [])
    (h : parseElements (fuel + 1) value = .ok elements) :
    ∃ e es rest, e.hasWire = true ∧ value = e.octets ++ rest ∧
      parseElements fuel rest = .ok es ∧ elements = e :: es := by
  rw [parseElements,if_neg hne] at h
  split at h
  · exact absurd h (by simp)
  · rename_i hread
    split_ifs at h with hle
    split at h
    · exact absurd h (by simp)
    · rename_i es hes
      refine ⟨_,es,_,rfl,?_,hes,(ok.inj h).symm⟩
      obtain ⟨header,inner,tail,rfl,rfl,rfl,_⟩ := exists_framed_of_readHeader hread (not_lt.mp hle)
      rw [octets_of_wire rfl,drop_left,length_append,length_append,← Nat.add_assoc,
        Nat.add_sub_cancel,← length_append,← append_assoc,take_left]

private theorem parseElements_nil (fuel : Nat) : parseElements fuel [] = .ok [] := by
  cases fuel with
  | zero => rfl
  | succ fuel => rw [parseElements,if_pos rfl]

private theorem parseElements_eq_ok (fuel : Nat) (hfuel : value.length ≤ fuel) :
    parseElements fuel value = .ok elements ↔
      (∀ e ∈ elements, e.hasWire = true) ∧ allOctets elements = value := by
  induction fuel generalizing value elements with
  | zero =>
    have hnil : value = [] := eq_nil_of_length_eq_zero (Nat.le_zero.mp hfuel)
    rw [hnil,parseElements_nil]
    exact nil_iff
  | succ fuel ih =>
    by_cases hnil : value = []
    · rw [hnil,parseElements_nil]
      exact nil_iff
    · constructor
      · intro h
        obtain ⟨e,es,rest,hwire,rfl,hes,rfl⟩ := exists_of_parseElements hnil h
        have htwo := (framed_octets hwire).two_le_length
        rw [length_append] at hfuel
        obtain ⟨hall,rfl⟩ := (ih (by omega)).mp hes
        exact ⟨forall_mem_cons.mpr ⟨hwire,hall⟩,rfl⟩
      · intro ⟨hall,heq⟩
        cases elements with
        | nil => exact absurd heq.symm hnil
        | cons e es =>
          have hcons := forall_mem_cons.mp hall
          have htwo := (framed_octets hcons.1).two_le_length
          rw [← heq,allOctets_cons,length_append] at hfuel
          rw [← heq,allOctets_cons,parseElements_cons hcons.1,
            (ih (by omega)).mpr ⟨hcons.2,rfl⟩]
          rfl
where
  nil_iff {elements : List Element} : (.ok [] : Except String (List Element)) = .ok elements ↔
      (∀ e ∈ elements, e.hasWire = true) ∧ allOctets elements = [] := by
    cases elements with
    | nil => simp [allOctets]
    | cons e es =>
      constructor
      · intro h
        exact absurd (ok.inj h) (by simp)
      · intro ⟨hall,hnil⟩
        exact absurd (append_eq_nil_iff.mp hnil).1
          (octets_ne_nil (hall e mem_cons_self))

/-- A value is parsed into the elements whose octets it consists of. -/
theorem parse_eq_ok : parse value = .ok elements ↔
      (∀ e ∈ elements, e.hasWire = true) ∧ allOctets elements = value :=
  parseElements_eq_ok _ le_rfl

private theorem parseElements_header (fuel : Nat) {octets : List UInt8} (hne : octets ≠ []) :
    Tlv.parseElements (fuel + 1) octets = (Iterator.contiguous.readHeader octets).bind fun r =>
      if r.2.1 > r.2.2.length then
        .error s!"TLV-LENGTH of sub-element of type {r.1} exceeds TLV-VALUE boundary of parent block"
      else (Tlv.parseElements fuel (r.2.2.drop r.2.1)).map fun blocks =>
        ⟨r.1,r.2.2.take r.2.1⟩ :: blocks := by
  rw [Tlv.parseElements,if_neg hne,Iterator.readHeader,Iterator.readType_eq]
  cases readType octets with
  | error message => rfl
  | ok r =>
    simp only [Iterator.readVarNumber_eq,bind,Except.bind]
    cases readVarNumber r.2 with
    | error message => rfl
    | ok r' =>
      dsimp only
      split_ifs
      · rfl
      · cases Tlv.parseElements fuel (r'.2.drop r'.1) <;> rfl

private theorem parseElements_blocks (fuel : Nat) (octets : List UInt8) :
    (parseElements fuel octets).map (List.map Element.toBlock) = Tlv.parseElements fuel octets := by
  induction fuel generalizing octets with
  | zero => rfl
  | succ fuel ih =>
    by_cases hnil : octets = []
    · rw [parseElements,Tlv.parseElements,if_pos hnil,if_pos hnil]
      rfl
    rw [parseElements_header fuel hnil,parseElements,if_neg hnil]
    split
    · next h =>
      rw [h]
      rfl
    · next type length rest h =>
      conv_rhs => rw [h]
      dsimp only [Except.bind]
      split_ifs
      · rfl
      · rw [← ih]
        cases parseElements fuel (rest.drop length) <;> rfl

theorem parse_blocks (value : List UInt8) :
    (parse value).map (List.map Element.toBlock) = Tlv.parse value :=
  parseElements_blocks value.length value

end Parsing

end Element

structure ParsedBlock where
  value : List UInt8
  elements : List Element := []
  deriving DecidableEq

namespace ParsedBlock

open Element

theorem framed_front {begin pos : List UInt8} {type length : Nat}
    (h : Iterator.contiguous.readHeader begin = .ok (type,length,pos)) (hle : ¬length > pos.length) :
    ∀ octets ∈ some (begin.take (begin.length - (pos.drop length).length)),
      Framed ⟨type,pos.take length⟩ octets :=
  fun _ hwire => mem_some_iff.mp hwire ▸ framed_subElement h hle

def parseLoop : Nat → List Element → List UInt8 → Except String Unit × List Element
  | 0, elements, _ => (.ok (),elements)
  | fuel + 1, elements, begin =>
    if begin = [] then (.ok (),elements)
    else
      match h : Iterator.contiguous.readHeader begin with
      | .error message => (.error message,elements)
      | .ok (type,length,pos) =>
        if hle : length > pos.length then
          (.error s!"TLV-LENGTH of sub-element of type {type} exceeds TLV-VALUE boundary of parent block",
            [])
        else
          parseLoop fuel (elements ++ [⟨⟨type,pos.take length⟩,
            some (begin.take (begin.length - (pos.drop length).length)),framed_front h hle⟩])
            (pos.drop length)

def parse (b : ParsedBlock) : Except String Unit × ParsedBlock :=
  if b.elements ≠ [] ∨ b.value = [] then (.ok (),b)
  else
    let r := parseLoop b.value.length b.elements b.value
    (r.1,{ b with elements := r.2 })

/-- The value is in the sub-elements, or there are none and parsing goes wrong again. -/
def AllOrNothing (b : ParsedBlock) : Prop :=
  match b.parse with
  | (.ok (),b') => allOctets b'.elements = b.value
  | (.error _,b') => b'.elements = [] ∧ ∃ message, b'.parse.1 = .error message

section Loop

variable {e : Element} {fuel : Nat} {acc : List Element} {rest : List UInt8}

theorem parseLoop_nil : parseLoop fuel acc [] = (.ok (),acc) := by
  cases fuel <;> simp [parseLoop]

theorem parseLoop_cons (h : e.hasWire = true) :
    parseLoop (fuel + 1) acc (e.octets ++ rest) = parseLoop fuel (acc ++ [e]) rest := by
  have hread := (framed_octets h).readHeader .contiguous rest
  have hne : e.octets ++ rest ≠ [] := by simp [octets_ne_nil h]
  rw [parseLoop,if_neg hne]
  split
  · rename_i hread'
    exact absurd (hread.symm.trans hread') (by simp)
  · rename_i hread'
    obtain ⟨rfl,rfl,rfl⟩ := by simpa using hread.symm.trans hread'
    rw [dif_neg (by simp)]
    obtain ⟨wire,hwire⟩ := isSome_iff_exists.mp h
    congr 1
    · apply congrArg (fun f => acc ++ [f])
      apply ext_wire
      · simp
      · simp [octets_of_wire hwire,hwire]
    · simp

theorem parseLoop_append {es : List Element} (h : ∀ e ∈ es, e.hasWire = true) :
    parseLoop (fuel + es.length) acc (allOctets es ++ rest) = parseLoop fuel (acc ++ es) rest := by
  induction es generalizing acc with
  | nil => simp
  | cons e es ih =>
    have hcons := forall_mem_cons.mp h
    rw [length_cons,← Nat.add_assoc,allOctets_cons,append_assoc,
      parseLoop_cons hcons.1,ih hcons.2,append_assoc]
    rfl

/-- Where the loop ends: behind the last element, or before a header that is no good. -/
inductive Ends (acc : List Element) (begin : List UInt8) :
    Except String Unit × List Element → Prop where
  | done (es) (hes : ∀ e ∈ es, e.hasWire = true) (hbegin : begin = allOctets es) :
      Ends acc begin (.ok (),acc ++ es)
  | unreadable (es tail message) (hes : ∀ e ∈ es, e.hasWire = true)
      (hbegin : begin = allOctets es ++ tail) (htail : tail ≠ [])
      (hread : Iterator.contiguous.readHeader tail = .error message) :
      Ends acc begin (.error message,acc ++ es)
  | tooLong (message) : Ends acc begin (.error message,[])

theorem Ends.cons {begin : List UInt8} {r} (h : e.hasWire = true)
    (hends : Ends (acc ++ [e]) begin r) : Ends acc (e.octets ++ begin) r := by
  cases hends with
  | done es hes hbegin =>
    rw [append_assoc]
    exact .done (e :: es) (forall_mem_cons.mpr ⟨h,hes⟩) (by simp [hbegin])
  | unreadable es tail message hes hbegin htail hread =>
    rw [append_assoc]
    apply Ends.unreadable (e :: es) tail message _ _ htail hread
    · exact forall_mem_cons.mpr ⟨h,hes⟩
    · simp [hbegin]
  | tooLong message => exact .tooLong message

theorem ends_parseLoop {begin : List UInt8} (hfuel : begin.length ≤ fuel) :
    Ends acc begin (parseLoop fuel acc begin) := by
  induction fuel generalizing acc begin with
  | zero =>
    have hnil : begin = [] := eq_nil_of_length_eq_zero (Nat.le_zero.mp hfuel)
    have hdone : Ends acc [] (.ok (),acc ++ []) := .done [] (by simp) rfl
    simpa [hnil,parseLoop] using hdone
  | succ fuel ih =>
    by_cases hnil : begin = []
    · rw [hnil,parseLoop_nil]
      have hdone : Ends acc [] (.ok (),acc ++ []) := .done [] (by simp) rfl
      simpa using hdone
    · rw [parseLoop,if_neg hnil]
      split
      · rename_i message hread
        have hends : Ends acc begin (.error message,acc ++ []) :=
          .unreadable [] begin message (by simp) rfl hnil hread
        simpa using hends
      · rename_i type length pos hread
        split_ifs with hle
        · exact .tooLong _
        · obtain ⟨header,value,tail,rfl,rfl,rfl,hframed⟩ :=
            exists_framed_of_readHeader hread (not_lt.mp hle)
          have htwo := hframed.two_le_length
          simp only [length_append] at hfuel htwo
          have hdrop : (value ++ tail).drop value.length = tail := drop_left
          have htake : (header ++ (value ++ tail)).take
              ((header ++ (value ++ tail)).length - tail.length) = header ++ value := by
            rw [← append_assoc,@length_append _ (header ++ value),Nat.add_sub_cancel,take_left]
          simp only [hdrop,htake,take_left]
          let e : Element := ⟨⟨type,value⟩,some (header ++ value),
            fun _ hwire => mem_some_iff.mp hwire ▸ hframed⟩
          have htail : Ends (acc ++ [e]) tail (parseLoop fuel (acc ++ [e]) tail) := ih (by omega)
          have hends := htail.cons rfl
          rwa [octets_of_wire rfl,append_assoc] at hends

end Loop

theorem length_le_allOctets {es : List Element} (h : ∀ e ∈ es, e.hasWire = true) :
    es.length ≤ (allOctets es).length := by
  induction es with
  | nil => simp
  | cons e es ih =>
    have hcons := forall_mem_cons.mp h
    have hpos := length_pos_iff.mpr (octets_ne_nil hcons.1)
    have hle := ih hcons.2
    simp only [allOctets_cons,length_append,length_cons]
    omega

theorem parse_of_unparsed {value : List UInt8} (hne : value ≠ []) :
    parse ⟨value,[]⟩ = ((parseLoop value.length [] value).1,
      ⟨value,(parseLoop value.length [] value).2⟩) := by
  simp [parse,hne]

/-- Elements before a header that cannot be read stay in the block. -/
theorem parse_unreadable {es : List Element} {tail : List UInt8} {message : String}
    (hes : ∀ e ∈ es, e.hasWire = true) (htail : tail ≠ [])
    (hread : Iterator.contiguous.readHeader tail = .error message) :
    parse ⟨allOctets es ++ tail,[]⟩ = (.error message,⟨allOctets es ++ tail,es⟩) := by
  have hlength := length_le_allOctets hes
  have hpos := length_pos_iff.mpr htail
  obtain ⟨fuel,hfuel⟩ : ∃ fuel, (allOctets es ++ tail).length = fuel + 1 + es.length :=
    ⟨(allOctets es ++ tail).length - 1 - es.length,by rw [length_append]; omega⟩
  rw [parse_of_unparsed (by simp [htail]),hfuel,parseLoop_append hes,parseLoop,if_neg htail]
  split
  · rename_i hread'
    cases hread.symm.trans hread'
    simp
  · rename_i hread'
    cases hread.symm.trans hread'

/-- A block whose sub-elements are there already keeps them. In another one a header has to be
readable wherever elements end before the value does. -/
theorem allOrNothing_iff (b : ParsedBlock) : b.AllOrNothing ↔
    if b.elements = [] then
      ∀ es tail, es ≠ [] → (∀ e ∈ es, e.hasWire = true) →
        b.value = allOctets es ++ tail → tail ≠ [] → ∃ r, Iterator.contiguous.readHeader tail = .ok r
    else allOctets b.elements = b.value := by
  obtain ⟨value,elements⟩ := b
  by_cases helements : elements = []
  · subst helements
    simp only [if_true]
    constructor
    · intro h es tail hne hes hvalue htail
      cases hread : Iterator.contiguous.readHeader tail with
      | ok r => exact ⟨r,rfl⟩
      | error message =>
        subst hvalue
        rw [AllOrNothing,parse_unreadable hes htail hread] at h
        exact absurd h.1 hne
    · intro h
      by_cases hnil : value = []
      · simp [AllOrNothing,parse,hnil]
      · have hparse := parse_of_unparsed hnil
        have hends : Ends [] value (parseLoop value.length [] value) := ends_parseLoop le_rfl
        generalize parseLoop value.length [] value = r at hparse hends
        rw [AllOrNothing,hparse]
        cases hends with
        | done es hes hbegin => exact hbegin.symm
        | unreadable es tail message hes hbegin htail hread =>
          have hes' : es = [] := by
            by_contra hne
            obtain ⟨r,hr⟩ := h es tail hne hes hbegin htail
            cases hr.symm.trans hread
          subst hes'
          exact ⟨rfl,message,by rw [append_nil,hparse]⟩
        | tooLong message => exact ⟨rfl,message,by rw [hparse]⟩
  · simp [AllOrNothing,parse,helements]

/-- An element and an octet that begins a long type: the first call throws and leaves the element,
the second one succeeds. -/
theorem parse_leaves_element :
    ∃ b e message, parse ⟨[1,0,253],[]⟩ = (.error message,b) ∧ b.elements = [e] ∧
      b.parse = (.ok (),b) ∧ allOctets b.elements ≠ b.value :=
  ⟨_,_,_,rfl,rfl,rfl,by decide⟩

end ParsedBlock

end KiteNdn.Tlv
