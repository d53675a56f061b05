import KiteNdn.Encoding.Encoder

/-!
# Writers and readers agree

An item is written twice: by the estimator, for the size of the buffer, and by the encoder. For
elements inside a block that is being put together the estimator adds the sizes that they were
decoded with, while the encoder writes types and lengths in their shortest form.
-/

namespace KiteNdn.Encoding

open Tlv List

section Estimates

variable {σ : Type}

/-- An implementation that returns the numbers of octets. `R octets s s'` says what has happened to
the state. -/
structure Accounts (impl : EncodingImpl σ) (R : List UInt8 → σ → σ → Prop) : Prop where
  nil : ∀ s, R [] s s
  append : ∀ {first second s s' s''}, R second s s' → R first s' s'' → R (first ++ second) s s''
  bytes : ∀ octets s, (impl.prependBytes octets s).1 = octets.length ∧
    R octets s (impl.prependBytes octets s).2
  varNumber : ∀ n s, (impl.prependVarNumber n s).1 = sizeOfVarNumber n ∧
    R (writeVarNumber n) s (impl.prependVarNumber n s).2
  nonNegativeInteger : ∀ n s, (impl.prependNonNegativeInteger n s).1 = sizeOfNonNegativeInteger n ∧
    R (writeNonNegativeInteger n) s (impl.prependNonNegativeInteger n s).2

theorem encodingBuffer_accounts :
    Accounts encodingBuffer fun octets s s' => s'.content = octets ++ s.content where
  nil _ := rfl
  append := by
    intro first second s s' s'' h h'
    rw [h',h,append_assoc]
  bytes octets s := ⟨rfl,s.content_prependBytes octets⟩
  varNumber n s := s.prependVarNumber_spec n
  nonNegativeInteger n s := by
    show (s.prependNonNegativeInteger n).1 = _ ∧ (s.prependNonNegativeInteger n).2.content = _
    rw [s.prependNonNegativeInteger_eq]
    exact ⟨length_writeNonNegativeInteger n,s.content_prependBytes _⟩

theorem encodingEstimator_accounts : Accounts encodingEstimator fun _ _ _ => True where
  nil _ := trivial
  append _ _ := trivial
  bytes _ _ := ⟨rfl,trivial⟩
  varNumber _ _ := ⟨rfl,trivial⟩
  nonNegativeInteger _ _ := ⟨rfl,trivial⟩

mutual

def Item.octets : Item → List UInt8
  | .nonNegativeInteger type value => Block.encode ⟨type,writeNonNegativeInteger value⟩
  | .empty type => Block.encode ⟨type,[]⟩
  | .binary type value => Block.encode ⟨type,value⟩
  | .block e => e.octets
  | .nested type items => Block.encode ⟨type,Item.allOctets items⟩

def Item.allOctets : List Item → List UInt8
  | [] => []
  | item :: items => item.octets ++ Item.allOctets items

end

namespace Accounts

variable {impl : EncodingImpl σ} {R : List UInt8 → σ → σ → Prop}

theorem prependTypeLength (h : Accounts impl R) {value : List UInt8} {s : σ} {r : Nat × σ}
    (hr : r.1 = value.length ∧ R value s r.2) (type : Nat) :
    (impl.prependTypeLength type r).1 = (Block.encode ⟨type,value⟩).length ∧
      R (Block.encode ⟨type,value⟩) s (impl.prependTypeLength type r).2 := by
  have hlength := h.varNumber value.length r.2
  have htype := h.varNumber type (impl.prependVarNumber value.length r.2).2
  unfold EncodingImpl.prependTypeLength
  dsimp only
  rw [hr.1,hlength.1,htype.1]
  constructor
  · show _ = Block.size ⟨type,value⟩
    rw [Block.size_eq]
    dsimp only
    omega
  · show R (writeVarNumber type ++ writeVarNumber value.length ++ value) s _
    rw [append_assoc]
    exact h.append (h.append hr.2 hlength.2) htype.2

theorem prependBlock (h : Accounts impl R) (e : Element) (s : σ) :
    (impl.prependBlock e s).1 = e.octets.length ∧ R e.octets s (impl.prependBlock e s).2 := by
  unfold EncodingImpl.prependBlock Element.octets
  cases e.wire with
  | none => exact h.prependTypeLength (h.bytes e.value s) e.type
  | some octets => exact h.bytes octets s

mutual

theorem prependItem (h : Accounts impl R) (item : Item) (s : σ) :
    (impl.prependItem item s).1 = item.octets.length ∧
      R item.octets s (impl.prependItem item s).2 := by
  cases item with
  | nonNegativeInteger type value =>
    rw [EncodingImpl.prependItem,Item.octets]
    have hvalue := h.nonNegativeInteger value s
    rw [← length_writeNonNegativeInteger] at hvalue
    exact h.prependTypeLength hvalue type
  | empty type =>
    rw [EncodingImpl.prependItem,Item.octets]
    have hempty := h.prependTypeLength (r := (0,s)) ⟨rfl,h.nil s⟩ type
    rw [EncodingImpl.prependTypeLength,Nat.zero_add] at hempty
    exact hempty
  | binary type value =>
    rw [EncodingImpl.prependItem,Item.octets]
    exact h.prependTypeLength (h.bytes value s) type
  | block e =>
    rw [EncodingImpl.prependItem,Item.octets]
    exact h.prependBlock e s
  | nested type items =>
    rw [EncodingImpl.prependItem,Item.octets]
    exact h.prependTypeLength (prependItems h items s) type

theorem prependItems (h : Accounts impl R) (items : List Item) (s : σ) :
    (impl.prependItems items s).1 = (Item.allOctets items).length ∧
      R (Item.allOctets items) s (impl.prependItems items s).2 := by
  cases items with
  | nil =>
    rw [EncodingImpl.prependItems,Item.allOctets]
    exact ⟨rfl,h.nil s⟩
  | cons item items =>
    have hrest := prependItems h items s
    have hfirst := prependItem h item (impl.prependItems items s).2
    rw [EncodingImpl.prependItems,Item.allOctets]
    dsimp only
    constructor
    · rw [hrest.1,hfirst.1,length_append,Nat.add_comm]
    · exact h.append hrest.2 hfirst.2

end

end Accounts

end Estimates

section Trees

/-- A block that is being put together. Blocks with a value are leaves, with octets of their own or
without. -/
inductive Tree where
  | leaf (e : Element)
  | node (type : Nat) (elements : List Tree)

namespace Tree

mutual

def estimate : Tree → Nat
  | .leaf e => e.size
  | .node type elements =>
    let len := estimateValue elements
    let len := len + sizeOfVarNumber len
    len + sizeOfVarNumber type

def estimateValue : List Tree → Nat
  | [] => 0
  | element :: elements => estimateValue elements + estimate element

end

mutual

def encode : Tree → Encoder → Nat × Encoder
  | .leaf e, encoder => encodingBuffer.prependTypeLength e.type (encoder.prependBytes e.value)
  | .node type elements, encoder =>
    encodingBuffer.prependTypeLength type (encodeElements elements encoder)

def encodeElements : List Tree → Encoder → Nat × Encoder
  | [], encoder => (0,encoder)
  | element :: elements, encoder =>
    let rest := encodeElements elements encoder
    let first := encode element rest.2
    (rest.1 + first.1,first.2)

end

mutual

def octets : Tree → List UInt8
  | .leaf e => e.toBlock.encode
  | .node type elements => Block.encode ⟨type,allOctets elements⟩

def allOctets : List Tree → List UInt8
  | [] => []
  | element :: elements => element.octets ++ allOctets elements

end

mutual

/-- Every leaf has the size that the encoder writes it with. -/
def Minimal : Tree → Prop
  | .leaf e => e.size = e.toBlock.size
  | .node _ elements => AllMinimal elements

def AllMinimal : List Tree → Prop
  | [] => True
  | element :: elements => element.Minimal ∧ AllMinimal elements

end

mutual

theorem encode_spec (t : Tree) (encoder : Encoder) : (t.encode encoder).1 = t.octets.length ∧
      (t.encode encoder).2.content = t.octets ++ encoder.content := by
  cases t with
  | leaf e =>
    rw [encode,octets]
    exact encodingBuffer_accounts.prependTypeLength
      (encodingBuffer_accounts.bytes e.value encoder) e.type
  | node type elements =>
    rw [encode,octets]
    exact encodingBuffer_accounts.prependTypeLength (encodeElements_spec elements encoder) type

theorem encodeElements_spec (elements : List Tree) (encoder : Encoder) :
    (encodeElements elements encoder).1 = (allOctets elements).length ∧
      (encodeElements elements encoder).2.content = allOctets elements ++ encoder.content := by
  cases elements with
  | nil =>
    rw [encodeElements,allOctets]
    exact ⟨rfl,rfl⟩
  | cons element elements =>
    have hrest := encodeElements_spec elements encoder
    have hfirst := encode_spec element (encodeElements elements encoder).2
    rw [encodeElements,allOctets]
    dsimp only
    constructor
    · rw [hrest.1,hfirst.1,length_append,Nat.add_comm]
    · rw [hfirst.2,hrest.2,append_assoc]

end

theorem size_le (e : Element) : e.toBlock.size ≤ e.size := by
  unfold Element.size
  cases h : e.wire with
  | none => exact le_rfl
  | some octets => exact (e.framed octets h).eq_encode_iff.1

theorem sizeOfVarNumber_mono {n m : Nat} (h : n ≤ m) : sizeOfVarNumber n ≤ sizeOfVarNumber m := by
  unfold sizeOfVarNumber
  split_ifs <;> omega

private theorem estimate_node {n m : Nat} (h : n ≤ m) (type : Nat) {minimal : Prop}
    (hiff : m = n ↔ minimal) :
    sizeOfVarNumber type + sizeOfVarNumber n + n ≤ m + sizeOfVarNumber m + sizeOfVarNumber type ∧
      (m + sizeOfVarNumber m + sizeOfVarNumber type =
        sizeOfVarNumber type + sizeOfVarNumber n + n ↔ minimal) := by
  have hmono := sizeOfVarNumber_mono h
  rw [← hiff]
  constructor
  · omega
  · constructor
    · intro heq
      omega
    · intro heq
      rw [heq]
      omega

mutual

/-- The estimate is never too small, and exact if every leaf is written as it was read. -/
theorem estimate_spec (t : Tree) :
    t.octets.length ≤ t.estimate ∧ (t.estimate = t.octets.length ↔ t.Minimal) := by
  cases t with
  | leaf e =>
    rw [estimate,octets,Minimal]
    exact ⟨size_le e,Iff.rfl⟩
  | node type elements =>
    have hvalue := estimateValue_spec elements
    rw [estimate,octets,Minimal,show (Block.encode ⟨type,allOctets elements⟩).length =
      Block.size ⟨type,allOctets elements⟩ from rfl,Block.size_eq]
    exact estimate_node hvalue.1 type hvalue.2

theorem estimateValue_spec (elements : List Tree) :
    (allOctets elements).length ≤ estimateValue elements ∧
      (estimateValue elements = (allOctets elements).length ↔ AllMinimal elements) := by
  cases elements with
  | nil =>
    rw [estimateValue,allOctets,AllMinimal]
    exact ⟨le_rfl,iff_of_true rfl trivial⟩
  | cons element elements =>
    have hfirst := estimate_spec element
    have hrest := estimateValue_spec elements
    rw [estimateValue,allOctets,AllMinimal,length_append,← hfirst.2,← hrest.2]
    constructor
    · omega
    · constructor
      · intro heq
        constructor <;> omega
      · intro ⟨hf,hr⟩
        omega

end

theorem estimate_eq_encode_iff (t : Tree) (encoder : Encoder) :
    t.estimate = (t.encode encoder).1 ↔ t.Minimal := by
  rw [(t.encode_spec encoder).1]
  exact t.estimate_spec.2

end Tree

end Trees

section Agreement

private theorem ofSpan_encode {b : Block} (h : b.Valid) (rest : List UInt8) :
    Element.ofSpan (b.encode ++ rest) = .ok (Element.encoded b h) :=
  Element.ofSpan_eq_ok.mpr ⟨b.encode,rest,rfl,rfl⟩

private theorem readNonNegativeInteger_written {integer : Nat} (h : integer < 2^64) (it : Iterator)
    (rest : List UInt8) :
    it.readNonNegativeInteger (sizeOfNonNegativeInteger integer)
      (writeNonNegativeInteger integer ++ rest) = .ok (integer,rest) := by
  have hlen := length_writeNonNegativeInteger integer
  have hsize : sizeOfNonNegativeInteger integer ∈ [1,2,4,8] := by
    unfold sizeOfNonNegativeInteger
    split_ifs <;> decide
  have hread := readNonNegativeInteger_write h
  rw [readNonNegativeInteger,hlen,if_pos hsize] at hread
  rw [it.readNonNegativeInteger_eq,if_neg (not_not.mpr hsize),
    if_neg (by rw [length_append]; omega),take_left' hlen,drop_left' hlen,
    Except.ok.inj hread]

/-- Readers and writers of types, lengths, numbers and blocks agree, except for the size of a block
put together from elements that were decoded in longer forms. -/
theorem codec_agrees (it : Iterator) (encoder : Encoder) (rest : List UInt8) :
    (∀ (type : Nat) (value : List UInt8), 0 < type → type < 2^32 → value.length < 2^64 →
        let written := encodingBuffer.prependBinaryBlock type value encoder
        written.2.content = Block.encode ⟨type,value⟩ ++ encoder.content ∧
          ∃ e, Element.ofSpan (Block.encode ⟨type,value⟩ ++ rest) = .ok e ∧
            e.type = type ∧ e.value = value ∧ e.size = written.1) ∧
    (∀ number, number < 2^64 →
      (encoder.prependVarNumber number).2.content = writeVarNumber number ++ encoder.content ∧
      (encoder.appendVarNumber number).2.content = encoder.content ++ writeVarNumber number ∧
      (encoder.prependVarNumber number).1 = sizeOfVarNumber number ∧
      (writeVarNumber number).length = sizeOfVarNumber number ∧
      it.readVarNumber (writeVarNumber number ++ rest) = .ok (number,rest)) ∧
    (∀ integer, integer < 2^64 → (encoder.prependNonNegativeInteger integer).2.content =
        writeNonNegativeInteger integer ++ encoder.content ∧
      (encoder.appendNonNegativeInteger integer).2.content =
        encoder.content ++ writeNonNegativeInteger integer ∧
      (encoder.prependNonNegativeInteger integer).1 = sizeOfNonNegativeInteger integer ∧
      (writeNonNegativeInteger integer).length = sizeOfNonNegativeInteger integer ∧
      it.readNonNegativeInteger (sizeOfNonNegativeInteger integer)
        (writeNonNegativeInteger integer ++ rest) = .ok (integer,rest)) ∧
    (∀ item : Item,
      let written := encodingBuffer.prependItem item encoder
      (encodingEstimator.prependItem item ()).1 = written.1 ∧
        written.1 = item.octets.length ∧ written.2.content = item.octets ++ encoder.content) ∧
    (∀ t : Tree,
      let written := t.encode encoder
      written.1 = t.octets.length ∧ written.2.content = t.octets ++ encoder.content ∧
        written.1 ≤ t.estimate ∧ (t.estimate = written.1 ↔ t.Minimal)) ∧
    (∀ front octets : List UInt8, Element.fromBuffer octets = (Element.ofSpan octets).toOption ∧
        Element.fromBufferAt (front ++ octets) front.length = Element.fromBuffer octets) ∧
    (∀ octets : List UInt8, it.readVarNumber octets = Iterator.contiguous.readVarNumber octets ∧
      it.readVarNumber? octets = (it.readVarNumber octets).toOption ∧
      it.readType octets = Iterator.contiguous.readType octets ∧
      it.readType? octets = (it.readType octets).toOption ∧
      ∀ size, it.readNonNegativeInteger size octets =
        Iterator.contiguous.readNonNegativeInteger size octets) := by
  refine ⟨?_,?_,?_,?_,?_,?_,?_⟩
  · intro type value hpos hlt hlen
    have hwritten := encodingBuffer_accounts.prependTypeLength
      (encodingBuffer_accounts.bytes value encoder) type
    exact ⟨hwritten.2,_,ofSpan_encode ⟨hpos,hlt,hlen⟩ rest,rfl,rfl,hwritten.1.symm⟩
  · intro number hlt
    have hprepend := encoder.prependVarNumber_spec number
    refine ⟨hprepend.2,(encoder.appendVarNumber_spec number).2,hprepend.1,
      length_writeVarNumber number,?_⟩
    rw [it.readVarNumber_eq,readVarNumber_writeVarNumber hlt]
  · intro integer hlt
    rw [encoder.prependNonNegativeInteger_eq,encoder.appendNonNegativeInteger_eq]
    exact ⟨encoder.content_prependBytes _,encoder.content_appendBytes _,
      length_writeNonNegativeInteger integer,length_writeNonNegativeInteger integer,
      readNonNegativeInteger_written hlt it rest⟩
  · intro item written
    have hwritten := encodingBuffer_accounts.prependItem item encoder
    have hestimate := encodingEstimator_accounts.prependItem item ()
    exact ⟨hestimate.1.trans hwritten.1.symm,hwritten⟩
  · intro t written
    have hwritten := t.encode_spec encoder
    refine ⟨hwritten.1,hwritten.2,?_,t.estimate_eq_encode_iff encoder⟩
    rw [hwritten.1]
    exact t.estimate_spec.1
  · intro front octets
    rw [Element.fromBufferAt_eq,drop_left]
    exact ⟨Element.fromBuffer_eq_toOption octets,rfl⟩
  · intro octets
    rw [it.readVarNumber_eq,it.readVarNumber?_eq,it.readType_eq,it.readType?_eq,
      Iterator.readVarNumber_eq,Iterator.readType_eq]
    refine ⟨rfl,rfl,rfl,rfl,?_⟩
    intro size
    rw [it.readNonNegativeInteger_eq,Iterator.readNonNegativeInteger_eq]

def longTypeElement : Element :=
  ⟨⟨5,[0xAA]⟩,some [0xFD,0x00,0x05,0x01,0xAA],by
    intro octets hoctets
    rw [← Option.mem_some_iff.mp hoctets]
    exact ⟨by decide,by decide,.two,.short,by decide,by decide,by decide⟩⟩

theorem longTypeElement_overestimated :
    Element.ofSpan [0xFD,0x00,0x05,0x01,0xAA] = .ok longTypeElement ∧
      (Tree.node 7 [.leaf longTypeElement]).estimate = 7 ∧
      ((Tree.node 7 [.leaf longTypeElement]).encode (.make 7 0)).1 = 5 ∧
      ((Tree.node 7 [.leaf longTypeElement]).encode (.make 7 0)).2.content =
        [0x07,0x03,0x05,0x01,0xAA] := by
  decide +kernel

theorem codec_agrees_three_octets : (0 < 8 ∧ 8 < 2^32 ∧ [(65 : UInt8)].length < 2^64) ∧
      (encodingBuffer.prependBinaryBlock 8 [65] (.make 3 0)).2.content = [8,1,65] ∧
      (1000 < 2^64 ∧ Iterator.generic.readVarNumber (writeVarNumber 1000) = .ok (1000,[])) ∧
      Iterator.generic.readNonNegativeInteger (sizeOfNonNegativeInteger 1000)
        (writeNonNegativeInteger 1000) = .ok (1000,[]) := by
  have h := codec_agrees .generic (.make 3 0) []
  refine ⟨by decide,?_,⟨by decide,?_⟩,?_⟩
  · exact (h.1 8 [65] (by decide) (by decide) (by decide)).1
  · have hread := (h.2.1 1000 (by decide)).2.2.2.2
    rwa [append_nil] at hread
  · have hread := (h.2.2.1 1000 (by decide)).2.2.2.2
    rwa [append_nil] at hread

end Agreement

end KiteNdn.Encoding

namespace KiteNdn.Tlv

open List

variable {octets : List UInt8} {e : Element}

instance (b : Block) : Decidable b.Valid := inferInstanceAs (Decidable (_ ∧ _ ∧ _))

theorem Block.valid_of_length {b : Block} (hpos : 0 < b.type) (hlt : b.type < 2^32)
    (hlen : b.encode.length < 2^64) : b.Valid := by
  have hsize := b.size_eq
  rw [size] at hsize
  exact ⟨hpos,hlt,by omega⟩

namespace Element

/-- A block with the octets that the encoder writes, if it can be written. -/
def ofBlock (b : Block) : Element := if h : b.Valid then encoded b h else ofValue b.type b.value

@[simp] theorem toBlock_ofBlock (b : Block) : (ofBlock b).toBlock = b := by
  unfold ofBlock
  split <;> rfl

@[simp] theorem type_ofBlock (b : Block) : (ofBlock b).type = b.type :=
  congrArg Block.type (toBlock_ofBlock b)

@[simp] theorem value_ofBlock (b : Block) : (ofBlock b).value = b.value :=
  congrArg Block.value (toBlock_ofBlock b)

@[simp] theorem octets_ofBlock (b : Block) : (ofBlock b).octets = b.encode := by
  unfold ofBlock
  split <;> rfl

@[simp] theorem size_ofBlock (b : Block) : (ofBlock b).size = b.size := by
  unfold ofBlock
  split <;> rfl

@[simp] theorem hasWire_ofBlock (b : Block) : (ofBlock b).hasWire = true ↔ b.Valid := by
  unfold ofBlock
  split
  · rename_i h
    exact iff_of_true rfl h
  · rename_i h
    exact iff_of_false Bool.false_ne_true h

theorem eq_of_wire {f : Element} (he : e.wire = some octets) (hf : f.wire = some octets) :
    e = f := by
  have hfront : e.IsFront octets := ⟨octets,[],he,(append_nil octets).symm⟩
  exact hfront.unique ⟨octets,[],hf,(append_nil octets).symm⟩

theorem wire_eq_octets (h : e.hasWire = true) : e.wire = some e.octets := by
  obtain ⟨wire,hwire⟩ := Option.isSome_iff_exists.mp h
  rw [octets_of_wire hwire,hwire]

theorem eq_ofBlock {b : Block} (hpos : 0 < b.type) (hlt : b.type < 2^32)
    (hlen : b.encode.length < 2^64) (h : e.wire = some b.encode) : b.Valid ∧ e = ofBlock b := by
  have hvalid := Block.valid_of_length hpos hlt hlen
  refine ⟨hvalid,eq_of_wire h ?_⟩
  rw [wire_eq_octets ((hasWire_ofBlock b).mpr hvalid),octets_ofBlock]

theorem eq_of_allOctets {es fs : List Element} (hes : ∀ e ∈ es, e.hasWire = true)
    (hfs : ∀ f ∈ fs, f.hasWire = true) (h : allOctets es = allOctets fs) : es = fs := by
  have hparse := parse_eq_ok.mpr ⟨hes,h⟩
  rw [parse_eq_ok.mpr ⟨hfs,rfl⟩] at hparse
  exact (Except.ok.inj hparse).symm

private theorem framed_range {it : Iterator} {rest : List UInt8} {type length : Nat}
    (h : it.readHeader octets = .ok (type,length,rest)) (hlength : length = rest.length) :
    Framed ⟨type,rest⟩ octets := by
  obtain ⟨header,value,tail,rfl,rfl,hvalue,hframed⟩ := exists_framed_of_readHeader h hlength.le
  have htail : tail = [] := by
    apply eq_nil_of_length_eq_zero
    rw [length_append] at hlength
    omega
  rw [htail,append_nil]
  exact hframed

def ofRange (octets : List UInt8) : Except String Element :=
  match h : Iterator.contiguous.readHeader octets with
  | .error message => .error message
  | .ok (type,length,rest) =>
    if hlength : length = rest.length then
      .ok ⟨⟨type,rest⟩,some octets,fun _ hwire =>
        Option.mem_some_iff.mp hwire ▸ framed_range h hlength⟩
    else .error "TLV-LENGTH does not match buffer size"

theorem ofRange_eq_ok : ofRange octets = .ok e ↔ e.wire = some octets := by
  constructor
  · intro h
    unfold ofRange at h
    split at h
    · exact absurd h (by simp)
    · split_ifs at h
      rw [← Except.ok.inj h]
  · intro hwire
    have hread := (e.framed octets hwire).readHeader .contiguous []
    rw [append_nil,append_nil] at hread
    unfold ofRange
    split
    · rename_i hread'
      exact absurd (hread.symm.trans hread') (by simp)
    · rename_i hread'
      obtain ⟨rfl,rfl,rfl⟩ := by simpa using hread.symm.trans hread'
      rw [dif_pos rfl]
      exact congrArg Except.ok (eq_of_wire rfl hwire)

end Element

end KiteNdn.Tlv

namespace KiteNdn.Encoding

open Tlv List Element

variable {items : List Item} {e : Element} {item : Item}

namespace Item

def element : Item → Element
  | .nonNegativeInteger type value => .ofBlock ⟨type,writeNonNegativeInteger value⟩
  | .empty type => .ofBlock ⟨type,[]⟩
  | .binary type value => .ofBlock ⟨type,value⟩
  | .block e => if e.hasWire then e else .ofBlock e.toBlock
  | .nested type items => .ofBlock ⟨type,Item.allOctets items⟩

def type : Item → Nat
  | .nonNegativeInteger type _ => type
  | .empty type => type
  | .binary type _ => type
  | .block e => e.type
  | .nested type _ => type

@[simp] theorem type_element (item : Item) : item.element.type = item.type := by
  cases item with
  | block e =>
    rw [element]
    split
    · rfl
    · exact type_ofBlock _
  | _ => exact type_ofBlock _

theorem toBlock_block (e : Element) : (Item.block e).element.toBlock = e.toBlock := by
  rw [element]
  split
  · rfl
  · exact toBlock_ofBlock _

theorem hasWire_element (hpos : 0 < item.type) (hlt : item.type < 2^32)
    (hlen : item.octets.length < 2^64) : item.element.hasWire = true := by
  cases item with
  | block e =>
    rw [element]
    split
    · assumption
    · rename_i h
      have hnone : e.wire = none := Option.not_isSome_iff_eq_none.mp h
      rw [Item.octets,Element.octets,hnone] at hlen
      exact (hasWire_ofBlock _).mpr (Block.valid_of_length hpos hlt hlen)
  | _ =>
    rw [Item.octets] at hlen
    exact (hasWire_ofBlock _).mpr (Block.valid_of_length hpos hlt hlen)

theorem octets_element (item : Item) : item.element.octets = item.octets := by
  cases item with
  | block e =>
    rw [element,Item.octets]
    split
    · rfl
    · rename_i h
      have hnone : e.wire = none := Option.not_isSome_iff_eq_none.mp h
      rw [octets_ofBlock,Element.octets,hnone]
      rfl
  | _ => rw [element,Item.octets,octets_ofBlock]

theorem allOctets_elements (items : List Item) :
    Element.allOctets (items.map element) = Item.allOctets items := by
  induction items with
  | nil => rw [Item.allOctets]; rfl
  | cons item items ih =>
    rw [map_cons,allOctets_cons,Item.allOctets,octets_element,ih]

theorem allOctets_append (items items' : List Item) :
    Item.allOctets (items ++ items') = Item.allOctets items ++ Item.allOctets items' := by
  rw [← allOctets_elements,← allOctets_elements,← allOctets_elements,map_append]
  exact flatMap_append

theorem parse_allOctets (h : ∀ item ∈ items, item.element.hasWire = true) :
    Element.parse (Item.allOctets items) = .ok (items.map element) := by
  apply parse_eq_ok.mpr
  refine ⟨?_,allOctets_elements items⟩
  intro e he
  obtain ⟨item,hitem,rfl⟩ := mem_map.mp he
  exact h item hitem

theorem length_octets_le (h : item ∈ items) :
    item.octets.length ≤ (Item.allOctets items).length := by
  induction items with
  | nil => exact absurd h (not_mem_nil)
  | cons first items ih =>
    rw [Item.allOctets,length_append]
    rcases mem_cons.mp h with rfl | h
    · omega
    · have := ih h
      omega

def WellTyped (items : List Item) : Prop := ∀ item ∈ items, 0 < item.type ∧ item.type < 2^32

theorem parse_nested {type : Nat} (h : (Item.nested type items).element.hasWire = true)
    (htyped : WellTyped items) :
    Element.parse (Item.nested type items).element.value = .ok (items.map element) ∧
      ∀ item ∈ items, item.element.hasWire = true := by
  have hlength := ((hasWire_ofBlock _).mp h).2.2
  have hall : ∀ item ∈ items, item.element.hasWire = true := by
    intro item hitem
    exact hasWire_element (htyped item hitem).1 (htyped item hitem).2
      (lt_of_le_of_lt (length_octets_le hitem) hlength)
  rw [element,value_ofBlock]
  exact ⟨parse_allOctets hall,hall⟩

/-- `makeBinaryBlock` and the like. More octets than there are addresses cannot be allocated. -/
def write (item : Item) : Except String Element :=
  let estimatedSize := (encodingEstimator.prependItem item ()).1
  if estimatedSize < 2^64 then
    Element.ofRange (encodingBuffer.prependItem item (.make estimatedSize 0)).2.content
  else .error "std::bad_alloc"

theorem write_eq_ok :
    item.write = .ok e ↔ item.octets.length < 2^64 ∧ e.wire = some item.octets := by
  have hestimate := (encodingEstimator_accounts.prependItem item ()).1
  have hcontent := (encodingBuffer_accounts.prependItem item (.make item.octets.length 0)).2
  unfold write
  rw [hestimate]
  dsimp only
  rw [hcontent,Encoder.content_make,append_nil,← ofRange_eq_ok]
  split
  · rename_i h
    exact (and_iff_right h).symm
  · rename_i h
    exact iff_of_false (by simp) (fun hand => h hand.1)

theorem write_nested {type : Nat} (hpos : 0 < type) (hlt : type < 2^32)
    (h : (Item.nested type items).write = .ok e) :
    Block.Valid ⟨type,Item.allOctets items⟩ ∧ e = .ofBlock ⟨type,Item.allOctets items⟩ := by
  obtain ⟨hlen,hwire⟩ := write_eq_ok.mp h
  rw [Item.octets] at hlen hwire
  exact eq_ofBlock hpos hlt hlen hwire

end Item

def Tree.write (t : Tree) : Except String Element :=
  if t.estimate < 2^64 then Element.ofRange (t.encode (.make t.estimate 0)).2.content
  else .error "std::bad_alloc"

theorem Tree.write_eq_ok {t : Tree} :
    t.write = .ok e ↔ t.estimate < 2^64 ∧ e.wire = some t.octets := by
  unfold write
  rw [(t.encode_spec _).2,Encoder.content_make,append_nil,← ofRange_eq_ok]
  split
  · rename_i h
    exact (and_iff_right h).symm
  · rename_i h
    exact iff_of_false (by simp) (fun hand => h hand.1)

theorem Tree.write_leaf {type : Nat} (hpos : 0 < type) (hlt : type < 2^32) (b : Block) {e : Element} :
    (Tree.node type [.leaf (.ofBlock b)]).write = .ok e ↔
      (Block.encode ⟨type,b.encode⟩).length < 2^64 ∧ e = .ofBlock ⟨type,b.encode⟩ := by
  have hoctets : (Tree.node type [.leaf (.ofBlock b)]).octets = Block.encode ⟨type,b.encode⟩ := by
    rw [Tree.octets,Tree.allOctets,Tree.allOctets,Tree.octets,toBlock_ofBlock,
      append_nil]
  have hminimal : (Tree.node type [.leaf (.ofBlock b)]).Minimal := by
    rw [Tree.Minimal,Tree.AllMinimal,Tree.AllMinimal,Tree.Minimal,toBlock_ofBlock]
    exact ⟨size_ofBlock b,trivial⟩
  rw [Tree.write_eq_ok,((Tree.estimate_spec _).2).mpr hminimal,hoctets]
  constructor
  · intro ⟨hlen,hwire⟩
    exact ⟨hlen,(eq_ofBlock hpos hlt hlen hwire).2⟩
  · intro ⟨hlen,he⟩
    have hvalid := Block.valid_of_length hpos hlt hlen
    rw [he,wire_eq_octets ((hasWire_ofBlock _).mpr hvalid),octets_ofBlock]
    exact ⟨hlen,rfl⟩

end KiteNdn.Encoding
