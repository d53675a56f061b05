import KiteNdn.Encoding.Element
import KiteNdn.Framework.ThreeWay
import KiteNdn.Name.Successor

/-!
# Comparing names

Components with octets are compared octet by octet, others by type, length and value. The two agree
as long as types and lengths are in their shortest form, which the decoder does not ask for.
-/

namespace KiteNdn

open Framework Tlv List Option Component

variable {octets : List UInt8}

/-- A component as a name holds it. One without octets was made from a type and a value, and its
type was checked. -/
structure EncodedComponent extends Element where
  valid : wire = none → 0 < type ∧ type ≤ 65535

abbrev EncodedName := List EncodedComponent

section Octets

def octetDifference (a b : UInt8) : Option Int := some ((a.toNat : Int) - b.toNat)

/-- Undefined if one of the arrays is shorter. -/
def memcmp (x y : List UInt8) (n : Nat) : Option Int :=
  if n ≤ x.length ∧ n ≤ y.length then compareFront octetDifference (x.take n) (y.take n) else none

theorem memcmp_min (x y : List UInt8) :
    memcmp x y (min x.length y.length) = compareFront octetDifference x y := by
  rw [memcmp,if_pos ⟨min_le_left _ _,min_le_right _ _⟩,compareFront_take]

theorem octetDifference_self (a : UInt8) : octetDifference a a = some 0 := by
  rw [octetDifference,Int.sub_self]

private theorem octetDifference_swap (a b : UInt8) :
    octetDifference b a = (octetDifference a b).map fun i => -i := by
  show some ((b.toNat : Int) - a.toNat) = some (-((a.toNat : Int) - b.toNat))
  rw [Int.neg_sub]

private theorem octetDifference_eq_zero (a b : UInt8) (h : octetDifference a b = some 0) : a = b := by
  have hzero : (a.toNat : Int) - b.toNat = 0 := some.inj h
  apply UInt8.toNat_inj.mp
  omega

theorem tells_octets {x y : List UInt8} (h : x.length = y.length) :
    Tells (compareFront octetDifference x y) (x.map UInt8.toNat) (y.map UInt8.toNat) :=
  tells_compareFront h fun a _ b _ => tells_sub a.toNat b.toNat

end Octets

namespace EncodedComponent

def toComponent (c : EncodedComponent) : Component := ⟨c.type,c.value⟩

/-- The conversion of a difference of unsigned numbers to `int`. -/
def toInt (difference : Int) : Int := difference.bmod (2^32)

def equals (a b : EncodedComponent) : Bool :=
  a.type = b.type && a.value.length = b.value.length && a.value = b.value

def compare (a b : EncodedComponent) : Option Int :=
  match a.wire, b.wire with
  | some data, some otherData => memcmp data otherData (min data.length otherData.length)
  | _, _ =>
    let cmpType := toInt ((a.type : Int) - b.type)
    if cmpType ≠ 0 then some cmpType
    else
      let cmpSize := toInt ((a.value.length : Int) - b.value.length)
      if cmpSize ≠ 0 then some cmpSize
      else if a.value = [] then some 0
      else memcmp a.value b.value a.value.length

/-- The comparison tells the canonical order. -/
def Agrees (a b : EncodedComponent) : Prop := Tells (a.compare b) a.toComponent b.toComponent

/-- Octets in the shortest form, and numbers whose differences fit an `int`. Types beyond 65535 are
found in decoded names only. -/
def Canonical (c : EncodedComponent) : Prop :=
  c.size = c.toBlock.size ∧ c.type ≤ 2^31 ∧ (c.type ≤ 65535 → c.value.length < 2^31)

end EncodedComponent

namespace EncodedName

def toName (n : EncodedName) : Name := n.map EncodedComponent.toComponent

def isPrefixOf (n other : EncodedName) : Bool :=
  n.length ≤ other.length && (n.zip other).all fun p => p.1.equals p.2

def equals (n other : EncodedName) : Bool :=
  n.length = other.length && (n.zip other).all fun p => p.1.equals p.2

def compare (n other : EncodedName) : Option Int :=
  match compareFront EncodedComponent.compare n other with
  | none => none
  | some comp =>
    if comp ≠ 0 then some comp
    else some (EncodedComponent.toInt ((n.length : Int) - other.length))

def Agrees (n m : EncodedName) : Prop := Tells (n.compare m) n.toName m.toName

def Canonical (n : EncodedName) : Prop := (∀ c ∈ n, c.Canonical) ∧ n.length < 2^31

end EncodedName

private theorem tells_component {a b : Component} (htype : a.type = b.type)
    (hlen : a.value.length = b.value.length) {r : Option Int}
    (h : Tells r (a.value.map UInt8.toNat) (b.value.map UInt8.toNat)) : Tells r a b := by
  obtain ⟨i,rfl,hlt,hgt⟩ := h
  refine ⟨i,rfl,?_,?_⟩
  · rw [hlt,lt_iff]
    simp [htype,hlen]
  · rw [hgt,lt_iff]
    simp [htype,hlen]

section Numbers

private theorem exists_write_eq_cons (number : Nat) : ∃ first rest,
    writeVarNumber number = first :: rest ∧
      first.toNat = if number < 253 then number else (Form.shortest number).marker.toNat := by
  rw [Form.writeVarNumber_eq]
  by_cases h : number < 253
  · have hform : Form.shortest number = .short := if_pos h
    refine ⟨UInt8.ofNat number,[],?_,?_⟩
    · rw [hform]
      rfl
    · rw [if_pos h,UInt8.toNat_ofNat']
      omega
  · have hform : Form.shortest number ≠ .short := by
      unfold Form.shortest
      split_ifs <;> decide
    exact ⟨(Form.shortest number).marker,_,if_neg hform,(if_neg h).symm⟩

variable {n m : Nat}

private theorem first_lt (h : n < m) (hne : Form.shortest n ≠ Form.shortest m) :
    (if n < 253 then n else (Form.shortest n).marker.toNat) <
      if m < 253 then m else (Form.shortest m).marker.toNat := by
  unfold Form.shortest at *
  split_ifs at * <;>
    first | omega | exact absurd rfl hne | decide | exact lt_of_lt_of_le ‹n < 253› (by decide)

private theorem ofBytes_write {f : Form} {number : Nat} (h : f.Fits number) :
    ofBytes (f.write number) = f.marker.toNat * 256^f.width + number := by
  unfold Form.Fits at h
  unfold Form.write
  by_cases hf : f = .short
  · rw [if_pos hf] at h ⊢
    subst hf
    rw [ofBytes_cons,UInt8.toNat_ofNat']
    show number % 2^8 * 256^0 + 0 = 0 * 256^0 + number
    omega
  · rw [if_neg hf] at h ⊢
    rw [ofBytes_cons,length_toBytes,ofBytes_toBytes h]

private theorem compareFront_number_lt (h : n < m) (hm : m < 2^64) (x y : List UInt8) :
    ∃ i < 0, compareFront octetDifference (writeVarNumber n ++ x) (writeVarNumber m ++ y) = some i := by
  by_cases hsame : Form.shortest n = Form.shortest m
  · have hn := Form.fits_shortest (h.trans hm)
    have hm' := Form.fits_shortest hm
    rw [Form.writeVarNumber_eq,Form.writeVarNumber_eq,hsame]
    rw [hsame] at hn
    generalize Form.shortest m = f at hn hm'
    have hlen : (f.write n).length = (f.write m).length := by
      rw [Form.length_write,Form.length_write]
    have hlt : (f.write n).map UInt8.toNat < (f.write m).map UInt8.toNat := by
      apply map_toNat_lt_of_ofBytes_lt hlen
      rw [ofBytes_write hn,ofBytes_write hm']
      omega
    obtain ⟨i,hi,heq⟩ := (tells_octets hlen).neg_iff.mpr hlt
    refine ⟨i,hi,?_⟩
    rw [compareFront_append hlen heq,if_pos (by omega)]
  · obtain ⟨a,as,ha,hfirst⟩ := exists_write_eq_cons n
    obtain ⟨b,bs,hb,hfirst'⟩ := exists_write_eq_cons m
    have hlt := first_lt h hsame
    rw [← hfirst,← hfirst'] at hlt
    refine ⟨(a.toNat : Int) - b.toNat,by omega,?_⟩
    rw [ha,hb,cons_append,cons_append]
    exact compareFront_cons_of_ne rfl (by omega) _ _

private theorem compareFront_number_gt (h : m < n) (hn : n < 2^64) (x y : List UInt8) :
    ∃ i > 0, compareFront octetDifference (writeVarNumber n ++ x) (writeVarNumber m ++ y) = some i := by
  obtain ⟨i,hi,heq⟩ := compareFront_number_lt h hn y x
  refine ⟨-i,by omega,?_⟩
  rw [compareFront_swap octetDifference_swap,heq]
  rfl

/-- A longer form has larger octets than the shortest one. -/
theorem compareFront_longer_form {f : Form} (hfits : f.Fits n) (hne : f ≠ .shortest n)
    (x y : List UInt8) :
    ∃ i > 0, compareFront octetDifference (f.write n ++ x) (writeVarNumber n ++ y) = some i := by
  obtain ⟨b,bs,hb,hfirst⟩ := exists_write_eq_cons n
  have hform : f ≠ .short := by
    intro hshort
    subst hshort
    exact hne (if_pos hfits).symm
  have hlt : b.toNat < f.marker.toNat := by
    rw [hfirst]
    unfold Form.Fits at hfits
    unfold Form.shortest at hne ⊢
    cases f <;> simp only [Form.width,reduceCtorEq,if_false] at hfits <;> split_ifs at * <;>
      first | contradiction | omega | decide | exact lt_of_lt_of_le ‹n < 253› (by decide)
  refine ⟨(f.marker.toNat : Int) - b.toNat,by omega,?_⟩
  rw [hb,Form.write,if_neg hform,cons_append,cons_append]
  exact compareFront_cons_of_ne rfl (by omega) _ _

theorem compareFront_encode_of_framed {b : Block} (h : Framed b octets) (hne : octets ≠ b.encode) :
    ∃ i > 0, compareFront octetDifference octets b.encode = some i := by
  obtain ⟨_,_,t,l,ht,hl,rfl⟩ := h
  rw [Block.encode,append_assoc] at hne ⊢
  by_cases ht' : t = .shortest b.type
  · have hl' : l ≠ .shortest b.value.length := by
      intro hl'
      apply hne
      rw [ht',hl',Form.writeVarNumber_eq,Form.writeVarNumber_eq]
    rw [ht',← Form.writeVarNumber_eq,compareFront_append_self octetDifference_self]
    exact compareFront_longer_form hl hl' _ _
  · exact compareFront_longer_form ht ht' _ _

theorem tells_encode {a b : Component} (htype : a.type < 2^64) (htype' : b.type < 2^64)
    (hlen : a.value.length < 2^64) (hlen' : b.value.length < 2^64) :
    Tells (compareFront octetDifference (Block.encode ⟨a.type,a.value⟩)
      (Block.encode ⟨b.type,b.value⟩)) a b := by
  rw [Block.encode,Block.encode,append_assoc,append_assoc]
  dsimp only
  rcases lt_trichotomy a.type b.type with ht | ht | ht
  · obtain ⟨i,hi,heq⟩ := compareFront_number_lt ht htype' _ _
    rw [heq]
    exact Tells.of_lt hi (lt_iff.mpr (Or.inl ht))
  · rw [ht,compareFront_append_self octetDifference_self]
    rcases lt_trichotomy a.value.length b.value.length with hl | hl | hl
    · obtain ⟨i,hi,heq⟩ := compareFront_number_lt hl hlen' _ _
      rw [heq]
      exact Tells.of_lt hi (lt_iff.mpr (Or.inr ⟨ht,Or.inl hl⟩))
    · rw [hl,compareFront_append_self octetDifference_self]
      exact tells_component ht hl (tells_octets hl)
    · obtain ⟨i,hi,heq⟩ := compareFront_number_gt hl hlen _ _
      rw [heq]
      exact Tells.of_gt hi (lt_iff.mpr (Or.inr ⟨ht.symm,Or.inl hl⟩))
  · obtain ⟨i,hi,heq⟩ := compareFront_number_gt ht htype _ _
    rw [heq]
    exact Tells.of_gt hi (lt_iff.mpr (Or.inl ht))

end Numbers

section Components

namespace EncodedComponent

variable {a b : EncodedComponent}

theorem equals_iff : a.equals b = true ↔ a.toComponent = b.toComponent := by
  unfold equals toComponent
  simp only [Bool.and_eq_true,decide_eq_true_eq,Component.mk.injEq]
  constructor
  · intro ⟨⟨ht,_⟩,hv⟩
    exact ⟨ht,hv⟩
  · intro ⟨ht,hv⟩
    exact ⟨⟨ht,by rw [hv]⟩,hv⟩

theorem type_lt (c : EncodedComponent) : 0 < c.type ∧ c.type < 2^32 := by
  cases h : c.wire with
  | none =>
    have hvalid := c.valid h
    exact ⟨hvalid.1,by omega⟩
  | some octets => exact ⟨(c.framed octets h).1,(c.framed octets h).2.1⟩

variable {c : EncodedComponent}

theorem length_lt (h : c.wire = some octets) : c.value.length < 2^64 := by
  obtain ⟨_,_,_,l,_,hl,_⟩ := c.framed octets h
  cases l <;> simp only [Form.Fits,Form.width,reduceCtorEq,if_true,if_false] at hl <;> omega

theorem wire_of_size (h : c.wire = some octets) :
    c.size = c.toBlock.size ↔ octets = c.toBlock.encode := by
  rw [← (c.framed octets h).eq_encode_iff.2]
  unfold Element.size
  rw [h]

theorem toInt_of_lt {difference : Int} (hlo : -2^31 ≤ difference) (hhi : difference < 2^31) :
    toInt difference = difference := by
  unfold toInt
  rw [Int.bmod_eq_of_le (by omega) (by omega)]

private theorem agrees_of_wires (ha : a.Canonical) (hb : b.Canonical) {x y : List UInt8}
    (hx : a.wire = some x) (hy : b.wire = some y) : a.Agrees b := by
  have htype := a.type_lt
  have htype' := b.type_lt
  unfold Agrees compare
  rw [hx,hy]
  dsimp only
  rw [memcmp_min,(wire_of_size hx).mp ha.1,(wire_of_size hy).mp hb.1]
  exact tells_encode (a := a.toComponent) (b := b.toComponent)
    (by unfold toComponent; dsimp only; omega)
    (by unfold toComponent; dsimp only; omega) (length_lt hx) (length_lt hy)

private theorem compare_of_no_wire (h : a.wire = none ∨ b.wire = none) : a.compare b =
      if toInt ((a.type : Int) - b.type) ≠ 0 then some (toInt ((a.type : Int) - b.type))
      else if toInt ((a.value.length : Int) - b.value.length) ≠ 0 then
        some (toInt ((a.value.length : Int) - b.value.length))
      else if a.value = [] then some 0
      else memcmp a.value b.value a.value.length := by
  unfold compare
  rcases h with h | h
  · rw [h]
  · rw [h]
    cases a.wire <;> rfl

private theorem agrees_of_no_wire (ha : a.Canonical) (hb : b.Canonical)
    (h : a.wire = none ∨ b.wire = none) : a.Agrees b := by
  have htype := a.type_lt
  have htype' := b.type_lt
  have hsmall : a.type ≤ 65535 ∨ b.type ≤ 65535 := by
    rcases h with h | h
    · exact Or.inl (a.valid h).2
    · exact Or.inr (b.valid h).2
  have hcmpType := ha.2.1
  have hcmpType' := hb.2.1
  unfold Agrees
  rw [compare_of_no_wire h,toInt_of_lt (by omega) (by omega)]
  by_cases ht : a.type = b.type
  · have hlen := ha.2.2 (by omega)
    have hlen' := hb.2.2 (by omega)
    rw [if_neg (by omega),toInt_of_lt (by omega) (by omega)]
    by_cases hl : a.value.length = b.value.length
    · rw [if_neg (by omega)]
      by_cases hnil : a.value = []
      · rw [if_pos hnil]
        apply Tells.of_eq
        rw [hnil] at hl
        rw [toComponent,toComponent,ht,hnil,eq_nil_of_length_eq_zero hl.symm]
      · rw [if_neg hnil,memcmp,if_pos ⟨le_rfl,hl.le⟩,take_length,hl,take_length]
        exact tells_component ht hl (tells_octets hl)
    · rw [if_pos (by omega)]
      rcases lt_or_gt_of_ne hl with hlt | hgt
      · exact Tells.of_lt (by omega) (lt_iff.mpr (Or.inr ⟨ht,Or.inl hlt⟩))
      · exact Tells.of_gt (by omega) (lt_iff.mpr (Or.inr ⟨ht.symm,Or.inl hgt⟩))
  · rw [if_pos (by omega)]
    rcases lt_or_gt_of_ne ht with hlt | hgt
    · exact Tells.of_lt (by omega) (lt_iff.mpr (Or.inl hlt))
    · exact Tells.of_gt (by omega) (lt_iff.mpr (Or.inl hgt))

theorem agrees_of_canonical (ha : a.Canonical) (hb : b.Canonical) : a.Agrees b := by
  cases hx : a.wire with
  | none => exact agrees_of_no_wire ha hb (Or.inl hx)
  | some x =>
    cases hy : b.wire with
    | none => exact agrees_of_no_wire ha hb (Or.inr hy)
    | some y => exact agrees_of_wires ha hb hx hy

private def made (type : Nat) (value : List UInt8) (h : 0 < type ∧ type ≤ 65535) : EncodedComponent :=
  ⟨Element.ofValue type value,fun _ => h⟩

private theorem made_canonical {type : Nat} {value : List UInt8} (h : 0 < type ∧ type ≤ 65535)
    (hlen : value.length < 2^31) : (made type value h).Canonical :=
  ⟨rfl,by show type ≤ 2^31; omega,fun _ => hlen⟩

private theorem type_le_of_agrees (h : ∀ b : EncodedComponent, b.Canonical → a.Agrees b) :
    a.type ≤ 2^31 := by
  by_contra hgt
  have htype := a.type_lt
  -- Against the smallest type the difference is taken for a negative number.
  have hagrees := h (made 1 (replicate 32 0) (by decide)) (made_canonical _ (by decide))
  unfold Agrees at hagrees
  rw [compare_of_no_wire (Or.inr rfl)] at hagrees
  have hneg : toInt ((a.type : Int) - (made 1 (replicate 32 0) (by decide)).type) < 0 := by
    show ((a.type : Int) - (1 : Nat)).bmod (2^32) < 0
    rw [Int.bmod_def]
    split_ifs <;> omega
  rw [if_pos (by omega)] at hagrees
  have hlt := hagrees.neg_iff.mp ⟨_,hneg,rfl⟩
  rw [lt_iff] at hlt
  have hone : (made 1 (replicate 32 0) (by decide)).toComponent.type = 1 := rfl
  have htoc : a.toComponent.type = a.type := rfl
  omega

private theorem compare_made (value : List UInt8) (h : 0 < a.type ∧ a.type ≤ 65535) :
    a.compare (made a.type value h) =
      if toInt ((a.value.length : Int) - value.length) ≠ 0 then
        some (toInt ((a.value.length : Int) - value.length))
      else if a.value = [] then some 0
      else memcmp a.value value a.value.length := by
  have hzero : toInt ((a.type : Int) - (made a.type value h).type) = 0 := by
    show toInt ((a.type : Int) - a.type) = 0
    rw [Int.sub_self]
    rfl
  rw [compare_of_no_wire (Or.inr rfl),if_neg (not_not.mpr hzero)]
  rfl

private theorem length_lt_of_agrees (h : ∀ b : EncodedComponent, b.Canonical → a.Agrees b)
    (htype : a.type ≤ 65535) : a.value.length < 2^31 := by
  by_contra hge
  have hvalid : 0 < a.type ∧ a.type ≤ 65535 := ⟨a.type_lt.1,htype⟩
  by_cases hr : a.value.length % 2^32 < 2^31
  · -- The lengths are taken to be equal, and the other value is read past its end.
    have hagrees := h (made a.type (replicate (a.value.length % 2^32) 0) hvalid)
      (made_canonical hvalid (by rw [length_replicate]; exact hr))
    have hsize : toInt ((a.value.length : Int) - (a.value.length % 2^32 : Nat)) = 0 := by
      unfold toInt
      apply Int.bmod_eq_zero_of_dvd
      omega
    have hne : a.value ≠ [] := by
      intro hnil
      rw [hnil] at hge
      exact hge (by decide)
    unfold Agrees at hagrees
    rw [compare_made,length_replicate,if_neg (not_not.mpr hsize),if_neg hne,memcmp,
      if_neg (by rw [length_replicate]; omega)] at hagrees
    obtain ⟨i,hi,_⟩ := hagrees
    exact absurd hi (by simp)
  · -- The difference to an empty value is taken for a negative number.
    have hagrees := h (made a.type [] hvalid) (made_canonical hvalid (by decide))
    have hneg : toInt ((a.value.length : Int) - ([] : List UInt8).length) < 0 := by
      show ((a.value.length : Int) - (0 : Nat)).bmod (2^32) < 0
      rw [Int.bmod_def]
      split_ifs <;> omega
    unfold Agrees at hagrees
    rw [compare_made,if_pos (by omega)] at hagrees
    have hlt := hagrees.neg_iff.mp ⟨_,hneg,rfl⟩
    rw [lt_iff] at hlt
    have htype' : (made a.type [] hvalid).toComponent.type = a.toComponent.type := rfl
    have hnil : (made a.type [] hvalid).toComponent.value = [] := rfl
    rw [htype',hnil] at hlt
    simp at hlt

private theorem size_of_agrees (h : ∀ b : EncodedComponent, b.Canonical → a.Agrees b)
    (htype : a.type ≤ 2^31) (hlen : a.type ≤ 65535 → a.value.length < 2^31) :
    a.size = a.toBlock.size := by
  cases hx : a.wire with
  | none =>
    unfold Element.size
    rw [hx]
  | some x =>
    -- The same component in its shortest form is found equal, so it has the same octets.
    have hb : Block.Valid a.toBlock := ⟨a.type_lt.1,a.type_lt.2,length_lt hx⟩
    have hagrees := h ⟨Element.encoded a.toBlock hb,by simp [Element.encoded]⟩ ⟨rfl,htype,hlen⟩
    have hzero := hagrees.eq_zero_iff.mpr rfl
    unfold compare at hzero
    rw [hx] at hzero
    dsimp only [Element.encoded] at hzero
    rw [memcmp_min] at hzero
    have hfront : ∀ {octets}, x <+: octets → a.toElement.IsFront octets := by
      rintro octets ⟨rest,hrest⟩
      exact ⟨x,rest,hx,hrest.symm⟩
    have hfront' : ∀ {octets}, a.toBlock.encode <+: octets →
        (Element.encoded a.toBlock hb).IsFront octets := by
      rintro octets ⟨rest,hrest⟩
      exact ⟨a.toBlock.encode,rest,rfl,hrest.symm⟩
    have heq : a.toElement = Element.encoded a.toBlock hb := by
      rcases prefix_of_compareFront_zero octetDifference_eq_zero hzero with hp | hp
      · exact (hfront hp).unique (hfront' prefix_rfl)
      · exact (hfront prefix_rfl).unique (hfront' hp)
    rw [heq]
    rfl

theorem canonical_iff :
    a.Canonical ↔ ∀ b : EncodedComponent, b.Canonical → a.Agrees b ∧ b.Agrees a := by
  constructor
  · intro ha b hb
    exact ⟨agrees_of_canonical ha hb,agrees_of_canonical hb ha⟩
  · intro h
    have hagrees : ∀ b : EncodedComponent, b.Canonical → a.Agrees b := fun b hb => (h b hb).1
    have htype := type_le_of_agrees hagrees
    exact ⟨size_of_agrees hagrees htype (length_lt_of_agrees hagrees),htype,
      length_lt_of_agrees hagrees⟩

end EncodedComponent

end Components

section Names

namespace EncodedName

variable {n m : EncodedName}

private theorem all_equals_iff (h : n.length = m.length) :
    (n.zip m).all (fun p => p.1.equals p.2) = true ↔ n.toName = m.toName := by
  induction n generalizing m with
  | nil =>
    rw [eq_nil_of_length_eq_zero h.symm]
    exact iff_of_true rfl rfl
  | cons a n ih =>
    cases m with
    | nil => exact absurd h (by simp)
    | cons b m =>
      rw [zip_cons_cons,all_cons,Bool.and_eq_true,EncodedComponent.equals_iff,ih (Nat.succ.inj h)]
      exact (List.cons.injEq _ _ _ _).symm ▸ Iff.rfl

theorem equals_iff : n.equals m = true ↔ n.toName = m.toName := by
  unfold equals
  rw [Bool.and_eq_true,decide_eq_true_eq]
  constructor
  · intro ⟨hlen,hall⟩
    exact (all_equals_iff hlen).mp hall
  · intro heq
    have hlen : n.length = m.length := by
      have hlen' := congrArg List.length heq
      rwa [toName,toName,length_map,length_map] at hlen'
    exact ⟨hlen,(all_equals_iff hlen).mpr heq⟩

theorem isPrefixOf_iff : n.isPrefixOf m = true ↔ n.toName <+: m.toName := by
  unfold isPrefixOf
  rw [Bool.and_eq_true,decide_eq_true_eq]
  induction n generalizing m with
  | nil => exact iff_of_true ⟨Nat.zero_le _,rfl⟩ nil_prefix
  | cons a n ih =>
    cases m with
    | nil => exact iff_of_false (by simp) (by simp [toName])
    | cons b m =>
      rw [zip_cons_cons,all_cons,Bool.and_eq_true,EncodedComponent.equals_iff,
        length_cons,length_cons,Nat.add_le_add_iff_right,and_left_comm,ih]
      exact cons_prefix_cons.symm

theorem agrees_of_canonical (hn : n.Canonical) (hm : m.Canonical) : n.Agrees m := by
  have hagrees : ∀ a ∈ n, ∀ b ∈ m, Tells (a.compare b) a.toComponent b.toComponent :=
    fun a ha b hb => EncodedComponent.agrees_of_canonical (hn.1 a ha) (hm.1 b hb)
  obtain ⟨i,hi,hneg,hpos,hfront⟩ := compareFront_spec hagrees
  have hlen := hn.2
  have hlen' := hm.2
  unfold Agrees compare
  rw [hi]
  dsimp only
  rcases lt_trichotomy i 0 with hlt | heq | hgt
  · rw [if_pos (by omega)]
    exact Tells.of_lt hlt (hneg hlt)
  · have htells := tells_length (hfront heq)
    rw [length_map,length_map] at htells
    rw [if_neg (by omega),EncodedComponent.toInt_of_lt (by omega) (by omega)]
    exact htells
  · rw [if_pos (by omega)]
    exact Tells.of_gt hgt (hpos hgt)

private theorem compare_singleton (a b : EncodedComponent) : compare [a] [b] = a.compare b := by
  unfold compare
  rw [compareFront]
  cases a.compare b with
  | none => rfl
  | some i =>
    dsimp only
    by_cases hi : i = 0
    · have hzero : EncodedComponent.toInt ((1 : Int) - 1) = 0 := by decide
      rw [if_neg (not_not.mpr hi),hi]
      exact congrArg some hzero
    · rw [if_pos hi]
      exact if_pos hi

theorem agrees_singleton {a b : EncodedComponent} : Agrees [a] [b] ↔ a.Agrees b := by
  have hlt : ∀ c d : EncodedComponent,
      toName [c] < toName [d] ↔ c.toComponent < d.toComponent := by
    intro c d
    show [c.toComponent] < [d.toComponent] ↔ _
    rw [cons_lt_cons_iff]
    simp
  unfold Agrees EncodedComponent.Agrees Tells
  rw [compare_singleton,hlt,hlt]

end EncodedName

/-- Components and names in canonical form are totally ordered by their comparison, and the order is
the canonical one. A component in another form is compared wrongly with some component in canonical
form, be it as such or as a name. -/
theorem compare_canonical_iff (a : EncodedComponent) (n : EncodedName) :
    (a.Canonical ↔ ∀ b : EncodedComponent, b.Canonical → a.Agrees b ∧ b.Agrees a) ∧
    (a.Canonical ↔ ∀ b : EncodedComponent, b.Canonical →
      EncodedName.Agrees [a] [b] ∧ EncodedName.Agrees [b] [a]) ∧
    (∀ m : EncodedName, n.Canonical → m.Canonical → n.Agrees m) ∧
    (∀ b : EncodedComponent, a.equals b = true ↔ a.type = b.type ∧ a.value = b.value) ∧
    (∀ m : EncodedName, n.equals m = true ↔ n.toName = m.toName) ∧
    (∀ b c : EncodedComponent, a.Canonical → b.Canonical → c.Canonical →
      Ordered EncodedComponent.compare EncodedComponent.equals a b c) ∧
    (∀ m k : EncodedName, n.Canonical → m.Canonical → k.Canonical →
      Ordered EncodedName.compare EncodedName.equals n m k) := by
  refine ⟨EncodedComponent.canonical_iff,?_,?_,?_,?_,?_,?_⟩
  · simp only [EncodedName.agrees_singleton]
    exact EncodedComponent.canonical_iff
  · intro m hn hm
    exact EncodedName.agrees_of_canonical hn hm
  · intro b
    rw [EncodedComponent.equals_iff]
    exact Component.mk.injEq _ _ _ _ ▸ Iff.rfl
  · intro m
    exact EncodedName.equals_iff
  · intro b c ha hb hc
    exact Ordered.of_tells EncodedComponent.equals_iff
      (EncodedComponent.agrees_of_canonical ha hb) (EncodedComponent.agrees_of_canonical hb ha)
      (EncodedComponent.agrees_of_canonical hb hc) (EncodedComponent.agrees_of_canonical ha hc)
  · intro m k hn hm hk
    exact Ordered.of_tells EncodedName.equals_iff
      (EncodedName.agrees_of_canonical hn hm) (EncodedName.agrees_of_canonical hm hn)
      (EncodedName.agrees_of_canonical hm hk) (EncodedName.agrees_of_canonical hn hk)

def shortA : EncodedComponent :=
  ⟨⟨⟨8,[0x41]⟩,some [0x08,0x01,0x41],by
    intro octets hoctets
    rw [← mem_some_iff.mp hoctets]
    exact ⟨by decide,by decide,.short,.short,by decide,by decide,by decide⟩⟩,by simp⟩

def longA : EncodedComponent :=
  ⟨⟨⟨8,[0x41]⟩,some [0xFD,0x00,0x08,0x01,0x41],by
    intro octets hoctets
    rw [← mem_some_iff.mp hoctets]
    exact ⟨by decide,by decide,.two,.short,by decide,by decide,by decide⟩⟩,by simp⟩

def madeA : EncodedComponent := ⟨Element.ofValue 8 [0x41],by decide⟩

theorem longA_differs : Element.ofSpan [0x08,0x01,0x41] = .ok shortA.toElement ∧
      Element.ofSpan [0xFD,0x00,0x08,0x01,0x41] = .ok longA.toElement ∧
      shortA.equals longA = true ∧ shortA.compare longA = some (-245) ∧
      shortA.compare madeA = some 0 ∧ madeA.compare longA = some 0 ∧
      EncodedName.equals [shortA] [longA] = true ∧
      EncodedName.compare [shortA] [longA] = some (-245) := by
  decide +kernel

theorem compare_canonical_iff_shortA :
    shortA.Canonical ∧ madeA.Canonical ∧ EncodedName.Agrees [shortA] [madeA] ∧
      Ordered EncodedComponent.compare EncodedComponent.equals shortA madeA shortA := by
  have hshort : shortA.Canonical := ⟨by decide,by decide,fun _ => by decide⟩
  have hmade : madeA.Canonical := ⟨by decide,by decide,fun _ => by decide⟩
  have h := compare_canonical_iff shortA [shortA]
  exact ⟨hshort,hmade,(h.2.1.mp hshort madeA hmade).1,
    h.2.2.2.2.2.1 madeA shortA hshort hmade hshort⟩

end Names

end KiteNdn
