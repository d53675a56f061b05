import Mathlib.Data.List.Sort
import KiteNdn.Encoding.Codec
import KiteNdn.Framework.Run
import KiteNdn.Lp.Fragmenter

/-!
# The order of the fields of an NDNLP packet

The decoder demands that the fields come in the order of their places and types, and `add` inserts a
field where this order puts it. A packet with a fragment and nothing else is written as the first
element in the fragment. `Represents` ties the packets of the fragmenter, which keep the fragment
apart, to these elements.
-/

namespace KiteNdn.Lp.FieldOrder

open Tlv List Except Element

section Fields

structure FieldDecl where
  tlvType : Nat
  locationSortOrder : Nat := 1
  isRepeatable : Bool := false

def fieldSet : List FieldDecl :=
  [{ tlvType := 80, locationSortOrder := 2 },{ tlvType := 81 },{ tlvType := 82 },{ tlvType := 83 },
    { tlvType := 98 },{ tlvType := 800 },{ tlvType := 816 },{ tlvType := 812 },{ tlvType := 820 },
    { tlvType := 832 },{ tlvType := 836, isRepeatable := true },{ tlvType := 840 },
    { tlvType := 844 },{ tlvType := 848 }]

structure FieldInfo extends FieldDecl where
  isRecognized : Bool := false
  canIgnore : Bool := false

def fieldInfo (tlv : Nat) : FieldInfo :=
  match fieldSet.find? (·.tlvType = tlv) with
  | some field => { toFieldDecl := field, isRecognized := true }
  | none => { tlvType := tlv, canIgnore := 800 ≤ tlv && tlv ≤ 959 && tlv % 4 = 0 }

def compareFieldSortOrder (first second : FieldInfo) : Bool :=
  first.locationSortOrder < second.locationSortOrder ||
    first.locationSortOrder = second.locationSortOrder && first.tlvType < second.tlvType

@[simp]
theorem tlvType_fieldInfo (tlv : Nat) : (fieldInfo tlv).tlvType = tlv := by
  unfold fieldInfo
  split
  · next field h =>
    have hfield := find?_some h
    exact of_decide_eq_true hfield
  · rfl

/-- An element of the first type may stand before one of the second. -/
def Precedes (a b : Nat) : Prop :=
  if b = a then (fieldInfo b).isRepeatable = true
  else compareFieldSortOrder (fieldInfo a) (fieldInfo b) = true

section Compare

variable {a b c : Nat}

theorem compare_trans (hab : compareFieldSortOrder (fieldInfo a) (fieldInfo b) = true)
    (hbc : compareFieldSortOrder (fieldInfo b) (fieldInfo c) = true) :
    compareFieldSortOrder (fieldInfo a) (fieldInfo c) = true := by
  simp only [compareFieldSortOrder,Bool.or_eq_true,Bool.and_eq_true,decide_eq_true_eq,
    tlvType_fieldInfo] at *
  omega

theorem precedes_of_compare (h : compareFieldSortOrder (fieldInfo a) (fieldInfo b) = true) :
    Precedes a b := by
  unfold Precedes
  split_ifs with heq
  · simp [heq,compareFieldSortOrder] at h
  · exact h

theorem compare_total (hne : b ≠ a)
    (h : compareFieldSortOrder (fieldInfo b) (fieldInfo a) ≠ true) :
    compareFieldSortOrder (fieldInfo a) (fieldInfo b) = true := by
  simp only [compareFieldSortOrder,Bool.or_eq_true,Bool.and_eq_true,decide_eq_true_eq,
    tlvType_fieldInfo,ne_eq] at *
  omega

theorem Precedes.of_compare (hab : compareFieldSortOrder (fieldInfo a) (fieldInfo b) = true)
    (hbc : Precedes b c) : Precedes a c := by
  unfold Precedes at hbc
  split_ifs at hbc with hcb
  · rw [hcb]
    exact precedes_of_compare hab
  · exact precedes_of_compare (compare_trans hab hbc)

instance : Trans Precedes Precedes Precedes where
  trans {a b c} hab hbc := by
    by_cases heq : b = a
    · rwa [← heq]
    · rw [Precedes,if_neg heq] at hab
      exact hbc.of_compare hab

end Compare

end Fields

section Operations

/-- The value of a field as the encoder writes it. -/
structure FieldValue extends FieldDecl where
  block : Element
  known : toFieldDecl ∈ fieldSet
  type_eq : block.type = tlvType
  wired : block.hasWire = true

def has (type : Nat) (es : List Element) : Bool := es.any (·.type = type)

def values (type : Nat) (es : List Element) : List (List UInt8) :=
  (es.filter (·.type = type)).map fun e => e.value

/-- At the first place whose element comes later. -/
def insertField (b : Element) (es : List Element) : List Element :=
  es.orderedInsert
    (fun b e => compareFieldSortOrder (fieldInfo b.type) (fieldInfo e.type) = true) b

def add (v : FieldValue) (es : List Element) : Except String (List Element) :=
  if !v.isRepeatable && has v.tlvType es then .error "lp::Packet::add: field cannot be repeated"
  else .ok (insertField v.block es)

def clear (type : Nat) (es : List Element) : List Element := es.filter (·.type ≠ type)

def set (v : FieldValue) (es : List Element) : Except String (List Element) :=
  add v (clear v.tlvType es)

def remove (type : Nat) : Nat → List Element → Except String (List Element)
  | _, [] => .error "lp::Packet::remove: index out of range"
  | index, e :: es =>
    if e.type = type then
      match index with
      | 0 => .ok es
      | index + 1 => (remove type index es).map (e :: ·)
    else (remove type index es).map (e :: ·)

inductive Operation where
  | add (v : FieldValue)
  | set (v : FieldValue)
  | remove (type index : Nat)
  | clear (type : Nat)

def Operation.apply : Operation → List Element → Except String (List Element)
  | .add v, es => FieldOrder.add v es
  | .set v, es => FieldOrder.set v es
  | .remove type index, es => FieldOrder.remove type index es
  | .clear type, es => .ok (FieldOrder.clear type es)

/-- An exception leaves the packet as it was. -/
def step (es : List Element) (op : Operation) : List Element :=
  match op.apply es with
  | .ok es' => es'
  | .error _ => es

end Operations

section Codec

/-- An exception, or a read of an element that does not exist. -/
inductive Failure where
  | thrown (message : String)
  | undefined
  deriving DecidableEq, Repr

/-- `Block::encode`. Unless the block still has the octets from which it was decoded, all elements
are written anew. -/
def encode (hasWire : Bool) (es : List Element) : List Element :=
  if hasWire then es else es.map fun e => .ofBlock e.toBlock

def wireEncode (hasWire : Bool) : List Element → Except Failure Element
  | [e] =>
    if e.type = 80 then
      match Element.parse e.value with
      | .error message => .error (.thrown message)
      | .ok [] => .error .undefined
      | .ok (front :: _) => .ok front
    else .ok (.ofValue 100 (Element.allOctets (encode hasWire [e])))
  | es => .ok (.ofValue 100 (Element.allOctets (encode hasWire es)))

def checkFields : Option Nat → List Element → Except String Unit
  | _, [] => .ok ()
  | prev, e :: es =>
    let info := fieldInfo e.type
    if !info.isRecognized && !info.canIgnore then
      .error s!"unrecognized field {e.type} cannot be ignored"
    else if prev.any fun type => e.type = type && !info.isRepeatable then
      .error s!"non-repeatable field {e.type} cannot be repeated"
    else if prev.any fun type => e.type ≠ type && !compareFieldSortOrder (fieldInfo type) info then
      .error "fields are not in correct sort order"
    else checkFields (some e.type) es

theorem valid_fragment {octets : List UInt8} (h : octets.length < 2^64) : Block.Valid ⟨80,octets⟩ :=
  ⟨(by decide : 0 < 80),(by decide : 80 < 2^32),h⟩

/-- A bare packet becomes the fragment. No buffer has 2^64 octets. -/
def wireDecode (wire : Element) : Except Failure (List Element) :=
  if wire.type = 5 ∨ wire.type = 6 then
    match wire.wire with
    | none => .error (.thrown "Underlying wire buffer is empty")
    | some octets =>
      if h : octets.length < 2^64 then .ok [.encoded ⟨80,octets⟩ (valid_fragment h)]
      else .error .undefined
  else if wire.type ≠ 100 then
    .error (.thrown s!"Expecting LpPacket element, but TLV has type {wire.type}")
  else
    match Element.parse wire.value with
    | .error message => .error (.thrown message)
    | .ok es =>
      match checkFields none es with
      | .error message => .error (.thrown message)
      | .ok _ => .ok es

end Codec

section Invariant

variable {es es' : List Element} {e b : Element}

def types (es : List Element) : List Nat := es.map fun e => e.type

def Accepted (type : Nat) : Prop :=
  (fieldInfo type).isRecognized = true ∨ (fieldInfo type).canIgnore = true

structure WellFormed (es : List Element) : Prop where
  ordered : (types es).Pairwise Precedes
  accepted : ∀ type ∈ types es, Accepted type
  wired : ∀ e ∈ es, e.hasWire = true

private theorem ite_error_eq_ok {c : Prop} [Decidable c] {message : String}
    {x : Except String Unit} : (if c then .error message else x) = .ok () ↔ ¬c ∧ x = .ok () := by
  split_ifs with h <;> simp [h]

theorem checkFields_eq_ok {prev : Option Nat} : checkFields prev es = .ok () ↔
    (∀ type ∈ types es, Accepted type) ∧ (prev.toList ++ types es).IsChain Precedes := by
  induction es generalizing prev with
  | nil => cases prev <;> simp [checkFields,types]
  | cons e es ih =>
    have haccepted : Accepted e.type ↔
        ¬(!(fieldInfo e.type).isRecognized && !(fieldInfo e.type).canIgnore) = true := by
      simp [Accepted,Classical.or_iff_not_imp_left]
    have hstep : checkFields prev (e :: es) = .ok () ↔ Accepted e.type ∧
        (∀ type ∈ prev, Precedes type e.type) ∧ checkFields (some e.type) es = .ok () := by
      simp only [checkFields,haccepted,ite_error_eq_ok]
      cases prev with
      | none => simp
      | some type =>
        unfold Precedes
        by_cases heq : e.type = type
        · simp [heq]
        · simp [heq]
    rw [hstep,ih]
    cases prev with
    | none => simp [types,and_assoc]
    | some type =>
      simp [types,isChain_cons_cons]
      tauto

theorem WellFormed.checkFields (h : WellFormed es) : checkFields none es = .ok () :=
  checkFields_eq_ok.mpr ⟨h.accepted,isChain_iff_pairwise.mpr h.ordered⟩

theorem wellFormed_nil : WellFormed [] :=
  ⟨List.Pairwise.nil,fun _ h => absurd h not_mem_nil,fun _ h => absurd h not_mem_nil⟩

theorem WellFormed.sublist (h : WellFormed es) (hsub : es'.Sublist es) : WellFormed es' :=
  ⟨h.ordered.sublist (hsub.map _),fun type htype => h.accepted type ((hsub.map _).subset htype),
    fun e he => h.wired e (hsub.subset he)⟩

theorem WellFormed.encode (h : WellFormed es) (hasWire : Bool) : WellFormed (encode hasWire es) := by
  cases hasWire with
  | true => exact h
  | false =>
    have htypes : types (FieldOrder.encode false es) = types es := by
      simp [types,FieldOrder.encode]
    refine ⟨htypes ▸ h.ordered,htypes ▸ h.accepted,fun e he => ?_⟩
    obtain ⟨f,hf,rfl⟩ := mem_map.mp he
    obtain ⟨hpos,hlt,_,_,_,hl,_⟩ := framed_octets (h.wired f hf)
    exact (hasWire_ofBlock _).mpr ⟨hpos,hlt,hl.lt⟩

theorem ordered_insertField (hes : (types es).Pairwise Precedes)
    (hb : b.type ∈ types es → (fieldInfo b.type).isRepeatable = true) :
    (types (insertField b es)).Pairwise Precedes := by
  induction es with
  | nil => exact pairwise_singleton _ _
  | cons e es ih =>
    obtain ⟨he,hes⟩ := pairwise_cons.mp hes
    rw [insertField,orderedInsert_cons]
    split_ifs with hcompare
    · refine pairwise_cons.mpr ⟨?_,pairwise_cons.mpr ⟨he,hes⟩⟩
      intro type htype
      rcases mem_cons.mp htype with rfl | htype
      · exact precedes_of_compare hcompare
      · exact (he type htype).of_compare hcompare
    · refine pairwise_cons.mpr ⟨?_,ih hes fun hmem => hb (mem_cons_of_mem _ hmem)⟩
      intro type htype
      rcases mem_cons.mp (((perm_orderedInsert _ b es).map _).subset htype) with rfl | htype
      · unfold Precedes
        split_ifs with heq
        · exact hb (heq ▸ mem_cons_self)
        · exact compare_total heq hcompare
      · exact he type htype

theorem fieldInfo_of_mem : ∀ field ∈ fieldSet, (fieldInfo field.tlvType).isRecognized = true ∧
    (fieldInfo field.tlvType).isRepeatable = field.isRepeatable := by
  decide

theorem WellFormed.insertField (h : WellFormed es) {v : FieldValue}
    (hv : v.isRepeatable = true ∨ has v.tlvType es = false) :
    WellFormed (insertField v.block es) := by
  obtain ⟨hrecognized,hrepeatable⟩ := fieldInfo_of_mem _ v.known
  rw [← v.type_eq] at hrecognized hrepeatable
  have hperm : (FieldOrder.insertField v.block es).Perm (v.block :: es) :=
    perm_orderedInsert _ _ _
  refine ⟨ordered_insertField h.ordered ?_,?_,?_⟩
  · intro hmem
    rw [hrepeatable]
    refine hv.resolve_right fun hhas => ?_
    obtain ⟨e,he,heq⟩ := mem_map.mp hmem
    simpa [v.type_eq ▸ heq] using any_eq_false.mp hhas e he
  · intro type htype
    rcases mem_cons.mp ((hperm.map _).subset htype) with rfl | htype
    · exact Or.inl hrecognized
    · exact h.accepted type htype
  · intro e he
    rcases mem_cons.mp (hperm.subset he) with rfl | he
    · exact v.wired
    · exact h.wired e he

theorem WellFormed.add (h : WellFormed es) {v : FieldValue} (hadd : add v es = .ok es') :
    WellFormed es' := by
  unfold FieldOrder.add at hadd
  split_ifs at hadd with hrepeat
  rw [← ok.inj hadd]
  apply h.insertField
  cases hv : v.isRepeatable with
  | true => exact Or.inl rfl
  | false => exact Or.inr (by simpa [hv] using hrepeat)

private theorem sublist_of_map_cons {x : Except String (List Element)}
    (h : x.map (e :: ·) = .ok es') (ih : ∀ {rest}, x = .ok rest → rest.Sublist es) :
    es'.Sublist (e :: es) := by
  cases x with
  | error message => cases h
  | ok rest => exact ok.inj h ▸ (ih rfl).cons_cons e

theorem remove_sublist {type index : Nat} (h : remove type index es = .ok es') :
    es'.Sublist es := by
  fun_induction remove type index es generalizing es' with
  | case1 => cases h
  | case2 e es => exact ok.inj h ▸ sublist_cons_self e es
  | case3 _ _ _ _ ih => exact sublist_of_map_cons h ih
  | case4 _ _ _ _ ih => exact sublist_of_map_cons h ih

theorem WellFormed.step (h : WellFormed es) (op : Operation) : WellFormed (step es op) := by
  unfold FieldOrder.step
  cases hop : op.apply es with
  | error message => exact h
  | ok es' =>
    cases op with
    | add v => exact h.add hop
    | set v => exact (h.sublist filter_sublist).add hop
    | remove type index => exact h.sublist (remove_sublist hop)
    | clear type => exact ok.inj hop ▸ h.sublist filter_sublist

theorem wireDecode_cases {wire : Element} (h : wireDecode wire = .ok es) :
    (∃ octets, ∃ hlt : octets.length < 2^64, wire.wire = some octets ∧
      (wire.type = 5 ∨ wire.type = 6) ∧ es = [.encoded ⟨80,octets⟩ (valid_fragment hlt)]) ∨
    Element.parse wire.value = .ok es ∧ checkFields none es = .ok () := by
  unfold wireDecode at h
  split_ifs at h with hbare
  · split at h
    · cases h
    · next octets hwire =>
      split_ifs at h with hlt
      exact Or.inl ⟨octets,hlt,hwire,hbare,(ok.inj h).symm⟩
  · split at h
    · cases h
    · next hparse =>
      split at h
      · cases h
      · next hcheck =>
        cases h
        exact Or.inr ⟨hparse,hcheck⟩

theorem wellFormed_of_wireDecode {wire : Element} (h : wireDecode wire = .ok es) :
    WellFormed es := by
  rcases wireDecode_cases h with ⟨octets,hlt,_,_,rfl⟩ | ⟨hparse,hcheck⟩
  · refine ⟨pairwise_singleton _ _,?_,?_⟩
    · intro type htype
      rw [mem_singleton.mp htype]
      exact Or.inl (by decide : (fieldInfo 80).isRecognized = true)
    · intro e he
      rw [mem_singleton.mp he]
      rfl
  · obtain ⟨haccepted,hchain⟩ := checkFields_eq_ok.mp hcheck
    exact ⟨isChain_iff_pairwise.mp hchain,haccepted,(parse_eq_ok.mp hparse).1⟩

end Invariant

section RoundTrip

variable {es : List Element} {hasWire : Bool}

/-- The block that is written is accepted, and every field has the same values. -/
def RoundTrips (hasWire : Bool) (es : List Element) : Prop :=
  ∃ wire es', wireEncode hasWire es = .ok wire ∧ wireDecode wire = .ok es' ∧
    ∀ type, values type es' = values type es

/-- A fragment without other fields is one Interest or Data. -/
def IsWhole (es : List Element) : Prop :=
  ∀ e, es = [e] → e.type = 80 →
    ∃ packet : Element, packet.wire = some e.value ∧ (packet.type = 5 ∨ packet.type = 6)

theorem WellFormed.wireDecode (h : WellFormed es) :
    wireDecode (.ofValue 100 (Element.allOctets es)) = .ok es := by
  have hparse : Element.parse (Element.allOctets es) = .ok es :=
    parse_eq_ok.mpr ⟨h.wired,rfl⟩
  simp [FieldOrder.wireDecode,Element.ofValue,hparse,h.checkFields]

theorem values_encode (type : Nat) : values type (encode hasWire es) = values type es := by
  cases hasWire <;> simp [values,encode,filter_map,Function.comp_def]

theorem wireEncode_fields (h : ∀ e, es = [e] → e.type ≠ 80) :
    wireEncode hasWire es = .ok (.ofValue 100 (Element.allOctets (encode hasWire es))) := by
  unfold wireEncode
  split
  · exact if_neg (h _ rfl)
  · rfl

theorem wireEncode_fragment {e : Element} {wire : Element} (htype : e.type = 80) :
    wireEncode hasWire [e] = .ok wire ↔ ∃ rest, Element.parse e.value = .ok (wire :: rest) := by
  rw [wireEncode,if_pos htype]
  cases Element.parse e.value with
  | error message => simp
  | ok elements => cases elements <;> simp

theorem wireDecode_bare {packet : Element} {octets : List UInt8} (hwire : packet.wire = some octets)
    (htype : packet.type = 5 ∨ packet.type = 6) (hlength : octets.length < 2^64) :
    wireDecode packet = .ok [.encoded ⟨80,octets⟩ (valid_fragment hlength)] := by
  rw [FieldOrder.wireDecode,if_pos htype,hwire]
  exact dif_pos hlength

theorem length_value_lt {e f : Element} {fs : List Element} (hf : f ∈ fs)
    (hwire : f.hasWire = true) (he : Element.allOctets fs = e.value) :
    f.value.length < e.value.length := by
  have hframed := (framed_octets hwire).value_lt_length
  obtain ⟨before,after,rfl⟩ := append_of_mem hf
  rw [← he,Element.allOctets,flatMap_append,flatMap_cons,length_append,length_append]
  omega

/-- A fragment without other fields survives exactly if it is one Interest or Data. -/
theorem roundTrips_fragment_iff {e : Element} (he : e.hasWire = true) (htype : e.type = 80) :
    RoundTrips hasWire [e] ↔ IsWhole [e] := by
  constructor
  · rintro ⟨wire,es',hencode,hdecode,hvalues⟩ f hf -
    obtain rfl := singleton_inj.mp hf
    obtain ⟨rest,hparse⟩ := (wireEncode_fragment htype).mp hencode
    obtain ⟨hwired,hoctets⟩ := parse_eq_ok.mp hparse
    have hvalue : e.value ∈ values 80 es' := by
      rw [hvalues]
      simp [values,htype]
    obtain ⟨f,hf,hsame⟩ := mem_map.mp hvalue
    have hf := mem_of_mem_filter hf
    rcases wireDecode_cases hdecode with ⟨octets,_,hwire,hbare,rfl⟩ | ⟨hfields,_⟩
    · rw [mem_singleton.mp hf] at hsame
      exact ⟨wire,hwire.trans (congrArg some hsame),hbare⟩
    · -- the fragment would be inside of itself
      obtain ⟨hinner,hall⟩ := parse_eq_ok.mp hfields
      have hwire := length_value_lt mem_cons_self (hwired wire mem_cons_self) hoctets
      have hless := length_value_lt hf (hinner f hf) hall
      rw [hsame] at hless
      omega
  · intro hwhole
    obtain ⟨packet,hwire,hpacket⟩ := hwhole e rfl htype
    have hparse : Element.parse e.value = .ok [packet] := by
      apply parse_eq_ok.mpr
      constructor
      · intro f hf
        rw [mem_singleton.mp hf,Element.hasWire,hwire]
        rfl
      · rw [allOctets_cons,octets_of_wire hwire,allOctets_nil,
          append_nil]
    obtain ⟨_,_,_,l,_,hl,_⟩ := framed_octets he
    refine ⟨packet,_,(wireEncode_fragment htype).mpr ⟨[],hparse⟩,
      wireDecode_bare hwire hpacket hl.lt,fun type => ?_⟩
    cases hd : decide (80 = type) <;>
      simp [values,Element.encoded,htype,hd]

theorem roundTrips_iff_isWhole (h : WellFormed es) : RoundTrips hasWire es ↔ IsWhole es := by
  by_cases hfragment : ∃ e, es = [e] ∧ e.type = 80
  · obtain ⟨e,rfl,htype⟩ := hfragment
    exact roundTrips_fragment_iff (h.wired e mem_cons_self) htype
  · have hnone : ∀ e, es = [e] → e.type ≠ 80 := fun e he htype => hfragment ⟨e,he,htype⟩
    exact iff_of_true ⟨_,_,wireEncode_fields hnone,(h.encode hasWire).wireDecode,values_encode⟩
      fun e he htype => absurd htype (hnone e he)

/-- A packet that was decoded or begins empty is read back with the values of all fields, exactly
if it does not consist of a fragment that is not one Interest or Data. -/
theorem roundTrips_run_iff (hasWire : Bool) (es : List Element) (ops : List Operation)
    (h : es = [] ∨ ∃ wire, wireDecode wire = .ok es) :
    RoundTrips hasWire (ops.foldl step es) ↔ IsWhole (ops.foldl step es) := by
  apply roundTrips_iff_isWhole
  apply Framework.foldl_keeps WellFormed
  · intro es op hes
    exact hes.step op
  · rcases h with rfl | ⟨wire,hwire⟩
    · exact wellFormed_nil
    · exact wellFormed_of_wireDecode hwire

def fragmentField (payload : List UInt8) (h : payload.length < 2^64) : FieldValue where
  tlvType := 80
  locationSortOrder := 2
  block := .encoded ⟨80,payload⟩ (valid_fragment h)
  known := mem_cons_self
  type_eq := rfl
  wired := rfl

theorem roundTrips_run_iff_interest :
    RoundTrips false ([.set (fragmentField [5,0] (by decide))].foldl step []) := by
  refine (roundTrips_run_iff false [] [.set (fragmentField [5,0] (by decide))] (Or.inl rfl)).mpr ?_
  intro e he _
  obtain rfl := singleton_inj.mp he
  exact ⟨.encoded ⟨5,[]⟩ ⟨by decide,by decide,by decide⟩,rfl,Or.inl rfl⟩

/-- Part of a packet is not written, and what follows the first element is lost. -/
theorem fragment_not_whole :
    wireEncode false ([.set (fragmentField [1] (by decide))].foldl step []) =
        .error (.thrown "Empty buffer during TLV parsing") ∧
      ((wireEncode false ([.set (fragmentField [5,0,6,0] (by decide))].foldl step [])).bind
        wireDecode).map (values 80) = .ok [[5,0]] ∧
      ((wireEncode false ([.set (fragmentField [80,0] (by decide))].foldl step [])).bind
        wireDecode).map (values 80) =
          .error (.thrown "Expecting LpPacket element, but TLV has type 80") := by
  decide +kernel

end RoundTrip

section Packets

variable {p : Packet} {es : List Element} {e : Element}

theorem locationSortOrder_fieldInfo {tlv : Nat} (h : tlv ≠ fragmentType) :
    (fieldInfo tlv).locationSortOrder = 1 := by
  have hfields : ∀ field ∈ fieldSet, field.tlvType ≠ fragmentType → field.locationSortOrder = 1 := by
    decide
  have htype := tlvType_fieldInfo tlv
  unfold fieldInfo at htype ⊢
  split
  · next field hfind =>
    rw [hfind] at htype
    exact hfields field (mem_of_find?_eq_some hfind) (htype.trans_ne h)
  · rfl

theorem compare_header {a b : Nat} (ha : a ≠ fragmentType) (hb : b ≠ fragmentType) :
    compareFieldSortOrder (fieldInfo a) (fieldInfo b) = true ↔ a < b := by
  simp [compareFieldSortOrder,locationSortOrder_fieldInfo ha,locationSortOrder_fieldInfo hb]

theorem compare_fragment {a : Nat} (ha : a ≠ fragmentType) :
    compareFieldSortOrder (fieldInfo a) (fieldInfo fragmentType) = true := by
  have hlast : (fieldInfo fragmentType).locationSortOrder = 2 := by decide
  simp [compareFieldSortOrder,locationSortOrder_fieldInfo ha,hlast]

/-- The elements hold the fields of the packet. -/
structure Represents (p : Packet) (es : List Element) : Prop where
  blocks : es.map Element.toBlock = p.elements
  header : ∀ b ∈ p.header, b.type ≠ fragmentType

private theorem map_insertField {hs fs : List Element} (he : e.type ≠ fragmentType)
    (hhs : ∀ a ∈ hs, a.type ≠ fragmentType) (hfs : ∀ a ∈ fs, a.type = fragmentType) :
    (insertField e (hs ++ fs)).map Element.toBlock =
      Packet.insertField e.toBlock (hs.map Element.toBlock) ++ fs.map Element.toBlock := by
  induction hs with
  | nil =>
    cases fs with
    | nil => rfl
    | cons f fs =>
      have hf := hfs f mem_cons_self
      rw [nil_append,insertField,orderedInsert_cons,if_pos (by rw [hf]; exact compare_fragment he)]
      rfl
  | cons a hs ih =>
    obtain ⟨ha,hhs⟩ := forall_mem_cons.mp hhs
    rw [cons_append,insertField,orderedInsert_cons,map_cons,Packet.insertField]
    by_cases hle : a.type ≤ e.type
    · rw [if_neg (by rw [compare_header he ha]; omega),if_pos hle]
      exact congrArg (a.toBlock :: ·) (ih hhs)
    · rw [if_pos ((compare_header he ha).mpr (by omega)),if_neg hle]
      simp

private theorem Represents.parts (h : Represents p es) : ∃ hs fs, es = hs ++ fs ∧
    hs.map Element.toBlock = p.header ∧ fs.map Element.toBlock =
      (p.fragment.map fun payload => ⟨fragmentType,payload⟩).toList ∧
      (∀ a ∈ hs, a.type ≠ fragmentType) ∧ ∀ a ∈ fs, a.type = fragmentType := by
  obtain ⟨hs,fs,rfl,hhs,hfs⟩ := map_eq_append_iff.mp h.blocks
  refine ⟨hs,fs,rfl,hhs,hfs,fun a ha => h.header a.toBlock (hhs ▸ mem_map_of_mem ha),fun a ha => ?_⟩
  have hmem : a.toBlock ∈ fs.map Element.toBlock := mem_map_of_mem ha
  rw [hfs] at hmem
  obtain ⟨payload,_,heq⟩ := Option.map_eq_some_iff.mp (Option.mem_toList.mp hmem)
  exact heq ▸ rfl

/-- The packet's fields are inserted and removed as the elements are. -/
theorem Represents.insertField (h : Represents p es) (he : e.type ≠ fragmentType) :
    Represents (p.add e.toBlock) (insertField e es) := by
  obtain ⟨hs,fs,rfl,hhs,hfs,hheader,hfragment⟩ := h.parts
  have hmap := map_insertField he hheader hfragment
  rw [hhs,hfs] at hmap
  refine ⟨hmap,fun b hb => ?_⟩
  rcases mem_cons.mp ((Packet.perm_insertField _ _).subset hb) with rfl | hb
  · exact he
  · exact h.header b hb

theorem Represents.clear (h : Represents p es) {type : Nat} (htype : type ≠ fragmentType) :
    Represents (p.clear type) (clear type es) := by
  obtain ⟨hs,fs,rfl,hhs,hfs,hheader,hfragment⟩ := h.parts
  have hkept : fs.filter (fun e => e.type ≠ type) = fs :=
    filter_eq_self.mpr fun a ha => decide_eq_true ((hfragment a ha).trans_ne htype.symm)
  have hmap : (hs.filter fun e => e.type ≠ type).map Element.toBlock =
      p.header.filter fun b => b.type ≠ type := by
    rw [← hhs,filter_map]
    rfl
  refine ⟨?_,fun b hb => h.header b (mem_of_mem_filter hb)⟩
  rw [FieldOrder.clear,filter_append,hkept,map_append,hmap,hfs]
  rfl

theorem Represents.set (h : Represents p es) {v : FieldValue} (hv : v.tlvType ≠ fragmentType)
    {es' : List Element} (hset : set v es = .ok es') : Represents (p.set v.block.toBlock) es' := by
  unfold FieldOrder.set add at hset
  split_ifs at hset
  cases hset
  have hclear := h.clear hv
  rw [← v.type_eq] at hclear hv ⊢
  exact hclear.insertField hv

private theorem insertField_fragment (he : e.type = fragmentType)
    (h : ∀ a ∈ es, a.type ≠ fragmentType) : FieldOrder.insertField e es = es ++ [e] := by
  induction es with
  | nil => rfl
  | cons a es ih =>
    obtain ⟨ha,hes⟩ := forall_mem_cons.mp h
    have hlast : (fieldInfo fragmentType).locationSortOrder = 2 := by decide
    have hlater : ¬compareFieldSortOrder (fieldInfo e.type) (fieldInfo a.type) = true := by
      simp [compareFieldSortOrder,he,hlast,locationSortOrder_fieldInfo ha]
    rw [FieldOrder.insertField,orderedInsert_cons,if_neg hlater]
    exact congrArg (a :: ·) (ih hes)

theorem Represents.setFragment (h : Represents p es) {payload : List UInt8}
    (hblock : e.toBlock = ⟨fragmentType,payload⟩) :
    Represents (p.setFragment payload)
      (FieldOrder.insertField e (FieldOrder.clear fragmentType es)) := by
  obtain ⟨hs,fs,rfl,hhs,_,hheader,hfragment⟩ := h.parts
  have hcleared : FieldOrder.clear fragmentType (hs ++ fs) = hs := by
    rw [FieldOrder.clear,filter_append,filter_eq_self.mpr fun a ha => decide_eq_true (hheader a ha),
      filter_eq_nil_iff.mpr fun a ha => by simp [hfragment a ha],append_nil]
  rw [hcleared,insertField_fragment (congrArg Block.type hblock) hheader]
  exact ⟨by simp [hhs,hblock,Packet.elements,Packet.setFragment],h.header⟩

/-- Both models write the same block, or neither writes one. -/
theorem Represents.wireEncode (h : Represents p es) :
    (wireEncode false es).toOption.map Element.toBlock = p.wireEncode.toOption := by
  have hoctets : Element.allOctets (encode false es) = p.elements.flatMap Block.encode := by
    simp [← h.blocks,encode,Element.allOctets,flatMap_map]
  by_cases hbare : p.header = [] ∧ p.fragment.isSome = true
  · obtain ⟨payload,hpayload⟩ := Option.isSome_iff_exists.mp hbare.2
    have hblocks := h.blocks
    rw [Packet.elements,hbare.1,hpayload] at hblocks
    obtain ⟨f,rfl,hf⟩ := map_eq_singleton_iff.mp hblocks
    have htype : f.type = 80 := congrArg Block.type hf
    have hvalue : f.value = payload := congrArg Block.value hf
    rw [FieldOrder.wireEncode,if_pos htype,Packet.wireEncode,hbare.1,hpayload,hvalue]
    dsimp only
    rw [← parse_blocks]
    cases Element.parse payload with
    | error message => rfl
    | ok elements => cases elements <;> rfl
  · rw [wireEncode_fields,hoctets,Packet.wireEncode]
    · split
      · next hnil hsome => exact absurd ⟨hnil,by rw [hsome]; rfl⟩ hbare
      · rfl
    · rintro e rfl htype
      obtain ⟨hs,fs,hes,hhs,hfs,hheader,_⟩ := h.parts
      cases hs with
      | cons a hs =>
        obtain ⟨rfl,_⟩ := cons.inj hes
        exact absurd htype (hheader e mem_cons_self)
      | nil =>
        refine hbare ⟨hhs.symm,?_⟩
        rw [nil_append] at hes
        rw [← hes] at hfs
        cases hfragment : p.fragment with
        | none =>
          rw [hfragment] at hfs
          exact absurd hfs (cons_ne_nil _ _)
        | some payload => rfl

end Packets
end KiteNdn.Lp.FieldOrder
