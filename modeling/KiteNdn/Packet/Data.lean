import KiteNdn.Packet.SignatureInfo

/-!
# Data packets and what their signature covers

The decoder takes each field at most once and in the order of the format, so that nothing behind the
signature value can set one: packets with the same signed range have the same fields.

It appends the elements of the application to those of the object that it decodes into, and it takes
long freshness periods for negative ones.
-/

namespace KiteNdn.Packet

open Tlv List Except
open PrefixAnnouncement (isCriticalType)

structure MetaInfo where
  type : UInt32 := 0
  freshnessPeriod : Int64 := 0
  finalBlockId : Option Element := none
  appMetaInfo : List Element := []
  wire : Option Element := none
  deriving DecidableEq

namespace MetaInfo

def readContentType (element : Element) : Except String UInt32 := do
  let value ← readNonNegativeInteger element.value
  if value > 0xFFFFFFFF then .error s!"Value in TLV element of type {element.type} is too large"
  else .ok (UInt32.ofNat value)

def readFinalBlockId (element : Element) : Except String Element := do
  if element.value = [] then .error "Cannot construct block from empty TLV-VALUE"
  else
    let component ← Element.ofRange element.value
    if component.type < 1 ∨ component.type > 65535 then
      .error s!"TLV-TYPE {component.type} is not a valid NameComponent"
    else if component.type = Component.implicitSha256Digest ∧ component.value.length ≠ 32 then
      .error "ImplicitSha256DigestComponent TLV-LENGTH must be 32"
    else if component.type = Component.parametersSha256DigestComponent ∧
        component.value.length ≠ 32 then
      .error "ParametersSha256DigestComponent TLV-LENGTH must be 32"
    else .ok component

def next (type : Nat) (elements : List Element) : Option Element × List Element :=
  match elements with
  | [] => (none,[])
  | element :: rest => if element.type = type then (some element,rest) else (none,elements)

/-- The elements that are left are added to those of an earlier block. -/
def wireDecode (wire : Element) (m : MetaInfo) : Except String MetaInfo := do
  let elements ← Element.parse wire.value
  let (contentType,elements) := next TlvType.contentType elements
  let type ← match contentType with
    | some element => readContentType element
    | none => .ok 0
  let (freshness,elements) := next TlvType.freshnessPeriod elements
  let freshnessPeriod ← match freshness with
    | some element => (readNonNegativeInteger element.value).map fun count =>
      (UInt64.ofNat count).toInt64
    | none => .ok 0
  let (finalBlock,elements) := next TlvType.finalBlockId elements
  let finalBlockId ← match finalBlock with
    | some element => (readFinalBlockId element).map some
    | none => .ok none
  .ok { m with
    type := type
    freshnessPeriod := freshnessPeriod
    finalBlockId := finalBlockId
    appMetaInfo := m.appMetaInfo ++ elements
    wire := some wire }

end MetaInfo

structure Data where
  name : EncodedName := []
  metaInfo : MetaInfo := {}
  content : Option Element := none
  signatureInfo : SignatureInfo := {}
  signatureValue : Option Element := none
  wire : Option Element := none
  deriving DecidableEq

variable {element : Element} {d : Data} {s s' : Data × Nat}

namespace Data

section Decoding

/-- One element after the name. `lastElement` is the index of the last recognized element, in the
order of the format. -/
def decodeElement (s : Data × Nat) (element : Element) : Except String (Data × Nat) :=
  let (d,lastElement) := s
  if element.type = TlvType.metaInfo then
    if lastElement ≥ 2 then .error "MetaInfo element is out of order"
    else (d.metaInfo.wireDecode element).map fun metaInfo => ({ d with metaInfo := metaInfo },2)
  else if element.type = TlvType.content then
    if lastElement ≥ 3 then .error "Content element is out of order"
    else .ok ({ d with content := some element },3)
  else if element.type = TlvType.signatureInfo then
    if lastElement ≥ 4 then .error "SignatureInfo element is out of order"
    else (SignatureInfo.ofElement element .data).map fun info =>
      ({ d with signatureInfo := info },4)
  else if element.type = TlvType.signatureValue then
    if lastElement ≥ 5 then .error "SignatureValue element is out of order"
    else .ok ({ d with signatureValue := some element },5)
  else if isCriticalType element.type then
    .error s!"Unrecognized element of critical type {element.type}"
  else .ok (d,lastElement)

def wireDecode (wire : Element) : Except String Data :=
  if wire.type ≠ TlvType.data then .error (expecting "Data" wire.type)
  else
    match Element.parse wire.value with
    | .error message => .error message
    | .ok [] => .error "Name element is missing or out of order"
    | .ok (element :: elements) =>
      if element.type ≠ TlvType.name then .error "Name element is missing or out of order"
      else
        match EncodedName.ofElement element with
        | .error message => .error message
        | .ok name =>
          match elements.foldlM decodeElement ({ name := name },1) with
          | .error message => .error message
          | .ok (d,_) =>
            if d.signatureInfo.type = none then .error "SignatureInfo element is missing"
            else if d.signatureValue = none then .error "SignatureValue element is missing"
            else .ok { d with wire := some wire }

def ofOctets (octets : List UInt8) : Except String Data :=
  match Element.ofSpan octets with
  | .error message => .error message
  | .ok wire => wireDecode wire

def signatureIndex (elements : List Element) : Nat :=
  elements.findIdx fun e => e.type = TlvType.signatureValue

/-- The octets of the value up to the end of the element before the first signature value. Only packets
that have been encoded or decoded are considered; one that has not is encoded first. -/
def extractSignedRanges (d : Data) : Except String (List (List UInt8)) :=
  match d.wire with
  | none => .error "Requested wire format, but Data has not been signed"
  | some wire =>
    (Element.parse wire.value).map fun elements =>
      [Element.allOctets (elements.take (signatureIndex elements))]

end Decoding

section Coverage

theorem wireDecode_eq_ok {wire : Element} (h : wireDecode wire = .ok d) :
    ∃ element elements name d' lastElement,
      Element.parse wire.value = .ok (element :: elements) ∧ element.type = TlvType.name ∧
      EncodedName.ofElement element = .ok name ∧
      elements.foldlM decodeElement ({ name := name },1) = .ok (d',lastElement) ∧
      d'.signatureValue ≠ none ∧ d = { d' with wire := some wire } := by
  rw [wireDecode] at h
  split_ifs at h
  cases hp : Element.parse wire.value with
  | error message => simp [hp] at h
  | ok es =>
    cases es with
    | nil => simp [hp] at h
    | cons element elements =>
      simp only [hp] at h
      split_ifs at h with ht
      cases hn : EncodedName.ofElement element with
      | error message => simp [hn] at h
      | ok name =>
        simp only [hn] at h
        cases hf : elements.foldlM decodeElement ({ name := name },1) with
        | error message => simp [hf] at h
        | ok s =>
          simp only [hf] at h
          split_ifs at h with hi hv
          exact ⟨element,elements,name,s.1,s.2,rfl,not_not.mp ht,hn,hf,hv,(ok.inj h).symm⟩

/-- Once the signature value has been read every element is either refused or ignored. -/
theorem decodeElement_late (h : decodeElement (d,5) element = .ok s) : s = (d,5) := by
  simp only [decodeElement,show (5 : Nat) ≥ 2 by decide,show (5 : Nat) ≥ 3 by decide,
    show (5 : Nat) ≥ 4 by decide,show (5 : Nat) ≥ 5 by decide,if_true] at h
  split_ifs at h
  exact (ok.inj h).symm

theorem fold_late (elements : List Element) (h : elements.foldlM decodeElement (d,5) = .ok s) :
    s = (d,5) := by
  induction elements with
  | nil => exact (ok.inj h).symm
  | cons element elements ih =>
    rw [foldlM_cons] at h
    cases he : decodeElement (d,5) element with
    | error message => rw [he] at h; cases h
    | ok s' =>
      rw [he,decodeElement_late he] at h
      exact ih h

theorem decodeElement_early (ht : element.type ≠ TlvType.signatureValue)
    (h : decodeElement s element = .ok s') : s'.1.signatureValue = s.1.signatureValue := by
  rw [decodeElement,if_neg ht] at h
  split_ifs at h
  · cases hm : s.1.metaInfo.wireDecode element with
    | error message => rw [hm] at h; cases h
    | ok metaInfo => rw [hm] at h; cases h; rfl
  · cases h; rfl
  · cases hi : SignatureInfo.ofElement element .data with
    | error message => rw [hi] at h; cases h
    | ok info => rw [hi] at h; cases h; rfl
  · cases h; rfl

theorem fold_early (elements : List Element)
    (ht : ∀ element ∈ elements, element.type ≠ TlvType.signatureValue)
    (h : elements.foldlM decodeElement s = .ok s') : s'.1.signatureValue = s.1.signatureValue := by
  induction elements generalizing s with
  | nil => cases h; rfl
  | cons element elements ih =>
    rw [foldlM_cons] at h
    cases he : decodeElement s element with
    | error message => rw [he] at h; cases h
    | ok s₁ =>
      rw [he] at h
      rw [ih (fun e hm => ht e (mem_cons_of_mem _ hm)) h]
      exact decodeElement_early (ht element mem_cons_self) he

theorem decodeElement_signatureValue (ht : element.type = TlvType.signatureValue)
    (h : decodeElement s element = .ok s') :
    s' = ({ s.1 with signatureValue := some element },5) := by
  rw [decodeElement,if_neg (by rw [ht]; decide),if_neg (by rw [ht]; decide),
    if_neg (by rw [ht]; decide),if_pos ht] at h
  split_ifs at h
  exact (ok.inj h).symm

/-- What decoding an element sequence up to the first signature value makes of the packet is all that
decoding the whole of it does, the signature value apart. -/
theorem fold_signed (elements : List Element) (hs : s.1.signatureValue = none)
    (hv : s'.1.signatureValue ≠ none) (h : elements.foldlM decodeElement s = .ok s') :
    ∃ signed, (elements.take (signatureIndex elements)).foldlM decodeElement s = .ok signed ∧
      s'.1 = { signed.1 with signatureValue := s'.1.signatureValue } := by
  rw [← take_append_drop (signatureIndex elements) elements,foldlM_append] at h
  cases hb : (elements.take (signatureIndex elements)).foldlM decodeElement s with
  | error message => rw [hb] at h; cases h
  | ok signed =>
    refine ⟨signed,rfl,?_⟩
    rw [hb] at h
    change (elements.drop (signatureIndex elements)).foldlM decodeElement signed = .ok s' at h
    have hn : signed.1.signatureValue = none := by
      rw [fold_early _ (fun e he => ?_) hb,hs]
      have hf := List.false_of_mem_take_findIdx he
      exact of_decide_eq_false hf
    by_cases hlt : signatureIndex elements < elements.length
    · have ht : elements[signatureIndex elements].type = TlvType.signatureValue :=
        of_decide_eq_true (List.findIdx_getElem (w := hlt))
      rw [List.drop_eq_getElem_cons hlt,foldlM_cons] at h
      cases he : decodeElement signed elements[signatureIndex elements] with
      | error message => rw [he] at h; cases h
      | ok s₁ =>
        rw [he,decodeElement_signatureValue ht he] at h
        rw [fold_late _ h]
    · rw [List.drop_eq_nil_of_le (Nat.le_of_not_lt hlt)] at h
      cases h
      exact absurd hn hv

/-- The elements of a decoded packet up to its signature value, which are those of its only signed
range, determine its fields. -/
theorem signed_of_ofOctets {octets : List UInt8} (h : ofOctets octets = .ok d) :
    ∃ element elements name signed,
      d.extractSignedRanges = .ok [Element.allOctets (element :: elements)] ∧
      (∀ e ∈ element :: elements, e.hasWire = true) ∧
      EncodedName.ofElement element = .ok name ∧
      elements.foldlM decodeElement ({ name := name },1) = .ok signed ∧
      d = { signed.1 with signatureValue := d.signatureValue, wire := d.wire } := by
  rw [ofOctets] at h
  cases hw : Element.ofSpan octets with
  | error message => simp [hw] at h
  | ok wire =>
    rw [hw] at h
    obtain ⟨element,elements,name,d',lastElement,hp,ht,hn,hf,hv,rfl⟩ := wireDecode_eq_ok h
    obtain ⟨signed,hsigned,hd⟩ := fold_signed elements rfl hv hf
    have hidx : signatureIndex (element :: elements) = signatureIndex elements + 1 := by
      simp only [signatureIndex,List.findIdx_cons,ht]
      rfl
    refine ⟨element,elements.take (signatureIndex elements),name,signed,?_,?_,hn,hsigned,?_⟩
    · rw [extractSignedRanges]
      dsimp only
      rw [hp,Except.map,hidx,take_succ_cons]
    · intro e he
      apply (Element.parse_eq_ok.mp hp).1
      rw [← take_succ_cons] at he
      exact List.mem_of_mem_take he
    · change d' = _ at hd
      rw [hd]

/-- Data packets with the same signed octets present the same name, meta information, content and
signature information. -/
theorem signed_fields {octets octets' : List UInt8} {d d' : Data}
    (h : ofOctets octets = .ok d) (h' : ofOctets octets' = .ok d')
    (hr : d.extractSignedRanges = d'.extractSignedRanges) :
    d.name = d'.name ∧ d.metaInfo = d'.metaInfo ∧ d.content = d'.content ∧
      d.signatureInfo = d'.signatureInfo := by
  obtain ⟨element,elements,name,signed,hrange,hwire,hn,hf,hd⟩ := signed_of_ofOctets h
  obtain ⟨element',elements',name',signed',hrange',hwire',hn',hf',hd'⟩ := signed_of_ofOctets h'
  rw [hrange,hrange'] at hr
  have he := Element.eq_of_allOctets hwire hwire' (List.singleton_inj.mp (ok.inj hr))
  obtain ⟨rfl,rfl⟩ := cons.inj he
  obtain rfl : name = name' := ok.inj (hn.symm.trans hn')
  obtain rfl : signed = signed' := ok.inj (hf.symm.trans hf')
  rw [hd,hd']
  exact ⟨rfl,rfl,rfl,rfl⟩

def signedA (signature : UInt8) (unrecognized : List UInt8) : List UInt8 :=
  [6,UInt8.ofNat (20 + unrecognized.length),7,3,8,1,65,20,3,25,1,1,21,0,22,3,27,1,0,23,1,signature] ++
    unrecognized

theorem signed_fields_signedA : ∃ d d', ofOctets (signedA 0 []) = .ok d ∧
    ofOctets (signedA 1 [40,1,7]) = .ok d' ∧ d.signatureValue ≠ d'.signatureValue ∧
    d.extractSignedRanges = d'.extractSignedRanges ∧
    d.name = d'.name ∧ d.metaInfo = d'.metaInfo ∧ d.content = d'.content ∧
      d.signatureInfo = d'.signatureInfo := by
  have hd : ((ofOctets (signedA 0 [])).toOption.any fun d =>
      (ofOctets (signedA 1 [40,1,7])).toOption.any fun d' =>
        d.signatureValue ≠ d'.signatureValue ∧
        d.extractSignedRanges.toOption = d'.extractSignedRanges.toOption) = true := by decide +kernel
  cases h : ofOctets (signedA 0 []) with
  | error message => rw [h] at hd; cases hd
  | ok d =>
    cases h' : ofOctets (signedA 1 [40,1,7]) with
    | error message => rw [h,h'] at hd; cases hd
    | ok d' =>
      rw [h,h'] at hd
      obtain ⟨hv,hr⟩ := of_decide_eq_true hd
      have hranges : d.extractSignedRanges = d'.extractSignedRanges := by
        obtain ⟨_,_,_,_,hrange,_⟩ := signed_of_ofOctets h
        obtain ⟨_,_,_,_,hrange',_⟩ := signed_of_ofOctets h'
        rw [hrange,hrange'] at hr ⊢
        exact congrArg Except.ok (Option.some.inj hr)
      exact ⟨d,d',rfl,rfl,hv,hranges,signed_fields h h' hranges⟩

end Coverage

end Data

open Encoding

namespace MetaInfo

def item (m : MetaInfo) : Item :=
  .nested TlvType.metaInfo
    ((if m.type = 0 then [] else [.nonNegativeInteger TlvType.contentType m.type.toNat]) ++
    (if m.freshnessPeriod = 0 then []
      else [.nonNegativeInteger TlvType.freshnessPeriod m.freshnessPeriod.toUInt64.toNat]) ++
    (m.finalBlockId.toList.map fun c => .nested TlvType.finalBlockId [.binary c.type c.value]) ++
    m.appMetaInfo.map .block)

def wireEncode (m : MetaInfo) : Except String Element :=
  match m.wire.filter Element.hasWire with
  | some wire => .ok wire
  | none => m.item.write

section RoundTrip

theorem next_toList {type : Nat} (o : Option Element) {rest : List Element}
    (ho : ∀ e ∈ o, e.type = type) (hrest : ∀ e ∈ rest, e.type ≠ type) :
    next type (o.toList ++ rest) = (o,rest) := by
  cases o with
  | some e => simp [next,ho e rfl]
  | none =>
    cases rest with
    | nil => rfl
    | cons e rest => simp [next,hrest e mem_cons_self]

/-- What a component that the library builds may be. -/
def IsComponent (c : Block) : Prop :=
  1 ≤ c.type ∧ c.type ≤ 65535 ∧ (c.type = Component.implicitSha256Digest ∨
    c.type = Component.parametersSha256DigestComponent → c.value.length = 32)

theorem readFinalBlockId_item {c : Element} (hc : IsComponent c.toBlock)
    (h : (Item.nested TlvType.finalBlockId [.binary c.type c.value]).element.hasWire = true) :
    readFinalBlockId (Item.nested TlvType.finalBlockId [.binary c.type c.value]).element =
      .ok (.ofBlock c.toBlock) := by
  obtain ⟨hpos,hle,hdigest⟩ := hc
  have hall := (Item.parse_nested h (by simp [Item.WellTyped,Item.type]; omega)).2 _
    mem_cons_self
  have hvalue : (Item.nested TlvType.finalBlockId [.binary c.type c.value]).element.value =
      (Element.ofBlock c.toBlock).octets := by
    simp [Item.element,Item.allOctets,Item.octets]
  have hwire : (Element.ofBlock c.toBlock).wire = some (Element.ofBlock c.toBlock).octets :=
    Element.wire_eq_octets hall
  have hne : (Element.ofBlock c.toBlock).octets ≠ [] := by
    have htwo := ((Element.ofBlock c.toBlock).framed _ hwire).two_le_length
    intro hnil
    simp [hnil] at htwo
  unfold readFinalBlockId
  rw [hvalue,if_neg hne,Element.ofRange_eq_ok.mpr hwire]
  simp only [bind,Except.bind,Element.type_ofBlock,Element.value_ofBlock]
  rw [if_neg (by omega),if_neg (by tauto),if_neg (by tauto)]

/-- What the setters leave. -/
structure IsBuilt (m : MetaInfo) : Prop where
  component : ∀ c ∈ m.finalBlockId, IsComponent c.toBlock
  application : ∀ e ∈ m.appMetaInfo, 128 ≤ e.type ∧ e.type ≤ 252
  noWire : m.wire = none

theorem wellTyped_item {m : MetaInfo} (hm : m.IsBuilt) {items : List Item}
    (h : m.item = .nested TlvType.metaInfo items) : Item.WellTyped items := by
  cases h
  intro item hitem
  simp only [mem_append,mem_map,Option.mem_toList] at hitem
  rcases hitem with ((hitem | hitem) | ⟨c,hc,rfl⟩) | ⟨e,he,rfl⟩
  · split_ifs at hitem <;> simp_all [Item.type,TlvType.contentType]
  · split_ifs at hitem <;> simp_all [Item.type,TlvType.freshnessPeriod]
  · simp [Item.type,TlvType.finalBlockId]
  · have := hm.application e he
    simp only [Item.type]
    omega

theorem wireDecode_item {m : MetaInfo} (hm : m.IsBuilt) (h : m.item.element.hasWire = true)
    (m₀ : MetaInfo) : wireDecode m.item.element m₀ = .ok {
      type := m.type
      freshnessPeriod := m.freshnessPeriod
      finalBlockId := m.finalBlockId.map fun c => .ofBlock c.toBlock
      appMetaInfo := m₀.appMetaInfo ++ m.appMetaInfo.map fun e => (Item.block e).element
      wire := some m.item.element } := by
  obtain ⟨hparse,hall⟩ := Item.parse_nested h (wellTyped_item hm rfl)
  let contentType : Option Item :=
    if m.type = 0 then none else some (.nonNegativeInteger TlvType.contentType m.type.toNat)
  let freshness : Option Item := if m.freshnessPeriod = 0 then none
    else some (.nonNegativeInteger TlvType.freshnessPeriod m.freshnessPeriod.toUInt64.toNat)
  let final : Option Item :=
    m.finalBlockId.map fun c => .nested TlvType.finalBlockId [.binary c.type c.value]
  let app := m.appMetaInfo.map fun e => (Item.block e).element
  have helements : Element.parse m.item.element.value = .ok ((contentType.map Item.element).toList ++
      ((freshness.map Item.element).toList ++ ((final.map Item.element).toList ++ app))) := by
    refine hparse.trans (congrArg Except.ok ?_)
    simp only [contentType,freshness,final,app]
    split_ifs <;> cases m.finalBlockId <;> simp
  have happ : ∀ e ∈ app, 128 ≤ e.type := by
    intro e he
    obtain ⟨b,hb,rfl⟩ := mem_map.mp he
    rw [Item.type_element]
    exact (hm.application b hb).1
  have hcontent : ∀ e ∈ contentType.map Item.element, e.type = TlvType.contentType := by
    simp +contextual [contentType,Item.type]
  have hfreshness : ∀ e ∈ freshness.map Item.element, e.type = TlvType.freshnessPeriod := by
    simp +contextual [freshness,Item.type]
  have hfinal : ∀ e ∈ final.map Item.element, e.type = TlvType.finalBlockId := by
    simp +contextual [final,Item.type]
  unfold wireDecode
  rw [helements]
  simp only [bind,Except.bind]
  rw [next_toList _ hcontent (by grind),next_toList _ hfreshness (by grind),
    next_toList _ hfinal (by grind)]
  have hread : readContentType (Item.nonNegativeInteger TlvType.contentType m.type.toNat).element =
      .ok m.type := by
    have hlt := m.type.toNat_lt
    simp [readContentType,Item.element,readNonNegativeInteger_write (hlt.trans (by decide)),bind,
      Except.bind,show ¬0xFFFFFFFF < m.type.toNat by omega]
  have hread' : readNonNegativeInteger (Item.nonNegativeInteger TlvType.freshnessPeriod
      m.freshnessPeriod.toUInt64.toNat).element.value = .ok m.freshnessPeriod.toUInt64.toNat := by
    rw [Item.element,Element.value_ofBlock]
    exact readNonNegativeInteger_write m.freshnessPeriod.toUInt64.toNat_lt
  have hcomponent : ∀ c, m.finalBlockId = some c → readFinalBlockId
      (Item.nested TlvType.finalBlockId [.binary c.type c.value]).element =
        .ok (.ofBlock c.toBlock) := by
    intro c hc
    exact readFinalBlockId_item (hm.component c hc) (hall _ (by simp [hc]))
  by_cases htype : m.type = 0 <;> by_cases hfresh : m.freshnessPeriod = 0 <;>
    cases hfin : m.finalBlockId <;>
    simp [contentType,freshness,final,app,htype,hfresh,hfin,hread,hread',Except.map,hcomponent]

end RoundTrip

section Setters

inductive Setter where
  | type (type : UInt32)
  | freshnessPeriod (freshnessPeriod : Int64)
  | finalBlock (finalBlockId : Option Element) (valid : ∀ c ∈ finalBlockId, IsComponent c.toBlock)
  | appMetaInfo (info : List Element)
  | addAppMetaInfo (block : Element)
  | removeAppMetaInfo (tlvType : Nat)

def set (m : MetaInfo) : Setter → Except String MetaInfo
  | .type type => .ok { m with type := type, wire := none }
  | .freshnessPeriod freshnessPeriod =>
    if freshnessPeriod < 0 then .error "FreshnessPeriod must be >= 0"
    else .ok { m with freshnessPeriod := freshnessPeriod, wire := none }
  | .finalBlock finalBlockId _ => .ok { m with finalBlockId := finalBlockId, wire := none }
  | .appMetaInfo info =>
    if ∃ block ∈ info, block.type < 128 ∨ block.type > 252 then
      .error "AppMetaInfo block has type outside the application range [128, 252]"
    else .ok { m with appMetaInfo := info, wire := none }
  | .addAppMetaInfo block =>
    if ¬(128 ≤ block.type ∧ block.type ≤ 252) then
      .error "AppMetaInfo block has type outside the application range [128, 252]"
    else .ok { m with appMetaInfo := m.appMetaInfo ++ [block], wire := none }
  | .removeAppMetaInfo tlvType =>
    if ∃ block ∈ m.appMetaInfo, block.type = tlvType then
      .ok { m with appMetaInfo := m.appMetaInfo.eraseP (·.type = tlvType), wire := none }
    else .ok m

theorem IsBuilt.set {m m' : MetaInfo} (h : m.IsBuilt) {s : Setter} (hs : m.set s = .ok m') :
    m'.IsBuilt := by
  cases s with
  | type type => cases hs; exact ⟨h.component,h.application,rfl⟩
  | finalBlock finalBlockId valid => cases hs; exact ⟨valid,h.application,rfl⟩
  | freshnessPeriod freshnessPeriod =>
    simp only [MetaInfo.set] at hs
    split_ifs at hs
    cases hs
    exact ⟨h.component,h.application,rfl⟩
  | appMetaInfo info =>
    simp only [MetaInfo.set] at hs
    split_ifs at hs with hrange
    cases hs
    exact ⟨h.component,by grind,rfl⟩
  | addAppMetaInfo block =>
    simp only [MetaInfo.set] at hs
    split_ifs at hs with hrange
    cases hs
    exact ⟨h.component,by grind [IsBuilt],rfl⟩
  | removeAppMetaInfo tlvType =>
    simp only [MetaInfo.set] at hs
    split_ifs at hs
    · cases hs
      exact ⟨h.component,fun e he => h.application e (List.mem_of_mem_eraseP he),rfl⟩
    · cases hs
      exact h

theorem IsBuilt.run {m m' : MetaInfo} (h : m.IsBuilt) {setters : List Setter}
    (hs : setters.foldlM MetaInfo.set m = .ok m') : m'.IsBuilt := by
  induction setters generalizing m with
  | nil => exact ok.inj hs ▸ h
  | cons s setters ih =>
    rw [foldlM_cons] at hs
    cases hset : m.set s with
    | error message => rw [hset] at hs; cases hs
    | ok m₁ => rw [hset] at hs; exact ih (h.set hset) hs

end Setters

section History

/-- What a block says. -/
structure Contents where
  type : UInt32
  freshnessPeriod : Nat
  finalBlockId : Option Element
  appMetaInfo : List Element

def Contents.ofElements (elements : List Element) : Except String Contents := do
  let (contentType,elements) := next TlvType.contentType elements
  let (freshness,elements) := next TlvType.freshnessPeriod elements
  let (finalBlock,elements) := next TlvType.finalBlockId elements
  let type ← contentType.elim (.ok 0) readContentType
  let freshnessPeriod ← freshness.elim (.ok 0) fun element => readNonNegativeInteger element.value
  let finalBlockId ← finalBlock.mapM readFinalBlockId
  .ok ⟨type,freshnessPeriod,finalBlockId,elements⟩

theorem wireDecode_eq (wire : Element) (m : MetaInfo) :
    wireDecode wire m = ((Element.parse wire.value).bind Contents.ofElements).map fun c => {
      type := c.type
      freshnessPeriod := (UInt64.ofNat c.freshnessPeriod).toInt64
      finalBlockId := c.finalBlockId
      appMetaInfo := m.appMetaInfo ++ c.appMetaInfo
      wire := some wire } := by
  unfold wireDecode Contents.ofElements
  cases Element.parse wire.value with
  | error message => rfl
  | ok elements =>
    simp only [bind,Except.bind]
    generalize next TlvType.contentType elements = c
    generalize next TlvType.freshnessPeriod c.2 = f
    generalize next TlvType.finalBlockId f.2 = b
    obtain ⟨_ | c,_⟩ := c <;> obtain ⟨_ | f,_⟩ := f <;> obtain ⟨_ | b,_⟩ := b <;>
      dsimp only [Option.mapM,Option.elim]
    all_goals try cases readContentType c
    all_goals try cases readNonNegativeInteger f.value
    all_goals try cases readFinalBlockId b
    all_goals rfl

def Presents (m : MetaInfo) (c : Contents) : Prop :=
  m.type = c.type ∧ m.freshnessPeriod.toInt = c.freshnessPeriod ∧
    m.finalBlockId = c.finalBlockId ∧ m.appMetaInfo = c.appMetaInfo

theorem freshnessPeriod_lt {elements : List Element} {c : Contents}
    (h : Contents.ofElements elements = .ok c) : c.freshnessPeriod < 2^64 := by
  simp only [Contents.ofElements,bind,Except.bind] at h
  split at h
  · cases h
  split at h
  · cases h
  rename_i n hn
  split at h
  · cases h
  cases h
  cases hf : (next TlvType.freshnessPeriod (next TlvType.contentType elements).2).1 with
  | none =>
    rw [hf] at hn
    cases hn
    exact (by decide : 0 < 2^64)
  | some e =>
    rw [hf] at hn
    exact readNonNegativeInteger_lt hn

theorem toInt_toInt64 {n : Nat} (h : n < 2^64) :
    (UInt64.ofNat n).toInt64.toInt = n ↔ n < 2^63 := by
  have hn : (UInt64.ofNat n).toInt64.toBitVec.toNat = n := UInt64.toNat_ofNat_of_lt h
  rw [Int64.toInt,BitVec.toInt_eq_toNat_cond,hn]
  split_ifs <;> omega

/-- `operator==`: blocks are compared by their types and values. -/
def IsEqual (m m' : MetaInfo) : Prop :=
  m.type = m'.type ∧ m.freshnessPeriod = m'.freshnessPeriod ∧
    m.finalBlockId.map Element.toBlock = m'.finalBlockId.map Element.toBlock ∧
      m.appMetaInfo.map Element.toBlock = m'.appMetaInfo.map Element.toBlock

/-- Two objects decode a block alike and as it says if and only if they had no elements of the
application, and the freshness period fits. Encoding what was built by setters and decoding it gives
an equal object if and only if the one decoded into had no such elements. -/
theorem wireDecode_history (wire : Element) (m₁ m₂ : MetaInfo) :
    ((∃ message, wireDecode wire m₁ = .error message ∧ wireDecode wire m₂ = .error message) ∨
      ∃ c m₁' m₂', (Element.parse wire.value).bind Contents.ofElements = .ok c ∧
        wireDecode wire m₁ = .ok m₁' ∧ wireDecode wire m₂ = .ok m₂' ∧
        (m₁'.Presents c ∧ m₂'.Presents c ↔
          c.freshnessPeriod < 2^63 ∧ m₁.appMetaInfo = [] ∧ m₂.appMetaInfo = [])) ∧
    ∀ (setters : List Setter) (m : MetaInfo) (e : Element),
      setters.foldlM MetaInfo.set {} = .ok m → m.wireEncode = .ok e →
        ∃ m', wireDecode e m₁ = .ok m' ∧ (m'.IsEqual m ↔ m₁.appMetaInfo = []) := by
  constructor
  · rw [wireDecode_eq,wireDecode_eq]
    cases hc : (Element.parse wire.value).bind Contents.ofElements with
    | error message => exact .inl ⟨message,rfl,rfl⟩
    | ok c =>
      refine .inr ⟨c,_,_,rfl,rfl,rfl,?_⟩
      have hlt : c.freshnessPeriod < 2^64 := by
        cases hp : Element.parse wire.value with
        | error message => rw [hp] at hc; cases hc
        | ok elements => rw [hp] at hc; exact freshnessPeriod_lt hc
      simp only [Presents,toInt_toInt64 hlt,List.append_left_eq_self,true_and]
      tauto
  · intro setters m e hm he
    have hbuilt : m.IsBuilt := IsBuilt.run ⟨by simp,by simp,rfl⟩ hm
    rw [wireEncode,hbuilt.noWire] at he
    obtain ⟨hvalid,rfl⟩ := Item.write_nested (by decide) (by decide) he
    refine ⟨_,wireDecode_item hbuilt ((Element.hasWire_ofBlock _).mpr hvalid) m₁,?_⟩
    simp [IsEqual,Function.comp_def,Item.toBlock_block]

/-- A block is decoded twice into the same object. -/
theorem decoded_twice : ∃ wire m m', wireDecode wire {} = .ok m ∧ wireDecode wire m = .ok m' ∧
    m.appMetaInfo.length = 1 ∧ m'.appMetaInfo.length = 2 :=
  ⟨.ofBlock ⟨TlvType.metaInfo,[130,1,7]⟩,_,_,rfl,rfl,rfl,rfl⟩

end History

end MetaInfo

end KiteNdn.Packet
