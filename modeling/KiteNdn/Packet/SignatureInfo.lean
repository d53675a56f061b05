import KiteNdn.Packet.Names

/-!
# Signature information

The key locator, the type of the signature and further elements, as a Data packet or an Interest
carries them. Setters drop the block that the object keeps, if they change anything. What is kept
says what the fields say, but it is of the kind it was written or read for.
-/

namespace KiteNdn.Packet

open Tlv Encoding Option Function Except
open PrefixAnnouncement (isCriticalType)

inductive KeyLocator where
  | none
  | name (n : EncodedName)
  | keyDigest (digest : Element)
  | unsupported (type : Nat)
  deriving DecidableEq

namespace KeyLocator

def ofElement (wire : Element) : Except String KeyLocator :=
  if wire.type ≠ TlvType.keyLocator then .error (expecting "KeyLocator" wire.type)
  else
    match Element.parse wire.value with
    | .error message => .error message
    | .ok [] => .ok .none
    | .ok (element :: _) =>
      if element.type = TlvType.name then (EncodedName.ofElement element).map .name
      else if element.type = TlvType.keyDigest then .ok (.keyDigest element)
      else .ok (.unsupported element.type)

def item : KeyLocator → Except String Item
  | .none => .ok (.nested TlvType.keyLocator [])
  | .name n => .ok (.nested TlvType.keyLocator [n.item])
  | .keyDigest digest => .ok (.nested TlvType.keyLocator [.block digest])
  | .unsupported type => .error s!"Unsupported KeyLocator type {type}"

end KeyLocator

inductive SignatureInfoType where
  | data
  | interest
  deriving DecidableEq, Repr

def SignatureInfoType.number : SignatureInfoType → Nat
  | .data => TlvType.signatureInfo
  | .interest => TlvType.interestSignatureInfo

theorem noWire_type : ∀ e ∈ (none : Option Element),
    e.type = TlvType.signatureInfo ∨ e.type = TlvType.interestSignatureInfo :=
  fun e h => absurd h (not_mem_none e)

/-- The block that is kept comes from a decoder or an encoder, which have checked or chosen its
type. -/
structure SignatureInfo where
  type : Option UInt16 := none
  keyLocator : Option KeyLocator := none
  otherTlvs : List Element := []
  wire : Option Element := none
  wire_type : ∀ e ∈ wire, e.type = TlvType.signatureInfo ∨ e.type = TlvType.interestSignatureInfo :=
    by exact noWire_type
  deriving DecidableEq

namespace SignatureInfo

def readSignatureType (element : Element) : Except String UInt16 :=
  match readNonNegativeInteger element.value with
  | .error message => .error message
  | .ok value =>
    if value > 65535 then .error s!"Value in TLV element of type {element.type} is too large"
    else .ok (UInt16.ofNat value)

def decodeElement (s : SignatureInfo × Nat) (element : Element) :
    Except String (SignatureInfo × Nat) :=
  let (info,lastCriticalElement) := s
  if element.type = TlvType.signatureType then
    if lastCriticalElement > 0 then .error "SignatureType element is repeated or out-of-order"
    else (readSignatureType element).map fun type => ({ info with type := some type },1)
  else if element.type = TlvType.keyLocator then
    if lastCriticalElement > 1 then .error "KeyLocator element is repeated or out-of-order"
    else (KeyLocator.ofElement element).map fun locator =>
      ({ info with keyLocator := some locator },2)
  else if element.type = TlvType.signatureNonce ∧ element.value.length < 1 then
    .error "SignatureNonce element cannot be empty"
  else if element.type ≠ TlvType.signatureNonce ∧ element.type ≠ TlvType.validityPeriod ∧
      isCriticalType element.type = true then
    .error s!"Unrecognized element of critical type {element.type}"
  else .ok ({ info with otherTlvs := info.otherTlvs ++ [element] },lastCriticalElement)

variable {kind : SignatureInfoType}

private theorem number_cases {type : Nat} (h : type = kind.number) :
    type = TlvType.signatureInfo ∨ type = TlvType.interestSignatureInfo := by
  cases kind with
  | data => exact .inl h
  | interest => exact .inr h

def ofElement (wire : Element) (kind : SignatureInfoType) : Except String SignatureInfo :=
  match Element.parse wire.value with
  | .error message => .error message
  | .ok elements =>
    if htype : wire.type = kind.number then
      let empty : SignatureInfo :=
        { wire := some wire
          wire_type := fun _ h => mem_some_iff.mp h ▸ number_cases htype }
      match elements.foldlM decodeElement (empty,0) with
      | .error message => .error message
      | .ok (info,_) =>
        if info.type = none then .error "Missing SignatureType in SignatureInfo" else .ok info
    else .error (expecting "SignatureInfo" wire.type)

def item (info : SignatureInfo) (kind : SignatureInfoType) : Except String Item :=
  match info.type with
  | none => .error "Cannot encode invalid SignatureInfo"
  | some type =>
    let signatureType := Item.nonNegativeInteger TlvType.signatureType type.toNat
    match info.keyLocator with
    | none => .ok (.nested kind.number (signatureType :: info.otherTlvs.map .block))
    | some locator => locator.item.map fun locator =>
      .nested kind.number (signatureType :: locator :: info.otherTlvs.map .block)

/-- The block that is kept is returned for both kinds of packets. -/
def wireEncode (info : SignatureInfo) (kind : SignatureInfoType) : Except String Element :=
  match info.wire.filter Element.hasWire with
  | some wire => .ok wire
  | none => (info.item kind).bind Item.write

variable {info : SignatureInfo}

theorem exists_nested {i : Item}
    (h : info.item kind = .ok i) : ∃ items, i = .nested kind.number items := by
  unfold item at h
  split at h
  · exact absurd h (by simp)
  · split at h
    · exact ⟨_,(ok.inj h).symm⟩
    · rename_i locator _
      cases hlocator : locator.item with
      | error message =>
        rw [hlocator] at h
        exact absurd h (by simp [Except.map])
      | ok inner =>
        rw [hlocator] at h
        exact ⟨_,(ok.inj h).symm⟩

theorem wireEncode_ok {e : Element} (h : info.wireEncode kind = .ok e) : e.hasWire = true ∧
      (e.type = TlvType.signatureInfo ∨ e.type = TlvType.interestSignatureInfo) := by
  unfold wireEncode at h
  split at h
  · rename_i wire hwire
    obtain ⟨hsome,hhas⟩ := filter_eq_some_iff.mp hwire
    rw [← ok.inj h]
    exact ⟨hhas,info.wire_type wire hsome⟩
  · cases hitem : info.item kind with
    | error message =>
      rw [hitem] at h
      exact absurd h (by simp [Except.bind])
    | ok i =>
      rw [hitem] at h
      obtain ⟨items,rfl⟩ := exists_nested hitem
      have hbounds : 0 < kind.number ∧ kind.number < 2^32 := by cases kind <;> decide
      obtain ⟨hvalid,rfl⟩ := Item.write_nested hbounds.1 hbounds.2 h
      rw [Element.toBlock_ofBlock]
      exact ⟨(Element.hasWire_ofBlock _).mpr hvalid,number_cases rfl⟩

end SignatureInfo

open List

variable {info : SignatureInfo} {e : Element} {es : List Element}

namespace KeyLocator

def value : KeyLocator → Option (Name ⊕ Block ⊕ Nat)
  | .none => Option.none
  | .name n => some (.inl n.toName)
  | .keyDigest digest => some (.inr (.inl digest.toBlock))
  | .unsupported type => some (.inr (.inr type))

/-- `setKeyDigest` and the decoder check the type. -/
def IsValid : KeyLocator → Prop
  | .keyDigest digest => digest.type = TlvType.keyDigest
  | _ => True

theorem isValid_ofElement {wire : Element} {l : KeyLocator} (h : ofElement wire = .ok l) :
    l.IsValid := by
  unfold ofElement at h
  split_ifs at h
  split at h
  · cases h
  · cases h
    trivial
  · split_ifs at h with hname hdigest
    · cases hn : EncodedName.ofElement _ <;> rw [hn] at h <;> cases h
      trivial
    · cases h
      exact hdigest
    · cases h
      trivial

theorem ofElement_item {l : KeyLocator} (hl : l.IsValid) {i : Item} (hi : l.item = .ok i)
    (h : i.element.hasWire = true) :
    ∃ l', ofElement i.element = .ok l' ∧ l'.value = l.value := by
  cases l with
  | none =>
    cases hi
    exact ⟨.none,rfl,rfl⟩
  | unsupported type => cases hi
  | name n =>
    cases hi
    obtain ⟨hparse,hall⟩ := Item.parse_nested h
      (by simp [Item.WellTyped,EncodedName.item,Item.type,TlvType.name])
    obtain ⟨m,hname,hm⟩ := EncodedName.ofElement_item (hall _ mem_cons_self)
    have htype : n.item.element.type = TlvType.name := Item.type_element _
    refine ⟨.name m,?_,by simp [value,hm]⟩
    rw [ofElement,hparse,Item.type_element,Item.type,if_neg (not_not.mpr rfl)]
    dsimp only [List.map]
    rw [if_pos htype,hname]
    rfl
  | keyDigest digest =>
    cases hi
    have hdigest : digest.type = TlvType.keyDigest := hl
    obtain ⟨hparse,_⟩ := Item.parse_nested h
      (by simp [Item.WellTyped,Item.type,hdigest,TlvType.keyDigest])
    refine ⟨.keyDigest (Item.block digest).element,?_,?_⟩
    · simp [ofElement,hparse,hdigest,Item.type]
    · simp [value,Item.toBlock_block]

end KeyLocator

namespace SignatureInfo

def value (info : SignatureInfo) : Option UInt16 × Option (Option (Name ⊕ Block ⊕ Nat)) × List Block :=
  (info.type,info.keyLocator.map KeyLocator.value,info.otherTlvs.map Element.toBlock)

def isOrdered (e : Block) : Bool :=
  e.type = TlvType.signatureType || e.type = TlvType.keyLocator

/-- An element that is kept wherever it stands. -/
def CanBeKept (e : Block) : Prop :=
  if e.type = TlvType.signatureNonce then e.value ≠ []
  else e.type = TlvType.validityPeriod ∨ isCriticalType e.type = false

/-- The decoder takes the block for one of the other elements. -/
def IsOther (e : Block) : Prop :=
  (0 < e.type ∧ e.type < 2^32) ∧ isOrdered e = false ∧ CanBeKept e

section Decoding

theorem decodeElement_kept (h : isOrdered e.toBlock = false) (hkept : CanBeKept e.toBlock)
    (s : SignatureInfo × Nat) :
    decodeElement s e = .ok ({ s.1 with otherTlvs := s.1.otherTlvs ++ [e] },s.2) := by
  simp only [isOrdered,Bool.or_eq_false_iff,decide_eq_false_iff_not] at h
  rw [decodeElement,if_neg h.1,if_neg h.2]
  unfold CanBeKept at hkept
  split_ifs at hkept with hnonce
  · have hlength := length_pos_iff.mpr hkept
    rw [if_neg (by omega),if_neg (by simp [hnonce])]
  · rw [if_neg (by simp [hnonce]),if_neg (by rcases hkept with h | h <;> simp [h])]

theorem fold_others (hes : ∀ e ∈ es, IsOther e.toBlock) (s : SignatureInfo × Nat) :
    es.foldlM decodeElement s = .ok ({ s.1 with otherTlvs := s.1.otherTlvs ++ es },s.2) := by
  induction es generalizing s with
  | nil => simp [pure,Except.pure]
  | cons e es ih =>
    rw [foldlM_cons,decodeElement_kept (hes e mem_cons_self).2.1 (hes e mem_cons_self).2.2]
    refine (ih (fun e he => hes e (mem_cons_of_mem _ he)) _).trans ?_
    simp

/-- What can be encoded and decoded again. -/
structure IsSound (info : SignatureInfo) : Prop where
  locator : ∀ l ∈ info.keyLocator, l.IsValid
  others : ∀ e ∈ info.otherTlvs, IsOther e.toBlock

variable {s s' : SignatureInfo × Nat}

theorem IsSound.decodeElement (h : s.1.IsSound)
    (he : 0 < e.type ∧ e.type < 2^32) (hs : decodeElement s e = .ok s') :
    s'.1.IsSound ∧ s'.1.wire = s.1.wire := by
  simp only [SignatureInfo.decodeElement] at hs
  split_ifs at hs with htype _ hlocator _ hnonce hcritical
  · cases hread : readSignatureType e <;> rw [hread] at hs <;> cases hs
    exact ⟨⟨h.locator,h.others⟩,rfl⟩
  · cases hread : KeyLocator.ofElement e <;> rw [hread] at hs <;> cases hs
    exact ⟨⟨fun l hl => mem_some_iff.mp hl ▸ KeyLocator.isValid_ofElement hread,h.others⟩,rfl⟩
  · cases hs
    refine ⟨⟨h.locator,fun f hf => ?_⟩,rfl⟩
    rcases mem_append.mp hf with hf | hf
    · exact h.others f hf
    · rw [mem_singleton.mp hf]
      refine ⟨he,by simp [isOrdered,htype,hlocator],?_⟩
      unfold CanBeKept
      split_ifs with hn
      · intro hnil
        exact hnonce ⟨hn,by simp [hnil]⟩
      · rw [← Bool.not_eq_true]
        tauto

theorem IsSound.fold (hes : ∀ e ∈ es, e.hasWire = true)
    (h : s.1.IsSound) (hs : es.foldlM SignatureInfo.decodeElement s = .ok s') :
    s'.1.IsSound ∧ s'.1.wire = s.1.wire := by
  induction es generalizing s with
  | nil => exact ok.inj hs ▸ ⟨h,rfl⟩
  | cons e es ih =>
    rw [foldlM_cons] at hs
    cases hstep : SignatureInfo.decodeElement s e with
    | error message => rw [hstep] at hs; cases hs
    | ok t =>
      rw [hstep] at hs
      obtain ⟨ht,hwire⟩ := h.decodeElement
        (EncodedComponent.ofElement e (hes e mem_cons_self)).type_lt hstep
      obtain ⟨hs',hwire'⟩ := ih (fun e he => hes e (mem_cons_of_mem _ he)) ht hs
      exact ⟨hs',hwire'.trans hwire⟩

variable {kind : SignatureInfoType}

theorem isSound_ofElement {wire : Element} (h : ofElement wire kind = .ok info) :
    info.IsSound ∧ info.wire = some wire ∧ wire.type = kind.number := by
  unfold ofElement at h
  split at h
  · cases h
  · rename_i elements hparse
    split_ifs at h with htype
    dsimp only at h
    split at h
    · cases h
    · rename_i s _ hfold
      split_ifs at h
      cases h
      obtain ⟨hsound,hwire⟩ := IsSound.fold (Element.parse_eq_ok.mp hparse).1
        ⟨by simp,by simp⟩ hfold
      exact ⟨hsound,hwire,htype⟩

theorem ofElement_elements {wire sig : Element}
    (htype : wire.type = kind.number) {type : UInt16} (hsig : sig.type = TlvType.signatureType)
    (hread : readSignatureType sig = .ok type) (locator : Option Element) {l : Option KeyLocator}
    (hlocator : ∀ e ∈ locator, e.type = TlvType.keyLocator)
    (hl : locator.mapM KeyLocator.ofElement = .ok l) {others : List Element}
    (hothers : ∀ e ∈ others, IsOther e.toBlock)
    (hparse : Element.parse wire.value = .ok (sig :: (locator.toList ++ others))) :
    ∃ info, ofElement wire kind = .ok info ∧ info.type = some type ∧ info.keyLocator = l ∧
      info.otherTlvs = others := by
  have hfirst : ∀ info : SignatureInfo, decodeElement (info,0) sig =
      .ok ({ info with type := some type },1) := by
    intro info
    simp [decodeElement,hsig,hread,Except.map]
  unfold ofElement
  rw [hparse]
  dsimp only
  rw [dif_pos htype,foldlM_cons,hfirst]
  cases locator with
  | none =>
    cases hl
    simp [bind,Except.bind,fold_others hothers]
  | some e =>
    cases he : KeyLocator.ofElement e with
    | error message => simp [he] at hl
    | ok l' =>
      have hl' : l = some l' := by simpa [he] using hl.symm
      have hsecond : ∀ info : SignatureInfo, decodeElement (info,1) e =
          .ok ({ info with keyLocator := some l' },2) := by
        intro info
        simp [decodeElement,hlocator e rfl,he,Except.map]
      simp [bind,Except.bind,hsecond,fold_others hothers,hl']

/-- What is written is decoded to an equal object. -/
theorem IsSound.ofElement_item (hinfo : info.IsSound) {i : Item}
    (hi : info.item kind = .ok i) (h : i.element.hasWire = true) :
    ∃ info', SignatureInfo.ofElement i.element kind = .ok info' ∧ info'.value = info.value := by
  have hothers : ∀ e ∈ info.otherTlvs.map fun e => (Item.block e).element, IsOther e.toBlock := by
    intro e he
    obtain ⟨b,hb,rfl⟩ := mem_map.mp he
    exact Item.toBlock_block b ▸ hinfo.others b hb
  have htyped : Item.WellTyped (info.otherTlvs.map .block) := by
    intro item hitem
    obtain ⟨b,hb,rfl⟩ := mem_map.mp hitem
    exact (hinfo.others b hb).1
  unfold item at hi
  cases htype : info.type with
  | none => rw [htype] at hi; cases hi
  | some type =>
    have hread : readSignatureType (Item.nonNegativeInteger TlvType.signatureType type.toNat).element =
        .ok type := by
      have hlt := type.toNat_lt
      simp [readSignatureType,Item.element,readNonNegativeInteger_write (hlt.trans (by decide)),
        show ¬65535 < type.toNat by omega]
    rw [htype] at hi
    cases hlocator : info.keyLocator with
    | none =>
      rw [hlocator] at hi
      cases hi
      obtain ⟨hparse,_⟩ := Item.parse_nested h
        (forall_mem_cons.mpr ⟨by simp [Item.type,TlvType.signatureType],htyped⟩)
      obtain ⟨info',hok,ht,hl,ho⟩ := ofElement_elements (Item.type_element _) (Item.type_element _)
        hread none (by simp) rfl hothers (by simpa [comp_def] using hparse)
      exact ⟨info',hok,by simp [value,ht,hl,ho,htype,hlocator,Item.toBlock_block]⟩
    | some l =>
      rw [hlocator] at hi
      cases hitem : l.item with
      | error message => simp [hitem,Except.map] at hi
      | ok li =>
        simp only [hitem,Except.map,ok.injEq] at hi
        subst hi
        have hlt : li.type = TlvType.keyLocator := by
          cases l <;> cases hitem <;> rfl
        obtain ⟨hparse,hall⟩ := Item.parse_nested h
          (forall_mem_cons.mpr ⟨by simp [Item.type,TlvType.signatureType],
            forall_mem_cons.mpr ⟨by simp [hlt,TlvType.keyLocator],htyped⟩⟩)
        obtain ⟨l',hl',hvalue⟩ := KeyLocator.ofElement_item (hinfo.locator l hlocator) hitem
          (hall li (by simp))
        obtain ⟨info',hok,ht,hl,ho⟩ := ofElement_elements (Item.type_element _) (Item.type_element _)
          hread (some li.element) (by simp [hlt]) (l := some l')
          (by simp [hl']) hothers
          (by simpa [comp_def] using hparse)
        exact ⟨info',hok,by simp [value,ht,hl,ho,htype,hlocator,hvalue,Item.toBlock_block]⟩

end Decoding

section Runs

/-- The setters, and the two ways of getting a block. A copy is what it was copied from, with a
history of its own afterwards. -/
inductive Op where
  | setSignatureType (type : UInt16)
  | setKeyLocator (keyLocator : Option KeyLocator)
  | addCustomTlv (block : Element)
  | removeCustomTlv (type : Nat)
  | wireEncode (kind : SignatureInfoType)
  | wireDecode (wire : Element) (kind : SignatureInfoType)

def apply (info : SignatureInfo) : Op → Except String SignatureInfo
  | .setSignatureType type => .ok <|
    if info.type = some type then info
    else { info with type := some type, wire := none, wire_type := noWire_type }
  | .setKeyLocator keyLocator => .ok <|
    if keyLocator.map KeyLocator.value = info.keyLocator.map KeyLocator.value then info
    else { info with keyLocator := keyLocator, wire := none, wire_type := noWire_type }
  | .addCustomTlv block => .ok <|
    match info.otherTlvs.find? fun e => e.type = block.type with
    | none =>
      { info with otherTlvs := info.otherTlvs ++ [block], wire := none, wire_type := noWire_type }
    | some e =>
      if e.toBlock = block.toBlock then info
      else { info with
        otherTlvs := info.otherTlvs.replaceF fun e => if e.type = block.type then some block else none
        wire := none
        wire_type := noWire_type }
  | .removeCustomTlv type => .ok <|
    if ∃ e ∈ info.otherTlvs, e.type = type then { info with
      otherTlvs := info.otherTlvs.filter fun e => e.type ≠ type
      wire := none
      wire_type := noWire_type }
    else info
  | .wireEncode kind =>
    match h : info.wireEncode kind with
    | .error _ => .ok info
    | .ok e => .ok { info with
      wire := some e
      wire_type := fun _ hmem => mem_some_iff.mp hmem ▸ (wireEncode_ok h).2 }
  | .wireDecode wire kind => ofElement wire kind

/-- A locator that can be built, and blocks that the decoder takes for other elements. -/
def Op.IsSound : Op → Prop
  | .setKeyLocator keyLocator => ∀ l ∈ keyLocator, l.IsValid
  | .addCustomTlv block => IsOther block.toBlock
  | _ => True

/-- The block that is kept is of one of the two kinds and says what the fields say. -/
structure IsKept (info : SignatureInfo) : Prop extends info.IsSound where
  kept : ∀ e ∈ info.wire, ∃ kind info', e.type = kind.number ∧ ofElement e kind = .ok info' ∧
    info'.value = info.value

theorem IsSound.isKept (h : info.IsSound) (hwire : info.wire = none) : info.IsKept :=
  ⟨h,by simp [hwire]⟩

theorem mem_replaceF {block : Element}
    (h : e ∈ es.replaceF fun e => if e.type = block.type then some block else none) :
    e = block ∨ e ∈ es := by
  induction es with
  | nil => exact .inr h
  | cons f es ih =>
    rw [replaceF_cons] at h
    split_ifs at h <;> grind

theorem IsSound.written (h : info.IsSound) {kind : SignatureInfoType}
    (he : (info.item kind).bind Item.write = .ok e) :
    e.type = kind.number ∧ ∃ info', ofElement e kind = .ok info' ∧ info'.value = info.value := by
  cases hi : info.item kind with
  | error message => rw [hi] at he; cases he
  | ok i =>
    rw [hi] at he
    obtain ⟨items,rfl⟩ := exists_nested hi
    have hbounds : 0 < kind.number ∧ kind.number < 2^32 := by cases kind <;> decide
    obtain ⟨hvalid,rfl⟩ := Item.write_nested hbounds.1 hbounds.2 he
    exact ⟨Element.type_ofBlock _,h.ofElement_item hi ((Element.hasWire_ofBlock _).mpr hvalid)⟩

theorem IsKept.encoded (h : info.IsKept) {kind : SignatureInfoType}
    (he : info.wireEncode kind = .ok e) :
    ∃ kind info', e.type = kind.number ∧ ofElement e kind = .ok info' ∧
      info'.value = info.value := by
  unfold wireEncode at he
  split at he
  · rename_i wire hwire
    exact ok.inj he ▸ h.kept wire (filter_eq_some_iff.mp hwire).1
  · obtain ⟨htype,info',hok,hvalue⟩ := h.written he
    exact ⟨kind,info',htype,hok,hvalue⟩

theorem IsKept.apply {info' : SignatureInfo} (h : info.IsKept) {op : Op} (hop : op.IsSound)
    (hs : info.apply op = .ok info') : info'.IsKept := by
  cases op with
  | setSignatureType type =>
    cases hs
    split_ifs
    · exact h
    · exact IsSound.isKept ⟨h.locator,h.others⟩ rfl
  | setKeyLocator keyLocator =>
    cases hs
    split_ifs
    · exact h
    · exact IsSound.isKept ⟨hop,h.others⟩ rfl
  | addCustomTlv block =>
    cases hs
    split
    · refine IsSound.isKept ⟨h.locator,fun e he => ?_⟩ rfl
      rcases mem_append.mp he with he | he
      · exact h.others e he
      · exact mem_singleton.mp he ▸ hop
    · split_ifs
      · exact h
      · refine IsSound.isKept ⟨h.locator,fun e he => ?_⟩ rfl
        rcases mem_replaceF he with rfl | he
        · exact hop
        · exact h.others e he
  | removeCustomTlv type =>
    cases hs
    split_ifs
    · exact IsSound.isKept ⟨h.locator,fun e he => h.others e (mem_filter.mp he).1⟩ rfl
    · exact h
  | wireEncode kind =>
    simp only [SignatureInfo.apply] at hs
    split at hs
    · exact ok.inj hs ▸ h
    · rename_i e he
      cases hs
      refine ⟨⟨h.locator,h.others⟩,fun f hf => ?_⟩
      cases hf
      exact h.encoded he
  | wireDecode wire kind =>
    obtain ⟨hsound,hwire,htype⟩ := isSound_ofElement hs
    refine ⟨hsound,fun e he => ⟨kind,info',?_⟩⟩
    cases hwire.symm.trans he
    exact ⟨htype,hs,rfl⟩

theorem IsKept.run {info' : SignatureInfo} (h : info.IsKept) {ops : List Op}
    (hops : ∀ op ∈ ops, op.IsSound) (hs : ops.foldlM SignatureInfo.apply info = .ok info') :
    info'.IsKept := by
  induction ops generalizing info with
  | nil => exact ok.inj hs ▸ h
  | cons op ops ih =>
    obtain ⟨hop,hops⟩ := forall_mem_cons.mp hops
    rw [foldlM_cons] at hs
    cases hstep : info.apply op with
    | error message => rw [hstep] at hs; cases hs
    | ok t => rw [hstep] at hs; exact ih (h.apply hop hstep) hops hs

/-- What is encoded is of the kind asked for, and is decoded for this kind to an equal object, if and
only if no block of the other kind is kept. -/
theorem run_wireEncode (ops : List Op) (hops : ∀ op ∈ ops, op.IsSound) (info : SignatureInfo)
    (hrun : ops.foldlM apply {} = .ok info) (kind : SignatureInfoType) (e : Element)
    (he : info.wireEncode kind = .ok e) :
    (e.type = kind.number ∧ ∃ info', ofElement e kind = .ok info' ∧ info'.value = info.value) ↔
      ∀ wire ∈ info.wire, wire.hasWire = true → wire.type = kind.number := by
  have h : info.IsKept := IsKept.run ⟨⟨by simp,by simp⟩,by simp⟩ hops hrun
  obtain ⟨kind',info',htype,hok,hvalue⟩ := h.encoded he
  unfold wireEncode at he
  split at he
  · rename_i wire hwire
    obtain ⟨hmem,hhas⟩ := filter_eq_some_iff.mp hwire
    cases he
    constructor
    · intro hgood wire hwire' _
      cases hmem.symm.trans hwire'
      exact hgood.1
    · intro hgood
      have heq := htype.symm.trans (hgood e hmem hhas)
      have hkind : kind' = kind := by cases kind' <;> cases kind <;> first | rfl | cases heq
      exact ⟨hgood e hmem hhas,info',hkind ▸ hok,hvalue⟩
  · rename_i hnone
    refine iff_of_true (h.written he) fun wire hwire hhas => ?_
    simp [Option.filter_eq_none_iff] at hnone
    exact absurd hhas (by simp [hnone wire hwire])

private def sha256 : Element := .ofBlock ⟨TlvType.signatureInfo,[27,1,0]⟩

theorem run_wireEncode_data : ∃ info e, [Op.wireDecode sha256 .data].foldlM apply {} = .ok info ∧
    info.wireEncode .data = .ok e ∧ e.type = TlvType.signatureInfo := by
  obtain ⟨info,e,hrun,he,hwire⟩ : ∃ info e, [Op.wireDecode sha256 .data].foldlM apply {} = .ok info ∧
      info.wireEncode .data = .ok e ∧ info.wire = some sha256 := ⟨_,_,rfl,rfl,rfl⟩
  have hkind : ∀ wire ∈ info.wire, wire.hasWire = true →
      wire.type = SignatureInfoType.data.number := by
    intro wire hmem _
    cases hwire.symm.trans hmem
    rfl
  have hgood := (run_wireEncode _ (by simp [Op.IsSound]) info hrun .data e he).mpr hkind
  exact ⟨info,e,hrun,he,hgood.1⟩

/-- The signature information of a Data packet is put into an Interest. -/
theorem data_into_interest : ∃ wire info e, ofElement wire .data = .ok info ∧
    info.wireEncode .interest = .ok e ∧ e.type = TlvType.signatureInfo :=
  ⟨sha256,_,_,rfl,rfl,rfl⟩

end Runs

end SignatureInfo

end KiteNdn.Packet
