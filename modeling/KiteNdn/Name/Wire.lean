import KiteNdn.Name.SuccessorOrder

/-!
# Components by their octets

The components of decoded names are ordered by their octets, while `equals` and `isPrefixOf` look at
type and value. In the shortest form there is one component for each type and value, and the order
is the canonical one.
-/

namespace KiteNdn

open Framework Tlv List Function

namespace Component

/-- What the constructor checks, for a value that can be encoded. -/
def IsValid (c : Component) : Prop :=
  0 < c.type ∧ c.type ≤ 65535 ∧ c.DigestSized ∧ c.value.length < 2^64

instance (c : Component) : Decidable c.IsValid := inferInstanceAs (Decidable (_ ∧ _))

theorem IsValid.block {c : Component} (h : c.IsValid) : Block.Valid ⟨c.type,c.value⟩ :=
  ⟨h.1,lt_of_le_of_lt h.2.1 (by decide),h.2.2.2⟩

theorem IsValid.getSuccessor {c : Component} (h : c.IsValid) (hshort : c.value.length + 1 < 2^64) :
    c.getSuccessor.IsValid := by
  obtain ⟨hpos,htype,hdigest,_⟩ := h
  obtain ⟨hpos,htype,hlength⟩ := bounds_getSuccessor hpos htype hshort (by decide)
  exact ⟨hpos,htype,digestSized_getSuccessor hdigest,hlength⟩

end Component

/-- A component of a decoded name. -/
structure WireComponent extends EncodedComponent where
  data : List UInt8
  wire_eq : wire = some data

namespace WireComponent

variable {a b : WireComponent}

theorem isFront {buffer : List UInt8} (h : a.data <+: buffer) : a.IsFront buffer := by
  obtain ⟨rest,hrest⟩ := h
  exact ⟨a.data,rest,a.wire_eq,hrest.symm⟩

theorem eq_of_toElement (h : a.toElement = b.toElement) : a = b := by
  obtain ⟨⟨a,_⟩,x,hx⟩ := a
  obtain ⟨⟨b,_⟩,y,hy⟩ := b
  dsimp only at h hx hy
  subst h
  cases hx.symm.trans hy
  rfl

theorem data_injective : Injective fun c : WireComponent => c.data.map UInt8.toNat := by
  intro a b h
  have hdata : a.data = b.data := map_injective_iff.mpr (fun _ _ h => UInt8.toNat_inj.mp h) h
  exact eq_of_toElement ((isFront prefix_rfl).unique (isFront (hdata ▸ prefix_rfl)))

instance : LinearOrder WireComponent := LinearOrder.lift' _ data_injective

theorem tells_compare (a b : WireComponent) : Tells (a.compare b.toEncodedComponent) a b := by
  have hoctets : ∀ x ∈ a.data, ∀ y ∈ b.data, Tells (octetDifference x y) x.toNat y.toNat :=
    fun x _ y _ => tells_sub x.toNat y.toNat
  obtain ⟨i,hi,hneg,hpos,hzero⟩ := compareFront_spec hoctets
  unfold EncodedComponent.compare
  rw [a.wire_eq,b.wire_eq]
  dsimp only
  rw [memcmp_min,hi]
  rcases lt_trichotomy i 0 with hlt | rfl | hgt
  · exact Tells.of_lt hlt (hneg hlt)
  · -- No component is the beginning of another one.
    apply Tells.of_eq
    have hinj : Injective UInt8.toNat := fun _ _ h => UInt8.toNat_inj.mp h
    rcases hzero rfl with h | h
    · exact eq_of_toElement ((isFront ((prefix_map_iff_of_injective hinj).mp h)).unique
        (isFront prefix_rfl))
    · exact eq_of_toElement ((isFront prefix_rfl).unique
        (isFront ((prefix_map_iff_of_injective hinj).mp h)))
  · exact Tells.of_gt hgt (hpos hgt)

def ofComponent (c : Component) (h : c.IsValid) : WireComponent :=
  ⟨⟨Element.encoded ⟨c.type,c.value⟩ h.block,by simp [Element.encoded]⟩,_,rfl⟩

instance : NameComponent WireComponent where
  toComponent c := c.toComponent
  encode c := if h : c.IsValid then some (ofComponent c h) else none
  toComponent_of_encode h := by
    split_ifs at h
    rw [← Option.some.inj h]
    rfl

/-- Type and length are in their shortest form. -/
def Shortest (c : WireComponent) : Prop := c.data = c.toBlock.encode

theorem Shortest.lt_iff (ha : a.Shortest) (hb : b.Shortest) :
    a < b ↔ a.toComponent < b.toComponent := by
  have htype := a.type_lt
  have htype' := b.type_lt
  have htells : Tells (a.compare b.toEncodedComponent) a.toComponent b.toComponent := by
    unfold EncodedComponent.compare
    rw [a.wire_eq,b.wire_eq]
    dsimp only
    rw [memcmp_min,ha,hb]
    exact tells_encode (a := a.toComponent) (b := b.toComponent)
      (by unfold EncodedComponent.toComponent; dsimp only; omega)
      (by unfold EncodedComponent.toComponent; dsimp only; omega)
      (EncodedComponent.length_lt a.wire_eq) (EncodedComponent.length_lt b.wire_eq)
  rw [← (tells_compare a b).neg_iff,htells.neg_iff]

end WireComponent

/-- A component of a decoded name in its shortest form. -/
abbrev ShortestComponent := { c : WireComponent // c.Shortest }

def ShortestComponent.ofComponent (c : Component) (h : c.IsValid) : ShortestComponent :=
  ⟨.ofComponent c h,rfl⟩

instance : CanonicalComponent ShortestComponent where
  toComponent c := c.val.toComponent
  encode c := if h : c.IsValid then some (.ofComponent c h) else none
  toComponent_of_encode h := by
    split_ifs at h
    rw [← Option.some.inj h]
    rfl
  lt_iff a b := a.property.lt_iff b.property

/-- Only the size of the last component can be too large for a successor. -/
theorem ShortestComponent.exists_getSuccessor {n : List ShortestComponent}
    (h : ∀ c ∈ (toName n).getLast?, c.IsValid ∧ c.value.length + 1 < 2^64) (hne : n ≠ []) :
    ∃ s, Name.getSuccessor? n = some s := by
  obtain ⟨p,c,rfl⟩ := (eq_nil_or_concat n).resolve_left hne
  rw [concat_eq_append] at h ⊢
  rw [toName_concat,getLast?_concat] at h
  obtain ⟨hvalid,hshort⟩ := h _ rfl
  exact ⟨_,Name.getSuccessor?_concat.mpr ⟨_,dif_pos (hvalid.getSuccessor hshort),rfl⟩⟩

def letterA : ShortestComponent := .ofComponent (.generic [97]) (by decide)

def shortFormA : WireComponent := ⟨shortA,_,rfl⟩
def longFormA : WireComponent := ⟨longA,_,rfl⟩

end KiteNdn
