import KiteNdn.Encoding.Codec
import KiteNdn.Kite.Request
import KiteNdn.Name.Compare

/-!
# Names inside packets

A name that is read keeps the octets of its components; one that is written gets types and lengths in
their shortest form. The types of elements are those of the packet format.
-/

namespace KiteNdn

variable {n : EncodedName}

namespace TlvType

abbrev interest : Nat := 5
abbrev data : Nat := 6
abbrev name : Nat := 7
abbrev nonce : Nat := 10
abbrev interestLifetime : Nat := 12
abbrev mustBeFresh : Nat := 18
abbrev metaInfo : Nat := 20
abbrev content : Nat := 21
abbrev signatureInfo : Nat := 22
abbrev signatureValue : Nat := 23
abbrev contentType : Nat := 24
abbrev freshnessPeriod : Nat := 25
abbrev finalBlockId : Nat := 26
abbrev signatureType : Nat := 27
abbrev keyLocator : Nat := 28
abbrev keyDigest : Nat := 29
abbrev forwardingHint : Nat := 30
abbrev linkDelegation : Nat := 31
abbrev canBePrefix : Nat := 33
abbrev hopLimit : Nat := 34
abbrev applicationParameters : Nat := 36
abbrev signatureNonce : Nat := 38
abbrev signatureTime : Nat := 40
abbrev signatureSeqNum : Nat := 42
abbrev interestSignatureInfo : Nat := 44
abbrev interestSignatureValue : Nat := 46
abbrev validityPeriod : Nat := 253

end TlvType

open Tlv Encoding

def expecting (expectedType : String) (actual : Nat) : String :=
  s!"Expecting {expectedType} element, but TLV has type {actual}"

namespace EncodedComponent

theorem ext_element {c d : EncodedComponent} (h : c.toElement = d.toElement) : c = d := by
  cases c
  cases d
  cases h
  rfl

instance : DecidableEq EncodedComponent := fun c d =>
  if h : c.toElement = d.toElement then isTrue (ext_element h) else isFalse fun heq => h (heq ▸ rfl)

def ofElement (e : Element) (h : e.hasWire = true) : EncodedComponent where
  toElement := e
  valid hnone := absurd h (by rw [Element.hasWire,hnone]; exact Bool.false_ne_true)

end EncodedComponent

namespace Name

def item (n : Name) : Item := .nested TlvType.name (n.map fun c => .binary c.type c.value)

def WellTyped (n : Name) : Prop := ∀ c ∈ n, 0 < c.type ∧ c.type < 2^32

end Name

namespace EncodedName

def elements (n : EncodedName) : List Element := n.map EncodedComponent.toElement

/-- `Name::wireEncode`: the octets that components have are not used. -/
def item (n : EncodedName) : Item :=
  .nested TlvType.name (n.map fun c => .binary c.type c.value)

def ofElement (e : Element) : Except String EncodedName :=
  match h : Element.parse e.value with
  | .error message => .error message
  | .ok elements => .ok (elements.pmap EncodedComponent.ofElement (Element.parse_eq_ok.mp h).1)

private theorem elements_pmap (es : List Element) (h : ∀ e ∈ es, e.hasWire = true) :
    elements (es.pmap EncodedComponent.ofElement h) = es := by
  unfold elements
  rw [List.map_pmap]
  exact List.pmap_eq_self.mpr fun e he => rfl

theorem ofElement_eq_ok {e : Element} :
    ofElement e = .ok n ↔ Element.parse e.value = .ok n.elements := by
  unfold ofElement
  split
  · rename_i message h
    exact iff_of_false (by simp) (by rw [h]; simp)
  · rename_i es h
    constructor
    · intro heq
      rw [← Except.ok.inj heq,elements_pmap]
      exact h
    · intro heq
      apply congrArg Except.ok
      apply List.map_injective_iff.mpr (fun c d => EncodedComponent.ext_element)
      exact (elements_pmap es _).trans (Except.ok.inj (h.symm.trans heq))

theorem toName_eq_of_elements {es : List Element} (h : n.elements = es) :
    n.toName = es.map fun e => ⟨e.type,e.value⟩ := by
  rw [← h,elements,List.map_map]
  rfl

theorem ofElement_nameItem {n : Name} (htyped : n.WellTyped) (h : n.item.element.hasWire = true) :
    ∃ m, ofElement n.item.element = .ok m ∧ m.toName = n := by
  have hparse : Element.parse n.item.element.value =
      .ok (n.map fun c => .ofBlock ⟨c.type,c.value⟩) := by
    have hitems : Item.WellTyped (n.map fun c => .binary c.type c.value) := by
      intro item hitem
      obtain ⟨c,hc,rfl⟩ := List.mem_map.mp hitem
      exact htyped c hc
    have hnested := (Item.parse_nested h hitems).1
    rw [List.map_map] at hnested
    exact hnested
  cases hm : ofElement n.item.element with
  | error message =>
    unfold ofElement at hm
    split at hm
    · rename_i herror
      exact absurd (hparse.symm.trans herror) (by simp)
    · exact absurd hm (by simp)
  | ok m =>
    refine ⟨m,rfl,?_⟩
    have helements := Except.ok.inj ((ofElement_eq_ok.mp hm).symm.trans hparse)
    rw [toName_eq_of_elements helements,List.map_map]
    conv_rhs => rw [← List.map_id n]
    apply List.map_congr_left
    intro c _
    show (⟨(Element.toBlock (.ofBlock _)).type,(Element.toBlock (.ofBlock _)).value⟩ : Component) = _
    rw [Element.toBlock_ofBlock]
    rfl

theorem item_eq (n : EncodedName) : n.item = Name.item n.toName := by
  unfold item Name.item toName
  rw [List.map_map]
  rfl

theorem wellTyped_toName (n : EncodedName) : Name.WellTyped n.toName := by
  intro c hc
  obtain ⟨c,_,rfl⟩ := List.mem_map.mp hc
  exact c.type_lt

theorem ofElement_item (h : n.item.element.hasWire = true) :
    ∃ m, ofElement n.item.element = .ok m ∧ m.toName = n.toName := by
  rw [item_eq] at h ⊢
  exact ofElement_nameItem n.wellTyped_toName h

end EncodedName

end KiteNdn
