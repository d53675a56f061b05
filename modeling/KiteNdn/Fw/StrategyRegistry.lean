import KiteNdn.Framework.OrderedMap
import KiteNdn.Name.Wire
import KiteNdn.Util.Segments

/-!
# The registry of strategies

Strategies are registered under a program name and a version component. A lookup goes to a place in
the ordered map and only checks that the name which it finds there is below the program name.
-/

namespace KiteNdn.Fw

open Framework List Option

variable {κ : Type} [NameComponent κ]

section InstanceNames

def isVersion (c : κ) : Bool := (NameComponent.toComponent c).isVersion

structure ParsedInstanceName (κ : Type) where
  strategyName : List κ
  version : Option Nat
  parameters : List κ
  deriving DecidableEq, Repr

def ParsedInstanceName.programName (parsed : ParsedInstanceName κ) : List κ :=
  if parsed.version.isSome then parsed.strategyName.dropLast else parsed.strategyName

/-- The loop goes from the last component to the second. -/
def parseInstanceName (input : List κ) : ParsedInstanceName κ :=
  let isVersionAt := fun i => decide (0 < i) && (input[i]?).any isVersion
  match (List.range input.length).reverse.find? isVersionAt with
  | some i => ⟨input.take (i + 1),(input[i]?).bind fun c => (NameComponent.toComponent c).version?,
      input.drop (i + 1)⟩
  | none => ⟨input,none,[]⟩

theorem version?_isSome {c : Component} (h : c.isVersion = true) : c.version?.isSome = true := by
  have hread : ∀ value : List UInt8, value.length ∈ [1,2,4,8] →
      ((Tlv.readNonNegativeInteger value).toOption).isSome = true := by
    intro value hvalue
    rw [Tlv.readNonNegativeInteger,if_pos hvalue]
    rfl
  rw [Component.version?,if_pos h]
  apply hread
  rcases Bool.or_eq_true_iff.mp h with h | h
  · obtain ⟨htype,hnumber⟩ := (Bool.and_eq_true _ _).mp h
    rw [if_pos (of_decide_eq_true htype),length_drop]
    have hlength := of_decide_eq_true ((Bool.and_eq_true _ _).mp hnumber).1
    simp only [mem_cons,not_mem_nil,or_false] at hlength ⊢
    omega
  · obtain ⟨htype,hnumber⟩ := (Bool.and_eq_true _ _).mp h
    rw [if_neg (by rw [of_decide_eq_true htype]; decide)]
    exact of_decide_eq_true hnumber

/-- What has been parsed: a name that ends with a version, or the whole input. -/
theorem parseInstanceName_cases (input : List κ) :
    (∃ program c v parameters, program ≠ [] ∧ input = program ++ c :: parameters ∧
      isVersion c = true ∧ (NameComponent.toComponent c).version? = some v ∧
      parseInstanceName input = ⟨program ++ [c],some v,parameters⟩) ∨
    input.tail.any isVersion = false ∧ parseInstanceName input = ⟨input,none,[]⟩ := by
  unfold parseInstanceName
  dsimp only
  split
  · rename_i i hi
    left
    have hfound := find?_some hi
    obtain ⟨hpos,hversion⟩ := (Bool.and_eq_true _ _).mp hfound
    obtain ⟨c,hc,hversion⟩ := (any_eq_true _ _).mp hversion
    obtain ⟨v,hv⟩ := isSome_iff_exists.mp (version?_isSome hversion)
    obtain ⟨hlt,rfl⟩ := List.getElem?_eq_some_iff.mp hc
    refine ⟨input.take i,input[i],v,input.drop (i + 1),?_,?_,hversion,hv,?_⟩
    · intro hnil
      have hlen := congrArg List.length hnil
      rw [length_take,length_nil] at hlen
      have := of_decide_eq_true hpos
      omega
    · rw [← drop_eq_getElem_cons hlt,take_append_drop]
    · rw [hc,bind_some,hv,take_succ_eq_append_getElem hlt]
  · rename_i hnone
    right
    refine ⟨Bool.eq_false_iff.mpr fun hany => ?_,rfl⟩
    obtain ⟨c,hc,hversion⟩ := List.any_eq_true.mp hany
    obtain ⟨i,hi,rfl⟩ := getElem_of_mem hc
    rw [length_tail] at hi
    have hlt : i + 1 < input.length := by omega
    have hno := find?_eq_none.mp hnone (i + 1) (by simpa using hlt)
    rw [getElem_tail] at hversion
    simp [getElem?_eq_getElem hlt,hversion] at hno

variable {input strategyName : List κ}

end InstanceNames

/-- What `registerType` asserts holds of all names, and digests in names have the right size. -/
structure StrategyRegistry (κ : Type) [NameComponent κ] (ν : Type) where
  map : OrderedMap (List κ) ν
  size : ∀ x ∈ map.entries, 1 < x.1.length
  versioned : ∀ x ∈ map.entries, x.1.getLast?.any isVersion = true
  digestSized : ∀ x ∈ map.entries, ∀ c ∈ toName x.1, c.DigestSized

namespace StrategyRegistry

variable {ν : Type}

/-- The successor of a name may be refused. -/
def find (registry : StrategyRegistry κ ν) (instanceName : List κ) : Option (Option (List κ × ν)) :=
  let parsed := parseInstanceName instanceName
  if parsed.version.isSome then
    some ((registry.map.entries[registry.map.lowerBound parsed.strategyName]?).filter fun found =>
      (toName parsed.strategyName.dropLast).isPrefixOf (toName found.1))
  else if parsed.strategyName ≠ [] then
    (Name.getSuccessor? parsed.strategyName).map fun successor =>
      let found := registry.map.lowerBound successor
      if found ≠ 0 then
        (registry.map.entries[found - 1]?).filter fun found =>
          (toName parsed.strategyName).isPrefixOf (toName found.1)
      else none
  else some none

section Specification

variable (registry : StrategyRegistry κ ν) (instanceName : List κ)

def versionOf (strategyName : List κ) : Nat :=
  ((toName strategyName).getLast?.bind Component.version?).getD 0

/-- Below the program name, and from the requested name on, there are versions of the program only.
Its versions, the requested one among them, are registered in the order of their numbers. -/
structure Ordered : Prop where
  below : ∀ x ∈ registry.map.entries, (parseInstanceName instanceName).programName <+: x.1 →
    (∀ _ ∈ (parseInstanceName instanceName).version,
      (parseInstanceName instanceName).strategyName ≤ x.1) →
    x.1.dropLast = (parseInstanceName instanceName).programName
  requested : ∀ v ∈ (parseInstanceName instanceName).version, ∀ x ∈ registry.map.entries,
    x.1.dropLast = (parseInstanceName instanceName).programName →
    ((parseInstanceName instanceName).strategyName ≤ x.1 ↔ v ≤ versionOf x.1)
  registered : ∀ x ∈ registry.map.entries, ∀ y ∈ registry.map.entries,
    x.1.dropLast = (parseInstanceName instanceName).programName →
    y.1.dropLast = (parseInstanceName instanceName).programName →
    x.1 ≤ y.1 → versionOf x.1 ≤ versionOf y.1

end Specification

section Search

variable {κ : Type} [CanonicalComponent κ] {registry : StrategyRegistry κ ν}
  {instanceName program parameters : List κ} {c : κ} {v : Nat}

end Search

section Uniform

variable {v : Nat}

private theorem length_write_le {w : Nat} (h : v ≤ w) :
    (Tlv.writeNonNegativeInteger v).length ≤ (Tlv.writeNonNegativeInteger w).length := by
  unfold Tlv.writeNonNegativeInteger Tlv.sizeOfNonNegativeInteger
  rw [length_toBytes,length_toBytes]
  split_ifs <;> omega

private theorem ofBytes_write (h : v < 2^64) : ofBytes (Tlv.writeNonNegativeInteger v) = v := by
  have hread := Tlv.readNonNegativeInteger_write h
  unfold Tlv.readNonNegativeInteger at hread
  split_ifs at hread
  exact Except.ok.inj hread

/-- In the shortest encodings of one convention, versions are ordered as numbers. -/
theorem fromVersion_lt_fromVersion (convention : Component.Convention) {w : Nat} (hlt : v < w)
    (hw : w < 2^64) : Component.fromVersion convention v < Component.fromVersion convention w := by
  have hlength := length_write_le hlt.le
  have hv := ofBytes_write (hlt.trans hw)
  have hw := ofBytes_write hw
  rw [Component.lt_iff_ofBytes]
  refine .inr ⟨by cases convention <;> rfl,?_⟩
  cases convention with
  | typed =>
    change (Tlv.writeNonNegativeInteger v).length < (Tlv.writeNonNegativeInteger w).length ∨
      (Tlv.writeNonNegativeInteger v).length = (Tlv.writeNonNegativeInteger w).length ∧
        ofBytes (Tlv.writeNonNegativeInteger v) < ofBytes (Tlv.writeNonNegativeInteger w)
    omega
  | marker =>
    simp only [Component.fromVersion,length_cons,ofBytes_cons]
    rcases hlength.lt_or_eq with hlt' | heq
    · exact .inl (by omega)
    · exact .inr ⟨by omega,by rw [heq]; omega⟩

variable {κ : Type} [CanonicalComponent κ] {registry : StrategyRegistry κ ν} {instanceName : List κ}
  {convention : Component.Convention}

/-- All names below the program name are versions of the program in their shortest encodings in one
convention, and so is the requested one. -/
structure Uniform (registry : StrategyRegistry κ ν) (instanceName : List κ)
    (convention : Component.Convention) : Prop where
  requested : ∀ v ∈ (parseInstanceName instanceName).version,
    toName (parseInstanceName instanceName).strategyName =
      toName (parseInstanceName instanceName).programName ++ [.fromVersion convention v]
  registered : ∀ x ∈ registry.map.entries, (parseInstanceName instanceName).programName <+: x.1 →
    ∃ v < 2^64, toName x.1 =
      toName (parseInstanceName instanceName).programName ++ [.fromVersion convention v]

private theorem le_iff_version_le {program : Name} {n m : List κ} {w : Nat}
    (hn : toName n = program ++ [.fromVersion convention v])
    (hm : toName m = program ++ [.fromVersion convention w]) (hv : v < 2^64) (hw : w < 2^64) :
    n ≤ m ↔ v ≤ w := by
  rw [← not_lt,← toName_lt_iff,hn,hm,not_lt]
  constructor
  · intro hle
    by_contra hlt
    exact absurd (Name.lt_append_of_lt (fromVersion_lt_fromVersion convention (not_le.mp hlt) hv) [])
      (not_lt.mpr hle)
  · intro hle
    rcases hle.eq_or_lt with rfl | hlt
    · exact le_rfl
    · exact (Name.lt_append_of_lt (fromVersion_lt_fromVersion convention hlt hw) []).le

private theorem versionOf_eq {program : Name} {n : List κ}
    (hn : toName n = program ++ [.fromVersion convention v]) (hv : v < 2^64) : versionOf n = v := by
  rw [versionOf,hn,getLast?_concat,bind_some,Component.version?_fromVersion _ hv]
  rfl

private theorem version_lt (h : v ∈ (parseInstanceName instanceName).version) : v < 2^64 := by
  rcases parseInstanceName_cases instanceName with ⟨program,c,w,parameters,-,-,-,hw,heq⟩ | ⟨-,heq⟩
  · rw [heq] at h
    cases h
    exact Component.version?_lt hw
  · rw [heq] at h
    exact nomatch h

theorem Uniform.ordered (h : Uniform registry instanceName convention) :
    registry.Ordered instanceName where
  below x hx hbelow _ := by
    obtain ⟨w,-,hw⟩ := h.registered x hx hbelow
    apply toName_inj.mp
    rw [toName,map_dropLast,← toName,hw,dropLast_concat]
  requested v hv x hx hprogram := by
    obtain ⟨w,hlt,hw⟩ := h.registered x hx (hprogram ▸ dropLast_prefix _)
    rw [versionOf_eq hw hlt]
    exact le_iff_version_le (h.requested v hv) hw (version_lt hv) hlt
  registered x hx y hy hprogram hprogram' hle := by
    obtain ⟨v,hv,hxv⟩ := h.registered x hx (hprogram ▸ dropLast_prefix _)
    obtain ⟨w,hw,hyw⟩ := h.registered y hy (hprogram' ▸ dropLast_prefix _)
    rw [versionOf_eq hxv hv,versionOf_eq hyw hw]
    exact (le_iff_version_le hxv hyw hv hw).mp hle

end Uniform

private def letterA : ShortestComponent := .ofComponent (.generic [65]) (by decide)
end StrategyRegistry

end KiteNdn.Fw
