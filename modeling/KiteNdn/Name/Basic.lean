import Mathlib.Data.List.Lex
import Mathlib.Data.Prod.Lex
import Mathlib.Data.List.Infix

/-!
# Names, their canonical order and their prefixes

Components are ordered by type, then length, then value, and names lexicographically, so the names
below a prefix are contiguous. `NameComponent` is what the tables use of a component, so that a
table is one definition for components by type and value and by octets.

Adding or removing a name in a set of names changes the parent of exactly the names directly below
it.
-/

namespace KiteNdn

open List Function

structure Component where
  type : Nat
  value : List UInt8
  deriving DecidableEq, Repr

namespace Component

def orderKey (c : Component) : Nat ×ₗ Nat ×ₗ List Nat :=
  toLex (c.type,toLex (c.value.length,c.value.map UInt8.toNat))

theorem orderKey_injective : Injective orderKey := by
  rintro ⟨t,v⟩ ⟨u,w⟩ h
  have h' := toLex_inj.mp h
  have hv : v.map UInt8.toNat = w.map UInt8.toNat :=
    congrArg Prod.snd (toLex_inj.mp (congrArg Prod.snd h'))
  have ht : t = u := congrArg Prod.fst h'
  have hvw : v = w := (List.map_injective_iff.mpr fun _ _ h => UInt8.toNat_inj.mp h) hv
  rw [ht,hvw]

instance : LinearOrder Component where
  toPartialOrder := PartialOrder.lift orderKey orderKey_injective
  le_total a b := le_total a.orderKey b.orderKey
  toDecidableLE a b := inferInstanceAs (Decidable (a.orderKey ≤ b.orderKey))
  toDecidableLT a b := inferInstanceAs (Decidable (a.orderKey < b.orderKey))
  toDecidableEq := inferInstance

def generic (value : List UInt8) : Component := ⟨8,value⟩

end Component

abbrev Name := List Component

/-- A component in the order of `compare`, with the type and the value that `equals` looks at. -/
class NameComponent (κ : Type) extends LinearOrder κ where
  toComponent : κ → Component
  encode : Component → Option κ
  toComponent_of_encode : ∀ {c k}, encode c = some k → toComponent k = c

/-- Components that have one encoding each, in the canonical order. -/
class CanonicalComponent (κ : Type) extends NameComponent κ where
  lt_iff : ∀ a b : κ, a < b ↔ toComponent a < toComponent b

instance : CanonicalComponent Component where
  toComponent := id
  encode := some
  toComponent_of_encode h := (Option.some.inj h).symm
  lt_iff _ _ := Iff.rfl

section Reading

variable {κ : Type}

def toName [NameComponent κ] (n : List κ) : Name := n.map NameComponent.toComponent

@[simp] theorem toName_component (n : Name) : toName n = n := List.map_id n

@[simp] theorem length_toName [NameComponent κ] (n : List κ) : (toName n).length = n.length :=
  length_map _

theorem toName_take [NameComponent κ] (n : List κ) (k : Nat) :
    toName (n.take k) = (toName n).take k :=
  List.map_take

theorem toName_concat [NameComponent κ] (n : List κ) (c : κ) :
    toName (n ++ [c]) = toName n ++ [NameComponent.toComponent c] :=
  map_append

variable [CanonicalComponent κ]

theorem toComponent_injective : Injective (NameComponent.toComponent : κ → Component) := by
  intro a b h
  rcases lt_trichotomy a b with hlt | heq | hgt
  · exact absurd ((CanonicalComponent.lt_iff a b).mp hlt) (h ▸ lt_irrefl _)
  · exact heq
  · exact absurd ((CanonicalComponent.lt_iff b a).mp hgt) (h ▸ lt_irrefl _)

variable {n m : List κ}

theorem toName_inj : toName n = toName m ↔ n = m :=
  (List.map_injective_iff.mpr toComponent_injective).eq_iff

theorem toName_lt_iff : toName n < toName m ↔ n < m := by
  induction n generalizing m with
  | nil => cases m <;> simp [toName]
  | cons c n ih =>
    cases m with
    | nil => simp [toName]
    | cons d m =>
      rw [toName,toName,map_cons,map_cons,cons_lt_cons_iff,cons_lt_cons_iff,
        ← CanonicalComponent.lt_iff,toComponent_injective.eq_iff]
      exact or_congr_right (and_congr_right fun _ => ih)

theorem toName_prefix_iff : toName n <+: toName m ↔ n <+: m := by
  constructor
  · intro h
    have htake := List.prefix_iff_eq_take.mp h
    rw [length_toName,toName,toName,← List.map_take] at htake
    exact List.prefix_iff_eq_take.mpr (toName_inj.mp htake)
  · exact fun h => h.map _

end Reading

namespace Name

variable {κ : Type}

section Order

variable [LinearOrder κ]

theorem lt_of_extends {n m : List κ} (h : n <+: m) (hne : n ≠ m) : n < m := by
  obtain ⟨s,rfl⟩ := h
  have hs : s ≠ [] := by rintro rfl; simp at hne
  clear hne
  induction n with
  | nil =>
    cases s with
    | nil => exact absurd rfl hs
    | cons a s => exact List.nil_lt_cons a s
  | cons a n ih => exact cons_lt_cons_iff.mpr (Or.inr ⟨rfl,ih⟩)

private theorem cons_le_cons {c d : κ} {n a : List κ} (h : c :: n ≤ d :: a) :
    c < d ∨ (c = d ∧ n ≤ a) := by
  have h' := not_lt.mpr h
  rw [cons_lt_cons_iff] at h'
  push Not at h'
  rcases lt_or_eq_of_le h'.1 with hlt | heq
  · exact Or.inl hlt
  · exact Or.inr ⟨heq,h'.2 heq.symm⟩

/-- Every name between a prefix and a name below that prefix is below the prefix as well. -/
theorem prefix_of_between {n a b : List κ} (hna : n ≤ a) (hab : a ≤ b) (hnb : n <+: b) :
    n <+: a := by
  induction n generalizing a b with
  | nil => exact List.nil_prefix
  | cons c n ih =>
    obtain ⟨s,rfl⟩ := hnb
    cases a with
    | nil => exact absurd hna (not_le.mpr (List.nil_lt_cons c n))
    | cons d a =>
      rcases cons_le_cons hna with h | ⟨rfl,h⟩
      · rcases cons_le_cons hab with h' | ⟨rfl,_⟩
        · exact absurd h' h.asymm
        · exact absurd h (lt_irrefl _)
      · rcases cons_le_cons hab with h' | ⟨_,h'⟩
        · exact absurd h' (lt_irrefl _)
        · exact List.cons_prefix_cons.mpr ⟨rfl,ih h h' (List.prefix_append n s)⟩

end Order

def properPrefixes (n : List κ) : List (List κ) :=
  (List.range n.length).reverse.map n.take

theorem mem_properPrefixes {n m : List κ} : m ∈ properPrefixes n ↔ m <+: n ∧ m ≠ n := by
  simp only [properPrefixes,mem_map,List.mem_reverse,List.mem_range]
  constructor
  · rintro ⟨i,hi,rfl⟩
    refine ⟨List.take_prefix i n,?_⟩
    intro h
    have := congrArg List.length h
    simp only [length_take] at this
    omega
  · rintro ⟨hp,hne⟩
    refine ⟨m.length,?_,(List.prefix_iff_eq_take.mp hp).symm⟩
    exact lt_of_le_of_ne hp.length_le fun h => hne (hp.eq_of_length h)

open List

/-- `m` is the longest proper prefix of `n` among the names satisfying `present`. -/
def IsLongestProperPrefix (present : List κ → Prop) (m n : List κ) : Prop :=
  present m ∧ m <+: n ∧ m ≠ n ∧ ∀ k, present k → k <+: n → k ≠ n → k <+: m

theorem IsLongestProperPrefix.unique {present : List κ → Prop} {m m' n : List κ}
    (h : IsLongestProperPrefix present m n) (h' : IsLongestProperPrefix present m' n) : m = m' :=
  have h₁ := h'.2.2.2 m h.1 h.2.1 h.2.2.1
  have h₂ := h.2.2.2 m' h'.1 h'.2.1 h'.2.2.1
  h₁.eq_of_length (Nat.le_antisymm h₁.length_le h₂.length_le)

private theorem properPrefixes_decreasing (n : List κ) :
    (properPrefixes n).Pairwise (fun a b => b <+: a) := by
  rw [properPrefixes,pairwise_map,pairwise_reverse]
  refine (pairwise_lt_range (n := n.length)).imp ?_
  intro i j hij
  exact (prefix_take_iff.mpr ⟨List.take_prefix i n,(length_take_le i n).trans hij.le⟩)

theorem find?_properPrefixes (present : List κ → Bool) (m n : List κ) :
    (properPrefixes n).find? present = some m ↔
      IsLongestProperPrefix (fun k => present k = true) m n := by
  have hfirst : ∀ (l : List (List κ)), l.Pairwise (fun a b => b <+: a) → ∀ x,
      l.find? present = some x → x ∈ l ∧ present x = true ∧
        ∀ k ∈ l, present k = true → k <+: x := by
    intro l hl
    induction l with
    | nil => simp
    | cons a l ih =>
      intro x hx
      have hp := pairwise_cons.mp hl
      rw [find?_cons] at hx
      cases ha : present a with
      | true =>
        rw [ha] at hx
        cases hx
        refine ⟨mem_cons_self,ha,?_⟩
        intro k hk _
        rcases mem_cons.mp hk with rfl | hk
        · exact prefix_refl k
        · exact hp.1 k hk
      | false =>
        rw [ha] at hx
        obtain ⟨hm,hpx,hmax⟩ := ih hp.2 x hx
        refine ⟨mem_cons.mpr (Or.inr hm),hpx,?_⟩
        intro k hk hpk
        rcases mem_cons.mp hk with rfl | hk
        · rw [ha] at hpk
          exact absurd hpk (by decide)
        · exact hmax k hk hpk
  have himp : ∀ x, (properPrefixes n).find? present = some x →
      IsLongestProperPrefix (fun k => present k = true) x n := by
    intro x hx
    obtain ⟨hm,hpx,hmax⟩ := hfirst _ (properPrefixes_decreasing n) x hx
    have hxn := mem_properPrefixes.mp hm
    exact ⟨hpx,hxn.1,hxn.2,fun k hk hkn hne => hmax k (mem_properPrefixes.mpr ⟨hkn,hne⟩) hk⟩
  constructor
  · exact himp m
  · intro h
    cases hf : (properPrefixes n).find? present with
    | none =>
      exact absurd h.1 (find?_eq_none.mp hf m (mem_properPrefixes.mpr ⟨h.2.1,h.2.2.1⟩))
    | some x => rw [(himp x hf).unique h]

theorem exists_longest {present : List κ → Prop} {k n : List κ} (hk : present k) (hkn : k <+: n)
    (hne : k ≠ n) : ∃ m, IsLongestProperPrefix present m n := by
  classical
  cases hf : (properPrefixes n).find? (fun k => decide (present k)) with
  | none =>
    have h := find?_eq_none.mp hf k (mem_properPrefixes.mpr ⟨hkn,hne⟩)
    exact absurd hk (by simpa using h)
  | some m => exact ⟨m,by simpa using (find?_properPrefixes _ m n).mp hf⟩

/-- Adding `p` makes it the parent of `n`. -/
def Covers (present : List κ → Prop) (p n : List κ) : Prop :=
  p <+: n ∧ ∀ k, present k → k <+: n → k ≠ n → k <+: p

section Insert

variable {present : List κ → Prop} {p n m : List κ}

theorem longest_insert_of_covers (hpn : p ≠ n) (hc : Covers present p n) :
    IsLongestProperPrefix (fun k => k = p ∨ present k) m n ↔ m = p := by
  have hp : IsLongestProperPrefix (fun k => k = p ∨ present k) p n := by
    refine ⟨Or.inl rfl,hc.1,hpn,?_⟩
    rintro k (rfl | hk) hkn hne
    · exact prefix_refl k
    · exact hc.2 k hk hkn hne
  constructor
  · exact fun h => h.unique hp
  · rintro rfl
    exact hp

private theorem longest_insert (hnew : ¬IsLongestProperPrefix (fun k => k = p ∨ present k) p n)
    (habove : IsLongestProperPrefix present m n → p <+: n → p ≠ n → p <+: m) :
    IsLongestProperPrefix (fun k => k = p ∨ present k) m n ↔
      IsLongestProperPrefix present m n := by
  constructor
  · intro h
    rcases h.1 with rfl | hm
    · exact absurd h hnew
    · exact ⟨hm,h.2.1,h.2.2.1,fun l hl => h.2.2.2 l (Or.inr hl)⟩
  · intro h
    refine ⟨Or.inr h.1,h.2.1,h.2.2.1,?_⟩
    rintro l (rfl | hl)
    · exact habove h
    · exact h.2.2.2 l hl

theorem longest_insert_of_not_covers (hc : ¬ Covers present p n) :
    IsLongestProperPrefix (fun k => k = p ∨ present k) m n ↔
      IsLongestProperPrefix present m n := by
  by_cases hpn : p <+: n
  · have hk : ∃ k, present k ∧ k <+: n ∧ k ≠ n ∧ ¬ k <+: p := by
      by_contra hno
      push Not at hno
      exact hc ⟨hpn,hno⟩
    obtain ⟨k,hk,hkn,hne,hkp⟩ := hk
    have hpk : p <+: k := (List.prefix_or_prefix_of_prefix hkn hpn).resolve_left hkp
    exact longest_insert (fun h => hkp (h.2.2.2 k (Or.inr hk) hkn hne))
      fun h _ _ => hpk.trans (h.2.2.2 k hk hkn hne)
  · exact longest_insert (fun h => hpn h.2.1) fun _ h => absurd h hpn

theorem longest_insert_self : IsLongestProperPrefix (fun k => k = p ∨ present k) m p ↔
      IsLongestProperPrefix present m p :=
  longest_insert (fun h => h.2.2.1 rfl) fun _ _ h => absurd rfl h

/-- A name below `p` is covered by `p` exactly when both have the same parent. -/
theorem covers_iff_same_parent (hp : ¬ present p) (hpn : p <+: n) : Covers present p n ↔
      ∀ m, IsLongestProperPrefix present m n ↔ IsLongestProperPrefix present m p := by
  constructor
  · rintro ⟨-,hc⟩ m
    constructor
    · intro h
      refine ⟨h.1,hc m h.1 h.2.1 h.2.2.1,fun e => hp (e ▸ h.1),?_⟩
      intro k hk hkp hne
      refine h.2.2.2 k hk (hkp.trans hpn) ?_
      intro e
      exact hne (hkp.eq_of_length (Nat.le_antisymm hkp.length_le (e ▸ hpn.length_le)))
    · intro h
      refine ⟨h.1,h.2.1.trans hpn,?_,?_⟩
      · intro e
        exact h.2.2.1 (h.2.1.eq_of_length
          (Nat.le_antisymm h.2.1.length_le (e ▸ hpn.length_le)))
      · intro k hk hkn hne
        exact h.2.2.2 k hk (hc k hk hkn hne) fun e => hp (e ▸ hk)
  · intro h
    refine ⟨hpn,?_⟩
    intro k hk hkn hne
    obtain ⟨m,hm⟩ := exists_longest hk hkn hne
    exact (hm.2.2.2 k hk hkn hne).trans ((h m).mp hm).2.1

end Insert

section Erase

variable {present : List κ → Prop} {p n m : List κ}

theorem longest_erase_of_child (h : IsLongestProperPrefix present p n) :
    IsLongestProperPrefix (fun k => k ≠ p ∧ present k) m n ↔
      IsLongestProperPrefix present m p := by
  constructor
  · intro hm
    have hmp := h.2.2.2 m hm.1.2 hm.2.1 hm.2.2.1
    refine ⟨hm.1.2,hmp,hm.1.1,?_⟩
    intro k hk hkp hne
    refine hm.2.2.2 k ⟨hne,hk⟩ (hkp.trans h.2.1) ?_
    intro e
    exact hne (hkp.eq_of_length (Nat.le_antisymm hkp.length_le (e ▸ h.2.1.length_le)))
  · intro hm
    refine ⟨⟨hm.2.2.1,hm.1⟩,hm.2.1.trans h.2.1,?_,?_⟩
    · intro e
      exact hm.2.2.1 (hm.2.1.eq_of_length
        (Nat.le_antisymm hm.2.1.length_le (e ▸ h.2.1.length_le)))
    · intro k hk hkn hne
      exact hm.2.2.2 k hk.2 (h.2.2.2 k hk.2 hkn hne) hk.1

theorem longest_erase_of_not_child (h : ¬ IsLongestProperPrefix present p n) :
    IsLongestProperPrefix (fun k => k ≠ p ∧ present k) m n ↔
      IsLongestProperPrefix present m n := by
  constructor
  · intro hm
    refine ⟨hm.1.2,hm.2.1,hm.2.2.1,?_⟩
    intro k hk hkn hne
    by_cases hkp : k = p
    · subst k
      have hl : ∃ l, present l ∧ l <+: n ∧ l ≠ n ∧ ¬ l <+: p := by
        by_contra hno
        push Not at hno
        exact h ⟨hk,hkn,hne,hno⟩
      obtain ⟨l,hl,hln,hlne,hlp⟩ := hl
      have hpl : p <+: l := (List.prefix_or_prefix_of_prefix hln hkn).resolve_left hlp
      exact hpl.trans (hm.2.2.2 l ⟨fun e => hlp (e ▸ prefix_refl l),hl⟩ hln hlne)
    · exact hm.2.2.2 k ⟨hkp,hk⟩ hkn hne
  · intro hm
    exact ⟨⟨fun e => h (e ▸ hm),hm.1⟩,hm.2.1,hm.2.2.1,fun k hk => hm.2.2.2 k hk.2⟩

end Erase

end Name

end KiteNdn
