import Mathlib.Data.List.Lex
import Mathlib.Order.Lattice

/-!
# Three-way comparison

A comparison returns a number whose sign says which argument is smaller, or has no result. Lists are
compared element by element as far as both go.
-/

namespace KiteNdn.Framework

open List Option

section Results

variable {β : Type*} [LinearOrder β]

/-- The result says how the two are ordered. -/
def Tells (result : Option Int) (x y : β) : Prop :=
  ∃ i, result = some i ∧ (i < 0 ↔ x < y) ∧ (0 < i ↔ y < x)

namespace Tells

variable {x y : β} {r : Option Int}

theorem of_lt {i : Int} (hi : i < 0) (h : x < y) : Tells (some i) x y :=
  ⟨i,rfl,iff_of_true hi h,iff_of_false hi.asymm h.asymm⟩

theorem of_gt {i : Int} (hi : 0 < i) (h : y < x) : Tells (some i) x y :=
  ⟨i,rfl,iff_of_false hi.asymm h.asymm,iff_of_true hi h⟩

theorem of_eq (h : x = y) : Tells (some 0) x y := by
  subst h
  exact ⟨0,rfl,iff_of_false (lt_irrefl _) (lt_irrefl _),iff_of_false (lt_irrefl _) (lt_irrefl _)⟩

theorem eq_zero_iff (h : Tells r x y) : r = some 0 ↔ x = y := by
  obtain ⟨i,rfl,hlt,hgt⟩ := h
  constructor
  · intro hzero
    have hi := some.inj hzero
    subst hi
    exact le_antisymm (not_lt.mp fun h => absurd (hgt.mpr h) (lt_irrefl _))
      (not_lt.mp fun h => absurd (hlt.mpr h) (lt_irrefl _))
  · intro heq
    subst heq
    have hnot : ¬i < 0 ∧ ¬0 < i := ⟨fun h => absurd (hlt.mp h) (lt_irrefl _),
      fun h => absurd (hgt.mp h) (lt_irrefl _)⟩
    rw [show i = 0 by omega]

theorem neg_iff (h : Tells r x y) : (∃ i < 0, r = some i) ↔ x < y := by
  obtain ⟨i,rfl,hlt,_⟩ := h
  rw [← hlt]
  simp

theorem pos_iff (h : Tells r x y) : (∃ i > 0, r = some i) ↔ y < x := by
  obtain ⟨i,rfl,_,hgt⟩ := h
  rw [← hgt]
  simp

end Tells

theorem tells_sub (n m : Nat) : Tells (some ((n : Int) - m)) n m :=
  ⟨_,rfl,by omega,by omega⟩

end Results

/-- What callers expect of a comparison and a test for equality on three values. -/
structure Ordered {α : Type*} (compare : α → α → Option Int) (equals : α → α → Bool) (a b c : α) :
    Prop where
  defined : ∃ i, compare a b = some i
  zero_iff : compare a b = some 0 ↔ equals a b = true
  antisymm : (∃ i < 0, compare a b = some i) ↔ ∃ i > 0, compare b a = some i
  trans : (∃ i < 0, compare a b = some i) → (∃ i < 0, compare b c = some i) →
    ∃ i < 0, compare a c = some i

theorem Ordered.of_tells {α β : Type*} [LinearOrder β] {compare : α → α → Option Int}
    {equals : α → α → Bool} {key : α → β} {a b c : α}
    (hequals : equals a b = true ↔ key a = key b)
    (hab : Tells (compare a b) (key a) (key b)) (hba : Tells (compare b a) (key b) (key a))
    (hbc : Tells (compare b c) (key b) (key c)) (hac : Tells (compare a c) (key a) (key c)) :
    Ordered compare equals a b c where
  defined := by
    obtain ⟨i,hi,_⟩ := hab
    exact ⟨i,hi⟩
  zero_iff := by rw [hequals,hab.eq_zero_iff]
  antisymm := by rw [hab.neg_iff,hba.pos_iff]
  trans := by
    rw [hab.neg_iff,hbc.neg_iff,hac.neg_iff]
    exact lt_trans

section Lists

variable {α : Type*} {cmp : α → α → Option Int}

/-- The first comparison that is not zero, as long as both lists have elements. -/
def compareFront (cmp : α → α → Option Int) : List α → List α → Option Int
  | a :: as, b :: bs =>
    match cmp a b with
    | none => none
    | some i => if i ≠ 0 then some i else compareFront cmp as bs
  | _, _ => some 0

theorem compareFront_cons_of_ne {a b : α} {i : Int} (h : cmp a b = some i) (hi : i ≠ 0)
    (as bs : List α) : compareFront cmp (a :: as) (b :: bs) = some i := by
  rw [compareFront,h]
  exact if_pos hi

theorem compareFront_cons_of_zero {a b : α} (h : cmp a b = some 0) (as bs : List α) :
    compareFront cmp (a :: as) (b :: bs) = compareFront cmp as bs := by
  rw [compareFront,h]
  exact if_neg (not_not.mpr rfl)

theorem compareFront_append {p q : List α} {i : Int} (hlen : p.length = q.length)
    (h : compareFront cmp p q = some i) (x y : List α) :
    compareFront cmp (p ++ x) (q ++ y) = if i ≠ 0 then some i else compareFront cmp x y := by
  induction p generalizing q with
  | nil =>
    rw [eq_nil_of_length_eq_zero hlen.symm] at h ⊢
    rw [← some.inj h,if_neg (not_not.mpr rfl)]
    rfl
  | cons a p ih =>
    cases q with
    | nil => exact absurd hlen (by simp)
    | cons b q =>
      rw [compareFront] at h
      rw [cons_append,cons_append,compareFront]
      cases hab : cmp a b with
      | none => exact absurd (hab ▸ h) (by simp)
      | some j =>
        rw [hab] at h
        dsimp only at h ⊢
        by_cases hj : j ≠ 0
        · rw [if_pos hj] at h ⊢
          rw [← some.inj h,if_pos hj]
        · rw [if_neg hj] at h ⊢
          exact ih (Nat.succ.inj hlen) h

theorem compareFront_append_self (h : ∀ a, cmp a a = some 0) (p x y : List α) :
    compareFront cmp (p ++ x) (p ++ y) = compareFront cmp x y := by
  induction p with
  | nil => rfl
  | cons a p ih => rw [cons_append,cons_append,compareFront_cons_of_zero (h a),ih]

theorem compareFront_swap (h : ∀ a b, cmp b a = (cmp a b).map fun i => -i) (x y : List α) :
    compareFront cmp y x = (compareFront cmp x y).map fun i => -i := by
  induction x generalizing y with
  | nil => cases y <;> rfl
  | cons a x ih =>
    cases y with
    | nil => rfl
    | cons b y =>
      rw [compareFront,compareFront,h a b]
      cases cmp a b with
      | none => rfl
      | some i =>
        dsimp only [Option.map]
        by_cases hi : i = 0
        · rw [if_neg (by omega),if_neg (by omega),ih]
          rfl
        · rw [if_pos (by omega),if_pos hi]

variable {x y : List α}

theorem prefix_of_compareFront_zero (h : ∀ a b, cmp a b = some 0 → a = b)
    (hzero : compareFront cmp x y = some 0) : x <+: y ∨ y <+: x := by
  induction x generalizing y with
  | nil => exact Or.inl nil_prefix
  | cons a x ih =>
    cases y with
    | nil => exact Or.inr nil_prefix
    | cons b y =>
      rw [compareFront] at hzero
      cases hab : cmp a b with
      | none => exact absurd (hab ▸ hzero) (by simp)
      | some i =>
        rw [hab] at hzero
        dsimp only at hzero
        by_cases hi : i = 0
        · rw [if_neg (not_not.mpr hi)] at hzero
          rw [h a b (hab.trans (congrArg some hi)),cons_prefix_cons,cons_prefix_cons]
          simpa using ih hzero
        · rw [if_pos hi] at hzero
          exact absurd (some.inj hzero) hi

theorem compareFront_take (cmp : α → α → Option Int) (x y : List α) :
    compareFront cmp (x.take (min x.length y.length)) (y.take (min x.length y.length)) =
      compareFront cmp x y := by
  induction x generalizing y with
  | nil => rfl
  | cons a x ih =>
    cases y with
    | nil => rfl
    | cons b y =>
      rw [length_cons,length_cons,Nat.add_min_add_right,take_succ_cons,
        take_succ_cons,compareFront,compareFront,ih]

variable {β : Type*} [LinearOrder β] {cmp : α → α → Option Int} {key : α → β}

theorem compareFront_spec (h : ∀ a ∈ x, ∀ b ∈ y, Tells (cmp a b) (key a) (key b)) :
    ∃ i, compareFront cmp x y = some i ∧ (i < 0 → x.map key < y.map key) ∧
      (0 < i → y.map key < x.map key) ∧
      (i = 0 → x.map key <+: y.map key ∨ y.map key <+: x.map key) := by
  induction x generalizing y with
  | nil => exact ⟨0,rfl,by simp,by simp,fun _ => Or.inl nil_prefix⟩
  | cons a x ih =>
    cases y with
    | nil => exact ⟨0,rfl,by simp,by simp,fun _ => Or.inr nil_prefix⟩
    | cons b y =>
      obtain ⟨i,hi,hlt,hgt⟩ := h a mem_cons_self b mem_cons_self
      by_cases hzero : i = 0
      · subst hzero
        have heq : key a = key b := (Tells.eq_zero_iff ⟨0,hi,hlt,hgt⟩).mp hi
        obtain ⟨j,hj,hneg,hpos,hfront⟩ := ih fun a' ha' b' hb' =>
          h a' (mem_cons_of_mem a ha') b' (mem_cons_of_mem b hb')
        refine ⟨j,?_,?_,?_,?_⟩
        · rw [compareFront_cons_of_zero hi,hj]
        · intro h
          exact cons_lt_cons_iff.mpr (Or.inr ⟨heq,hneg h⟩)
        · intro h
          exact cons_lt_cons_iff.mpr (Or.inr ⟨heq.symm,hpos h⟩)
        · intro h
          rw [map_cons,map_cons,heq,cons_prefix_cons,cons_prefix_cons]
          simpa using hfront h
      · refine ⟨i,compareFront_cons_of_ne hi hzero x y,?_,?_,?_⟩
        · intro h
          exact cons_lt_cons_iff.mpr (Or.inl (hlt.mp h))
        · intro h
          exact cons_lt_cons_iff.mpr (Or.inl (hgt.mp h))
        · intro h
          exact absurd h hzero

theorem tells_compareFront (hlen : x.length = y.length)
    (h : ∀ a ∈ x, ∀ b ∈ y, Tells (cmp a b) (key a) (key b)) :
    Tells (compareFront cmp x y) (x.map key) (y.map key) := by
  obtain ⟨i,hi,hneg,hpos,hfront⟩ := compareFront_spec h
  rw [hi]
  rcases lt_trichotomy i 0 with hlt | heq | hgt
  · exact Tells.of_lt hlt (hneg hlt)
  · subst heq
    apply Tells.of_eq
    rcases hfront rfl with h' | h'
    · exact h'.eq_of_length (by rw [length_map,length_map,hlen])
    · exact (h'.eq_of_length (by rw [length_map,length_map,hlen])).symm
  · exact Tells.of_gt hgt (hpos hgt)

theorem tells_length {x y : List β} (h : x <+: y ∨ y <+: x) :
    Tells (some ((x.length : Int) - y.length)) x y := by
  have hlt : ∀ {u v : List β}, u <+: v → u.length < v.length → u < v := by
    intro u v hfront hlength
    apply lt_of_le_of_ne (not_lt.mp (List.IsPrefix.le hfront))
    intro heq
    rw [heq] at hlength
    exact lt_irrefl _ hlength
  rcases lt_trichotomy x.length y.length with hlen | hlen | hlen
  · rcases h with h' | h'
    · exact Tells.of_lt (by omega) (hlt h' hlen)
    · exact absurd h'.length_le (not_le.mpr hlen)
  · rw [show (x.length : Int) - y.length = 0 by omega]
    apply Tells.of_eq
    rcases h with h' | h'
    · exact h'.eq_of_length hlen
    · exact (h'.eq_of_length hlen.symm).symm
  · rcases h with h' | h'
    · exact absurd h'.length_le (not_le.mpr hlen)
    · exact Tells.of_gt (by omega) (hlt h' hlen)

end Lists

end KiteNdn.Framework
