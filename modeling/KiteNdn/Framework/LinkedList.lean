import Mathlib.Data.List.Nodup

/-!
# Doubly linked lists in a heap

The links of all cells of a heap are two functions. Loops over a list carry a bound, and any bound
from the length on is enough.
-/

namespace KiteNdn.Framework.LinkedList

open List Option

variable {ι σ : Type*} {next next' prev prev' : ι → Option ι} {l : List ι} {head before : Option ι}
  {a : ι} {fuel : Nat}

/-- The cells from `head` to the end. -/
def IsPath (next : ι → Option ι) : Option ι → List ι → Prop
  | head, [] => head = none
  | head, a :: l => head = some a ∧ IsPath next (next a) l

/-- The same, where the cell in front of the list is `before`. -/
def IsLinked (next prev : ι → Option ι) : Option ι → Option ι → List ι → Prop
  | _, head, [] => head = none
  | before, head, a :: l => head = some a ∧ prev a = before ∧ IsLinked next prev (some a) (next a) l

theorem IsLinked.isPath (h : IsLinked next prev before head l) : IsPath next head l := by
  induction l generalizing before head with
  | nil => exact h
  | cons a l ih => exact ⟨h.1,ih h.2.2⟩

theorem IsPath.congr (h : IsPath next head l) (hnext : ∀ a ∈ l, next' a = next a) :
    IsPath next' head l := by
  induction l generalizing head with
  | nil => exact h
  | cons a l ih =>
    refine ⟨h.1,?_⟩
    rw [hnext a mem_cons_self]
    exact ih h.2 fun b hb => hnext b (mem_cons_of_mem a hb)

theorem IsPath.after {l₁ l₂ : List ι} (h : IsPath next head (l₁ ++ a :: l₂)) :
    IsPath next (next a) l₂ := by
  induction l₁ generalizing head with
  | nil => exact h.2
  | cons b l₁ ih => exact ih h.2

theorem IsLinked.congr (h : IsLinked next prev before head l) (hnext : ∀ a ∈ l, next' a = next a)
    (hprev : ∀ a ∈ l, prev' a = prev a) : IsLinked next' prev' before head l := by
  induction l generalizing before head with
  | nil => exact h
  | cons a l ih =>
    refine ⟨h.1,by rw [hprev a mem_cons_self]; exact h.2.1,?_⟩
    rw [hnext a mem_cons_self]
    exact ih h.2.2 (fun b hb => hnext b (mem_cons_of_mem a hb))
      fun b hb => hprev b (mem_cons_of_mem a hb)

theorem IsLinked.cons (h : IsLinked next prev none head l) (hnodup : l.Nodup)
    (hhead : next' a = head) (hfirst : prev' a = none) (hnext : ∀ b ∈ l, next' b = next b)
    (hprev : ∀ b ∈ l, head ≠ some b → prev' b = prev b)
    (hback : ∀ b, head = some b → prev' b = some a) :
    IsLinked next' prev' none (some a) (a :: l) := by
  refine ⟨rfl,hfirst,?_⟩
  rw [hhead]
  cases l with
  | nil => exact h
  | cons b l =>
    obtain ⟨rfl,_,hl⟩ := h
    have hb := nodup_cons.mp hnodup
    refine ⟨rfl,hback b rfl,?_⟩
    rw [hnext b mem_cons_self]
    apply hl.congr fun c hc => hnext c (mem_cons_of_mem b hc)
    intro c hc
    apply hprev c (mem_cons_of_mem b hc)
    intro heq
    exact hb.1 (some.inj heq ▸ hc)

theorem IsLinked.of_head (h : IsLinked next prev before head l) (hhead : head = some a) :
    a ∈ l ∧ prev a = before := by
  cases l with
  | nil => exact absurd (hhead.symm.trans h) nofun
  | cons b l =>
    obtain rfl : b = a := some.inj (h.1.symm.trans hhead)
    exact ⟨mem_cons_self,h.2.1⟩

private theorem IsLinked.next_spec (h : IsLinked next prev before head l) {b : ι} (ha : a ∈ l)
    (hab : next a = some b) : b ∈ l ∧ prev b = some a := by
  induction l generalizing before head with
  | nil => exact absurd ha not_mem_nil
  | cons c l ih =>
    rcases mem_cons.mp ha with rfl | ha
    · obtain ⟨hb,hprev⟩ := h.2.2.of_head hab
      exact ⟨mem_cons_of_mem a hb,hprev⟩
    · obtain ⟨hmem,hprev⟩ := ih h.2.2 ha
      exact ⟨mem_cons_of_mem c hmem,hprev⟩

theorem IsLinked.next_mem (h : IsLinked next prev before head l) {b : ι} (ha : a ∈ l)
    (hab : next a = some b) : b ∈ l :=
  (h.next_spec ha hab).1

theorem IsLinked.prev_mem (h : IsLinked next prev before head l) (ha : a ∈ l)
    (hne : head ≠ some a) : ∃ b ∈ l, prev a = some b ∧ next b = some a := by
  induction l generalizing before head with
  | nil => exact absurd ha not_mem_nil
  | cons c l ih =>
    rcases mem_cons.mp ha with rfl | ha
    · exact absurd h.1 hne
    · by_cases hc : next c = some a
      · exact ⟨c,mem_cons_self,(h.2.2.of_head hc).2,hc⟩
      · obtain ⟨b,hb,hlinks⟩ := ih h.2.2 ha hc
        exact ⟨b,mem_cons_of_mem c hb,hlinks⟩

theorem IsLinked.prev_next (h : IsLinked next prev before head l) {b : ι} (ha : a ∈ l)
    (hab : next a = some b) : prev b = some a :=
  (h.next_spec ha hab).2

section Unlink

variable [DecidableEq ι]

theorem IsLinked.erase (h : IsLinked next prev before head l) (hnodup : l.Nodup) (ha : a ∈ l)
    (hbefore : ∀ b, before = some b → b ∉ l)
    (hnext : ∀ b ∈ l, b ≠ a → next' b = if prev a = some b then next a else next b)
    (hprev : ∀ b ∈ l, b ≠ a → prev' b = if next a = some b then prev a else prev b) :
    IsLinked next' prev' before (if head = some a then next a else head) (l.erase a) := by
  induction l generalizing before head with
  | nil => exact absurd ha not_mem_nil
  | cons b l ih =>
    obtain ⟨rfl,hb,hl⟩ := h
    obtain ⟨hbl,hnodup⟩ := nodup_cons.mp hnodup
    by_cases hab : b = a
    · subst hab
      rw [if_pos rfl,erase_cons_head]
      have hsame : ∀ c ∈ l, next' c = next c := by
        intro c hc
        have hcb : c ≠ b := fun heq => hbl (heq ▸ hc)
        rw [hnext c (mem_cons_of_mem b hc) hcb,if_neg]
        rw [hb]
        exact fun heq => hbefore c heq (mem_cons_of_mem b hc)
      cases l with
      | nil => exact hl
      | cons c l =>
        obtain ⟨hc,_,hl⟩ := hl
        obtain ⟨hcl,_⟩ := nodup_cons.mp hnodup
        have hne : ∀ d ∈ c :: l, d ≠ b := fun d hd heq => hbl (heq ▸ hd)
        refine ⟨hc,?_,?_⟩
        · rw [hprev c (by simp) (hne c mem_cons_self),if_pos hc,hb]
        · rw [hsame c mem_cons_self]
          apply hl.congr fun d hd => hsame d (mem_cons_of_mem c hd)
          intro d hd
          rw [hprev d (by simp [hd]) (hne d (mem_cons_of_mem c hd)),if_neg]
          rw [hc]
          exact fun heq => hcl (some.inj heq ▸ hd)
    · have ha : a ∈ l := (mem_cons.mp ha).resolve_left fun heq => hab heq.symm
      have hlink : prev a = some b ↔ next b = some a := by
        refine ⟨fun hp => ?_,fun hn => (hl.of_head hn).2⟩
        by_contra hne
        obtain ⟨c,hc,hpc,_⟩ := hl.prev_mem ha hne
        exact hbl (some.inj (hp.symm.trans hpc) ▸ hc)
      rw [if_neg (by simpa using hab),erase_cons_tail (by simpa using hab)]
      refine ⟨rfl,?_,?_⟩
      · rw [hprev b mem_cons_self hab,if_neg (fun heq => hbl (hl.next_mem ha heq)),hb]
      · rw [hnext b mem_cons_self hab]
        simp only [hlink]
        exact ih hl hnodup ha (fun c hc heq => hbl (some.inj hc ▸ heq))
          (fun c hc => hnext c (mem_cons_of_mem b hc))
          fun c hc => hprev c (mem_cons_of_mem b hc)

end Unlink

section Loops

def findFrom (next : ι → Option ι) (p : ι → Bool) : Nat → Option ι → Option (Option ι)
  | _, none => some none
  | 0, some _ => none
  | fuel + 1, some a => if p a then some (some a) else findFrom next p fuel (next a)

theorem findFrom_eq (h : IsPath next head l) (p : ι → Bool) (hfuel : l.length ≤ fuel) :
    findFrom next p fuel head = some (l.find? p) := by
  induction l generalizing head fuel with
  | nil =>
    obtain rfl : head = none := h
    cases fuel <;> rfl
  | cons a l ih =>
    obtain ⟨rfl,hl⟩ := h
    cases fuel with
    | zero => exact absurd hfuel (by simp)
    | succ fuel =>
      rw [findFrom,find?_cons,ih hl (by simpa using hfuel)]
      cases p a <;> rfl

/-- A loop that may change the cells: the next one is read before the body runs. -/
def foreachNode (next : σ → ι → Option ι) (func : σ → ι → Option σ) : Nat → σ → Option ι → Option σ
  | _, s, none => some s
  | 0, _, some _ => none
  | fuel + 1, s, some a => (func s a).bind fun s' => foreachNode next func fuel s' (next s a)

/-- The rule for the loop: its body takes the first of the remaining cells. -/
theorem foreachNode_rule {next : σ → ι → Option ι} {func : σ → ι → Option σ}
    (Inv : σ → List ι → Prop) (hbody : ∀ s a l, Inv s (a :: l) → IsPath (next s) (some a) (a :: l) →
      ∃ s', func s a = some s' ∧ Inv s' l ∧ IsPath (next s') (next s a) l) {s : σ} (hs : Inv s l)
    (hpath : IsPath (next s) head l) (hfuel : l.length ≤ fuel) :
    ∃ s', foreachNode next func fuel s head = some s' ∧ Inv s' [] := by
  induction l generalizing s head fuel with
  | nil =>
    obtain rfl : head = none := hpath
    refine ⟨s,?_,hs⟩
    cases fuel <;> rfl
  | cons a l ih =>
    obtain ⟨rfl,hl⟩ := hpath
    cases fuel with
    | zero => exact absurd hfuel (by simp)
    | succ fuel =>
      obtain ⟨s₁,hs₁,hinv,hpath⟩ := hbody s a l hs ⟨rfl,hl⟩
      rw [foreachNode,hs₁]
      exact ih hinv hpath (by simpa using hfuel)

end Loops

section Iterators

/-- What an iterator visits; `advance` moves it, from null to the first cell and to null at the
end. -/
def enumerate (advance : Option ι → Option (Option ι)) : Nat → Option ι → Option (List ι)
  | 0, _ => none
  | fuel + 1, cur =>
    (advance cur).bind fun found =>
      match found with
      | none => some []
      | some a => (enumerate advance fuel (some a)).map (a :: ·)

/-- An iterator that moves to the next cell with `p` visits all of them in order. -/
theorem enumerate_eq {advance : Option ι → Option (Option ι)} {all : List ι} {p : ι → Bool}
    (hstart : advance none = some (all.find? p))
    (hnext : ∀ done a rest, all = done ++ a :: rest → advance (some a) = some (rest.find? p))
    (hfuel : all.length < fuel) : enumerate advance fuel none = some (all.filter p) := by
  have hfrom : ∀ (rest : List ι) (fuel : Nat) (cur : Option ι) (done : List ι),
      rest.length < fuel → all = done ++ rest → advance cur = some (rest.find? p) →
        enumerate advance fuel cur = some (rest.filter p) := by
    intro rest
    induction rest with
    | nil =>
      intro fuel cur done hfuel _ hcur
      cases fuel with
      | zero => exact absurd hfuel (by simp)
      | succ fuel =>
        rw [enumerate,hcur]
        rfl
    | cons a rest ih =>
      intro fuel cur done hfuel hall hcur
      rw [length_cons] at hfuel
      have hall' : all = (done ++ [a]) ++ rest := by simp [hall]
      by_cases ha : p a = true
      · rw [find?_cons_of_pos ha] at hcur
        cases fuel with
        | zero => exact absurd hfuel (Nat.not_lt_zero _)
        | succ fuel =>
          rw [enumerate,hcur,filter_cons_of_pos ha]
          have hrest := ih fuel (some a) (done ++ [a]) (by omega) hall' (hnext done a rest hall)
          rw [bind_some]
          dsimp only
          rw [hrest]
          rfl
      · rw [find?_cons_of_neg ha] at hcur
        rw [filter_cons_of_neg ha]
        exact ih fuel cur (done ++ [a]) (by omega) hall' hcur
  exact hfrom all fuel none [] hfuel rfl hstart

end Iterators

end KiteNdn.Framework.LinkedList
