import Mathlib.Tactic.Common

/-!
# Runs of a transition system

A property of all states that a run passes through is established by one step at a time, under a
condition that each step may meet or miss.
-/

namespace KiteNdn.Framework

open List

variable {σ α : Type*}

section Partial

variable (step : σ → α → Option σ) (Inv : σ → Prop) (Cond : σ → α → Prop)

/-- If every step that meets `Cond` succeeds and keeps the invariant, then so does every run of
such steps. -/
theorem foldlM_invariant (hstep : ∀ s a, Inv s → Cond s a → ∃ s', step s a = some s' ∧ Inv s')
    (s : σ) (hi : Inv s) (as : List α)
    (hc : ∀ past a future s', as = past ++ a :: future → past.foldlM step s = some s' → Cond s' a) :
    ∃ s', as.foldlM step s = some s' ∧ Inv s' := by
  induction as generalizing s with
  | nil => exact ⟨s,rfl,hi⟩
  | cons a as ih =>
    obtain ⟨s₁,hs₁,hi₁⟩ := hstep s a hi (hc [] a as s rfl rfl)
    have hcons : ∀ l : List α, (a :: l).foldlM step s = l.foldlM step s₁ := fun l => by
      rw [foldlM_cons,hs₁]
      rfl
    rw [hcons]
    refine ih s₁ hi₁ fun past b future s' hs hr => ?_
    refine hc (a :: past) b future s' (by rw [hs]; rfl) ?_
    rw [hcons,hr]

/-- The same for steps that need not succeed: what they keep holds wherever a run gets to. -/
theorem foldlM_invariant_of_some (hstep : ∀ s a s', Inv s → Cond s a → step s a = some s' → Inv s')
    (s : σ) (hi : Inv s) (as : List α)
    (hc : ∀ past a future s', as = past ++ a :: future → past.foldlM step s = some s' →
      Cond s' a) {s' : σ} (hr : as.foldlM step s = some s') : Inv s' := by
  induction as generalizing s with
  | nil =>
    cases hr
    exact hi
  | cons a as ih =>
    rw [foldlM_cons] at hr
    obtain ⟨s₁,hs₁,hr⟩ := Option.bind_eq_some_iff.mp hr
    refine ih s₁ (hstep s a s₁ hi (hc [] a as s rfl rfl) hs₁) (fun past b future s' hs hp => ?_) hr
    refine hc (a :: past) b future s' (by rw [hs]; rfl) ?_
    rw [foldlM_cons,hs₁]
    exact hp

/-- If a step from a good state leads only to a good state exactly under `Cond`, then all states
of a run are good exactly when all of its steps meet `Cond`. -/
theorem foldlM_good_iff (hgood : ∀ s a, Inv s → ((∀ s', step s a = some s' → Inv s') ↔ Cond s a))
    (s : σ) (hg : Inv s) (as : List α) :
    (∀ past future s', as = past ++ future → past.foldlM step s = some s' → Inv s') ↔
      ∀ past a future s', as = past ++ a :: future → past.foldlM step s = some s' → Cond s' a := by
  constructor
  · intro h past a future s₁ hs hr
    rw [← hgood s₁ a (h past (a :: future) s₁ hs hr)]
    intro s₂ hs₂
    refine h (past ++ [a]) future s₂ (by simp [hs]) ?_
    rw [foldlM_append,hr]
    simp [hs₂]
  · intro h past future s₁ hs hr
    refine foldlM_invariant_of_some step Inv Cond (fun s a s' hi hc => (hgood s a hi).mpr hc s') s hg
      past ?_ hr
    intro before a after s₂ hb hr₂
    exact h before a (after ++ future) s₂ (by simp [hs,hb]) hr₂

theorem foldlM_keeps {step : σ → α → Option σ} (Inv : σ → Prop)
    (hstep : ∀ s a s', Inv s → step s a = some s' → Inv s') (as : List α) {s s' : σ} (hi : Inv s)
    (hr : as.foldlM step s = some s') : Inv s' :=
  foldlM_invariant_of_some step Inv (fun _ _ => True) (fun s a s' h _ hs => hstep s a s' h hs) s hi
    as (fun _ _ _ _ _ _ => trivial) hr

theorem foldl_keeps {step : σ → α → σ} (Inv : σ → Prop) (hstep : ∀ s a, Inv s → Inv (step s a))
    (as : List α) {s : σ} (hi : Inv s) : Inv (as.foldl step s) := by
  induction as generalizing s with
  | nil => exact hi
  | cons a as ih => exact ih (hstep s a hi)

end Partial

section Total

variable (step : σ → α → σ) (Inv Good : σ → Prop) (Cond : σ → α → Prop)

/-- The same for steps that always succeed, with an invariant that they all keep. -/
theorem foldl_good_iff (hinv : ∀ s a, Inv s → Inv (step s a))
    (hgood : ∀ s a, Inv s → Good s → (Good (step s a) ↔ Cond s a)) (s : σ) (hi : Inv s)
    (hg : Good s) (as : List α) :
    (∀ past future, as = past ++ future → Good (past.foldl step s)) ↔
      ∀ past a future, as = past ++ a :: future → Cond (past.foldl step s) a := by
  have hrun : ∀ past : List α, past.foldlM (fun s a => some (step s a)) s =
      some (past.foldl step s) := fun past => foldlM_pure
  have hkeeps : ∀ past : List α, Inv (past.foldl step s) := fun past => foldl_keeps Inv hinv past hi
  have hiff := foldlM_good_iff (fun s a => some (step s a)) (fun s => Inv s ∧ Good s) Cond
    (fun s a h => by simp [hinv s a h.1,hgood s a h.1 h.2]) s ⟨hi,hg⟩ as
  simpa [hrun,hkeeps] using hiff

end Total

theorem foldlM_concat {step : σ → α → Option σ} {as : List α} {a : α} {s s' : σ}
    (h : (as ++ [a]).foldlM step s = some s') :
    ∃ s₁, as.foldlM step s = some s₁ ∧ step s₁ a = some s' := by
  rw [foldlM_append] at h
  obtain ⟨s₁,hs₁,h⟩ := Option.bind_eq_some_iff.mp h
  refine ⟨s₁,hs₁,?_⟩
  obtain ⟨s₂,hs₂,hnil⟩ := Option.bind_eq_some_iff.mp h
  cases hnil
  exact hs₂

theorem forall_split {P : List α → α → Prop} (as : List α)
    (h : ∀ k : Fin as.length, P (as.take k) as[k]) :
    ∀ past a future, as = past ++ a :: future → P past a := by
  rintro past a future rfl
  have hk : past.length < (past ++ a :: future).length := by simp
  have hp := h ⟨past.length,hk⟩
  simpa using hp

end KiteNdn.Framework
