import Mathlib.Algebra.Group.Nat.Defs
import Mathlib.Data.List.Basic

/-!
# Regular expressions over names

A matcher tries all lengths for its first part, the longest first, and a repetition counts its
iterations. Each group keeps the components it matched last, also when the match is abandoned. The
groups in the expression for a component are numbered with the others.
-/

namespace KiteNdn.Util.NameRegex

open List Option Function

variable {γ : Type}

/-- `RegexComponentMatcher`. What its groups match in a component is made a component each. -/
structure ComponentMatcher (γ : Type) where
  pseudoMatchers : List Nat
  regexMatch : γ → Option (List γ)
  length_eq : ∀ {c subResult}, regexMatch c = some subResult →
    subResult.length = pseudoMatchers.length

namespace ComponentMatcher

def search (components : List (ComponentMatcher γ)) (c : γ) : Option (List (Nat × γ)) :=
  components.findSome? fun m => (m.regexMatch c).map m.pseudoMatchers.zip

end ComponentMatcher

/-- The matchers over components of a type. A list of patterns is made from `nil` and `cons`. -/
inductive Pattern (γ : Type) where
  | componentSet (isInclusion : Bool) (components : List (ComponentMatcher γ))
  | backref (index : Nat) (patterns : Pattern γ)
  | repetition (matcher : Pattern γ) (repeatMin repeatMax : Nat)
  | nil
  | cons (matcher matchers : Pattern γ)

abbrev Results (γ : Type) := Nat → List γ

def setMatchResults (σ : Results γ) (results : List (Nat × γ)) : Results γ :=
  results.foldl (fun σ x => update σ x.1 [x.2]) σ

/-- A call of a matcher: whether it matches, and the new results. Calls nested too deeply fail. -/
abbrev Call (γ : Type) := Results γ → Option (Bool × Results γ)

def both (first second : Call γ) : Call γ := fun σ =>
  (first σ).bind fun r => if r.1 then second r.2 else some r

/-- All ways to split the name, from a length of the first part on down. -/
def tryLengths (f : List γ → List γ → Call γ) (name : List γ) : Nat → Call γ
  | 0, σ => f [] name σ
  | tried + 1, σ =>
    (f (name.take (tried + 1)) (name.drop (tried + 1)) σ).bind fun r =>
      if r.1 then some r else tryLengths f name tried r.2

def recursiveMatch (matcher : List γ → Call γ) (repeatMin repeatMax : Nat) :
    Nat → Nat → List γ → Call γ
  | 0, _, _, _ => none
  | fuel + 1, n, name, σ =>
    if name.isEmpty then some (repeatMin ≤ n,σ)
    else if repeatMax ≤ n then some (false,σ)
    else tryLengths (fun u v => both (matcher u)
      (recursiveMatch matcher repeatMin repeatMax fuel (n + 1) v)) name name.length σ

/-- Repetitions may be nested `fuel` deep. -/
def Pattern.matchName (fuel : Nat) : Pattern γ → List γ → Call γ
  | .componentSet isInclusion components => fun name σ =>
    match name with
    | [c] =>
      let found := ComponentMatcher.search components c
      some (found.isSome == isInclusion,setMatchResults σ (found.getD []))
    | _ => some (false,σ)
  | .backref index patterns => fun name σ =>
    (tryLengths (fun u v => both (patterns.matchName fuel u) fun σ => some (v.isEmpty,σ)) name
      name.length (update σ index [])).map fun r =>
        (r.1,if r.1 then update r.2 index name else r.2)
  | .repetition matcher repeatMin repeatMax => fun name σ =>
    if repeatMin = 0 ∧ name.isEmpty then some (true,σ)
    else recursiveMatch (matcher.matchName fuel) repeatMin repeatMax fuel 0 name σ
  | .nil => fun name σ => some (name.isEmpty,σ)
  | .cons matcher matchers => fun name =>
    tryLengths (fun u v => both (matcher.matchName fuel u) (matchers.matchName fuel v)) name
      name.length

section Derivations

/-- What the groups match in a derivation, in order. -/
abbrev Captures (γ : Type) := List (Nat × List γ)

def Iterates (derives : List γ → Captures γ → Prop) : Nat → List γ → Captures γ → Prop
  | 0, name, l => name = [] ∧ l = []
  | n + 1, name, l => ∃ u v l₁ l₂, name = u ++ v ∧ l = l₁ ++ l₂ ∧ derives u l₁ ∧
    Iterates derives n v l₂

def Pattern.groups : Pattern γ → List Nat
  | .componentSet _ components => components.flatMap ComponentMatcher.pseudoMatchers
  | .backref index patterns => index :: patterns.groups
  | .repetition matcher _ _ => matcher.groups
  | .nil => []
  | .cons matcher matchers => matcher.groups ++ matchers.groups

def lastCapture (k : Nat) (l : Captures γ) : Option (List γ) :=
  (l.reverse.find? fun c => c.1 = k).map Prod.snd

variable {l : Captures γ}

variable {components : List (ComponentMatcher γ)}

private theorem Iterates.mem {derives : List γ → Captures γ → Prop} {keys : List Nat}
    (h : ∀ u l, derives u l → ∀ c ∈ l, c.1 ∈ keys) {n : Nat} {name : List γ}
    (hl : Iterates derives n name l) : ∀ c ∈ l, c.1 ∈ keys := by
  induction n generalizing name l with
  | zero => simp [hl.2]
  | succ n ih =>
    obtain ⟨u,v,l₁,l₂,_,rfl,h₁,h₂⟩ := hl
    exact forall_mem_append.mpr ⟨h u l₁ h₁,ih h₂⟩

end Derivations

section Soundness

variable {f : List γ → List γ → Call γ} {name : List γ} {n : Nat} {σ σ' : Results γ} {b : Bool}
  {keys : List Nat}

def Call.Keeps (keys : List Nat) (call : Call γ) : Prop :=
  ∀ σ b σ', call σ = some (b,σ') → ∀ k ∉ keys, σ' k = σ k

variable {first second : Call γ}

variable {matcher : List γ → Call γ} {repeatMin repeatMax fuel : Nat}

/-- The results are those of a derivation. -/
def Agrees (keys : List Nat) (l : Captures γ) (σ : Results γ) : Prop :=
  ∀ k ∈ keys, lastCapture k l = some (σ k)

end Soundness

section Completeness

variable {f : List γ → List γ → Call γ} {good : List γ → List γ → Prop} {name : List γ} {n : Nat}

/-- The call ends, and it succeeds if it should. -/
def Call.Answers (good : Prop) (call : Call γ) : Prop :=
  ∀ σ, ∃ b σ', call σ = some (b,σ') ∧ (good → b = true)

variable {derives : List γ → Captures γ → Prop}

private theorem Iterates.length_le (hnil : ∀ l, ¬derives [] l) {j : Nat} {l : Captures γ}
    (h : Iterates derives j name l) : j ≤ name.length := by
  induction j generalizing name l with
  | zero => exact Nat.zero_le _
  | succ j ih =>
    obtain ⟨u,v,l₁,l₂,rfl,_,h₁,h₂⟩ := h
    have hu : u ≠ [] := fun hu => hnil l₁ (hu ▸ h₁)
    have := length_pos_iff.mpr hu
    have := ih h₂
    rw [length_append]
    omega

end Completeness

end KiteNdn.Util.NameRegex
