import KiteNdn.Util.NameRegex

/-!
# Matching and expanding names

`RegexTopMatcher` puts `<.*>*` where the expression has no anchor. Without an anchor at the
beginning there are two matchers, with groups of their own, and the second one is tried when the
first one fails. After a match, `expand` replaces a number by what its group has matched last.
-/

namespace KiteNdn.Util.NameRegex

open List

variable {γ : Type} {name : List γ} {l : Captures γ}

def Pattern.ofList (patterns : List (Pattern γ)) : Pattern γ := patterns.foldr .cons .nil

structure RegexTopMatcher (γ : Type) where
  primaryMatcher : Pattern γ
  secondaryMatcher : Option (Pattern γ)

structure State (γ : Type) where
  primary : Results γ
  secondary : Results γ
  isSecondaryUsed : Bool
  matchResult : List γ

def State.initial : State γ := ⟨fun _ => [],fun _ => [],false,[]⟩

namespace RegexTopMatcher

def matchName (fuel : Nat) (m : RegexTopMatcher γ) (name : List γ) (s : State γ) :
    Option (Bool × State γ) :=
  (m.primaryMatcher.matchName fuel name s.primary).bind fun (found,primary) =>
    if found then some (true,⟨primary,s.secondary,false,name⟩)
    else
      match m.secondaryMatcher with
      | none => some (false,⟨primary,s.secondary,false,[]⟩)
      | some secondaryMatcher =>
        (secondaryMatcher.matchName fuel name s.secondary).map fun (found,secondary) =>
          (found,⟨primary,secondary,found,if found then name else []⟩)

/-- What `\k` is replaced by; too large numbers are refused. -/
def expand (m : RegexTopMatcher γ) (s : State γ) (k : Nat) : Option (List γ) :=
  let groups := if s.isSecondaryUsed then (m.secondaryMatcher.map Pattern.groups).getD []
    else m.primaryMatcher.groups
  if k = 0 then some s.matchResult
  else if k ≤ groups.length then
    some ((if s.isSecondaryUsed then s.secondary else s.primary) (k - 1))
  else none

end RegexTopMatcher

section Ends

variable {patterns : List (Pattern γ)}

end Ends

section Letters

end Letters

variable {γ : Type} {hasCaret hasDollar : Bool} {patterns : List (Pattern γ)}

section Letters

end Letters

end KiteNdn.Util.NameRegex
