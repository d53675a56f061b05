import KiteNdn.Framework.LinkedList

/-!
# Walking a tree of cells

An iterator goes through a subtree in preorder, along pointers to parents and lists of children, and
leaves out what a selector does not want.
-/

namespace KiteNdn.Framework.TreeWalk

open List Option

variable {ι κ : Type*}

/-- The pointers of a tree. A cell that is gone does not even have an empty list of children. -/
structure Links (ι : Type*) where
  children : ι → Option (List ι)
  parent : ι → Option ι

inductive Round (ι : Type*) where
  | stop
  | go (s : ι × Bool)
  | visit (s : ι × Bool)

section Iterator

variable (pred : ι → Bool × Bool)

def Round.offer (x : ι) : Round ι :=
  if (pred x).1 then .visit (x,(pred x).2) else .go (x,(pred x).2)

/-- The first sibling that is wanted or whose children are wanted, or back to the parent. -/
def Round.nextSibling (p : ι) (siblings : List ι) : Round ι :=
  match siblings.find? fun x => (pred x).1 || (pred x).2 with
  | some sibling => .offer pred sibling
  | none => .go (p,false)

variable [DecidableEq ι] (g : Links ι) (ref : ι)

namespace Links

def round (s : ι × Bool) : Option (Round ι) :=
  (g.children s.1).bind fun children =>
    match s.2, children with
    | true, child :: _ => some (.offer pred child)
    | _, _ =>
      if s.1 = ref then some .stop
      else (g.parent s.1).bind fun p => (g.children p).bind fun siblings =>
        if s.1 ∈ siblings then
          some (.nextSibling pred p (siblings.drop (siblings.idxOf s.1 + 1)))
        else none

def resume : Nat → Round ι → Option (Option (ι × Bool))
  | _, .stop => some none
  | _, .visit s => some (some s)
  | 0, .go _ => none
  | fuel + 1, .go s => (g.round pred ref s).bind (resume fuel)

def advance (fuel : Nat) : Option (ι × Bool) → Option (Option (ι × Bool))
  | none => g.resume pred ref fuel (.offer pred ref)
  | some s => (g.round pred ref s).bind (g.resume pred ref fuel)

/-- From one round the loop goes on to another and visits cells on the way. -/
inductive Visits : Round ι → List (ι × Bool) → Round ι → Prop
  | refl (r : Round ι) : Visits r [] r
  | go {s : ι × Bool} {r r' : Round ι} {l : List (ι × Bool)} (hround : g.round pred ref s = some r)
      (h : Visits r l r') : Visits (.go s) l r'
  | visit {s : ι × Bool} {r r' : Round ι} {l : List (ι × Bool)}
      (hround : g.round pred ref s = some r) (h : Visits r l r') : Visits (.visit s) (s :: l) r'

end Links

end Iterator

namespace Links

/-- The pointers agree with each other and with the names of the cells. -/
structure IsTree (g : Links ι) (name : ι → List κ) (maxDepth : Nat) : Prop where
  depth : ∀ x, (g.children x).isSome → (name x).length ≤ maxDepth
  injective : ∀ x y, (g.children x).isSome → (g.children y).isSome → name x = name y → x = y
  nodup : ∀ x cs, g.children x = some cs → cs.Nodup
  child : ∀ x cs, g.children x = some cs → ∀ c ∈ cs,
    (g.children c).isSome ∧ g.parent c = some x ∧ ∃ a, name c = name x ++ [a]
  descend : ∀ x cs y a, g.children x = some cs → (g.children y).isSome →
    name x ++ [a] <+: name y → ∃ c ∈ cs, name c = name x ++ [a]

variable {g : Links ι} {pred : ι → Bool × Bool} {ref x y p : ι} {name : ι → List κ}
  {maxDepth k : Nat} {r r' r'' : Round ι} {l l' : List (ι × Bool)}

section Preorder

end Preorder

section Enumeration

variable [DecidableEq ι]

theorem Visits.trans (h : g.Visits pred ref r l r') (h' : g.Visits pred ref r' l' r'') :
    g.Visits pred ref r (l ++ l') r'' := by
  induction h with
  | refl r => exact h'
  | go hround _ ih => exact .go hround (ih h')
  | visit hround _ ih => exact .visit hround (ih h')

end Enumeration

end Links

end KiteNdn.Framework.TreeWalk
