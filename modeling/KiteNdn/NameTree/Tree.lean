import KiteNdn.NameTree.Hashtable

/-!
# The name tree

Entries are found by name in the hash table, and each entry but the root is linked to the entry of
its name without the last component. A lookup creates the entries of all prefixes.
-/

namespace KiteNdn

open Framework

abbrev NameTree (κ : Type := Component) := NameTree.Hashtable κ

namespace NameTree

variable {κ : Type}

def getMaxDepth : Nat := 32

namespace Entry

def hasChildren (e : Entry κ) : Bool := !e.children.isEmpty

def hasPitEntries (e : Entry κ) : Bool := !e.tables.pitEntries.isEmpty

def hasTableEntries (e : Entry κ) : Bool :=
  e.tables.fibEntry.isSome || e.hasPitEntries || e.tables.measurementsEntry.isSome ||
    e.tables.strategyChoiceEntry.isSome

def isEmpty (e : Entry κ) : Bool := !e.hasChildren && !e.hasTableEntries

end Entry

section Links

def parentOf (t : NameTree κ) (id : NodeId) : Option NodeId := (t.entry id).bind Entry.parent

def setParent [DecidableEq κ] (t : NameTree κ) (id parent : NodeId) : Option (NameTree κ) := do
  let e ← t.entry id
  let p ← t.entry parent
  if e.parent = none ∧ e.name ≠ [] ∧ p.name = e.name.dropLast then
    let t := t.modifyEntry id fun e => { e with parent := some parent }
    some (t.modifyEntry parent fun p => { p with children := p.children ++ [id] })
  else none

def unsetParent (t : NameTree κ) (id : NodeId) : Option (NameTree κ) := do
  let e ← t.entry id
  let parent ← e.parent
  let p ← t.entry parent
  if id ∈ p.children then
    let t := t.modifyEntry parent fun p => { p with children := p.children.erase id }
    some (t.modifyEntry id fun e => { e with parent := none })
  else none

end Links

section Tables

def modifyTables (t : NameTree κ) (id : NodeId) (f : Tables → Tables) : NameTree κ :=
  t.modifyEntry id fun e => { e with tables := f e.tables }

def setFibEntry (t : NameTree κ) (id : NodeId) (fibEntry : Option Nat) : NameTree κ :=
  t.modifyTables id fun x => { x with fibEntry := fibEntry }

def insertPitEntry (t : NameTree κ) (id : NodeId) (pitEntry : Nat) : NameTree κ :=
  t.modifyTables id fun x => { x with pitEntries := x.pitEntries ++ [pitEntry] }

/-- The last PIT entry takes the place of the erased one. -/
def erasePitEntry (t : NameTree κ) (id : NodeId) (pitEntry : Nat) : NameTree κ :=
  t.modifyTables id fun x =>
    let pos := x.pitEntries.idxOf pitEntry
    { x with pitEntries := (x.pitEntries.set pos (x.pitEntries.getLastD pitEntry)).dropLast }

def setMeasurementsEntry (t : NameTree κ) (id : NodeId) (measurementsEntry : Option Nat) :
    NameTree κ :=
  t.modifyTables id fun x => { x with measurementsEntry := measurementsEntry }

def setStrategyChoiceEntry (t : NameTree κ) (id : NodeId) (strategyChoiceEntry : Option Nat) :
    NameTree κ :=
  t.modifyTables id fun x => { x with strategyChoiceEntry := strategyChoiceEntry }

end Tables

section Mutation

variable (hashFunc : κ → HashValue)

def lookupStep [DecidableEq κ] (name : List κ) (hashes : List HashValue)
    (s : NameTree κ × Option NodeId) (i : Nat) :
    Option (NameTree κ × Option NodeId) := do
  let (node,isNew,t) ← s.1.insert name i hashes
  let id ← node
  let t ← match s.2 with
    | some parent => if isNew then setParent t id parent else some t
    | none => some t
  some (t,some id)

def lookup [DecidableEq κ] (t : NameTree κ) (name : List κ) (prefixLen : Nat) :
    Option (NodeId × NameTree κ) :=
  if prefixLen ≤ name.length ∧ prefixLen ≤ getMaxDepth then do
    let hashes := computeHashes hashFunc name prefixLen
    let (t,node) ← (List.range (prefixLen + 1)).foldlM (lookupStep name hashes) (t,none)
    node.map fun id => (id,t)
  else none

def eraseEntry (t : NameTree κ) (id : NodeId) (parent : Option NodeId) : Option (NameTree κ) := do
  let t ← if parent.isSome then t.unsetParent id else some t
  t.erase id

def eraseIfEmptyLoop (canEraseAncestors : Bool) :
    Nat → NameTree κ → Option NodeId → Nat → Option (Nat × NameTree κ)
  | _, t, none, nErased => some (nErased,t)
  | 0, _, some _, _ => none
  | fuel + 1, t, some id, nErased =>
    (t.entry id).bind fun e =>
      if e.isEmpty then
        (t.eraseEntry id e.parent).bind fun t =>
          if canEraseAncestors then
            eraseIfEmptyLoop canEraseAncestors fuel t e.parent (nErased + 1)
          else some (nErased + 1,t)
      else some (nErased,t)

def eraseIfEmpty (t : NameTree κ) (id : NodeId) (canEraseAncestors : Bool) :
    Option (Nat × NameTree κ) :=
  (t.entry id).bind fun e =>
    eraseIfEmptyLoop canEraseAncestors (e.name.length + 1) t (some id) 0

end Mutation

section Matching

variable (hashFunc : κ → HashValue) (entrySelector : NodeId → Bool)

def findExactMatch [DecidableEq κ] (t : NameTree κ) (name : List κ) (prefixLen : Nat) :
    Option (Option NodeId) :=
  let prefixLen := min name.length prefixLen
  if prefixLen > getMaxDepth then some none else t.find hashFunc name prefixLen

def longestFrom [DecidableEq κ] (t : NameTree κ) (name : List κ) (hashes : List HashValue) :
    Nat → Option (Option NodeId)
  | 0 => (t.findWithHashes name 0 hashes).map (Option.filter entrySelector)
  | i + 1 =>
    (t.findWithHashes name (i + 1) hashes).bind fun node =>
      if (node.filter entrySelector).isSome then some (node.filter entrySelector)
      else longestFrom t name hashes i

def findLongestPrefixMatch [DecidableEq κ] (t : NameTree κ) (name : List κ) : Option (Option NodeId) :=
  let depth := min name.length getMaxDepth
  longestFrom entrySelector t name (computeHashes hashFunc name depth) depth

def findLongestPrefixMatchOfEntry (t : NameTree κ) (id : NodeId) : Option (Option NodeId) :=
  (t.entry id).bind fun e =>
    LinkedList.findFrom t.parentOf entrySelector (e.name.length + 1) (some id)

end Matching

section Enumeration

variable (pred : NodeId → Bool)

/-- Moves an iterator up the tree, starting at `ref`. -/
def advancePrefixMatch (t : NameTree κ) (ref : Option NodeId) (cur : Option NodeId) :
    Option (Option NodeId) :=
  let start := match cur with
    | none => ref
    | some id => t.parentOf id
  LinkedList.findFrom t.parentOf pred (getMaxDepth + 1) start

def findAllMatches [DecidableEq κ] (hashFunc : κ → HashValue) (t : NameTree κ) (name : List κ) :
    Option (List NodeId) :=
  (t.findLongestPrefixMatch hashFunc pred name).bind fun ref =>
    LinkedList.enumerate (t.advancePrefixMatch pred ref) (getMaxDepth + 2) none

def findInBuckets (t : NameTree κ) : List Nat → Option (Option NodeId)
  | [] => some none
  | bucket :: buckets =>
    (LinkedList.findFrom t.next pred t.size (t.getBucket bucket)).bind fun found =>
      if found.isSome then some found else findInBuckets t buckets

def advanceFrom (t : NameTree κ) (id : NodeId) : Option (Option NodeId) :=
  (LinkedList.findFrom t.next pred t.size (t.next id)).bind fun found =>
    if found.isSome then some found
    else (t.hash id).bind fun h =>
      t.findInBuckets pred ((List.range t.getNBuckets).drop (t.computeBucketIndex h + 1))

def advanceFullEnumeration (t : NameTree κ) (cur : Option NodeId) : Option (Option NodeId) :=
  match cur with
  | some id => t.advanceFrom pred id
  | none =>
    match (List.range t.getNBuckets).findSome? t.getBucket with
    | none => some none
    | some id => if pred id then some (some id) else t.advanceFrom pred id

def fullEnumerate (t : NameTree κ) : Option (List NodeId) :=
  LinkedList.enumerate (t.advanceFullEnumeration pred) (t.size + 1) none

end Enumeration

section Runs

inductive Op (κ : Type := Component) where
  | lookup (name : List κ) (prefixLen : Nat)
  | eraseIfEmpty (id : NodeId) (canEraseAncestors : Bool)
  | setFibEntry (id : NodeId) (fibEntry : Option Nat)
  | insertPitEntry (id : NodeId) (pitEntry : Nat)
  | erasePitEntry (id : NodeId) (pitEntry : Nat)
  | setMeasurementsEntry (id : NodeId) (measurementsEntry : Option Nat)
  | setStrategyChoiceEntry (id : NodeId) (strategyChoiceEntry : Option Nat)
  deriving DecidableEq, Repr

def onEntry (t : NameTree κ) (id : NodeId) (op : NameTree κ) : Option (NameTree κ) :=
  (t.entry id).map fun _ => op

def step [DecidableEq κ] (hashFunc : κ → HashValue) (t : NameTree κ) : Op κ → Option (NameTree κ)
  | .lookup name prefixLen => (t.lookup hashFunc name prefixLen).map Prod.snd
  | .eraseIfEmpty id canEraseAncestors => (t.eraseIfEmpty id canEraseAncestors).map Prod.snd
  | .setFibEntry id fibEntry => t.onEntry id (t.setFibEntry id fibEntry)
  | .insertPitEntry id pitEntry => t.onEntry id (t.insertPitEntry id pitEntry)
  | .erasePitEntry id pitEntry =>
    (t.entry id).bind fun e =>
      if pitEntry ∈ e.tables.pitEntries then some (t.erasePitEntry id pitEntry) else none
  | .setMeasurementsEntry id measurementsEntry =>
    t.onEntry id (t.setMeasurementsEntry id measurementsEntry)
  | .setStrategyChoiceEntry id strategyChoiceEntry =>
    t.onEntry id (t.setStrategyChoiceEntry id strategyChoiceEntry)

def run [DecidableEq κ] (hashFunc : κ → HashValue) (options : HashtableOptions) (ops : List (Op κ)) :
    Option (NameTree κ) :=
  ops.foldlM (step hashFunc) (Hashtable.empty options)

end Runs

end NameTree

end KiteNdn
