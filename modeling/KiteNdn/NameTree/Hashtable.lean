import KiteNdn.Framework.LinkedList
import KiteNdn.Name.Basic

/-!
# The hash table of the name tree

A bucket is a doubly linked list of nodes; the node of a name is in the bucket that the hash of the
name selects. Nodes live in a heap whose addresses are not used twice. An assertion of the source
that does not hold, and a pointer to a node that is no longer there, make an operation fail.
-/

namespace KiteNdn.NameTree

open Framework List Function

abbrev NodeId := Nat

abbrev HashValue := UInt64

structure Tables where
  fibEntry : Option Nat := none
  pitEntries : List Nat := []
  measurementsEntry : Option Nat := none
  strategyChoiceEntry : Option Nat := none
  deriving DecidableEq, Repr

/-- An entry of the name tree. It is addressed by its node. -/
structure Entry (κ : Type := Component) where
  name : List κ
  parent : Option NodeId := none
  children : List NodeId := []
  tables : Tables := {}
  deriving DecidableEq, Repr

structure Node (κ : Type := Component) where
  hash : HashValue
  prev : Option NodeId := none
  next : Option NodeId := none
  entry : Entry κ
  deriving DecidableEq, Repr

variable {κ : Type}

section Hashes

variable (hashFunc : κ → HashValue)

def computeHash (name : List κ) (prefixLen : Nat) : HashValue :=
  (name.take prefixLen).foldl (fun h comp => h ^^^ hashFunc comp) 0

def computeHashes (name : List κ) (prefixLen : Nat) : List HashValue :=
  (name.take prefixLen).scanl (fun h comp => h ^^^ hashFunc comp) 0

theorem computeHashes_getElem? {name : List κ} {prefixLen i : Nat} (h : i ≤ prefixLen)
    (hlen : prefixLen ≤ name.length) :
    (computeHashes hashFunc name prefixLen)[i]? = some (computeHash hashFunc name i) := by
  unfold computeHashes computeHash
  rw [List.getElem?_eq_getElem (by rw [List.length_scanl,length_take]; omega),
    List.getElem_scanl,List.take_take,min_eq_left h]

end Hashes

/-- The factors are given by their products with a number of buckets, as the source cuts them from
a floating-point number to an integer. -/
structure HashtableOptions where
  initialSize : Nat
  minSize : Nat
  expandLoad : Nat → Nat
  expand : Nat → Nat
  shrinkLoad : Nat → Nat
  shrink : Nat → Nat
  minSize_pos : 0 < minSize
  minSize_le : minSize ≤ initialSize
  expand_pos : ∀ nBuckets, 0 < nBuckets → 0 < expand nBuckets

def HashtableOptions.ofSize (size : Nat) (h : 0 < size) : HashtableOptions where
  initialSize := size
  minSize := size
  expandLoad nBuckets := nBuckets / 2
  expand nBuckets := 2 * nBuckets
  shrinkLoad nBuckets := nBuckets / 10
  shrink nBuckets := nBuckets / 2
  minSize_pos := h
  minSize_le := le_refl size
  expand_pos nBuckets hpos := by omega

structure Hashtable (κ : Type := Component) where
  options : HashtableOptions
  nodes : NodeId → Option (Node κ)
  nextNode : NodeId
  buckets : List (Option NodeId)
  size : Nat
  expandThreshold : Nat
  shrinkThreshold : Nat

namespace Hashtable

section Access

variable (ht : Hashtable κ)

def next (id : NodeId) : Option NodeId := (ht.nodes id).bind Node.next

def prev (id : NodeId) : Option NodeId := (ht.nodes id).bind Node.prev

def entry (id : NodeId) : Option (Entry κ) := (ht.nodes id).map Node.entry

def hash (id : NodeId) : Option HashValue := (ht.nodes id).map Node.hash

def getNBuckets : Nat := ht.buckets.length

def computeBucketIndex (h : HashValue) : Nat := h.toNat % ht.getNBuckets

def getBucket (bucket : Nat) : Option NodeId := ht.buckets[bucket]?.getD none

def modify (id : NodeId) (f : Node κ → Node κ) : Hashtable κ :=
  { ht with nodes := fun x => if x = id then (ht.nodes x).map f else ht.nodes x }

def modifyEntry (id : NodeId) (f : Entry κ → Entry κ) : Hashtable κ :=
  ht.modify id fun n => { n with entry := f n.entry }

def setBucket (bucket : Nat) (head : Option NodeId) : Hashtable κ :=
  { ht with buckets := ht.buckets.set bucket head }

def computeThresholds : Hashtable κ :=
  { ht with
    expandThreshold := ht.options.expandLoad ht.getNBuckets
    shrinkThreshold := ht.options.shrinkLoad ht.getNBuckets }

end Access

def empty (options : HashtableOptions) : Hashtable κ :=
  computeThresholds {
    options := options
    nodes := fun _ => none
    nextNode := 0
    buckets := replicate options.initialSize none
    size := 0
    expandThreshold := 0
    shrinkThreshold := 0 }

def relinkPrev (ht : Hashtable κ) (node : Option NodeId) (expected new : Option NodeId) :
    Option (Hashtable κ) :=
  match node with
  | none => some ht
  | some n =>
    if (ht.nodes n).map Node.prev = some expected then
      some (ht.modify n fun x => { x with prev := new })
    else none

def attach (ht : Hashtable κ) (bucket : Nat) (id : NodeId) : Option (Hashtable κ) :=
  let head := ht.getBucket bucket
  let ht := ht.modify id fun n => { n with prev := none, next := head }
  (ht.relinkPrev head none (some id)).map fun ht => ht.setBucket bucket (some id)

def relinkNext (ht : Hashtable κ) (bucket : Nat) (id : NodeId) (prev next : Option NodeId) :
    Option (Hashtable κ) :=
  match prev with
  | none => if ht.getBucket bucket = some id then some (ht.setBucket bucket next) else none
  | some p =>
    if ht.next p = some id then some (ht.modify p fun x => { x with next := next }) else none

def detach (ht : Hashtable κ) (bucket : Nat) (id : NodeId) : Option (Hashtable κ) := do
  let node ← ht.nodes id
  let ht ← ht.relinkNext bucket id node.prev node.next
  let ht ← ht.relinkPrev node.next (some id) node.prev
  some (ht.modify id fun n => { n with prev := none, next := none })

def attachByHash (ht : Hashtable κ) (id : NodeId) : Option (Hashtable κ) :=
  (ht.hash id).bind fun h => ht.attach (ht.computeBucketIndex h) id

def resize (ht : Hashtable κ) (newNBuckets : Nat) : Option (Hashtable κ) :=
  if ht.getNBuckets = newNBuckets then some ht
  else
    (ht.buckets.foldlM (fun ht' head => LinkedList.foreachNode next attachByHash ht.size ht' head)
      { ht with buckets := replicate newNBuckets none }).map computeThresholds

def expandIfFull (ht : Hashtable κ) : Option (Hashtable κ) :=
  if ht.size > ht.expandThreshold then ht.resize (ht.options.expand ht.getNBuckets) else some ht

def shrinkIfSparse (ht : Hashtable κ) : Option (Hashtable κ) :=
  if ht.size < ht.shrinkThreshold then
    ht.resize (max ht.options.minSize (ht.options.shrink ht.getNBuckets))
  else some ht

def insertNode (ht : Hashtable κ) (name : List κ) (prefixLen : Nat) (h : HashValue) :
    Option (NodeId × Hashtable κ) := do
  let id := ht.nextNode
  let node : Node κ := { hash := h, entry := { name := name.take prefixLen } }
  let ht := { ht with
    nodes := update ht.nodes id (some node)
    nextNode := id + 1 }
  let ht ← ht.attach (ht.computeBucketIndex h) id
  let ht ← expandIfFull { ht with size := ht.size + 1 }
  some (id,ht)

section Search

variable [DecidableEq κ]

def findInBucket (ht : Hashtable κ) (name : List κ) (prefixLen : Nat) (h : HashValue) :
    Option (Option NodeId) :=
  LinkedList.findFrom ht.next
    (fun id => ht.hash id = some h && (ht.entry id).map Entry.name = some (name.take prefixLen))
    ht.size (ht.getBucket (ht.computeBucketIndex h))

def findOrInsert (ht : Hashtable κ) (name : List κ) (prefixLen : Nat) (h : HashValue)
    (allowInsert : Bool) : Option (Option NodeId × Bool × Hashtable κ) := do
  let found ← ht.findInBucket name prefixLen h
  if found.isSome then some (found,false,ht)
  else if allowInsert then
    let (id,ht) ← ht.insertNode name prefixLen h
    some (some id,true,ht)
  else some (none,false,ht)

def find (hashFunc : κ → HashValue) (name : List κ) (prefixLen : Nat) (ht : Hashtable κ) :
    Option (Option NodeId) :=
  (ht.findOrInsert name prefixLen (computeHash hashFunc name prefixLen) false).map Prod.fst

def findWithHashes (name : List κ) (prefixLen : Nat) (hashes : List HashValue) (ht : Hashtable κ) :
    Option (Option NodeId) := do
  let h ← hashes[prefixLen]?
  (ht.findOrInsert name prefixLen h false).map Prod.fst

def insert (name : List κ) (prefixLen : Nat) (hashes : List HashValue) (ht : Hashtable κ) :
    Option (Option NodeId × Bool × Hashtable κ) := do
  let h ← hashes[prefixLen]?
  ht.findOrInsert name prefixLen h true

end Search

def erase (ht : Hashtable κ) (id : NodeId) : Option (Hashtable κ) := do
  let node ← ht.nodes id
  if node.entry.parent ≠ none then none
  else
    let ht ← ht.detach (ht.computeBucketIndex node.hash) id
    shrinkIfSparse { ht with nodes := update ht.nodes id none, size := ht.size - 1 }

end Hashtable

end KiteNdn.NameTree
