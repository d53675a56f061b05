import KiteNdn.Framework.OrderedMap
import KiteNdn.Name.Wire
import KiteNdn.Framework.Run

/-!
# The content store

Entries are kept in the order of their full names. A replacement policy keeps references to them in
queues of its own: priority FIFO in one queue for unsolicited, one for stale and one for fresh Data,
LRU in the order of use. A reference is an iterator of the table. An exception, an assertion that
does not hold, and a reference to an entry that is no longer there make an operation fail.

The search goes from the name of the Interest to its successor, in the order of octets. For a name
that ends with an implicit digest these are the entries with that full name only, unless the digest
has no successor.
-/

namespace KiteNdn.Table

open Framework Option List Function

abbrev EntryRef := Nat

abbrev EventId := Nat

/-- Data names and, among Data of one name, digests. -/
abbrev CsKey (κ : Type := Component) := List κ ×ₗ Component

structure CsEntry (κ : Type := Component) where
  ref : EntryRef
  data : Data κ
  isUnsolicited : Bool
  freshUntil : Time
  deriving DecidableEq, Repr

variable {κ : Type}

namespace CsEntry

def digest (e : CsEntry κ) : Component := ⟨Component.implicitSha256Digest,e.data.digest⟩

def key (e : CsEntry κ) : CsKey κ := toLex (e.data.name,e.digest)

def isFresh (e : CsEntry κ) (now : Time) : Bool := e.freshUntil ≥ now

def updateFreshUntil (e : CsEntry κ) (now : Time) : CsEntry κ :=
  { e with freshUntil := addDuration now (toNanoseconds e.data.freshnessPeriod) }

def canSatisfy [NameComponent κ] (e : CsEntry κ) (now : Time) (interest : Interest κ) : Bool :=
  if interest.matchesData e.data = false then false
  else if interest.mustBeFresh && !e.isFresh now then false
  else true

end CsEntry

section Lookup

variable [NameComponent κ]

def isFullName (queryName : List κ) : Bool :=
  queryName.getLast?.any fun c => (NameComponent.toComponent c).isImplicitSha256Digest

def compareQueryWithData (queryName : List κ) (e : CsEntry κ) : Ordering :=
  let compared := if isFullName queryName then cmp queryName.dropLast e.data.name
    else cmp queryName e.data.name
  if compared ≠ .eq then compared
  else if isFullName queryName then
    match queryName.getLast? with
    -- The digest of the Data has no octets, so type, length and value are compared.
    | some last => cmp (NameComponent.toComponent last) e.digest
    | none => .lt
  -- The query is a proper prefix of the full name.
  else .lt

def isBefore (e : CsEntry κ) (queryName : List κ) : Bool := compareQueryWithData queryName e = .gt

structure CsTable (κ : Type := Component) [NameComponent κ] where
  map : OrderedMap (CsKey κ) (CsEntry κ)
  keyed : ∀ x ∈ map.entries, x.1 = x.2.key

namespace CsTable

def empty : CsTable κ := ⟨OrderedMap.empty,fun _ h => absurd h not_mem_nil⟩

def values (table : CsTable κ) : List (CsEntry κ) := table.map.entries.map Prod.snd

def find? (table : CsTable κ) (key : CsKey κ) : Option (CsEntry κ) := table.map.find? key

def put (table : CsTable κ) (e : CsEntry κ) : CsTable κ where
  map := table.map.insert e.key e
  keyed := by
    intro x hx
    rcases (table.map.mem_insert e.key e x).mp hx with rfl | ⟨hx,_⟩
    · rfl
    · exact table.keyed x hx

def erase (table : CsTable κ) (key : CsKey κ) : CsTable κ where
  map := table.map.erase key
  keyed x hx := table.keyed x ((table.map.mem_erase key x).mp hx).1

def lowerBound (table : CsTable κ) (queryName : List κ) : Nat :=
  table.values.findIdx fun e => !isBefore e queryName

/-- The entries from the first iterator to the last, which it must not be behind. -/
def findPrefixRange (table : CsTable κ) (pfx : List κ) : Option (List (CsEntry κ)) := do
  let first := table.lowerBound pfx
  let last ← (if pfx.length > 0 then (Name.getSuccessor? pfx).map table.lowerBound
    else some table.values.length)
  if first ≤ last then some ((table.values.take last).drop first) else none

def entryOf (table : CsTable κ) (i : EntryRef) : Option (CsEntry κ) :=
  table.values.find? fun e => e.ref = i

def eraseRef (table : CsTable κ) (i : EntryRef) : Option (CsTable κ) :=
  (table.entryOf i).map fun e => table.erase e.key

end CsTable

end Lookup

section Policies

inductive QueueType where
  | unsolicited
  | stale
  | fifo
  deriving DecidableEq, Repr

structure EntryInfo where
  queueType : QueueType
  moveStaleEventId : Option EventId
  deriving DecidableEq, Repr

structure PriorityFifo where
  queues : QueueType → List EntryRef
  entryInfoMap : EntryRef → Option EntryInfo

inductive Policy where
  | priorityFifo (p : PriorityFifo)
  | lru (queue : List EntryRef)

inductive PolicyName where
  | priorityFifo
  | lru
  deriving DecidableEq, Repr

def Policy.create : PolicyName → Policy
  | .priorityFifo => .priorityFifo ⟨fun _ => [],fun _ => none⟩
  | .lru => .lru []

structure Scheduler where
  events : List (EventId × EntryRef)
  nextEvent : EventId
  deriving DecidableEq, Repr

namespace Scheduler

def schedule (s : Scheduler) (i : EntryRef) : EventId × Scheduler :=
  (s.nextEvent,⟨s.events ++ [(s.nextEvent,i)],s.nextEvent + 1⟩)

def cancel (s : Scheduler) (id : EventId) : Scheduler :=
  { s with events := s.events.filter fun ev => ev.1 ≠ id }

end Scheduler

end Policies

structure Cs (κ : Type := Component) [NameComponent κ] where
  table : CsTable κ
  nextRef : EntryRef
  policy : Policy
  limit : Nat
  shouldAdmit : Bool := true
  shouldServe : Bool := true
  scheduler : Scheduler

variable [NameComponent κ]

namespace Cs

def size (cs : Cs κ) : Nat := cs.table.values.length

def empty (nMaxPackets : Nat) : Cs κ where
  table := CsTable.empty
  nextRef := 0
  policy := Policy.create .lru
  limit := nMaxPackets
  scheduler := ⟨[],0⟩

section PriorityFifo

def pushQueue (cs : Cs κ) (p : PriorityFifo) (i : EntryRef) (info : EntryInfo) : Cs κ :=
  { cs with
    policy := .priorityFifo {
      queues := update p.queues info.queueType (p.queues info.queueType ++ [i])
      entryInfoMap := update p.entryInfoMap i (some info) } }

def attachQueue (cs : Cs κ) (p : PriorityFifo) (i : EntryRef) (now : Time) : Option (Cs κ) := do
  let e ← cs.table.entryOf i
  if p.entryInfoMap i ≠ none then none
  else if e.isUnsolicited then some (cs.pushQueue p i ⟨.unsolicited,none⟩)
  else if !e.isFresh now then some (cs.pushQueue p i ⟨.stale,none⟩)
  else
    let (event,scheduler) := cs.scheduler.schedule i
    some (pushQueue { cs with scheduler := scheduler } p i ⟨.fifo,some event⟩)

def PriorityFifo.remove (p : PriorityFifo) (i : EntryRef) (queueType : QueueType) : PriorityFifo where
  queues := update p.queues queueType ((p.queues queueType).erase i)
  entryInfoMap := update p.entryInfoMap i none

def detachQueue (cs : Cs κ) (p : PriorityFifo) (i : EntryRef) : Option (Cs κ) := do
  let info ← p.entryInfoMap i
  let scheduler := match info.moveStaleEventId with
    | some event => if info.queueType = .fifo then cs.scheduler.cancel event else cs.scheduler
    | none => cs.scheduler
  some { cs with
    policy := .priorityFifo (PriorityFifo.remove p i info.queueType)
    scheduler := scheduler }

def moveToStaleQueue (cs : Cs κ) (p : PriorityFifo) (i : EntryRef) : Option (Cs κ) := do
  let info ← p.entryInfoMap i
  if info.queueType ≠ .fifo then none
  else some (cs.pushQueue (PriorityFifo.remove p i .fifo) i { info with queueType := .stale })

end PriorityFifo

section Hooks

/-- `relocate` moves a known entry to the end. -/
def insertToQueue (cs : Cs κ) (queue : List EntryRef) (i : EntryRef) (isNewEntry : Bool) :
    Option (Cs κ) :=
  if isNewEntry = decide (i ∉ queue) then
    some { cs with policy := .lru (queue.erase i ++ [i]) }
  else none

def beforeEvict (cs : Cs κ) (i : EntryRef) : Option (Cs κ) :=
  (cs.table.eraseRef i).map fun table => { cs with table := table }

def evictOne (cs : Cs κ) : Option (Cs κ) :=
  match cs.policy with
  | .priorityFifo p =>
    let front := (p.queues .unsolicited).head?.or
      ((p.queues .stale).head?.or (p.queues .fifo).head?)
    front.bind fun i => (cs.detachQueue p i).bind fun cs => cs.beforeEvict i
  | .lru queue =>
    queue.head?.bind fun i => beforeEvict { cs with policy := .lru queue.tail } i

def evictLoop : Nat → Cs κ → Option (Cs κ)
  | 0, cs => if cs.size > cs.limit then none else some cs
  | fuel + 1, cs => if cs.size > cs.limit then cs.evictOne.bind (evictLoop fuel) else some cs

def evictEntries (cs : Cs κ) : Option (Cs κ) := evictLoop cs.size cs

def afterInsert (cs : Cs κ) (i : EntryRef) (now : Time) : Option (Cs κ) :=
  let attached := match cs.policy with
    | .priorityFifo p => cs.attachQueue p i now
    | .lru queue => cs.insertToQueue queue i true
  attached.bind evictEntries

def afterRefresh (cs : Cs κ) (i : EntryRef) (now : Time) : Option (Cs κ) :=
  match cs.policy with
  | .priorityFifo p =>
    (cs.detachQueue p i).bind fun cs =>
      match cs.policy with
      | .priorityFifo p => cs.attachQueue p i now
      | .lru _ => none
  | .lru queue => cs.insertToQueue queue i false

def beforeErase (cs : Cs κ) (i : EntryRef) : Option (Cs κ) :=
  match cs.policy with
  | .priorityFifo p => cs.detachQueue p i
  | .lru queue => some { cs with policy := .lru (queue.erase i) }

def beforeUse (cs : Cs κ) (i : EntryRef) : Option (Cs κ) :=
  match cs.policy with
  | .priorityFifo p => if p.entryInfoMap i ≠ none then some cs else none
  | .lru queue => cs.insertToQueue queue i false

end Hooks

section Operations

def putEntry (cs : Cs κ) (e : CsEntry κ) : Cs κ := { cs with table := cs.table.put e }

/-- The clock may go on between `updateFreshUntil` at `now` and the policy's look at `later`. -/
def insert (cs : Cs κ) (data : Data κ) (isUnsolicited noCache : Bool) (now later : Time) :
    Option (Cs κ) :=
  if !cs.shouldAdmit || cs.limit = 0 then some cs
  else if noCache then some cs
  else
    let new : CsEntry κ := ⟨cs.nextRef,data,isUnsolicited,now⟩
    match cs.table.find? new.key with
    | some e =>
      let e := e.updateFreshUntil now
      let e := if e.isUnsolicited && !isUnsolicited then { e with isUnsolicited := false } else e
      (cs.putEntry e).afterRefresh e.ref later
    | none =>
      let cs := putEntry { cs with nextRef := cs.nextRef + 1 } (new.updateFreshUntil now)
      cs.afterInsert new.ref later

def findMatch (cs : Cs κ) (interest : Interest κ) (now : Time) : Option (Option (CsEntry κ)) :=
  if !cs.shouldServe || cs.limit = 0 then some none
  else (cs.table.findPrefixRange interest.name).map fun range =>
    range.find? fun e => e.canSatisfy now interest

def find (cs : Cs κ) (interest : Interest κ) (now : Time) : Option (Cs κ) :=
  (cs.findMatch interest now).bind fun found =>
    match found with
    | none => some cs
    | some e => cs.beforeUse e.ref

def eraseOne (cs : Cs κ) (e : CsEntry κ) : Option (Cs κ) :=
  (cs.beforeErase e.ref).bind fun cs =>
    (cs.table.eraseRef e.ref).map fun table => { cs with table := table }

def erase (cs : Cs κ) (pfx : List κ) (limit : Nat) : Option (Cs κ) :=
  (cs.table.findPrefixRange pfx).bind fun range => (range.take limit).foldlM eraseOne cs

def setLimit (cs : Cs κ) (nMaxPackets : Nat) : Option (Cs κ) :=
  evictEntries { cs with limit := nMaxPackets }

def setPolicy (cs : Cs κ) (name : PolicyName) : Option (Cs κ) :=
  setLimit { cs with policy := Policy.create name } cs.limit

def fire (cs : Cs κ) (event : EventId) : Option (Cs κ) := do
  let (_,i) ← cs.scheduler.events.find? fun ev => ev.1 = event
  match cs.policy with
  | .priorityFifo p => moveToStaleQueue { cs with scheduler := cs.scheduler.cancel event } p i
  | .lru _ => none

end Operations

section Runs

inductive Op (κ : Type := Component) where
  | insert (data : Data κ) (isUnsolicited noCache : Bool) (now later : Time)
  | find (interest : Interest κ) (now : Time)
  | erase (pfx : List κ) (limit : Nat)
  | setLimit (nMaxPackets : Nat)
  | setPolicy (name : PolicyName)
  | enableAdmit (shouldAdmit : Bool)
  | enableServe (shouldServe : Bool)
  | fire (event : EventId)

def step (cs : Cs κ) : Op κ → Option (Cs κ)
  | .insert data isUnsolicited noCache now later => cs.insert data isUnsolicited noCache now later
  | .find interest now => cs.find interest now
  | .erase pfx limit => cs.erase pfx limit
  | .setLimit nMaxPackets => cs.setLimit nMaxPackets
  | .setPolicy name => cs.setPolicy name
  | .enableAdmit shouldAdmit => some { cs with shouldAdmit := shouldAdmit }
  | .enableServe shouldServe => some { cs with shouldServe := shouldServe }
  | .fire event => cs.fire event

def run (nMaxPackets : Nat) (ops : List (Op κ)) : Option (Cs κ) := ops.foldlM step (empty nMaxPackets)

end Runs

end Cs

open List Option

namespace CsTable

variable {table : CsTable κ} {e x : CsEntry κ}

theorem mem_values : e ∈ table.values ↔ (e.key,e) ∈ table.map.entries := by
  unfold values
  rw [List.mem_map]
  constructor
  · rintro ⟨x,hx,rfl⟩
    have hkey := table.keyed x hx
    obtain ⟨k,v⟩ := x
    obtain rfl : k = v.key := hkey
    exact hx
  · intro h
    exact ⟨_,h,rfl⟩

theorem sorted_values (table : CsTable κ) : table.values.Pairwise fun a b => a.key < b.key := by
  unfold values
  rw [pairwise_map]
  apply table.map.sorted.imp_of_mem
  intro a b ha hb h
  rw [← table.keyed a ha,← table.keyed b hb]
  exact h

theorem nodup_values (table : CsTable κ) : table.values.Nodup :=
  table.sorted_values.imp fun hlt heq => absurd (congrArg CsEntry.key heq) hlt.ne

theorem eq_of_key_eq (he : e ∈ table.values) (hx : x ∈ table.values) (h : e.key = x.key) :
    e = x := by
  rw [mem_values] at he hx
  rw [← h] at hx
  exact table.map.mem_entries_unique he hx

theorem find?_eq_some_iff : table.find? e.key = some x ↔ x ∈ table.values ∧ x.key = e.key := by
  unfold find?
  rw [OrderedMap.find?_eq_some,mem_values]
  constructor
  · intro h
    have hkey : e.key = x.key := table.keyed _ h
    rw [← hkey]
    exact ⟨h,rfl⟩
  · rintro ⟨h,hkey⟩
    rw [← hkey]
    exact h

theorem mem_put : x ∈ (table.put e).values ↔ x = e ∨ x ∈ table.values ∧ x.key ≠ e.key := by
  rw [mem_values,mem_values]
  show _ ∈ (table.map.insert e.key e).entries ↔ _
  rw [OrderedMap.mem_insert]
  constructor
  · rintro (h | h)
    · exact Or.inl (congrArg Prod.snd h)
    · exact Or.inr h
  · rintro (rfl | h)
    · exact Or.inl rfl
    · exact Or.inr h

theorem mem_erase : x ∈ (table.erase e.key).values ↔ x ∈ table.values ∧ x.key ≠ e.key := by
  rw [mem_values,mem_values]
  exact OrderedMap.mem_erase _ _ _

end CsTable

namespace Cs

section Sizes

variable {cs cs' : Cs κ} {i : EntryRef}

/-- What no hook but an eviction changes. -/
def KeepsTable (cs cs' : Cs κ) : Prop := cs'.table = cs.table ∧ cs'.limit = cs.limit

theorem keepsTable_attachQueue {p : PriorityFifo} {now : Time}
    (h : cs.attachQueue p i now = some cs') : KeepsTable cs cs' := by
  obtain ⟨e,_,h⟩ := bind_eq_some_iff.mp h
  split_ifs at h <;> exact some.inj h ▸ ⟨rfl,rfl⟩

theorem keepsTable_detachQueue {p : PriorityFifo} (h : cs.detachQueue p i = some cs') :
    KeepsTable cs cs' := by
  obtain ⟨info,_,h⟩ := bind_eq_some_iff.mp h
  exact some.inj h ▸ ⟨rfl,rfl⟩

theorem keepsTable_insertToQueue {queue : List EntryRef} {isNewEntry : Bool}
    (h : cs.insertToQueue queue i isNewEntry = some cs') : KeepsTable cs cs' := by
  unfold insertToQueue at h
  split_ifs at h
  exact some.inj h ▸ ⟨rfl,rfl⟩

theorem keepsTable_afterRefresh {now : Time} (h : cs.afterRefresh i now = some cs') :
    KeepsTable cs cs' := by
  unfold afterRefresh at h
  split at h
  · obtain ⟨cs₁,h₁,h⟩ := bind_eq_some_iff.mp h
    obtain ⟨htable,hlimit⟩ := keepsTable_detachQueue h₁
    split at h
    · obtain ⟨htable',hlimit'⟩ := keepsTable_attachQueue h
      exact ⟨htable'.trans htable,hlimit'.trans hlimit⟩
    · exact nomatch h
  · exact keepsTable_insertToQueue h

theorem keepsTable_beforeUse (h : cs.beforeUse i = some cs') : KeepsTable cs cs' := by
  unfold beforeUse at h
  split at h
  · split_ifs at h
    exact some.inj h ▸ ⟨rfl,rfl⟩
  · exact keepsTable_insertToQueue h

theorem keepsTable_beforeErase (h : cs.beforeErase i = some cs') : KeepsTable cs cs' := by
  unfold beforeErase at h
  split at h
  · exact keepsTable_detachQueue h
  · exact some.inj h ▸ ⟨rfl,rfl⟩

theorem keepsTable_fire {event : EventId} (h : cs.fire event = some cs') : KeepsTable cs cs' := by
  obtain ⟨ev,_,h⟩ := bind_eq_some_iff.mp h
  dsimp only at h
  split at h
  · obtain ⟨info,_,h⟩ := bind_eq_some_iff.mp h
    split_ifs at h
    exact some.inj h ▸ ⟨rfl,rfl⟩
  · exact nomatch h

theorem KeepsTable.size_le (h : KeepsTable cs cs') (hsize : cs.size ≤ cs.limit) :
    cs'.size ≤ cs'.limit := by
  rw [size,h.1,h.2]
  exact hsize

theorem length_put {table : CsTable κ} {e x : CsEntry κ} (hx : x ∈ table.values) (h : x.key = e.key) :
    (table.put e).values.length = table.values.length := by
  have hkeys : ∀ table : CsTable κ, (table.values.map CsEntry.key).Nodup := fun table =>
    table.nodup_values.map_on fun _ ha _ hb => CsTable.eq_of_key_eq ha hb
  have hperm : ((table.put e).values.map CsEntry.key).Perm (table.values.map CsEntry.key) := by
    rw [perm_ext_iff_of_nodup (hkeys _) (hkeys _)]
    intro k
    rw [List.mem_map,List.mem_map]
    constructor
    · rintro ⟨y,hy,rfl⟩
      rcases CsTable.mem_put.mp hy with rfl | ⟨hy,_⟩
      · exact ⟨x,hx,h⟩
      · exact ⟨y,hy,rfl⟩
    · rintro ⟨y,hy,rfl⟩
      by_cases hyk : y.key = e.key
      · exact ⟨e,CsTable.mem_put.mpr (Or.inl rfl),hyk.symm⟩
      · exact ⟨y,CsTable.mem_put.mpr (Or.inr ⟨hy,hyk⟩),rfl⟩
  have hlength := hperm.length_eq
  rw [length_map,length_map] at hlength
  exact hlength

theorem size_le_of_eraseOne {e : CsEntry κ} (h : cs.eraseOne e = some cs')
    (hsize : cs.size ≤ cs.limit) : cs'.size ≤ cs'.limit := by
  obtain ⟨cs₁,h₁,h⟩ := bind_eq_some_iff.mp h
  obtain ⟨table,ht,rfl⟩ := map_eq_some_iff.mp h
  obtain ⟨x,_,rfl⟩ := map_eq_some_iff.mp ht
  have hle : (cs₁.table.erase x.key).values.length ≤ cs₁.table.values.length := by
    rw [CsTable.values,CsTable.values,length_map,length_map]
    exact length_filter_le _ _
  exact le_trans hle ((keepsTable_beforeErase h₁).size_le hsize)

theorem size_le_of_evictLoop {fuel : Nat} (h : Cs.evictLoop fuel cs = some cs') :
    cs'.size ≤ cs'.limit := by
  induction fuel generalizing cs with
  | zero =>
    rw [Cs.evictLoop] at h
    split_ifs at h with hover
    cases h
    omega
  | succ fuel ih =>
    rw [Cs.evictLoop] at h
    split_ifs at h with hover
    · obtain ⟨cs₁,_,h⟩ := bind_eq_some_iff.mp h
      exact ih h
    · cases h
      omega

theorem size_le_of_insert {data : Data κ} {isUnsolicited noCache : Bool} {now later : Time}
    (h : cs.insert data isUnsolicited noCache now later = some cs') (hsize : cs.size ≤ cs.limit) :
    cs'.size ≤ cs'.limit := by
  unfold Cs.insert at h
  split_ifs at h
  · exact some.inj h ▸ hsize
  · exact some.inj h ▸ hsize
  · dsimp only at h
    split at h
    · rename_i e hfind
      obtain ⟨he,_⟩ := CsTable.find?_eq_some_iff.mp hfind
      refine (keepsTable_afterRefresh h).size_le ?_
      refine le_of_eq_of_le (length_put he ?_) hsize
      split_ifs <;> rfl
    · unfold afterInsert at h
      obtain ⟨cs₁,_,h⟩ := bind_eq_some_iff.mp h
      exact size_le_of_evictLoop h

theorem size_le_of_step {op : Op κ} (hsize : cs.size ≤ cs.limit) (h : cs.step op = some cs') :
    cs'.size ≤ cs'.limit := by
  cases op with
  | insert data isUnsolicited noCache now later => exact size_le_of_insert h hsize
  | find interest now =>
    obtain ⟨found,_,h⟩ := bind_eq_some_iff.mp h
    cases found with
    | none => exact some.inj h ▸ hsize
    | some e => exact (keepsTable_beforeUse h).size_le hsize
  | erase pfx limit =>
    obtain ⟨range,_,h⟩ := bind_eq_some_iff.mp h
    exact foldlM_keeps (fun cs : Cs κ => cs.size ≤ cs.limit)
      (fun s e s' hs hstep => size_le_of_eraseOne hstep hs) _ hsize h
  | enableAdmit shouldAdmit => exact some.inj h ▸ hsize
  | enableServe shouldServe => exact some.inj h ▸ hsize
  | fire event => exact (keepsTable_fire h).size_le hsize
  | _ => exact size_le_of_evictLoop h

theorem size_le_limit {nMaxPackets : Nat} {ops : List (Op κ)} (h : run nMaxPackets ops = some cs) :
    cs.size ≤ cs.limit :=
  foldlM_keeps (fun cs : Cs κ => cs.size ≤ cs.limit)
    (fun _ _ _ hs hstep => size_le_of_step hs hstep) ops (Nat.zero_le _) h

end Sizes

end Cs

open List

section Order

variable {e : CsEntry κ} {q p : List κ} {d : κ}

theorem isFullName_concat :
    isFullName (p ++ [d]) = (NameComponent.toComponent d).isImplicitSha256Digest := by
  rw [isFullName,getLast?_concat]
  rfl

theorem isBefore_of_isFullName (h : (NameComponent.toComponent d).isImplicitSha256Digest = true) :
    isBefore e (p ++ [d]) = true ↔ e.key < toLex (p,NameComponent.toComponent d) := by
  rw [isBefore,decide_eq_true_iff,compareQueryWithData,isFullName_concat,h,if_pos rfl,if_pos rfl,
    dropLast_concat,getLast?_concat,CsEntry.key,Prod.Lex.toLex_lt_toLex]
  simp only [cmp,cmpUsing]
  rcases lt_trichotomy p e.data.name with hlt | heq | hgt
  · simp [hlt,hlt.asymm,hlt.ne']
  · subst heq
    by_cases hd : NameComponent.toComponent d < e.digest
    · simp [hd,hd.asymm]
    · simp [hd]
  · simp [hgt,hgt.asymm]

theorem isBefore_of_not_isFullName (h : isFullName q = false) :
    isBefore e q = true ↔ e.data.name < q := by
  rw [isBefore,decide_eq_true_iff,compareQueryWithData,h]
  simp only [cmp,cmpUsing,Bool.false_eq_true,if_false]
  rcases lt_trichotomy q e.data.name with hlt | heq | hgt
  · simp [hlt,hlt.asymm]
  · simp [heq]
  · simp [hgt,hgt.asymm]

theorem isBefore_concat : isBefore e (p ++ [d]) = true ↔
    if (NameComponent.toComponent d).isImplicitSha256Digest then
      e.key < toLex (p,NameComponent.toComponent d)
    else e.data.name < p ++ [d] := by
  split_ifs with h
  · exact isBefore_of_isFullName h
  · apply isBefore_of_not_isFullName
    rw [isFullName_concat]
    exact Bool.eq_false_of_not_eq_true h

theorem isBefore_of_key_lt {a b : CsEntry κ} (hab : a.key < b.key) (h : isBefore b q = true) :
    isBefore a q = true := by
  cases hfull : isFullName q with
  | true =>
    have hne : q ≠ [] := by
      rintro rfl
      exact nomatch hfull
    obtain ⟨p,d,rfl⟩ := (eq_nil_or_concat q).resolve_left hne
    rw [concat_eq_append] at h hfull ⊢
    rw [isFullName_concat] at hfull
    rw [isBefore_of_isFullName hfull] at h ⊢
    exact hab.trans h
  | false =>
    rw [isBefore_of_not_isFullName hfull] at h ⊢
    rw [CsEntry.key,CsEntry.key,Prod.Lex.toLex_lt_toLex] at hab
    rcases hab with hab | ⟨hab,_⟩
    · exact lt_trans hab h
    · exact lt_of_eq_of_lt hab h

/-- The next digest is a digest again. -/
def hasNextDigest (queryName : List κ) : Bool :=
  queryName.getLast?.any fun c => (NameComponent.toComponent c).isImplicitSha256Digest &&
    (NameComponent.toComponent c).value ≠ replicate 32 0xFF

theorem isFullName_getSuccessor {pfx s : List κ} (hne : pfx ≠ [])
    (hs : Name.getSuccessor? pfx = some s) : isFullName s = hasNextDigest pfx := by
  obtain ⟨p,c,rfl⟩ := (eq_nil_or_concat pfx).resolve_left hne
  rw [concat_eq_append] at hs ⊢
  obtain ⟨d,hd,rfl⟩ := Name.getSuccessor?_concat.mp hs
  rw [isFullName_concat,hasNextDigest,getLast?_concat,NameComponent.toComponent_of_encode hd]
  exact Component.isImplicitSha256Digest_getSuccessor _

end Order

section Range

variable {table : CsTable κ} {e : CsEntry κ} {pfx s : List κ} {range : List (CsEntry κ)}

theorem lt_lowerBound_iff (q : List κ) {i : Nat} (hi : i < table.values.length) :
    i < table.lowerBound q ↔ isBefore table.values[i] q = true :=
  lt_findIdx_iff table.sorted_values (fun _ _ hab hb => isBefore_of_key_lt hab hb) hi

theorem findPrefixRange_eq_some_iff : table.findPrefixRange pfx = some range ↔ ∃ last,
    (if pfx.length > 0 then (Name.getSuccessor? pfx).map table.lowerBound
      else some table.values.length) = some last ∧ table.lowerBound pfx ≤ last ∧
    (table.values.take last).drop (table.lowerBound pfx) = range := by
  unfold CsTable.findPrefixRange
  dsimp only [bind]
  rw [bind_eq_some_iff]
  refine exists_congr fun last => and_congr_right fun _ => ?_
  split_ifs with hle
  · simp [hle]
  · simp [hle]

theorem exists_getSuccessor_of_findPrefixRange (h : table.findPrefixRange pfx = some range)
    (hne : pfx ≠ []) : ∃ s, Name.getSuccessor? pfx = some s := by
  obtain ⟨last,hlast,_⟩ := findPrefixRange_eq_some_iff.mp h
  rw [if_pos (length_pos_of_ne_nil hne)] at hlast
  obtain ⟨s,hs,_⟩ := map_eq_some_iff.mp hlast
  exact ⟨s,hs⟩

theorem mem_findPrefixRange (h : table.findPrefixRange pfx = some range) :
    e ∈ range ↔ e ∈ table.values ∧ isBefore e pfx = false ∧
      (pfx ≠ [] → ∀ s, Name.getSuccessor? pfx = some s → isBefore e s = true) := by
  obtain ⟨last,hlast,_,rfl⟩ := findPrefixRange_eq_some_iff.mp h
  have hbefore : ∀ i (hi : i < table.values.length), i < last ↔
      (pfx ≠ [] → ∀ s, Name.getSuccessor? pfx = some s → isBefore table.values[i] s = true) := by
    intro i hi
    split_ifs at hlast with hpos
    · obtain ⟨s,hs,rfl⟩ := map_eq_some_iff.mp hlast
      rw [lt_lowerBound_iff s hi]
      exact ⟨fun h _ s' hs' => some.inj (hs.symm.trans hs') ▸ h,
        fun h => h (length_pos_iff.mp hpos) s hs⟩
    · rw [← some.inj hlast]
      exact iff_of_true hi fun hne => absurd (length_pos_of_ne_nil hne) hpos
  rw [mem_iff_getElem]
  constructor
  · rintro ⟨k,hk,rfl⟩
    rw [length_drop,length_take] at hk
    rw [getElem_drop,getElem_take]
    have hi : table.lowerBound pfx + k < table.values.length := by omega
    refine ⟨getElem_mem hi,?_,(hbefore _ hi).mp (by omega)⟩
    rw [← Bool.not_eq_true,← lt_lowerBound_iff pfx hi]
    omega
  · rintro ⟨hmem,hfirst,hnext⟩
    obtain ⟨i,hi,rfl⟩ := getElem_of_mem hmem
    rw [← Bool.not_eq_true,← lt_lowerBound_iff pfx hi] at hfirst
    have hlt := (hbefore i hi).mpr hnext
    refine ⟨i - table.lowerBound pfx,?_,?_⟩
    · rw [length_drop,length_take]
      omega
    · rw [getElem_drop,getElem_take]
      congr 1
      omega

/-- Between a full name and the next one, there are entries of that name only. -/
theorem length_of_mem_findPrefixRange (h : table.findPrefixRange pfx = some range) (hmem : e ∈ range)
    (hnext : hasNextDigest pfx = true) : pfx.length = e.data.name.length + 1 := by
  obtain ⟨_,hfirst,hlast⟩ := (mem_findPrefixRange h).mp hmem
  have hne : pfx ≠ [] := by
    rintro rfl
    exact nomatch hnext
  obtain ⟨s,hs⟩ := exists_getSuccessor_of_findPrefixRange h hne
  have hfull := (isFullName_getSuccessor hne hs).trans hnext
  have hlast := hlast hne s hs
  obtain ⟨p,c,rfl⟩ := (eq_nil_or_concat pfx).resolve_left hne
  rw [concat_eq_append] at *
  obtain ⟨d,_,rfl⟩ := Name.getSuccessor?_concat.mp hs
  rw [hasNextDigest,getLast?_concat] at hnext
  have hdigest := (Bool.and_eq_true_iff.mp hnext).1
  rw [isFullName_concat] at hfull
  rw [isBefore_of_isFullName hfull,CsEntry.key,Prod.Lex.toLex_lt_toLex] at hlast
  rw [← Bool.not_eq_true,isBefore_of_isFullName hdigest,CsEntry.key,Prod.Lex.toLex_lt_toLex,
    not_or] at hfirst
  rcases hlast with hlast | hlast
  · exact absurd hlast hfirst.1
  · rw [length_append,show e.data.name = p from hlast.1]
    rfl

end Range

section Search

variable {κ : Type} [CanonicalComponent κ] {table : CsTable κ} {e : CsEntry κ} {pfx s : List κ}
  {range : List (CsEntry κ)}

theorem isBefore_getSuccessor (hne : pfx ≠ []) (hs : Name.getSuccessor? pfx = some s)
    (h : isBefore e pfx = true) : isBefore e s = true := by
  have hfull := isFullName_getSuccessor hne hs
  obtain ⟨p,c,rfl⟩ := (eq_nil_or_concat pfx).resolve_left hne
  rw [concat_eq_append] at *
  obtain ⟨d,hd,rfl⟩ := Name.getSuccessor?_concat.mp hs
  have hlt := Name.lt_of_encode_getSuccessor hd
  rw [isFullName_concat,hasNextDigest,getLast?_concat] at hfull
  rw [isBefore_concat] at h ⊢
  split_ifs at h ⊢ with hd' hc hc
  · exact h.trans (Prod.Lex.toLex_lt_toLex.mpr (Or.inr ⟨rfl,(CanonicalComponent.lt_iff c d).mp hlt⟩))
  · rw [hd'] at hfull
    exact absurd (Bool.and_eq_true_iff.mp hfull.symm).1 hc
  · rw [CsEntry.key,Prod.Lex.toLex_lt_toLex] at h
    rcases h with h | ⟨h,_⟩
    · exact lt_trans h (Name.lt_concat p d)
    · exact lt_of_eq_of_lt h (Name.lt_concat p d)
  · exact h.trans (Name.lt_append_of_lt hlt [])

/-- With a successor, the iterators are in order. -/
theorem exists_findPrefixRange (table : CsTable κ)
    (h : pfx ≠ [] → ∃ s, Name.getSuccessor? pfx = some s) :
    ∃ range, table.findPrefixRange pfx = some range := by
  by_cases hne : pfx = []
  · subst hne
    exact ⟨_,findPrefixRange_eq_some_iff.mpr ⟨_,rfl,findIdx_le_length,rfl⟩⟩
  · obtain ⟨s,hs⟩ := h hne
    refine ⟨_,findPrefixRange_eq_some_iff.mpr ⟨table.lowerBound s,?_,?_,rfl⟩⟩
    · rw [if_pos (length_pos_of_ne_nil hne),hs]
      rfl
    by_contra hlt
    have hi : table.lowerBound s < table.values.length :=
      lt_of_lt_of_le (not_le.mp hlt) findIdx_le_length
    have hbefore := isBefore_getSuccessor hne hs ((lt_lowerBound_iff pfx hi).mp (not_le.mp hlt))
    exact lt_irrefl _ ((lt_lowerBound_iff s hi).mpr hbefore)

theorem mem_findPrefixRange_of_isPrefix (hrange : table.findPrefixRange pfx = some range)
    (hmem : e ∈ table.values) (h : pfx <+: e.data.name) (hnext : hasNextDigest pfx = false) :
    e ∈ range := by
  rw [mem_findPrefixRange hrange]
  refine ⟨hmem,?_,fun hne s hs => ?_⟩
  · rw [← Bool.not_eq_true]
    rcases eq_nil_or_concat pfx with rfl | ⟨p,d,rfl⟩
    · rw [isBefore_of_not_isFullName rfl]
      exact Name.not_lt_of_extends h
    · rw [concat_eq_append] at h ⊢
      rw [isBefore_concat]
      split_ifs
      · rw [CsEntry.key,Prod.Lex.toLex_lt_toLex]
        have hlt : p < e.data.name :=
          lt_of_lt_of_le (Name.lt_concat p d) (not_lt.mp (Name.not_lt_of_extends h))
        rintro (hgt | ⟨heq,_⟩)
        · exact hlt.asymm hgt
        · exact hlt.ne heq.symm
      · exact Name.not_lt_of_extends h
  · rw [isBefore_of_not_isFullName ((isFullName_getSuccessor hne hs).trans hnext)]
    exact Name.lt_getSuccessor?_of_extends hne h hs

theorem mem_findPrefixRange_of_getFullName (hrange : table.findPrefixRange pfx = some range)
    (hmem : e ∈ table.values) (h : toName pfx = e.data.getFullName) (hfull : isFullName pfx = true) :
    e ∈ range := by
  rw [mem_findPrefixRange hrange]
  have hne : pfx ≠ [] := by
    rintro rfl
    exact nomatch hfull
  have hnot : isBefore e pfx = false := by
    obtain ⟨p,d,rfl⟩ := (eq_nil_or_concat pfx).resolve_left hne
    rw [concat_eq_append] at h hfull ⊢
    rw [toName_concat] at h
    obtain ⟨hname,hdigest⟩ := append_inj' h rfl
    obtain rfl := toName_inj.mp hname
    rw [isFullName_concat] at hfull
    rw [← Bool.not_eq_true,isBefore_of_isFullName hfull,(cons.inj hdigest).1]
    exact lt_irrefl _
  refine ⟨hmem,hnot,fun _ s hs => ?_⟩
  obtain ⟨p,c,rfl⟩ := (eq_nil_or_concat pfx).resolve_left hne
  rw [concat_eq_append] at h hs
  rw [toName_concat] at h
  obtain ⟨hname,hdigest⟩ := append_inj' h rfl
  obtain rfl := toName_inj.mp hname
  obtain ⟨d,hd,rfl⟩ := Name.getSuccessor?_concat.mp hs
  rw [isBefore_concat]
  split_ifs
  · refine Prod.Lex.toLex_lt_toLex.mpr (Or.inr ⟨rfl,?_⟩)
    have hlt := (CanonicalComponent.lt_iff c d).mp (Name.lt_of_encode_getSuccessor hd)
    rwa [(cons.inj hdigest).1] at hlt
  · exact Name.lt_concat _ _

theorem name_of_canSatisfy {now : Time} {interest : Interest κ}
    (h : e.canSatisfy now interest = true) :
    toName interest.name = e.data.getFullName ∧ isFullName interest.name = true ∨
      interest.name.length ≠ e.data.name.length + 1 ∧ interest.name <+: e.data.name := by
  have hmatch : interest.matchesData e.data = true := by
    by_contra hno
    rw [CsEntry.canSatisfy,if_pos (Bool.eq_false_of_not_eq_true hno)] at h
    exact nomatch h
  unfold Interest.matchesData at hmatch
  dsimp only at hmatch
  split_ifs at hmatch with hlength hcan
  · obtain ⟨hfull,hname⟩ := Bool.and_eq_true_iff.mp (Bool.and_eq_true_iff.mp hmatch).1
    rw [toName,getLast?_map,Option.any_map] at hfull
    exact Or.inl ⟨of_decide_eq_true hname,hfull⟩
  · simp only [Bool.and_eq_true,List.isPrefixOf_iff_prefix,toName_prefix_iff] at hmatch
    exact Or.inr ⟨hlength,hmatch.1⟩
  · simp only [Bool.and_eq_true,decide_eq_true_eq,toName_inj] at hmatch
    exact Or.inr ⟨hlength,hmatch.1 ▸ prefix_rfl⟩

end Search

namespace Cs

section Matches

variable {cs : Cs κ} {now : Time} {interest : Interest κ} {e : CsEntry κ}

theorem mem_of_findMatch (h : cs.findMatch interest now = some (some e)) :
    e ∈ cs.table.values ∧ e.canSatisfy now interest = true := by
  unfold findMatch at h
  split_ifs at h
  · exact nomatch h
  · obtain ⟨range,hrange,hfind⟩ := map_eq_some_iff.mp h
    refine ⟨((mem_findPrefixRange hrange).mp (mem_of_find?_eq_some hfind)).1,?_⟩
    exact List.find?_some (p := fun e : CsEntry κ => e.canSatisfy now interest) hfind

theorem exists_findMatch {range : List (CsEntry κ)} (hserve : cs.shouldServe = true)
    (hlimit : cs.size ≤ cs.limit) (hrange : cs.table.findPrefixRange interest.name = some range) :
    ∃ r, cs.findMatch interest now = some r ∧
      (r.isSome = true ↔ ∃ e ∈ range, e.canSatisfy now interest = true) := by
  unfold findMatch
  split_ifs with hzero
  · refine ⟨none,rfl,iff_of_false (by simp) ?_⟩
    rintro ⟨e,he,_⟩
    have hpos : 0 < cs.size := length_pos_of_mem ((mem_findPrefixRange hrange).mp he).1
    simp only [hserve,Bool.not_true,Bool.false_or,decide_eq_true_eq] at hzero
    omega
  · rw [hrange]
    exact ⟨_,rfl,find?_isSome⟩

end Matches

section Completeness

variable {κ : Type} [CanonicalComponent κ] {cs : Cs κ} {now : Time} {interest : Interest κ}

theorem exists_findMatch_iff (hserve : cs.shouldServe = true) (hlimit : cs.size ≤ cs.limit)
    (hnext : interest.name ≠ [] → ∃ s, Name.getSuccessor? interest.name = some s) :
    ∃ r, cs.findMatch interest now = some r ∧ (r.isSome = true ↔
      ∃ e ∈ cs.table.values, e.canSatisfy now interest = true ∧
        (hasNextDigest interest.name = true → e.data.getFullName = toName interest.name)) := by
  obtain ⟨range,hrange⟩ := exists_findPrefixRange cs.table hnext
  obtain ⟨r,hr,hiff⟩ := exists_findMatch hserve hlimit hrange
  refine ⟨r,hr,hiff.trans ?_⟩
  constructor
  · rintro ⟨e,he,hsat⟩
    refine ⟨e,((mem_findPrefixRange hrange).mp he).1,hsat,fun hdigest => ?_⟩
    rcases name_of_canSatisfy hsat with hfull | hpfx
    · exact hfull.1.symm
    · exact absurd (length_of_mem_findPrefixRange hrange he hdigest) hpfx.1
  · rintro ⟨e,he,hsat,hdigest⟩
    refine ⟨e,?_,hsat⟩
    rcases name_of_canSatisfy hsat with hfull | hpfx
    · exact mem_findPrefixRange_of_getFullName hrange he hfull.1 hfull.2
    · apply mem_findPrefixRange_of_isPrefix hrange he hpfx.2
      by_contra hno
      apply hpfx.1
      rw [← length_toName interest.name,← hdigest (Bool.eq_true_of_not_eq_false hno),
        Data.getFullName,length_append,length_toName]
      rfl

end Completeness

/-- Names in the shortest form, whose last component the constructor accepts. A lookup finds what it
should, unless the Interest asks for a digest and only names with that digest in them match. -/
theorem find_iff_satisfiable (nMaxPackets : Nat) (ops : List (Op ShortestComponent))
    (cs : Cs ShortestComponent) (hrun : run nMaxPackets ops = some cs)
    (hserve : cs.shouldServe = true) (now : Time) (interest : Interest ShortestComponent)
    (hlast : ∀ c ∈ (toName interest.name).getLast?, c.IsValid ∧ c.value.length + 1 < 2^64) :
    ∃ r, cs.findMatch interest now = some r ∧
      (∀ e, r = some e → e ∈ cs.table.values ∧ e.canSatisfy now interest = true) ∧
      ((r.isSome = true ↔ ∃ e ∈ cs.table.values, e.canSatisfy now interest = true) ↔
        (hasNextDigest interest.name = true →
          (∃ e ∈ cs.table.values, e.canSatisfy now interest = true) →
          ∃ e ∈ cs.table.values, e.canSatisfy now interest = true ∧
            e.data.getFullName = toName interest.name)) := by
  obtain ⟨r,hr,hiff⟩ := exists_findMatch_iff hserve (size_le_limit hrun)
    (ShortestComponent.exists_getSuccessor hlast)
  refine ⟨r,hr,?_,?_⟩
  · rintro e rfl
    exact mem_of_findMatch hr
  · rw [hiff]
    constructor
    · intro hiff hnext hsat
      obtain ⟨e,he,hsat,hfull⟩ := hiff.mpr hsat
      exact ⟨e,he,hsat,hfull hnext⟩
    · intro hcond
      constructor
      · rintro ⟨e,he,hsat,_⟩
        exact ⟨e,he,hsat⟩
      · intro hsat
        cases hnext : hasNextDigest interest.name with
        | false =>
          obtain ⟨e,he,hsat⟩ := hsat
          exact ⟨e,he,hsat,nofun⟩
        | true =>
          obtain ⟨e,he,hsat,hfull⟩ := hcond hnext hsat
          exact ⟨e,he,hsat,fun _ => hfull⟩

def zeroDigestComponent : ShortestComponent :=
  .ofComponent ⟨Component.implicitSha256Digest,replicate 32 0⟩ (by decide)

def storesDigest : Op ShortestComponent :=
  .insert { name := [letterA], digest := replicate 32 0 } false false 0 0

theorem find_iff_satisfiable_digest : ∃ cs r, run 1 [storesDigest] = some cs ∧
    cs.findMatch { name := [letterA,zeroDigestComponent], nonce := [] } 0 = some r ∧
    (r.isSome = true ↔ ∃ e ∈ cs.table.values, e.canSatisfy 0
      { name := [letterA,zeroDigestComponent], nonce := [] } = true) := by
  refine ⟨_,_,rfl,rfl,?_⟩
  obtain ⟨r,hr,_,hiff⟩ := find_iff_satisfiable 1 [storesDigest] _ rfl rfl 0
    { name := [letterA,zeroDigestComponent], nonce := [] } (by decide +kernel)
  cases hr
  exact hiff.mpr (by decide +kernel)

def storesDigestName : Op ShortestComponent :=
  .insert { name := [letterA,zeroDigestComponent], digest := replicate 32 1 } false false 0 0

def storesLongForm : Op WireComponent :=
  .insert { name := [longFormA], digest := replicate 32 0 } false false 0 0

/-- Data whose name ends with a component of digest type is not found by its name, nor Data in the
long form by the same name in the short form. -/
theorem find_misses_digest_component :
    (∃ cs, run 1 [storesDigestName] = some cs ∧ cs.shouldServe = true ∧
      (∃ e ∈ cs.table.values, e.canSatisfy 0
        { name := [letterA,zeroDigestComponent], nonce := [] } = true) ∧
      cs.findMatch { name := [letterA,zeroDigestComponent], nonce := [] } 0 = some none) ∧
    ∃ cs, run 1 [storesLongForm] = some cs ∧ cs.shouldServe = true ∧
      (∃ e ∈ cs.table.values, e.canSatisfy 0 { name := [shortFormA], nonce := [] } = true) ∧
      cs.findMatch { name := [shortFormA], nonce := [] } 0 = some none := by
  refine ⟨⟨_,rfl,rfl,?_⟩,⟨_,rfl,rfl,?_⟩⟩
  · decide +kernel
  · decide +kernel

end Cs

end KiteNdn.Table
