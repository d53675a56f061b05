import KiteNdn.Encoding.Tlv
import KiteNdn.Framework.Run
import KiteNdn.Fw.Packet

/-!
# The Dead Nonce List

A queue of hashes of names and nonces, with a hash index. The number of marks in the queue says
whether the capacity is too small or too large for the lifetime. What is only there for the proofs
is the time of each addition, counted in additions, and a list of evicted positions with the queues
they left.
-/

namespace KiteNdn

open List Function

def Name.wireEncode (name : Name) : List UInt8 :=
  Tlv.Block.encode ⟨7,name.flatMap fun c => Tlv.Block.encode ⟨c.type,c.value⟩⟩

namespace Table

open Framework

section Recent

variable {α : Type*} {p : α → Prop} {l : List α} {k : Nat}

/-- One of the last elements, with at most `k` behind it. -/
def Recent (p : α → Prop) (k : Nat) (l : List α) : Prop :=
  ∃ front a back, l = front ++ a :: back ∧ p a ∧ back.length ≤ k

theorem Recent.exists_mem (h : Recent p k l) : ∃ a ∈ l, p a := by
  obtain ⟨front,a,back,rfl,ha,_⟩ := h
  exact ⟨a,by simp,ha⟩

theorem recent_push {a : α} (ha : p a) (k : Nat) (l : List α) : Recent p k (l ++ [a]) :=
  ⟨l,a,[],rfl,ha,Nat.zero_le k⟩

theorem Recent.push (h : Recent p k l) (b : α) : Recent p (k + 1) (l ++ [b]) := by
  obtain ⟨front,a,back,rfl,ha,hk⟩ := h
  refine ⟨front,a,back ++ [b],by simp,ha,?_⟩
  rw [length_append]
  exact Nat.succ_le_succ hk

theorem Recent.relocate (h : Recent p k l) {i : Nat} {b : α} (hb : ∀ a, l[i]? = some a → p a → p b) :
    Recent p (k + 1) (l.eraseIdx i ++ [b]) := by
  obtain ⟨front,a,back,rfl,ha,hk⟩ := h
  rcases lt_trichotomy i front.length with hlt | heq | hgt
  · have hkept : Recent p k (front.eraseIdx i ++ a :: back) := ⟨_,a,back,rfl,ha,hk⟩
    rw [eraseIdx_append_of_lt_length hlt]
    exact hkept.push b
  · have hget : (front ++ a :: back)[i]? = some a := by simp [heq]
    exact recent_push (hb a hget ha) _ _
  · have hkept : Recent p k (front ++ a :: back.eraseIdx (i - front.length - 1)) := by
      refine ⟨_,a,_,rfl,ha,le_trans ?_ hk⟩
      exact (eraseIdx_sublist _ _).length_le
    rw [eraseIdx_append_of_length_le hgt.le,
      show i - front.length = (i - front.length - 1) + 1 by omega,eraseIdx_cons_succ]
    exact hkept.push b

theorem Recent.drop (h : Recent p k l) {n : Nat} (hn : n + k < l.length) : Recent p k (l.drop n) := by
  obtain ⟨front,a,back,rfl,ha,hk⟩ := h
  refine ⟨front.drop n,a,back,?_,ha,hk⟩
  rw [length_append,length_cons] at hn
  exact drop_append_of_le_length (by omega)

end Recent

structure Position where
  entry : UInt64
  addedAt : Nat
  deriving DecidableEq, Repr

/-- The hash index finds some position with an entry. -/
structure HashIndex where
  find : List Position → UInt64 → Option Nat
  find_none : ∀ queue entry, find queue entry = none → ∀ x ∈ queue, x.entry ≠ entry
  find_some : ∀ queue entry i, find queue entry = some i → queue[i]?.map Position.entry = some entry

def HashIndex.first : HashIndex where
  find queue entry := queue.findIdx? fun x => x.entry = entry
  find_none queue entry h x hx := by
    have hno := findIdx?_eq_none_iff.mp h x hx
    exact of_decide_eq_false hno
  find_some queue entry i h := by
    obtain ⟨hi,hentry,_⟩ := findIdx?_eq_some_iff_getElem.mp h
    rw [getElem?_eq_getElem hi,Option.map_some,of_decide_eq_true hentry]

/-- Products with `CAPACITY_DOWN` and `CAPACITY_UP`. -/
structure CapacityScale where
  down : Nat → Nat
  up : Nat → Nat
  le_up : ∀ capacity, capacity ≤ up capacity

structure DeadNonceList where
  queue : List Position
  capacity : Nat
  actualMarkCounts : List Nat := []
  clock : Nat
  evicted : List (Position × List Position) := []
  deriving DecidableEq, Repr

namespace DeadNonceList

def minLifetime : Time := 50000000

def initialCapacity : Nat := 2^14

def minCapacity : Nat := 2^10

def maxCapacity : Nat := 2^24

def markEntry : UInt64 := 0

def expectedMarkCount : Nat := 5

def evictLimit : Nat := 64

section Operations

variable (cityHash64WithSeed : List UInt8 → Nonce → UInt64)

def makeEntry (name : Name) (nonce : Nonce) : UInt64 := cityHash64WithSeed name.wireEncode nonce

def pushBack (d : DeadNonceList) (entry : UInt64) : DeadNonceList :=
  { d with queue := d.queue ++ [⟨entry,d.clock⟩], clock := d.clock + 1 }

def create (lifetime : Time) : Except String DeadNonceList :=
  if lifetime < minLifetime then .error "lifetime is less than MIN_LIFETIME"
  else .ok ((fun d => d.pushBack markEntry)^[expectedMarkCount]
    { queue := [], capacity := initialCapacity, clock := 0 })

def popFront (d : DeadNonceList) : DeadNonceList :=
  match d.queue with
  | [] => d
  | x :: rest => { d with queue := rest, evicted := d.evicted ++ [(x,rest)] }

def evictEntries (d : DeadNonceList) : DeadNonceList :=
  if d.queue.length ≤ d.capacity then d
  else popFront^[min (d.queue.length - d.capacity) evictLimit] d

def has (d : DeadNonceList) (name : Name) (nonce : Nonce) : Bool :=
  d.queue.any fun x => x.entry = makeEntry cityHash64WithSeed name nonce

def countMarks (d : DeadNonceList) : Nat := d.queue.countP fun x => x.entry = markEntry

/-- An entry that is listed moves to the end. -/
def add (index : HashIndex) (d : DeadNonceList) (name : Name) (nonce : Nonce) : DeadNonceList :=
  let entry := makeEntry cityHash64WithSeed name nonce
  match index.find d.queue entry with
  | some i => pushBack { d with queue := d.queue.eraseIdx i } entry
  | none => (d.pushBack entry).evictEntries

def mark (d : DeadNonceList) : DeadNonceList :=
  let d := d.pushBack markEntry
  { d with actualMarkCounts := d.countMarks :: d.actualMarkCounts }

/-- The capacity goes down if all counts are above the expected one, up if all are below. -/
def adjustedCapacity (scale : CapacityScale) (d : DeadNonceList) : Nat :=
  if d.actualMarkCounts.all (· > expectedMarkCount) then max minCapacity (scale.down d.capacity)
  else if d.actualMarkCounts.all (· < expectedMarkCount) then min maxCapacity (scale.up d.capacity)
  else d.capacity

def adjustCapacity (scale : CapacityScale) (d : DeadNonceList) : DeadNonceList :=
  evictEntries { d with capacity := d.adjustedCapacity scale, actualMarkCounts := [] }

inductive Op where
  | add (index : HashIndex) (name : Name) (nonce : Nonce)
  | mark
  | adjustCapacity (scale : CapacityScale)

def Op.isAddition : Op → Bool
  | .add _ _ _ => true
  | .mark => true
  | .adjustCapacity _ => false

def step (d : DeadNonceList) : Op → DeadNonceList
  | .add index name nonce => d.add cityHash64WithSeed index name nonce
  | .mark => d.mark
  | .adjustCapacity scale => d.adjustCapacity scale

def run (d : DeadNonceList) (ops : List Op) : DeadNonceList := ops.foldl (step cityHash64WithSeed) d

end Operations

section Evictions

variable {d : DeadNonceList}

theorem popFront_queue (d : DeadNonceList) : d.popFront.queue = d.queue.drop 1 := by
  unfold popFront
  cases hqueue : d.queue with
  | nil => exact hqueue
  | cons x rest => rfl

theorem popFront_iterate (d : DeadNonceList) (n : Nat) :
    (popFront^[n] d).queue = d.queue.drop n ∧ (popFront^[n] d).capacity = d.capacity := by
  induction n with
  | zero => exact ⟨rfl,rfl⟩
  | succ n ih =>
    rw [iterate_succ_apply',popFront_queue,ih.1,drop_drop]
    refine ⟨rfl,?_⟩
    rw [← ih.2,popFront]
    split <;> rfl

theorem evictEntries_spec (d : DeadNonceList) : ∃ n, d.evictEntries.queue = d.queue.drop n ∧
    d.evictEntries.capacity = d.capacity ∧ (n = 0 ∨ n + d.capacity ≤ d.queue.length) := by
  unfold evictEntries
  split_ifs with hover
  · exact ⟨0,rfl,rfl,Or.inl rfl⟩
  · obtain ⟨hqueue,hcapacity⟩ :=
      popFront_iterate d (min (d.queue.length - d.capacity) evictLimit)
    exact ⟨_,hqueue,hcapacity,Or.inr (by omega)⟩

theorem recent_evictEntries {p : Position → Prop} {k : Nat} (d : DeadNonceList)
    (h : Recent p k d.queue) (hk : k < d.capacity) : Recent p k d.evictEntries.queue := by
  obtain ⟨n,hqueue,_,hn⟩ := d.evictEntries_spec
  rw [hqueue]
  rcases hn with rfl | hn
  · exact h
  · exact h.drop (by omega)

end Evictions

section Retention

variable {cityHash64WithSeed : List UInt8 → Nonce → UInt64} {d : DeadNonceList}

theorem minCapacity_le_adjustedCapacity (h : minCapacity ≤ d.capacity) (scale : CapacityScale) :
    minCapacity ≤ d.adjustedCapacity scale := by
  unfold adjustedCapacity
  split_ifs
  · exact le_max_left _ _
  · exact le_min (by decide) (h.trans (scale.le_up _))
  · exact h

theorem minCapacity_le_step (h : minCapacity ≤ d.capacity) (op : Op) :
    minCapacity ≤ (d.step cityHash64WithSeed op).capacity := by
  have hevict : ∀ {d : DeadNonceList}, minCapacity ≤ d.capacity →
      minCapacity ≤ d.evictEntries.capacity := by
    intro d hd
    obtain ⟨_,_,hcapacity,_⟩ := d.evictEntries_spec
    rw [hcapacity]
    exact hd
  cases op with
  | add index name nonce =>
    rw [step,add]
    split
    · exact h
    · exact hevict h
  | mark => exact h
  | adjustCapacity scale => exact hevict (minCapacity_le_adjustedCapacity h scale)

theorem recent_pushBack (d : DeadNonceList) (entry : UInt64) :
    Recent (fun x => x.entry = entry) 0 (d.pushBack entry).queue :=
  ⟨d.queue,⟨entry,d.clock⟩,[],rfl,rfl,le_rfl⟩

theorem recent_add (cityHash64WithSeed : List UInt8 → Nonce → UInt64)
    (h : minCapacity ≤ d.capacity) (index : HashIndex) (name : Name) (nonce : Nonce) :
    Recent (fun x => x.entry = makeEntry cityHash64WithSeed name nonce) 0
      (d.add cityHash64WithSeed index name nonce).queue := by
  rw [add]
  split
  · exact recent_pushBack _ _
  · apply recent_evictEntries _ (recent_pushBack _ _)
    exact lt_of_lt_of_le (by decide) h

/-- An addition puts one position behind an entry, or moves the entry itself to the end. -/
theorem recent_step {entry : UInt64} {k : Nat} (h : Recent (fun x => x.entry = entry) k d.queue)
    (hcapacity : minCapacity ≤ d.capacity) (op : Op)
    (hk : k + (if op.isAddition then 1 else 0) < minCapacity) :
    Recent (fun x => x.entry = entry) (k + if op.isAddition then 1 else 0)
      (d.step cityHash64WithSeed op).queue := by
  cases op with
  | add index name nonce =>
    show Recent _ (k + 1) (d.add cityHash64WithSeed index name nonce).queue
    rw [add]
    cases hfind : index.find d.queue (makeEntry cityHash64WithSeed name nonce) with
    | some i =>
      apply h.relocate
      intro a ha hentry
      have hfound := index.find_some _ _ _ hfind
      rw [ha] at hfound
      exact (Option.some.inj hfound).symm.trans hentry
    | none => exact recent_evictEntries _ (h.push _) (lt_of_lt_of_le hk hcapacity)
  | mark => exact h.push _
  | adjustCapacity scale =>
    let adjusted := { d with capacity := d.adjustedCapacity scale, actualMarkCounts := [] }
    apply recent_evictEntries adjusted h
    exact lt_of_lt_of_le hk (minCapacity_le_adjustedCapacity hcapacity scale)

theorem recent_run (cityHash64WithSeed : List UInt8 → Nonce → UInt64) {entry : UInt64}
    (ops : List Op) {k : Nat} (h : Recent (fun x => x.entry = entry) k d.queue)
    (hcapacity : minCapacity ≤ d.capacity) (hk : k + ops.countP Op.isAddition < minCapacity) :
    Recent (fun x => x.entry = entry) (k + ops.countP Op.isAddition)
      (d.run cityHash64WithSeed ops).queue := by
  induction ops generalizing d k with
  | nil => exact h
  | cons op ops ih =>
    rw [countP_cons] at hk ⊢
    rw [show k + (ops.countP Op.isAddition + if op.isAddition then 1 else 0) =
      (k + if op.isAddition then 1 else 0) + ops.countP Op.isAddition by omega] at hk ⊢
    exact ih (recent_step h hcapacity op (by omega)) (minCapacity_le_step hcapacity op) hk

end Retention

section Order

variable {cityHash64WithSeed : List UInt8 → Nonce → UInt64} {d : DeadNonceList} {lifetime : Time}

/-- The queue is in the order of additions, and so were evictions. -/
structure Ordered (d : DeadNonceList) : Prop where
  sorted : d.queue.Pairwise fun x y => x.addedAt < y.addedAt
  lt_clock : ∀ x ∈ d.queue, x.addedAt < d.clock
  evicted : ∀ ev ∈ d.evicted, ∀ y ∈ ev.2, ev.1.addedAt < y.addedAt

namespace Ordered

theorem pushBack (h : Ordered d) (entry : UInt64) : Ordered (d.pushBack entry) := by
  refine ⟨?_,?_,h.evicted⟩
  · refine pairwise_append.mpr ⟨h.sorted,pairwise_singleton _ _,fun x hx y hy => ?_⟩
    obtain rfl := mem_singleton.mp hy
    exact h.lt_clock x hx
  · intro x hx
    rcases mem_append.mp hx with hx | hx
    · exact Nat.lt_succ_of_lt (h.lt_clock x hx)
    · obtain rfl := mem_singleton.mp hx
      exact Nat.lt_succ_self _

theorem popFront (h : Ordered d) : Ordered d.popFront := by
  have hsorted := h.sorted
  have hlt := h.lt_clock
  unfold DeadNonceList.popFront
  cases hqueue : d.queue with
  | nil => exact h
  | cons x rest =>
    rw [hqueue] at hsorted hlt
    refine ⟨hsorted.of_cons,fun y hy => hlt y (mem_cons_of_mem x hy),?_⟩
    intro ev hev
    rcases mem_append.mp hev with hev | hev
    · exact h.evicted ev hev
    · obtain rfl := mem_singleton.mp hev
      exact fun y hy => rel_of_pairwise_cons hsorted hy

theorem iterate {f : DeadNonceList → DeadNonceList} (hf : ∀ d, Ordered d → Ordered (f d))
    (h : Ordered d) (n : Nat) : Ordered (f^[n] d) := by
  induction n with
  | zero => exact h
  | succ n ih =>
    rw [iterate_succ_apply']
    exact hf _ ih

theorem evictEntries (h : Ordered d) : Ordered d.evictEntries := by
  unfold DeadNonceList.evictEntries
  split_ifs
  · exact h
  · exact h.iterate (fun _ hd => hd.popFront) _

theorem step (h : Ordered d) (op : Op) : Ordered (d.step cityHash64WithSeed op) := by
  cases op with
  | add index name nonce =>
    rw [DeadNonceList.step,add]
    split
    · apply pushBack
      exact ⟨h.sorted.sublist (eraseIdx_sublist _ _),
        fun x hx => h.lt_clock x (mem_of_mem_eraseIdx hx),h.evicted⟩
    · exact (h.pushBack _).evictEntries
  | mark =>
    have hpushed := h.pushBack markEntry
    exact ⟨hpushed.sorted,hpushed.lt_clock,hpushed.evicted⟩
  | adjustCapacity scale =>
    apply evictEntries
    exact ⟨h.sorted,h.lt_clock,h.evicted⟩

end Ordered

theorem create_eq (h : create lifetime = .ok d) :
    d = (fun d => pushBack d markEntry)^[expectedMarkCount]
      { queue := [], capacity := initialCapacity, clock := 0 } := by
  unfold create at h
  split_ifs at h
  exact (Except.ok.inj h).symm

theorem minCapacity_le_create (h : create lifetime = .ok d) : minCapacity ≤ d.capacity := by
  rw [create_eq h]
  decide

theorem ordered_create (h : create lifetime = .ok d) : Ordered d := by
  rw [create_eq h]
  apply Ordered.iterate fun _ hd => hd.pushBack _
  exact ⟨List.Pairwise.nil,fun _ h => absurd h not_mem_nil,fun _ h => absurd h not_mem_nil⟩

end Order

/-- A nonce is kept for as many additions as the least capacity, and what leaves the queue is what
was added least recently. -/
theorem run_retains (cityHash64WithSeed : List UInt8 → Nonce → UInt64) (lifetime : Time)
    (d : DeadNonceList) (hd : create lifetime = .ok d) :
    (∀ past future index name nonce, future.countP Op.isAddition < minCapacity →
      (d.run cityHash64WithSeed (past ++ .add index name nonce :: future)).has cityHash64WithSeed
        name nonce = true) ∧
    ∀ ops, ∀ ev ∈ (d.run cityHash64WithSeed ops).evicted, ∀ y ∈ ev.2, ev.1.addedAt < y.addedAt := by
  refine ⟨?_,?_⟩
  · intro past future index name nonce hfew
    have hcapacity : minCapacity ≤ (d.run cityHash64WithSeed past).capacity :=
      foldl_keeps (fun d : DeadNonceList => minCapacity ≤ d.capacity)
        (fun _ op h => minCapacity_le_step h op) past (minCapacity_le_create hd)
    have hadded := recent_add cityHash64WithSeed hcapacity index name nonce
    have hcapacity' : minCapacity ≤ (step cityHash64WithSeed (d.run cityHash64WithSeed past)
      (.add index name nonce)).capacity := minCapacity_le_step hcapacity _
    obtain ⟨x,hx,hentry⟩ := (recent_run cityHash64WithSeed future hadded hcapacity'
      (by omega)).exists_mem
    rw [run,foldl_append,foldl_cons,has,any_eq_true]
    exact ⟨x,hx,decide_eq_true hentry⟩
  · intro ops
    exact (foldl_keeps Ordered (fun _ op h => h.step op) ops (ordered_create hd)).evicted

theorem run_retains_mark : ∃ d, create 6000000000 = .ok d ∧
    (d.run (fun _ _ => 7) [.add HashIndex.first [Component.generic [97]] [1,2,3,4],.mark]).has
      (fun _ _ => 7) [Component.generic [97]] [1,2,3,4] = true := by
  refine ⟨_,rfl,?_⟩
  exact (run_retains (fun _ _ => 7) 6000000000 _ rfl).1 [] [.mark] HashIndex.first _ _ (by decide)

end DeadNonceList

end Table

end KiteNdn
