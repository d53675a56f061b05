import Mathlib.Algebra.Order.Group.Int
import KiteNdn.Framework.Run

/-!
# The scheduler

A step is a call of the application, from outside or from a callback, a wait that completes, or a
part of `executeEvent`: up to the first callback, or from the end of a callback to the next. The
handler of a completed wait runs some time later. Clock readings are given by the time that has
passed, so the clock does not go back.
-/

namespace KiteNdn.Util.Scheduler

open Framework List

structure EventInfo where
  id : Nat
  expireTime : Int
  deriving DecidableEq

structure Wait where
  expiry : Int
  /-- What `expiresFromNow` has read from the clock. -/
  first : Int
  /-- What the timer has read from the clock. -/
  second : Int

/-- A callback that was started, and the events that were left in the queue. -/
structure Executed where
  info : EventInfo
  time : Int
  queue : List EventInfo

structure State where
  queue : List EventInfo := []
  /-- While a callback is running, what `executeEvent` has read from the clock. -/
  executing : Option Int := none
  wait : Option Wait := none
  handlers : Nat := 0
  clock : Int := 0
  nextId : Nat := 0
  /-- Nothing reads it. -/
  executed : List Executed := []
  /-- Nothing reads it. -/
  cancelled : List Nat := []

def insert (info : EventInfo) : List EventInfo → List EventInfo
  | [] => [info]
  | head :: queue =>
    if info.expireTime < head.expireTime then info :: head :: queue else head :: insert info queue

namespace State

def elapse (s : State) (d : Nat) : State := { s with clock := s.clock + d }

def scheduleNext (s : State) (d₁ d₂ : Nat) : State :=
  match s.queue with
  | [] => s
  | head :: _ =>
    let first := s.clock + d₁
    let second := first + d₂
    { s with
      clock := second
      wait := some ⟨second + max (head.expireTime - first) 0,first,second⟩ }

def schedule (s : State) (after : Int) (d d₁ d₂ : Nat) : State :=
  let s := s.elapse d
  let info : EventInfo := ⟨s.nextId,s.clock + after⟩
  let s := { s with queue := insert info s.queue, nextId := s.nextId + 1 }
  if s.executing = none ∧ s.queue.head? = some info then s.scheduleNext d₁ d₂ else s

def cancelImpl (s : State) (id : Nat) (d₁ d₂ : Nat) : State :=
  if ∀ info ∈ s.queue, info.id ≠ id then s
  else
    let s := { s with
      wait := if s.queue.head?.any fun info => info.id = id then none else s.wait
      queue := s.queue.filter fun info => info.id ≠ id
      cancelled := s.cancelled ++ [id] }
    if s.executing = none then s.scheduleNext d₁ d₂ else s

def cancelAllEvents (s : State) : State :=
  { s with queue := [], wait := none, cancelled := s.cancelled ++ s.queue.map EventInfo.id }

def guard (s : State) (d₁ d₂ : Nat) : State := { s with executing := none }.scheduleNext d₁ d₂

def executeEvents (s : State) (now : Int) (d₁ d₂ : Nat) : State :=
  match s.queue with
  | [] => s.guard d₁ d₂
  | info :: queue =>
    if info.expireTime > now then s.guard d₁ d₂
    else
      { s with
        queue
        executing := some now
        executed := s.executed ++ [⟨info,s.clock,queue⟩] }

end State

/-- The numbers are the times that pass before the clock is read. -/
inductive Event where
  | schedule (after : Int) (d d₁ d₂ : Nat)
  | cancel (id : Nat) (d₁ d₂ : Nat)
  | cancelAllEvents
  | waitCompletes
  | handlerRuns (d d₁ d₂ : Nat)
  | callbackReturns (d d₁ d₂ : Nat)
  | callbackThrows (d d₁ d₂ : Nat)

def step (s : State) : Event → State
  | .schedule after d d₁ d₂ => s.schedule after d d₁ d₂
  | .cancel id d₁ d₂ => s.cancelImpl id d₁ d₂
  | .cancelAllEvents => s.cancelAllEvents
  | .waitCompletes =>
    match s.wait with
    | none => s
    | some _ => { s with wait := none, handlers := s.handlers + 1 }
  | .handlerRuns d d₁ d₂ =>
    if s.handlers = 0 ∨ s.executing ≠ none then s
    else
      let s := { s with handlers := s.handlers - 1 }.elapse d
      s.executeEvents s.clock d₁ d₂
  | .callbackReturns d d₁ d₂ =>
    match s.executing with
    | none => s
    | some now => (s.elapse d).executeEvents now d₁ d₂
  | .callbackThrows d d₁ d₂ => if s.executing = none then s else (s.elapse d).guard d₁ d₂

def run (events : List Event) : State := events.foldl step {}

/-- The order of expiry, and first in, first out. -/
def Before (a b : EventInfo) : Prop :=
  a.expireTime < b.expireTime ∨ a.expireTime = b.expireTime ∧ a.id < b.id

/-- The event that a wait is for decides when it expires, up to the time between two readings. -/
def Wait.IsFor (wait : Wait) (info : EventInfo) : Prop :=
  wait.expiry = max info.expireTime wait.first + (wait.second - wait.first) ∧
    wait.first ≤ wait.second

/-- Every event was executed once, or was cancelled, or is queued, and only one of these. -/
structure Queued (s : State) : Prop where
  once : (s.executed.map (fun e => e.info.id) ++ s.cancelled ++ s.queue.map EventInfo.id).Perm
    (List.range s.nextId)
  notEarly : ∀ e ∈ s.executed, e.info.expireTime ≤ e.time
  inOrder : ∀ e ∈ s.executed, ∀ info ∈ e.queue, Before e.info info
  sorted : s.queue.Pairwise Before
  loop : ∀ now, s.executing = some now → now ≤ s.clock

/-- While no callback is running, the timer waits for the next event, unless a handler is to run. -/
def Waiting (s : State) : Prop := s.executing = none → ∀ info ∈ s.queue.head?,
  0 < s.handlers ∨ ∃ wait, s.wait = some wait ∧ wait.IsFor info ∧ wait.second ≤ s.clock

section Invariant

variable {s : State}

theorem perm_insert (info : EventInfo) (queue : List EventInfo) :
    (insert info queue).Perm (info :: queue) := by
  induction queue with
  | nil => exact List.Perm.refl _
  | cons head queue ih =>
    unfold insert
    split_ifs
    · exact List.Perm.refl _
    · exact (ih.cons head).trans (List.Perm.swap info head queue)

theorem sorted_insert {info : EventInfo} {queue : List EventInfo} (h : queue.Pairwise Before)
    (hnew : ∀ other ∈ queue, other.id < info.id) : (insert info queue).Pairwise Before := by
  induction queue with
  | nil => exact pairwise_singleton _ _
  | cons head queue ih =>
    obtain ⟨hhead,hqueue⟩ := pairwise_cons.mp h
    unfold insert
    split_ifs with hlt
    · refine pairwise_cons.mpr ⟨forall_mem_cons.mpr ⟨Or.inl hlt,fun other hother => ?_⟩,h⟩
      have := hhead other hother
      unfold Before at this ⊢
      omega
    · refine pairwise_cons.mpr ⟨fun other hother => ?_,
        ih hqueue fun other hother => hnew other (mem_cons_of_mem _ hother)⟩
      cases mem_cons.mp ((perm_insert info queue).mem_iff.mp hother) with
      | inl heq =>
        have := hnew head mem_cons_self
        unfold Before
        rw [heq]
        omega
      | inr hmem => exact hhead other hmem

theorem Queued.elapse (h : Queued s) (d : Nat) : Queued (s.elapse d) :=
  ⟨h.once,h.notEarly,h.inOrder,h.sorted,fun now hnow =>
    (h.loop now hnow).trans (Int.le_add_of_nonneg_right (Int.natCast_nonneg d))⟩

theorem Queued.scheduleNext (h : Queued s) (d₁ d₂ : Nat) :
    Queued (s.scheduleNext d₁ d₂) ∧ Waiting (s.scheduleNext d₁ d₂) := by
  unfold State.scheduleNext
  split
  · next hqueue => exact ⟨h,fun _ info hinfo => by simp [hqueue] at hinfo⟩
  · next head queue hqueue =>
    refine ⟨⟨h.once,h.notEarly,h.inOrder,h.sorted,fun now hnow => ?_⟩,fun _ info hinfo => ?_⟩
    · have := h.loop now hnow
      show now ≤ s.clock + d₁ + d₂
      omega
    · simp only [hqueue,head?_cons,Option.mem_some_iff] at hinfo
      subst hinfo
      refine Or.inr ⟨_,rfl,⟨?_,?_⟩,Int.le_refl _⟩
      · dsimp only
        omega
      · dsimp only
        omega

theorem Queued.guard (h : Queued s) (d₁ d₂ : Nat) :
    Queued (s.guard d₁ d₂) ∧ Waiting (s.guard d₁ d₂) := by
  have hguard : Queued { s with executing := none } :=
    ⟨h.once,h.notEarly,h.inOrder,h.sorted,nofun⟩
  exact hguard.scheduleNext d₁ d₂

theorem Queued.executeEvents (h : Queued s) {now : Int} (hnow : now ≤ s.clock) (d₁ d₂ : Nat) :
    Queued (s.executeEvents now d₁ d₂) ∧ Waiting (s.executeEvents now d₁ d₂) := by
  unfold State.executeEvents
  split
  · exact h.guard d₁ d₂
  · next info queue hqueue =>
    split_ifs with hlater
    · exact h.guard d₁ d₂
    · have hsorted := h.sorted
      rw [hqueue] at hsorted
      obtain ⟨hhead,htail⟩ := pairwise_cons.mp hsorted
      refine ⟨⟨?_,?_,?_,htail,fun _ heq => Option.some.inj heq ▸ hnow⟩,nofun⟩
      · refine List.Perm.trans ?_ h.once
        simp only [hqueue,map_append,map_cons,map_nil,append_assoc,cons_append,nil_append]
        refine List.Perm.append_left _ ?_
        exact perm_middle.symm
      · refine forall_mem_append.mpr ⟨h.notEarly,forall_mem_singleton.mpr ?_⟩
        dsimp only
        omega
      · exact forall_mem_append.mpr ⟨h.inOrder,forall_mem_singleton.mpr hhead⟩

private theorem head?_insert (info : EventInfo) (queue : List EventInfo) :
    (insert info queue).head? = some info ∨ (insert info queue).head? = queue.head? := by
  cases queue with
  | nil => exact Or.inl rfl
  | cons head queue =>
    unfold insert
    split_ifs
    · exact Or.inl rfl
    · exact Or.inr rfl

theorem Queued.schedule (h : Queued s) (hw : Waiting s) (after : Int) (d d₁ d₂ : Nat) :
    Queued (s.schedule after d d₁ d₂) ∧ Waiting (s.schedule after d d₁ d₂) := by
  let info : EventInfo := ⟨s.nextId,s.clock + d + after⟩
  have hnew : ∀ other ∈ s.queue, other.id < s.nextId := fun other hother =>
    mem_range.mp (h.once.mem_iff.mp (mem_append_right _ (mem_map_of_mem hother)))
  have hqueued : Queued
      { s.elapse d with queue := insert info s.queue, nextId := s.nextId + 1 } := by
    refine ⟨?_,h.notEarly,h.inOrder,sorted_insert h.sorted hnew,(h.elapse d).loop⟩
    rw [range_succ]
    refine ((((perm_insert info s.queue).map _).append_left _).trans ?_)
    refine perm_middle.trans ((h.once.cons _).trans ?_)
    exact (perm_append_singleton _ _).symm
  unfold State.schedule
  dsimp only
  split_ifs with hfirst
  · exact hqueued.scheduleNext d₁ d₂
  · refine ⟨hqueued,fun hidle other hother => ?_⟩
    -- The event at the head has not changed.
    have hhead : (insert info s.queue).head? = s.queue.head? :=
      (head?_insert info s.queue).resolve_left fun hinfo => hfirst ⟨hidle,hinfo⟩
    obtain hhandlers | ⟨wait,hwait,hfor,hclock⟩ := hw hidle other (hhead ▸ hother)
    · exact Or.inl hhandlers
    · exact Or.inr ⟨wait,hwait,hfor,hclock.trans
        (Int.le_add_of_nonneg_right (Int.natCast_nonneg d))⟩

theorem Queued.cancelImpl (h : Queued s) (hw : Waiting s) (id d₁ d₂ : Nat) :
    Queued (s.cancelImpl id d₁ d₂) ∧ Waiting (s.cancelImpl id d₁ d₂) := by
  unfold State.cancelImpl
  by_cases habsent : ∀ info ∈ s.queue, info.id ≠ id
  · rw [if_pos habsent]
    exact ⟨h,hw⟩
  · rw [if_neg habsent]
    have hmem : id ∈ s.queue.map EventInfo.id := by simpa using habsent
    have hnodup : (s.queue.map EventInfo.id).Nodup :=
      (h.once.nodup_iff.mpr nodup_range).sublist (sublist_append_right _ _)
    have herase : (s.queue.filter fun info => info.id ≠ id).map EventInfo.id =
        (s.queue.map EventInfo.id).erase id := by
      rw [hnodup.erase_eq_filter,filter_map]
      exact congrArg _ (filter_congr fun info _ => Bool.eq_iff_iff.mpr (by simp))
    have hqueued : ∀ wait, Queued { s with
        wait
        queue := s.queue.filter fun info => info.id ≠ id
        cancelled := s.cancelled ++ [id] } := by
      refine fun wait => ⟨?_,h.notEarly,h.inOrder,h.sorted.filter _,h.loop⟩
      refine List.Perm.trans ?_ h.once
      dsimp only
      rw [herase,append_assoc,append_assoc,append_assoc]
      exact ((perm_cons_erase hmem).symm.append_left _).append_left _
    dsimp only
    by_cases hidle : s.executing = none
    · rw [if_pos hidle]
      exact (hqueued _).scheduleNext d₁ d₂
    · rw [if_neg hidle]
      exact ⟨hqueued _,fun hnone => absurd hnone hidle⟩

theorem step_spec (h : Queued s ∧ Waiting s) (event : Event) :
    Queued (step s event) ∧ Waiting (step s event) := by
  obtain ⟨hq,hw⟩ := h
  cases event with
  | schedule after d d₁ d₂ => exact hq.schedule hw after d d₁ d₂
  | cancel id d₁ d₂ => exact hq.cancelImpl hw id d₁ d₂
  | cancelAllEvents =>
    refine ⟨⟨?_,hq.notEarly,hq.inOrder,List.Pairwise.nil,hq.loop⟩,fun _ info hinfo => nomatch hinfo⟩
    simpa [step,State.cancelAllEvents] using hq.once
  | waitCompletes =>
    unfold step
    dsimp only
    split
    · exact ⟨hq,hw⟩
    · exact ⟨⟨hq.once,hq.notEarly,hq.inOrder,hq.sorted,hq.loop⟩,fun _ _ _ =>
        Or.inl (Nat.succ_pos _)⟩
  | handlerRuns d d₁ d₂ =>
    unfold step
    dsimp only
    split_ifs
    · exact ⟨hq,hw⟩
    · have hhandler : Queued { s with handlers := s.handlers - 1 } :=
        ⟨hq.once,hq.notEarly,hq.inOrder,hq.sorted,hq.loop⟩
      exact (hhandler.elapse d).executeEvents (Int.le_refl _) d₁ d₂
  | callbackReturns d d₁ d₂ =>
    unfold step
    dsimp only
    split
    · exact ⟨hq,hw⟩
    · next now hnow => exact (hq.elapse d).executeEvents ((hq.elapse d).loop now hnow) d₁ d₂
  | callbackThrows d d₁ d₂ =>
    unfold step
    dsimp only
    split_ifs
    · exact ⟨hq,hw⟩
    · exact (hq.elapse d).guard d₁ d₂

/-- Callbacks run at most once, not early, not after they were cancelled and in order; and the timer
waits for the next event, late by the time between its two clock readings at most. -/
theorem run_scheduled (events : List Event) : Queued (run events) ∧ Waiting (run events) := by
  refine foldl_keeps (fun s => Queued s ∧ Waiting s) (fun s event h => step_spec h event) events
    ⟨⟨List.Perm.refl _,?_,?_,List.Pairwise.nil,nofun⟩,fun _ info hinfo => nomatch hinfo⟩
  · exact forall_mem_nil _
  · exact forall_mem_nil _

/-- The clock advances between the two readings. -/
theorem run_waits_longer : ∃ info wait, (run [.schedule 10 0 0 1]).queue = [info] ∧
    (run [.schedule 10 0 0 1]).executing = none ∧ (run [.schedule 10 0 0 1]).handlers = 0 ∧
    (run [.schedule 10 0 0 1]).wait = some wait ∧ info.expireTime < wait.expiry :=
  ⟨_,_,rfl,rfl,rfl,rfl,by decide⟩

end Invariant

end KiteNdn.Util.Scheduler
