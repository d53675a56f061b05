import KiteNdn.Rib.UpdateQueue
import KiteNdn.Rib.UpdaterContext
import Mathlib.Data.List.Perm.Basic

/-!
# Each batch is decided once

As long as no response to a command of a failed batch is taken for one of the batch that came after
it, the queue works through its batches one by one, and each batch calls exactly one of its
callbacks.
-/

namespace KiteNdn.Routing

open Framework List Option

namespace UpdateQueue

/-- The batch of the command has already called one of its callbacks. -/
def Late (s : UpdateQueue) (c : Command) : Prop := ∃ d ∈ s.decisions, d.batch = c.batch

/-- Removing `x` from the list for its face leaves the list nonempty, and, while a batch is in
progress, as it is. -/
def Unaffected (s : UpdateQueue) (x : FibUpdate) : Prop :=
  (∃ y ∈ (s.fibUpdater.updatesFor x.faceId).items, y ≠ x) ∧
    (s.isUpdateInProgress = true → x ∉ (s.fibUpdater.updatesFor x.faceId).items)

/-- A response to a late command that is not taken for one of the batch computed last. -/
def Harmless (s : UpdateQueue) (c : Command) : Response → Prop
  | .success => s.Unaffected c.update
  | .error code => code = errorTimeout ∨
      c.update.faceId ≠ s.fibUpdater.batchFaceId ∧ s.Unaffected c.update

/-- Responses that come after their batch was decided are harmless. -/
def NoMixUp (s : UpdateQueue) : Event → Prop
  | .respond i response => ∀ c ∈ s.commands[i]?, s.Late c → s.Harmless c response
  | _ => True

instance (s : UpdateQueue) (c : Command) : Decidable (s.Late c) :=
  inferInstanceAs (Decidable (∃ d ∈ s.decisions, d.batch = c.batch))

instance (s : UpdateQueue) (x : FibUpdate) : Decidable (s.Unaffected x) :=
  inferInstanceAs (Decidable (_ ∧ _))

instance (s : UpdateQueue) (c : Command) : DecidablePred (s.Harmless c)
  | .success => inferInstanceAs (Decidable (s.Unaffected c.update))
  | .error _ => inferInstanceAs (Decidable (_ ∨ _))

instance (s : UpdateQueue) : DecidablePred s.NoMixUp
  | .respond i response =>
    inferInstanceAs (Decidable (∀ c ∈ s.commands[i]?, s.Late c → s.Harmless c response))
  | .apply _ | .removeFace _ | .removeFailedFaces _ | .elapse _ => .isTrue trivial

end UpdateQueue

/-- The responses that NFD gives: success, a missing face, or up to ten timeouts. -/
def Command.Answered (c : Command) (response : Response) : Prop :=
  response = .success ∨ response = .error errorFaceNotFound ∨
    response = .error errorTimeout ∧ c.nTimeouts < maxNumTimeouts

def Decision.applyTo (rib : Rib) (d : Decision) : Option Rib :=
  match d.outcome with
  | .success inheritedRoutes => rib.onFibUpdateSuccess d.batch.update inheritedRoutes
  | .failure _ => some rib

/-- The queue as its users see it: the batches that are not decided, in the order in which they were
handed in, and the decisions. -/
structure Ledger where
  rib : Rib
  waiting : List Batch
  decisions : List Decision
  nBatches : Nat
  now : Time

def Ledger.enqueue (l : Ledger) (update : RibUpdate) : Ledger :=
  { l with waiting := l.waiting ++ [⟨l.nBatches,update⟩], nBatches := l.nBatches + 1 }

/-- Batches are decided one by one from the front, and only a success changes the RIB. -/
inductive Ledger.Step : Ledger → Ledger → Prop
  | succeed (l : Ledger) (b : Batch) (rest : List Batch) (inheritedRoutes : List RibUpdate)
      (rib : Rib) (hw : l.waiting = b :: rest)
      (hr : l.rib.onFibUpdateSuccess b.update inheritedRoutes = some rib) :
      Step l { l with
        rib := rib
        waiting := rest
        decisions := l.decisions ++ [⟨b,.success inheritedRoutes,l.now,
          l.rib.findRoute b.update.name b.update.route⟩] }
  | fail (l : Ledger) (b : Batch) (rest : List Batch) (code : Nat) (hw : l.waiting = b :: rest) :
      Step l { l with
        waiting := rest
        decisions := l.decisions ++ [⟨b,.failure code,l.now,
          l.rib.findRoute b.update.name b.update.route⟩] }
  | elapse (l : Ledger) (d : Nat) : Step l { l with now := l.now + d }

abbrev Ledger.Steps : Ledger → Ledger → Prop := Relation.ReflTransGen Ledger.Step

theorem Rib.WellFormed.applyBatch {rib : Rib} (h : rib.WellFormed) (update : RibUpdate) :
    (rib.applyBatch update).WellFormed := by
  unfold Rib.applyBatch
  cases update.action with
  | register => exact h.insert _ _
  | _ => exact h.erase _ _

/-- The inherited routes that a computation leaves behind can be applied after the update. -/
theorem Rib.onFibUpdateSuccess_isSome {rib : Rib} (h : rib.WellFormed) (update : RibUpdate)
    {xs : List RibUpdate} (hx : ∀ x ∈ xs, (rib.applyBatch update).Present x.name ∧
      x.action ≠ .removeFace) :
    ∃ rib', rib.onFibUpdateSuccess update xs = some rib' ∧ rib'.WellFormed := by
  obtain ⟨rib',hmod,hsame,_⟩ := modifyInheritedRoutes_spec xs _ (h.applyBatch update).toLinked hx
  exact ⟨rib',hmod,hsame.wellFormed (h.applyBatch update)⟩

namespace UpdateQueue

variable {nth : NthElement} {s s' : UpdateQueue} {b : Batch} {x : FibUpdate}

def awaited (s : UpdateQueue) (b : Batch) : List FibUpdate :=
  (s.commands.filter fun c => c.batch = b).map Command.update

/-- The list whose commands are out: the other faces wait for the batch's own. -/
def expected (s : UpdateQueue) : List FibUpdate :=
  if s.fibUpdater.updatesForBatchFaceId.items ≠ [] then s.fibUpdater.updatesForBatchFaceId.items
  else s.fibUpdater.updatesForNonBatchFaceId.items

theorem expected_of_empty (h : s.fibUpdater.updatesForBatchFaceId.items = []) :
    s.expected = s.fibUpdater.updatesForNonBatchFaceId.items := if_neg (not_not.mpr h)

theorem expected_of_nonempty (h : s.fibUpdater.updatesForBatchFaceId.items ≠ []) :
    s.expected = s.fibUpdater.updatesForBatchFaceId.items := if_pos h

def ledger (s : UpdateQueue) : Ledger :=
  ⟨s.rib,(s.started ++ s.updateBatches).drop s.decisions.length,s.decisions,s.nBatches,s.now⟩

structure Sound (s : UpdateQueue) : Prop where
  wellFormed : s.rib.WellFormed
  replayed : s.decisions.foldlM Decision.applyTo Rib.empty = some s.rib
  order : (s.started ++ s.updateBatches).map Batch.id = List.range s.nBatches

/-- Every batch that was started has been decided. -/
structure Settled (s : UpdateQueue) : Prop extends s.Sound where
  idle : s.isUpdateInProgress = false
  started : s.started = s.decisions.map Decision.batch
  late : ∀ c ∈ s.commands, s.Late c

/-- `b` was started last and is not decided. -/
structure Running (s : UpdateQueue) (b : Batch) : Prop extends s.Sound where
  started : s.started = s.decisions.map Decision.batch ++ [b]
  late : ∀ c ∈ s.commands, c.batch = b ∨ s.Late c
  names : ∀ x ∈ s.fibUpdater.inheritedRoutes, (s.rib.applyBatch b.update).Present x.name

/-- `b` waits for the responses to the commands on its list. -/
structure Busy (s : UpdateQueue) (b : Batch) : Prop extends s.Running b where
  busy : s.isUpdateInProgress = true
  awaited : (s.awaited b).Perm s.expected
  nonempty : s.expected ≠ []

def Good (s : UpdateQueue) : Prop := s.Settled ∨ ∃ b, s.Busy b

/-- No batch is left behind in the queue. -/
def Waiting (s : UpdateQueue) : Prop := (s.Settled ∧ s.updateBatches = []) ∨ ∃ b, s.Busy b

/-- The outcome of a step: a state in which no batch is left behind, reached by steps of the ledger,
or the end of the process at the null pointer that the computation for some queued update reads
through. -/
def Proceeds (nth : NthElement) (queue : List Batch) (l : Ledger) : Option UpdateQueue → Prop
  | some s => s.Waiting ∧ l.Steps s.ledger
  | none => ∃ b ∈ queue, ∃ rib,
      (FibUpdater.init b.update.route.faceId).computeUpdates nth rib b.update = none

theorem sendUpdates_eq (s : UpdateQueue) (b : Batch) (xs : List FibUpdate) : s.sendUpdates b xs =
      { s with commands := s.commands ++ xs.map fun x => ⟨b,x,x.action,0⟩ } := by
  unfold sendUpdates
  induction xs generalizing s with
  | nil => simp
  | cons x xs ih =>
    rw [foldl_cons,ih]
    cases hx : x.action <;> simp [sendAddNextHopUpdate,sendRemoveNextHopUpdate,hx]

private theorem ledger_sendUpdates (s : UpdateQueue) (b : Batch) (xs : List FibUpdate) :
    (s.sendUpdates b xs).ledger = s.ledger := by
  rw [sendUpdates_eq]
  rfl

private theorem awaited_sent (cs : List Command) (b : Batch) (xs : List FibUpdate) :
    (((cs ++ xs.map fun x => (⟨b,x,x.action,0⟩ : Command)).filter fun c => c.batch = b).map
      Command.update) = ((cs.filter fun c => c.batch = b).map Command.update) ++ xs := by
  rw [filter_append,map_append]
  congr 1
  induction xs with
  | nil => rfl
  | cons x xs ih => simpa using ih

private theorem Sound.nodup_started (h : s.Sound) : (s.started.map Batch.id).Nodup := by
  have ho : ((s.started ++ s.updateBatches).map Batch.id).Nodup := by
    rw [h.order]
    exact nodup_range
  rw [map_append] at ho
  exact (nodup_append.mp ho).1

theorem Running.undecided (h : s.Running b) : ∀ d ∈ s.decisions, d.batch ≠ b := by
  intro d hd he
  have hstarted := h.nodup_started
  rw [h.started,map_append] at hstarted
  refine (nodup_append.mp hstarted).2.2 b.id ?_ b.id (by simp) rfl
  rw [List.map_map]
  exact mem_map.mpr ⟨d,hd,congrArg Batch.id he⟩

private theorem Running.send (h : s.Running b) (hbusy : s.isUpdateInProgress = true)
    (hnone : s.awaited b = []) (hne : s.expected ≠ []) : (s.sendUpdates b s.expected).Busy b := by
  rw [sendUpdates_eq]
  refine ⟨⟨⟨h.wellFormed,h.replayed,h.order⟩,h.started,?_,h.names⟩,hbusy,?_,hne⟩
  · intro c hc
    rcases mem_append.mp hc with hc | hc
    · exact h.late c hc
    · obtain ⟨x,_,rfl⟩ := mem_map.mp hc
      exact Or.inl rfl
  · rw [UpdateQueue.awaited,awaited_sent]
    rw [UpdateQueue.awaited] at hnone
    rw [hnone,nil_append]
    exact .refl _

private def decided (s : UpdateQueue) (b : Batch) (outcome : Outcome) (rib : Rib) : UpdateQueue :=
  { s with
    rib := rib
    isUpdateInProgress := false
    decisions := s.decisions ++ [⟨b,outcome,s.now,s.rib.findRoute b.update.name b.update.route⟩] }

private theorem Running.decided (h : s.Running b) {outcome : Outcome} {rib : Rib}
    (hwf : rib.WellFormed) (hrib : Decision.applyTo s.rib
      ⟨b,outcome,s.now,s.rib.findRoute b.update.name b.update.route⟩ = some rib) :
    (s.decided b outcome rib).Settled where
  wellFormed := hwf
  replayed := by
    rw [UpdateQueue.decided,foldlM_append,h.replayed]
    change List.foldlM Decision.applyTo s.rib [_] = _
    rw [foldlM_cons,hrib]
    rfl
  order := h.order
  idle := rfl
  started := by
    rw [UpdateQueue.decided,map_append]
    exact h.started
  late c hc := by
    rcases h.late c hc with rfl | ⟨d,hd,he⟩
    · exact ⟨_,mem_append_right _ mem_cons_self,rfl⟩
    · exact ⟨d,mem_append_left _ hd,he⟩

theorem Running.waiting (h : s.Running b) : s.ledger.waiting = b :: s.updateBatches := by
  simp [ledger,h.started]

theorem Settled.waiting (h : s.Settled) : s.ledger.waiting = s.updateBatches := by
  simp [ledger,h.started]

private theorem Running.applySuccess (h : s.Running b) :
    ∃ s', s.applySuccess b = some s' ∧ s'.Settled ∧ s'.updateBatches = s.updateBatches ∧
      Ledger.Step s.ledger s'.ledger := by
  obtain ⟨rib,hrib,hwf⟩ := Rib.onFibUpdateSuccess_isSome h.wellFormed b.update
    fun x hx => ⟨h.names x hx,s.fibUpdater.inherited_action x hx⟩
  have hset : (s.decided b (.success s.fibUpdater.inheritedRoutes) rib).Settled :=
    h.decided hwf hrib
  refine ⟨_,?_,hset,rfl,?_⟩
  · rw [UpdateQueue.applySuccess,hrib]
    rfl
  · have hstep := Ledger.Step.succeed s.ledger b s.updateBatches s.fibUpdater.inheritedRoutes rib
      h.waiting hrib
    have hw : s.updateBatches = _ := hset.waiting.symm
    rwa [hw] at hstep

private theorem Running.applyFailure (h : s.Running b) (code : Nat) :
    (s.applyFailure b code).Settled ∧ Ledger.Step s.ledger (s.applyFailure b code).ledger := by
  have hset : (s.applyFailure b code).Settled := h.decided h.wellFormed rfl
  refine ⟨hset,?_⟩
  have hstep := Ledger.Step.fail s.ledger b s.updateBatches code h.waiting
  have hw : s.updateBatches = _ := hset.waiting.symm
  rwa [hw] at hstep

private theorem Running.sendNonBatch (h : s.Running b) (hbusy : s.isUpdateInProgress = true)
    (hnone : s.awaited b = []) (hempty : s.fibUpdater.updatesForBatchFaceId.items = [])
    (onSuccess : UpdateQueue → Option UpdateQueue) :
    (∃ s', s.sendUpdatesForNonBatchFaceId b onSuccess = some s' ∧ s'.Busy b ∧
      s'.ledger = s.ledger) ∨
    s.sendUpdatesForNonBatchFaceId b onSuccess = onSuccess s := by
  have hexp := expected_of_empty hempty
  unfold sendUpdatesForNonBatchFaceId
  by_cases hne : s.fibUpdater.updatesForNonBatchFaceId.items ≠ []
  · rw [if_pos hne,← hexp]
    exact Or.inl ⟨_,rfl,h.send hbusy hnone (hexp ▸ hne),ledger_sendUpdates s b _⟩
  · rw [if_neg hne]
    exact Or.inr rfl

private theorem Proceeds.after {q q' : List Batch} {l l' : Ledger} {o : Option UpdateQueue}
    (h : Proceeds nth q l' o) (hl : l.Steps l') (hq : ∀ b ∈ q, b ∈ q') : Proceeds nth q' l o := by
  cases o with
  | some s => exact ⟨h.1,hl.trans h.2⟩
  | none =>
    obtain ⟨b,hb,hnull⟩ := h
    exact ⟨b,hq b hb,hnull⟩

private theorem sendBatchFromQueue_busy (h : s.Busy b) {l : Ledger} (hl : s.ledger = l)
    (q q' : List Batch) : Proceeds nth q l (sendBatchFromQueue nth q' s) := by
  have hs : sendBatchFromQueue nth q' s = some s := by
    cases q' with
    | nil => rfl
    | cons b' rest => rw [sendBatchFromQueue,if_pos h.busy]
  rw [hs,← hl]
  exact ⟨Or.inr ⟨b,h⟩,.refl⟩

private def begun (s : UpdateQueue) (b : Batch) (rest : List Batch) (u : FibUpdater) :
    UpdateQueue :=
  { s with
    isUpdateInProgress := true
    updateBatches := rest
    started := s.started ++ [b]
    fibUpdater := u
    cancelledEvents := u.cancelledEvents ++ s.cancelledEvents }

private theorem Settled.begun (h : s.Settled) {rest : List Batch} (hq : s.updateBatches = b :: rest)
    {u : FibUpdater}
    (hu : (FibUpdater.init b.update.route.faceId).computeUpdates nth s.rib b.update = some u) :
    (s.begun b rest u).Running b ∧ (s.begun b rest u).awaited b = [] := by
  have hrun : (s.begun b rest u).Running b := by
    refine ⟨⟨h.wellFormed,h.replayed,?_⟩,?_,fun c hc => Or.inr (h.late c hc),?_⟩
    · have ho := h.order
      rw [hq] at ho
      simpa [UpdateQueue.begun] using ho
    · rw [UpdateQueue.begun,h.started]
    · intro x hx
      rcases FibUpdater.computeUpdates_present h.wellFormed.toLinked hu x hx with hx | hx
      · exact absurd hx not_mem_nil
      · exact hx
  refine ⟨hrun,?_⟩
  rw [UpdateQueue.awaited,map_eq_nil_iff,filter_eq_nil_iff]
  intro c hc he
  obtain ⟨d,hd,hdb⟩ := h.late c hc
  exact hrun.undecided d hd (hdb.trans (of_decide_eq_true he))

theorem Settled.sendBatchFromQueue (q : List Batch) :
    ∀ s : UpdateQueue, s.Settled → s.updateBatches = q →
      Proceeds nth q s.ledger (UpdateQueue.sendBatchFromQueue nth q s) := by
  induction q with
  | nil => exact fun s h hq => ⟨Or.inl ⟨h,hq⟩,.refl⟩
  | cons b rest ih =>
    intro s h hq
    rw [UpdateQueue.sendBatchFromQueue,if_neg (by simp [h.idle])]
    unfold computeAndSendFibUpdates
    dsimp only
    cases hu : (FibUpdater.init b.update.route.faceId).computeUpdates nth s.rib b.update with
    | none => exact ⟨b,by simp,s.rib,hu⟩
    | some u =>
      obtain ⟨hrun,hnone⟩ := h.begun hq hu
      have hbegun : ∀ onSuccess, ({ s with
          isUpdateInProgress := true
          updateBatches := rest
          started := s.started ++ [b]
          fibUpdater := u
          cancelledEvents := u.cancelledEvents ++ s.cancelledEvents } :
          UpdateQueue).sendUpdatesForBatchFaceId b onSuccess =
          (s.begun b rest u).sendUpdatesForBatchFaceId b onSuccess := fun _ => rfl
      rw [bind_some,hbegun]
      have hbusy : (s.begun b rest u).isUpdateInProgress = true := rfl
      have hq₁ : (s.begun b rest u).updateBatches = rest := rfl
      have hl₁ : (s.begun b rest u).ledger = s.ledger := by
        simp [ledger,UpdateQueue.begun,hq]
      generalize s.begun b rest u = s₁ at hrun hnone hbusy hq₁ hl₁ ⊢
      unfold sendUpdatesForBatchFaceId
      by_cases hne : s₁.fibUpdater.updatesForBatchFaceId.items ≠ []
      · have hexp := expected_of_nonempty hne
        rw [if_pos hne,bind_some,← hexp]
        exact sendBatchFromQueue_busy (hrun.send hbusy hnone (hexp ▸ hne))
          ((ledger_sendUpdates s₁ b _).trans hl₁) _ _
      · rw [if_neg hne]
        rcases hrun.sendNonBatch hbusy hnone (not_not.mp hne) (UpdateQueue.applySuccess b) with
          ⟨s₂,hs₂,hb₂,hl₂⟩ | hs₂
        · rw [hs₂,bind_some]
          exact sendBatchFromQueue_busy hb₂ (hl₂.trans hl₁) _ _
        · obtain ⟨s₃,hs₃,hset,hq₃,hstep⟩ := hrun.applySuccess
          rw [hs₂,hs₃,bind_some]
          exact (ih s₃ hset (hq₃.trans hq₁)).after (.single (hl₁ ▸ hstep))
            fun b' hb' => mem_cons_of_mem b hb'

theorem Good.advance (h : s.Good) : Proceeds nth s.updateBatches s.ledger (s.advance nth) := by
  rcases h with h | ⟨b,h⟩
  · exact Settled.sendBatchFromQueue _ s h rfl
  · exact sendBatchFromQueue_busy h rfl _ _

section Responses

private theorem perm_filter_ne {l l' : List FibUpdate} (hl : l.Nodup) (h : (x :: l').Perm l) :
    l'.Perm (l.filter fun y => y ≠ x) := by
  have hn := h.nodup_iff.mpr hl
  rw [nodup_cons] at hn
  have hf : (x :: l').filter (fun y => y ≠ x) = l' := by
    rw [filter_cons_of_neg (by simp),filter_eq_self]
    intro y hy
    simp only [ne_eq,decide_not,Bool.not_eq_true',decide_eq_false_iff_not]
    rintro rfl
    exact hn.1 hy
  rw [← hf]
  exact h.filter _

private theorem nodup_items (l : FibUpdateList) : l.items.Nodup := .of_map _ l.distinct

variable {i : Nat} {c : Command}

private def taken (s : UpdateQueue) (i : Nat) : UpdateQueue :=
  { s with commands := s.commands.eraseIdx i }

private theorem taken_perm (hc : s.commands[i]? = some c) :
    (c :: (s.taken i).commands).Perm s.commands := by
  obtain ⟨hi,rfl⟩ := List.getElem?_eq_some_iff.mp hc
  exact getElem_cons_eraseIdx_perm hi

private theorem awaited_taken (hc : s.commands[i]? = some c) :
    (if c.batch = b then c.update :: (s.taken i).awaited b else (s.taken i).awaited b).Perm
      (s.awaited b) := by
  have hp := ((taken_perm hc).filter fun c => decide (c.batch = b)).map Command.update
  rw [filter_cons] at hp
  unfold UpdateQueue.awaited
  by_cases hb : c.batch = b
  · rw [if_pos hb]
    rwa [if_pos (decide_eq_true hb)] at hp
  · rw [if_neg hb]
    rwa [if_neg (by simpa using hb)] at hp

private theorem mem_taken (hc : s.commands[i]? = some c) {c' : Command}
    (h : c' ∈ (s.taken i).commands) : c' ∈ s.commands :=
  (taken_perm hc).mem_iff.mp (mem_cons_of_mem c h)

private theorem Running.succeed (h : s.Running b) :
    Proceeds nth s.updateBatches s.ledger (s.onFibUpdateSuccess nth b) := by
  obtain ⟨s',hs',hset,hq,hstep⟩ := h.applySuccess
  rw [onFibUpdateSuccess,hs',bind_some,← hq]
  exact (Good.advance (Or.inl hset)).after (.single hstep) fun _ hb => hb

private theorem Busy.own_perm (h : s.Busy b) (hc : s.commands[i]? = some c) (hb : c.batch = b) :
    (c.update :: (s.taken i).awaited b).Perm s.expected := by
  have hp := awaited_taken (b := b) hc
  rw [if_pos hb] at hp
  exact hp.trans h.awaited

private theorem Busy.taken_running (h : s.Busy b) (hc : s.commands[i]? = some c) {u : FibUpdater}
    (hi : u.inheritedRoutes = s.fibUpdater.inheritedRoutes) :
    Running { s.taken i with fibUpdater := u } b :=
  { h with
    late := fun c' hc' => h.late c' (mem_taken hc hc')
    names := fun x hx => h.names x (hi ▸ hx) }

private theorem Busy.nonBatchDone (h : s.Busy b) (hc : s.commands[i]? = some c) (hb : c.batch = b)
    (hempty : s.fibUpdater.updatesForBatchFaceId.items = []) :
    Proceeds nth s.updateBatches s.ledger ((s.taken i).onNonBatchUpdateDone nth c) := by
  have hexp := expected_of_empty hempty
  have hperm := perm_filter_ne (nodup_items _) (hexp ▸ h.own_perm hc hb)
  have hrun : Running { s.taken i with
      fibUpdater := (s.taken i).fibUpdater.removeNonBatchUpdate c.update } b := h.taken_running hc rfl
  unfold onNonBatchUpdateDone
  dsimp only
  by_cases hdone :
      ((s.taken i).fibUpdater.removeNonBatchUpdate c.update).updatesForNonBatchFaceId.items = []
  · rw [if_pos hdone,hb]
    exact hrun.succeed
  · rw [if_neg hdone]
    refine ⟨Or.inr ⟨b,hrun,h.busy,?_,?_⟩,.refl⟩ <;> rw [expected_of_empty]
    exacts [hperm,hempty,hdone,hempty]

private theorem Busy.batchDone (h : s.Busy b) (hc : s.commands[i]? = some c) (hb : c.batch = b)
    (hne : s.fibUpdater.updatesForBatchFaceId.items ≠ []) :
    Proceeds nth s.updateBatches s.ledger ((s.taken i).onUpdateSuccess nth c) := by
  have hexp := expected_of_nonempty hne
  have hown := h.own_perm hc hb
  rw [hexp] at hown
  have hperm := perm_filter_ne (nodup_items _) hown
  have hface : c.update.faceId = (s.taken i).fibUpdater.batchFaceId :=
    s.fibUpdater.batch_face _ (hown.mem_iff.mp mem_cons_self)
  have hrun : Running { s.taken i with
      fibUpdater := (s.taken i).fibUpdater.removeBatchUpdate c.update } b := h.taken_running hc rfl
  unfold onUpdateSuccess
  rw [if_pos hface]
  dsimp only
  by_cases hdone : ((s.taken i).fibUpdater.removeBatchUpdate c.update).updatesForBatchFaceId.items = []
  · have hnone : ({ s.taken i with
        fibUpdater := (s.taken i).fibUpdater.removeBatchUpdate c.update } : UpdateQueue).awaited b = [] :=
      perm_nil.mp (hdone ▸ hperm)
    rw [if_pos hdone,hb]
    rcases hrun.sendNonBatch h.busy hnone hdone (UpdateQueue.onFibUpdateSuccess nth b) with
      ⟨s',hs',hb',hl'⟩ | hs'
    · rw [hs']
      exact ⟨Or.inr ⟨b,hb'⟩,hl' ▸ .refl⟩
    · rw [hs']
      exact hrun.succeed
  · rw [if_neg hdone]
    refine ⟨Or.inr ⟨b,hrun,h.busy,?_,?_⟩,.refl⟩ <;> rw [expected_of_nonempty]
    exacts [hperm,hdone,hdone,hdone]

private theorem Busy.not_late (h : s.Busy b) (hl : s.Late c) : c.batch ≠ b := by
  obtain ⟨d,hd,he⟩ := hl
  exact fun hb => h.undecided d hd (he.trans hb)

private theorem Waiting.dropLate (h : s.Waiting) (hc : s.commands[i]? = some c) (hl : s.Late c)
    {u : FibUpdater} (hi : u.inheritedRoutes = s.fibUpdater.inheritedRoutes)
    (hu : s.isUpdateInProgress = true →
      u.updatesForBatchFaceId.items = s.fibUpdater.updatesForBatchFaceId.items ∧
      u.updatesForNonBatchFaceId.items = s.fibUpdater.updatesForNonBatchFaceId.items) :
    ({ s.taken i with fibUpdater := u } : UpdateQueue).Waiting := by
  rcases h with ⟨h,hq⟩ | ⟨b,h⟩
  · exact Or.inl ⟨{ h with late := fun c' hc' => h.late c' (mem_taken hc hc') },hq⟩
  · obtain ⟨hb,hnb⟩ := hu h.busy
    have hexp : ({ s.taken i with fibUpdater := u } : UpdateQueue).expected = s.expected := by
      unfold expected
      dsimp only
      rw [hb,hnb]
    have haw := awaited_taken (b := b) hc
    rw [if_neg (h.not_late hl)] at haw
    refine Or.inr ⟨b,h.taken_running hc hi,h.busy,?_,?_⟩ <;> rw [hexp]
    · exact haw.trans h.awaited
    · exact h.nonempty

private theorem filter_of_unaffected {l : FibUpdateList} (hx : x ∉ l.items) :
    (l.filter fun y => y ≠ x).items = l.items := by
  refine filter_eq_self.mpr fun y hy => ?_
  simp only [ne_eq,decide_not,Bool.not_eq_true',decide_eq_false_iff_not]
  rintro rfl
  exact hx hy

private theorem filter_ne_nil {l : FibUpdateList} (h : ∃ y ∈ l.items, y ≠ x) :
    (l.filter fun y => y ≠ x).items ≠ [] := by
  obtain ⟨y,hy,hne⟩ := h
  exact ne_nil_of_mem (mem_filter.mpr ⟨hy,by simpa using hne⟩)

private theorem Waiting.lateNonBatch (h : s.Waiting) (hc : s.commands[i]? = some c)
    (hl : s.Late c) (hx : s.Unaffected c.update)
    (hface : c.update.faceId ≠ s.fibUpdater.batchFaceId) :
    Proceeds nth s.updateBatches s.ledger ((s.taken i).onNonBatchUpdateDone nth c) := by
  rw [Unaffected,FibUpdater.updatesFor,if_neg hface] at hx
  unfold onNonBatchUpdateDone
  rw [if_neg]
  · exact ⟨h.dropLate hc hl rfl fun hb => ⟨rfl,filter_of_unaffected (hx.2 hb)⟩,.refl⟩
  · exact filter_ne_nil hx.1

private theorem Waiting.lateSuccess (h : s.Waiting) (hc : s.commands[i]? = some c)
    (hl : s.Late c) (hx : s.Unaffected c.update) :
    Proceeds nth s.updateBatches s.ledger ((s.taken i).onUpdateSuccess nth c) := by
  unfold onUpdateSuccess
  by_cases hface : c.update.faceId = (s.taken i).fibUpdater.batchFaceId
  · have hface' : c.update.faceId = s.fibUpdater.batchFaceId := hface
    rw [if_pos hface]
    rw [Unaffected,FibUpdater.updatesFor,if_pos hface'] at hx
    dsimp only
    rw [if_neg]
    · exact ⟨h.dropLate hc hl rfl fun hb => ⟨filter_of_unaffected (hx.2 hb),rfl⟩,.refl⟩
    · exact filter_ne_nil hx.1
  · rw [if_neg hface]
    exact h.lateNonBatch hc hl hx hface

private theorem Waiting.resend (h : s.Waiting) (hc : s.commands[i]? = some c) (n : Nat) :
    ((s.taken i).sendAddNextHopUpdate c.batch n c.update).Waiting := by
  -- what is sent again belongs to the batch of a command that was out
  have hmem : ∀ c' ∈ ((s.taken i).sendAddNextHopUpdate c.batch n c.update).commands,
      ∃ c₀ ∈ s.commands, c'.batch = c₀.batch := by
    intro c' hc'
    rcases mem_append.mp hc' with hc' | hc'
    · exact ⟨c',mem_taken hc hc',rfl⟩
    · exact ⟨c,mem_of_getElem? hc,by rw [mem_singleton.mp hc']⟩
  rcases h with ⟨h,hq⟩ | ⟨b,h⟩
  · refine Or.inl ⟨{ h with late := fun c' hc' => ?_ },hq⟩
    obtain ⟨c₀,hc₀,hb⟩ := hmem c' hc'
    rw [Late,hb]
    exact h.late c₀ hc₀
  · refine Or.inr ⟨b,{ h with late := fun c' hc' => ?_ },h.busy,?_,h.nonempty⟩
    · obtain ⟨c₀,hc₀,hb⟩ := hmem c' hc'
      rw [Late,hb]
      exact h.late c₀ hc₀
    · refine List.Perm.trans ?_ h.awaited
      refine List.Perm.trans ?_ (awaited_taken hc)
      have hsplit : ((s.taken i).sendAddNextHopUpdate c.batch n c.update).awaited b =
          (s.taken i).awaited b ++ if c.batch = b then [c.update] else [] := by
        unfold UpdateQueue.awaited sendAddNextHopUpdate
        rw [filter_append,map_append]
        congr 1
        by_cases hb : c.batch = b <;> simp [hb]
      rw [hsplit]
      by_cases hb : c.batch = b
      · rw [if_pos hb,if_pos hb]
        exact perm_append_singleton _ _
      · rw [if_neg hb,if_neg hb,append_nil]

private theorem Waiting.current (h : s.Waiting) (hc : s.commands[i]? = some c)
    (hl : ¬ s.Late c) : ∃ b, s.Busy b ∧ c.batch = b := by
  have hcm : c ∈ s.commands := mem_of_getElem? hc
  rcases h with ⟨h,_⟩ | ⟨b,h⟩
  · exact absurd (h.late c hcm) hl
  · exact ⟨b,h,(h.late c hcm).resolve_right hl⟩

private theorem Busy.face_ne (h : s.Busy b) (hc : s.commands[i]? = some c) (hb : c.batch = b)
    (hempty : s.fibUpdater.updatesForBatchFaceId.items = []) :
    c.update.faceId ≠ (s.taken i).fibUpdater.batchFaceId := by
  have hown := h.own_perm hc hb
  rw [expected_of_empty hempty] at hown
  exact s.fibUpdater.nonBatch_face _ (hown.mem_iff.mp mem_cons_self)

private theorem Busy.success (h : s.Busy b) (hc : s.commands[i]? = some c) (hb : c.batch = b) :
    Proceeds nth s.updateBatches s.ledger ((s.taken i).onUpdateSuccess nth c) := by
  by_cases hempty : s.fibUpdater.updatesForBatchFaceId.items = []
  · rw [onUpdateSuccess,if_neg (h.face_ne hc hb hempty)]
    exact h.nonBatchDone hc hb hempty
  · exact h.batchDone hc hb hempty

private theorem Busy.faceNotFound (h : s.Busy b) (hc : s.commands[i]? = some c)
    (hb : c.batch = b) :
    Proceeds nth s.updateBatches s.ledger ((s.taken i).onUpdateError nth c errorFaceNotFound) := by
  rw [onUpdateError,if_neg (by simp [errorFaceNotFound,errorTimeout]),if_pos rfl]
  by_cases hface : c.update.faceId = (s.taken i).fibUpdater.batchFaceId
  · rw [if_pos hface,hb]
    have hrun : (s.taken i).Running b := h.taken_running hc rfl
    obtain ⟨hset,hstep⟩ := hrun.applyFailure errorFaceNotFound
    exact (Good.advance (Or.inl hset)).after (.single hstep) fun _ hb => hb
  · rw [if_neg hface]
    refine h.nonBatchDone hc hb ?_
    by_contra hne
    have hown := h.own_perm hc hb
    rw [expected_of_nonempty hne] at hown
    exact hface (s.fibUpdater.batch_face _ (hown.mem_iff.mp mem_cons_self))

variable {response : Response}

theorem Waiting.respond (h : s.Waiting) (hc : s.commands[i]? = some c)
    (ha : c.Answered response) (hcond : s.NoMixUp (.respond i response)) :
    Proceeds nth s.updateBatches s.ledger (step nth s (.respond i response)) := by
  have hlate := hcond c hc
  simp only [step,hc,bind_some]
  rcases ha with rfl | rfl | ⟨rfl,ht⟩
  · by_cases hl : s.Late c
    · exact h.lateSuccess hc hl (hlate hl)
    · obtain ⟨b,hbusy,hb⟩ := h.current hc hl
      exact hbusy.success hc hb
  · by_cases hl : s.Late c
    · obtain ⟨hface,hx⟩ := (hlate hl).resolve_left (by simp [errorFaceNotFound,errorTimeout])
      have hface' : c.update.faceId ≠ (s.taken i).fibUpdater.batchFaceId := hface
      change Proceeds nth s.updateBatches s.ledger ((s.taken i).onUpdateError nth c errorFaceNotFound)
      rw [onUpdateError,if_neg (by simp [errorFaceNotFound,errorTimeout]),if_pos rfl,
        if_neg hface']
      exact h.lateNonBatch hc hl hx hface
    · obtain ⟨b,hbusy,hb⟩ := h.current hc hl
      exact hbusy.faceNotFound hc hb
  · change Proceeds nth s.updateBatches s.ledger ((s.taken i).onUpdateError nth c errorTimeout)
    rw [onUpdateError,if_pos ⟨rfl,ht⟩]
    exact ⟨h.resend hc _,.refl⟩

private theorem respond_unexpected (hc : s.commands[i]? = some c)
    (ha : ¬ c.Answered response) : step nth s (.respond i response) = none := by
  simp only [Command.Answered,not_or,not_and] at ha
  simp only [step,hc,bind_some]
  cases response with
  | success => exact absurd rfl ha.1
  | error code =>
    have h₁ : ¬ (code = errorTimeout ∧ c.nTimeouts < maxNumTimeouts) := fun hx =>
      ha.2.2 (by rw [hx.1]) hx.2
    have h₂ : ¬ code = errorFaceNotFound := fun hx => ha.2.1 (by rw [hx])
    dsimp only
    rw [onUpdateError,if_neg h₁,if_neg h₂]

end Responses

private theorem Good.decided_le (h : s.Good) : s.decisions.length ≤ s.started.length := by
  rcases h with h | ⟨b,h⟩
  · rw [h.started,length_map]
  · rw [h.started,length_append,length_map]
    exact Nat.le_add_right _ _

private theorem Good.addUpdateToQueue (h : s.Good) (update : RibUpdate) :
    (s.addUpdateToQueue update).Good ∧
      (s.addUpdateToQueue update).ledger = s.ledger.enqueue update := by
  have ho : ∀ t : UpdateQueue, t.Sound → (t.addUpdateToQueue update).Sound := by
    intro t ht
    refine ⟨ht.wellFormed,ht.replayed,?_⟩
    have := ht.order
    simp only [UpdateQueue.addUpdateToQueue,range_succ,← this]
    simp
  refine ⟨?_,?_⟩
  · rcases h with h | ⟨b,h⟩
    · exact Or.inl { h with toSound := ho s h.toSound }
    · exact Or.inr ⟨b,{ h with toSound := ho s h.toSound }⟩
  · have hle : s.decisions.length ≤ (s.started ++ s.updateBatches).length := by
      rw [length_append]
      exact h.decided_le.trans (Nat.le_add_right _ _)
    unfold ledger Ledger.enqueue UpdateQueue.addUpdateToQueue
    dsimp only
    rw [← append_assoc,drop_append_of_le_length hle]

theorem Good.enqueue (h : s.Good) (updates : List RibUpdate) :
    (updates.foldl UpdateQueue.addUpdateToQueue s).Good ∧
      (updates.foldl UpdateQueue.addUpdateToQueue s).ledger =
        updates.foldl Ledger.enqueue s.ledger := by
  induction updates generalizing s with
  | nil => exact ⟨h,rfl⟩
  | cons u us ih =>
    obtain ⟨hg,hl⟩ := h.addUpdateToQueue u
    obtain ⟨hg',hl'⟩ := ih hg
    exact ⟨hg',hl'.trans (by rw [hl]; rfl)⟩

/-- `s'` is `s` with some updates for a removed face in addition. -/
def Enqueues (s s' : UpdateQueue) : Prop :=
  ∃ updates : List RibUpdate, (∀ u ∈ updates, u.action = .removeFace) ∧
    updates.foldl UpdateQueue.addUpdateToQueue s = s'

theorem enqueues_foldl {α : Type} {f : UpdateQueue → α → UpdateQueue}
    (hf : ∀ s a, Enqueues s (f s a)) (l : List α) (s : UpdateQueue) :
    Enqueues s (l.foldl f s) := by
  induction l generalizing s with
  | nil => exact ⟨[],fun _ hu => absurd hu not_mem_nil,rfl⟩
  | cons a l ih =>
    obtain ⟨us,hus,hs⟩ := hf s a
    obtain ⟨us',hus',hs'⟩ := ih (f s a)
    refine ⟨us ++ us',fun u hu => (mem_append.mp hu).elim (hus u) (hus' u),?_⟩
    rw [foldl_append,hs,hs']
    rfl

theorem enqueues_removeFace (s : UpdateQueue) (e : RibEntry) (f : FaceId) :
    Enqueues s (s.enqueueRemoveFace e f) :=
  enqueues_foldl (fun s r => ⟨[⟨.removeFace,e.name,r⟩],by simp,rfl⟩) _ s

private theorem Waiting.good (h : s.Waiting) : s.Good := h.imp And.left id

/-- The updates that an event asks for. -/
def Requests (event : Event) (updates : List RibUpdate) : Prop :=
  match event with
  | .apply update => updates = [update]
  | .removeFace _ | .removeFailedFaces _ => ∀ u ∈ updates, u.action = .removeFace
  | .respond _ _ | .elapse _ => updates = []

private theorem Waiting.enqueue (h : s.Waiting) (updates : List RibUpdate)
    (hs : (updates.foldl UpdateQueue.addUpdateToQueue s).advance nth = some s') :
    s'.Waiting ∧ (updates.foldl Ledger.enqueue s.ledger).Steps s'.ledger := by
  obtain ⟨hg,hl⟩ := h.good.enqueue updates
  have hp : Proceeds nth _ _ _ := hg.advance
  rw [hs,hl] at hp
  exact hp

/-- Every step that is not a mix-up leaves no batch behind: it adds the updates asked for to the
ledger and then decides batches from its front. -/
theorem Waiting.step (h : s.Waiting) {event : Event} (hcond : s.NoMixUp event)
    (hs : step nth s event = some s') :
    s'.Waiting ∧ ∃ updates, Requests event updates ∧
      (updates.foldl Ledger.enqueue s.ledger).Steps s'.ledger := by
  have hremove : ∀ {t : UpdateQueue}, Enqueues s t → t.advance nth = some s' →
      s'.Waiting ∧ ∃ updates : List RibUpdate, (∀ u ∈ updates, u.action = .removeFace) ∧
        (updates.foldl Ledger.enqueue s.ledger).Steps s'.ledger := by
    rintro t ⟨updates,hu,rfl⟩ ht
    obtain ⟨hw,hsteps⟩ := h.enqueue updates ht
    exact ⟨hw,updates,hu,hsteps⟩
  cases event with
  | apply update =>
    obtain ⟨hw,hsteps⟩ := h.enqueue [update] hs
    exact ⟨hw,[update],rfl,hsteps⟩
  | elapse d =>
    cases hs
    refine ⟨?_,[],rfl,.single (.elapse s.ledger d)⟩
    rcases h with ⟨h,hq⟩ | ⟨b,h⟩
    · exact Or.inl ⟨{ h with },hq⟩
    · exact Or.inr ⟨b,{ h with }⟩
  | respond i response =>
    cases hc : s.commands[i]? with
    | none => simp [UpdateQueue.step,hc] at hs
    | some c =>
      by_cases ha : c.Answered response
      · have hp : Proceeds nth _ _ _ := h.respond hc ha hcond
        rw [hs] at hp
        exact ⟨hp.1,[],rfl,hp.2⟩
      · rw [respond_unexpected hc ha] at hs
        exact absurd hs (by simp)
  | _ =>
    exact hremove (enqueues_foldl (fun s e => enqueues_removeFace s _ _) _ s) hs

/-- The batches call their callbacks exactly once, one batch at a time, and the RIB is what the
successful ones made of it. A response that NFD gives is handled unless the computation for a queued
update reads through a null pointer. -/
structure ExactlyOnce (nth : NthElement) (s : UpdateQueue) : Prop where
  atMostOnce : (s.decisions.map fun d => d.batch.id).Nodup
  decided : (∀ c ∈ s.commands, s.Late c) → ∀ id < s.nBatches, ∃ d ∈ s.decisions, d.batch.id = id
  changes : s.decisions.foldlM Decision.applyTo Rib.empty = some s.rib
  oneAtATime : ∀ b ∈ s.started, ∀ b' ∈ s.started, (∀ d ∈ s.decisions, d.batch ≠ b) →
    (∀ d ∈ s.decisions, d.batch ≠ b') → b = b'
  responsive : ∀ i c response, s.commands[i]? = some c → c.Answered response →
    s.NoMixUp (.respond i response) → (∃ s', step nth s (.respond i response) = some s') ∨
      ∃ b ∈ s.updateBatches, ∃ rib,
        (FibUpdater.init b.update.route.faceId).computeUpdates nth rib b.update = none

private theorem Settled.decided (h : s.Settled) (hq : s.updateBatches = []) :
    ∀ id < s.nBatches, ∃ d ∈ s.decisions, d.batch.id = id := by
  intro id hid
  have ho := h.order
  rw [hq,append_nil,h.started,List.map_map] at ho
  have hm : id ∈ s.decisions.map (Batch.id ∘ Decision.batch) := by
    rw [ho]
    exact mem_range.mpr hid
  obtain ⟨d,hd,rfl⟩ := mem_map.mp hm
  exact ⟨d,hd,rfl⟩

private theorem Busy.exists_current (h : s.Busy b) : ∃ c ∈ s.commands, ¬ s.Late c := by
  have hne : s.awaited b ≠ [] := fun hx => h.nonempty (nil_perm.mp (hx ▸ h.awaited))
  obtain ⟨x,hx⟩ := exists_mem_of_ne_nil _ hne
  obtain ⟨c,hc,_⟩ := mem_map.mp hx
  obtain ⟨hc,hb⟩ := mem_filter.mp hc
  exact ⟨c,hc,fun hl => h.not_late hl (of_decide_eq_true hb)⟩

theorem Waiting.exactlyOnce (h : s.Waiting) : s.ExactlyOnce nth := by
  refine ⟨?_,?_,?_,?_,?_⟩
  · rcases h with ⟨h,_⟩ | ⟨b,h⟩
    · have hn := h.nodup_started
      rw [h.started,List.map_map] at hn
      exact hn
    · have hn := h.nodup_started
      rw [h.started,map_append,List.map_map] at hn
      exact (nodup_append.mp hn).1
  · intro hlate
    rcases h with ⟨h,hq⟩ | ⟨b,h⟩
    · exact h.decided hq
    · obtain ⟨c,hc,hl⟩ := h.exists_current
      exact absurd (hlate c hc) hl
  · rcases h with ⟨h,_⟩ | ⟨b,h⟩
    · exact h.replayed
    · exact h.replayed
  · intro b hb b' hb' hu hu'
    rcases h with ⟨h,_⟩ | ⟨b₀,h⟩
    · rw [h.started] at hb
      obtain ⟨d,hd,rfl⟩ := mem_map.mp hb
      exact absurd rfl (hu d hd)
    · have hlast : ∀ x ∈ s.started, (∀ d ∈ s.decisions, d.batch ≠ x) → x = b₀ := by
        intro x hx hux
        rw [h.started] at hx
        rcases mem_append.mp hx with hx | hx
        · obtain ⟨d,hd,rfl⟩ := mem_map.mp hx
          exact absurd rfl (hux d hd)
        · exact mem_singleton.mp hx
      rw [hlast b hb hu,hlast b' hb' hu']
  · intro i c response hc ha hcond
    have hp : Proceeds nth _ _ _ := h.respond hc ha hcond
    cases hs : UpdateQueue.step nth s (.respond i response) with
    | some s' => exact Or.inl ⟨s',rfl⟩
    | none =>
      rw [hs] at hp
      exact Or.inr hp

theorem waiting_empty : UpdateQueue.empty.Waiting :=
  Or.inl ⟨⟨⟨Rib.WellFormed.empty,rfl,rfl⟩,rfl,rfl,fun _ hc => absurd hc not_mem_nil⟩,rfl⟩

/-- In every run without mix-ups every batch is decided exactly once. -/
theorem run_exactlyOnce (nth : NthElement) (events : List Event) (s : UpdateQueue)
    (hrun : run nth events = some s)
    (hcond : ∀ past event future t, events = past ++ event :: future →
      run nth past = some t → t.NoMixUp event) : s.ExactlyOnce nth :=
  (foldlM_invariant_of_some (step nth) Waiting NoMixUp (fun _ _ _ h hc hs => (h.step hc hs).1) empty
    waiting_empty events hcond hrun).exactlyOnce

theorem run_exactlyOnce_late :
    let parent : Name := [Component.generic [97]]
    let left : Name := parent ++ [Component.generic [98]]
    let right : Name := parent ++ [Component.generic [99]]
    let inherit : Route := { faceId := 1, flags := routeFlagChildInherit }
    let events : List Event := [.apply ⟨.register,left,{ faceId := 2 }⟩,.respond 0 .success,
      .apply ⟨.register,right,{ faceId := 3 }⟩,.respond 0 (.error errorTimeout),
      .respond 0 .success,.apply ⟨.register,parent,inherit⟩,.respond 0 (.error errorFaceNotFound),
      .respond 0 .success,.respond 0 .success]
    ∃ s, run NthElement.stable events = some s ∧ s.decisions.length = 3 ∧ s.commands = [] ∧
      s.ExactlyOnce NthElement.stable := by
  intro parent left right inherit events
  refine ⟨(run NthElement.stable events).get (by decide +kernel),by simp,by decide +kernel,
    by decide +kernel,?_⟩
  refine run_exactlyOnce NthElement.stable events _ (by simp) fun past event future t hs hr => ?_
  have hall := forall_split (P := fun past event =>
    ((run NthElement.stable past).all fun t => decide (t.NoMixUp event)) = true) events
    (by decide +kernel) past event future hs
  rw [hr] at hall
  exact of_decide_eq_true hall

/-- The face of a batch with two commands is gone: the second response calls the failure callback
again. With another batch waiting, that one is started by the first response and still undecided
when the second lets a third batch start. -/
theorem late_response_repeats :
    let parent : Name := [Component.generic [97]]
    let entry : Name := parent ++ [Component.generic [98]]
    let other : Name := [Component.generic [99]]
    let inherit : Route := { faceId := 1, flags := routeFlagChildInherit }
    let gone : Response := .error errorFaceNotFound
    (run NthElement.stable [.apply ⟨.register,entry,{ faceId := 2 }⟩,.respond 0 .success,
        .apply ⟨.register,parent,inherit⟩,.respond 0 gone,.respond 0 gone]).map
        (fun s => s.decisions.map fun d => (d.batch.id,d.outcome)) =
      some [(0,.success []),(1,.failure 410),(1,.failure 410)] ∧
    (run NthElement.stable [.apply ⟨.register,entry,{ faceId := 2 }⟩,.respond 0 .success,
        .apply ⟨.register,parent,inherit⟩,.apply ⟨.register,other,{ faceId := 1 }⟩,
        .apply ⟨.register,other,{ faceId := 3 }⟩,.respond 0 gone,.respond 0 gone]).map
        (fun s => (s.started.map Batch.id,s.decisions.map fun d => (d.batch.id,d.outcome))) =
      some ([0,1,2,3],[(0,.success []),(1,.failure 410),(1,.failure 410)]) := by
  decide +kernel

end UpdateQueue

end KiteNdn.Routing
