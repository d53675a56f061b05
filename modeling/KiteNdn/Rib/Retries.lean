import KiteNdn.Rib.ExactlyOnce

/-!
# Commands that are sent again

A command whose response is a timeout is sent again, up to ten times. Both kinds of commands share
one error handler, and it always sends the command that adds a nexthop.
-/

namespace KiteNdn.Routing

open Framework Option List

inductive ControlCommand where
  | addNexthop (name : Name) (faceId : FaceId) (cost : Nat)
  | removeNexthop (name : Name) (faceId : FaceId)
  deriving DecidableEq, Repr

def FibUpdate.commandFor (x : FibUpdate) : FibAction → ControlCommand
  | .addNexthop => .addNexthop x.name x.faceId x.cost
  | .removeNexthop => .removeNexthop x.name x.faceId

def Command.sent (c : Command) : ControlCommand := c.update.commandFor c.verb

def Fib.carryOut (destroyed : List FaceId) (fib : Fib) : ControlCommand → Fib
  | .addNexthop name faceId cost => fun n f =>
    if n = name ∧ f = faceId ∧ faceId ∉ destroyed then some cost else fib n f
  | .removeNexthop name faceId => fun n f =>
    if n = name ∧ f = faceId ∧ faceId ∉ destroyed then none else fib n f

theorem Fib.carryOut_commandFor (destroyed : List FaceId) (fib : Fib) (x : FibUpdate) :
    fib.carryOut destroyed (x.commandFor x.action) = Fib.execute destroyed fib x := by
  unfold Fib.execute FibUpdate.outcome
  cases x.action <;> rfl

theorem FibUpdate.commandFor_inj {x : FibUpdate} {a b : FibAction} :
    x.commandFor a = x.commandFor b ↔ a = b := by
  cases a <;> cases b <;> simp [FibUpdate.commandFor]

namespace UpdateQueue

variable {nth : NthElement} {s s' : UpdateQueue} {b : Batch}
  {onSuccess : UpdateQueue → Option UpdateQueue}

/-- The command of a removal is about to be sent again. -/
def RetriesRemoval (s : UpdateQueue) : Event → Prop
  | .respond i (.error code) => ∃ c, s.commands[i]? = some c ∧ code = errorTimeout ∧
      c.nTimeouts < maxNumTimeouts ∧ c.update.action = .removeNexthop
  | _ => False

def Faithful (s : UpdateQueue) : Prop := ∀ c ∈ s.commands, c.verb = c.update.action

theorem Faithful.sendUpdates (h : s.Faithful) (b : Batch) (xs : List FibUpdate) :
    (s.sendUpdates b xs).Faithful := by
  rw [sendUpdates_eq]
  intro c hc
  rcases mem_append.mp hc with hc | hc
  · exact h c hc
  · obtain ⟨x,_,rfl⟩ := mem_map.mp hc
    rfl

/-- Every state that an operation may lead to from a faithful one is faithful. -/
def KeepsFaithful (f : UpdateQueue → Option UpdateQueue) : Prop :=
  ∀ s s', s.Faithful → f s = some s' → s'.Faithful

private theorem faithful_sendUpdatesForNonBatchFaceId
    (hs : s.sendUpdatesForNonBatchFaceId b onSuccess = some s') (hsucc : KeepsFaithful onSuccess)
    (h : s.Faithful) : s'.Faithful := by
  unfold UpdateQueue.sendUpdatesForNonBatchFaceId at hs
  split_ifs at hs
  · rw [← some.inj hs]
    exact h.sendUpdates _ _
  · exact hsucc s s' h hs

private theorem faithful_computeAndSendFibUpdates
    (hs : s.computeAndSendFibUpdates nth b onSuccess = some s') (hsucc : KeepsFaithful onSuccess)
    (h : s.Faithful) : s'.Faithful := by
  obtain ⟨u,_,hs⟩ := bind_eq_some_iff.mp hs
  unfold sendUpdatesForBatchFaceId at hs
  split_ifs at hs
  · rw [← some.inj hs]
    apply Faithful.sendUpdates
    exact h
  · exact faithful_sendUpdatesForNonBatchFaceId hs hsucc h

theorem keepsFaithful_applySuccess (b : Batch) : KeepsFaithful (applySuccess b) := by
  intro s s' h hs
  obtain ⟨rib,_,rfl⟩ := map_eq_some_iff.mp hs
  exact h

theorem keepsFaithful_sendBatchFromQueue (q : List Batch) :
    KeepsFaithful (sendBatchFromQueue nth q) := by
  induction q with
  | nil =>
    intro s s' h hs
    rw [← some.inj hs]
    exact h
  | cons b rest ih =>
    intro s s' h hs
    unfold sendBatchFromQueue at hs
    split_ifs at hs
    · rw [← some.inj hs]
      exact h
    · obtain ⟨t,ht,hs⟩ := bind_eq_some_iff.mp hs
      refine ih t s' ?_ hs
      exact faithful_computeAndSendFibUpdates ht (keepsFaithful_applySuccess b) h

private theorem faithful_advance (hs : s.advance nth = some s') (h : s.Faithful) : s'.Faithful :=
  keepsFaithful_sendBatchFromQueue _ s s' h hs

theorem keepsFaithful_onFibUpdateSuccess (b : Batch) :
    KeepsFaithful (onFibUpdateSuccess nth b) := by
  intro s s' h hs
  obtain ⟨t,ht,hs⟩ := bind_eq_some_iff.mp hs
  exact faithful_advance hs (keepsFaithful_applySuccess b s t h ht)

theorem Faithful.onNonBatchUpdateDone (h : s.Faithful) {c : Command}
    (hs : s.onNonBatchUpdateDone nth c = some s') : s'.Faithful := by
  unfold UpdateQueue.onNonBatchUpdateDone at hs
  dsimp only at hs
  split_ifs at hs
  · refine keepsFaithful_onFibUpdateSuccess c.batch _ s' ?_ hs
    exact h
  · rw [← some.inj hs]
    exact h

theorem Faithful.onUpdateSuccess (h : s.Faithful) {c : Command}
    (hs : s.onUpdateSuccess nth c = some s') : s'.Faithful := by
  unfold UpdateQueue.onUpdateSuccess at hs
  dsimp only at hs
  split_ifs at hs
  · exact faithful_sendUpdatesForNonBatchFaceId hs (keepsFaithful_onFibUpdateSuccess c.batch) h
  · rw [← some.inj hs]
    exact h
  · exact h.onNonBatchUpdateDone hs

theorem Faithful.onUpdateError_iff (h : s.Faithful) (c : Command) (code : Nat) :
    (∀ s', s.onUpdateError nth c code = some s' → s'.Faithful) ↔
      ¬ (code = errorTimeout ∧ c.nTimeouts < maxNumTimeouts ∧
        c.update.action = .removeNexthop) := by
  unfold UpdateQueue.onUpdateError
  by_cases hretry : code = errorTimeout ∧ c.nTimeouts < maxNumTimeouts
  · rw [if_pos hretry]
    have hsent : (s.sendAddNextHopUpdate c.batch (c.nTimeouts + 1) c.update).Faithful ↔
        FibAction.addNexthop = c.update.action := by
      simp only [Faithful,sendAddNextHopUpdate,mem_append,mem_singleton]
      exact ⟨fun hall => hall _ (Or.inr rfl),fun ha c' hc' => hc'.elim (h c') fun e => e ▸ ha⟩
    simp only [some.injEq,forall_eq',hsent,hretry,true_and]
    cases c.update.action <;> simp
  · rw [if_neg hretry]
    refine iff_of_true ?_ fun hr => hretry ⟨hr.1,hr.2.1⟩
    intro s' hs
    split_ifs at hs
    · exact faithful_advance (s := s.applyFailure c.batch code) hs h
    · exact h.onNonBatchUpdateDone hs

private theorem commands_addUpdates (updates : List RibUpdate) (s : UpdateQueue) :
    (updates.foldl addUpdateToQueue s).commands = s.commands := by
  induction updates generalizing s with
  | nil => rfl
  | cons u updates ih => exact ih (s.addUpdateToQueue u)

theorem Faithful.enqueues {s₁ : UpdateQueue} (h : s.Faithful) (he : Enqueues s s₁)
    (hs : s₁.advance nth = some s') : s'.Faithful := by
  obtain ⟨updates,_,rfl⟩ := he
  refine faithful_advance hs ?_
  unfold Faithful
  rw [commands_addUpdates]
  exact h

theorem Faithful.step_iff (h : s.Faithful) (event : Event) :
    (∀ s', s.step nth event = some s' → s'.Faithful) ↔ ¬ s.RetriesRemoval event := by
  cases event with
  | apply update =>
    refine iff_of_true (fun s' hs => ?_) id
    exact faithful_advance (s := s.addUpdateToQueue update) hs h
  | elapse d =>
    refine iff_of_true (fun s' hs => ?_) id
    rw [← some.inj hs]
    exact h
  | respond i response =>
    have htaken : ({ s with commands := s.commands.eraseIdx i } : UpdateQueue).Faithful :=
      fun c hc => h c (List.mem_of_mem_eraseIdx hc)
    cases hc : s.commands[i]? with
    | none =>
      cases response <;> simp [step,RetriesRemoval,hc]
    | some c =>
      cases response with
      | success =>
        refine iff_of_true (fun s' hs => ?_) id
        simp only [step,hc,bind_some] at hs
        exact htaken.onUpdateSuccess hs
      | error code =>
        simp only [step,hc,bind_some,htaken.onUpdateError_iff,RetriesRemoval,
          some.injEq,exists_eq_left']
  | _ =>
    refine iff_of_true (fun s' hs => ?_) id
    exact h.enqueues (enqueues_foldl (fun s e => enqueues_removeFace s _ _) _ s) hs

/-- In a run of the queue every command that is ever sent is of the kind of the update it is sent
for, with the update's name, face and cost, and has the update's effect once it is carried out,
exactly if no command of a removal is sent again. -/
theorem run_sends_own_iff (nth : NthElement) (events : List Event) :
    (∀ past future s, events = past ++ future → run nth past = some s → ∀ c ∈ s.commands,
      c.sent = c.update.commandFor c.update.action ∧
      ∀ destroyed fib, Fib.carryOut destroyed fib c.sent = Fib.execute destroyed fib c.update) ↔
    ∀ past event future s, events = past ++ event :: future → run nth past = some s →
      ¬ s.RetriesRemoval event := by
  have hempty : UpdateQueue.empty.Faithful := fun c hc => absurd hc not_mem_nil
  have hown : ∀ c : Command, (c.sent = c.update.commandFor c.update.action ∧
      ∀ destroyed fib, Fib.carryOut destroyed fib c.sent =
        Fib.execute destroyed fib c.update) ↔ c.verb = c.update.action := by
    intro c
    rw [Command.sent,FibUpdate.commandFor_inj]
    refine ⟨And.left,fun hv => ⟨hv,fun destroyed fib => ?_⟩⟩
    rw [hv,Fib.carryOut_commandFor]
  simp only [hown]
  exact foldlM_good_iff (step nth) Faithful (fun s event => ¬ s.RetriesRemoval event)
    (fun s event hs => hs.step_iff event) empty hempty events

/-- The removal of the only route of an entry times out once: the nexthop is put back. -/
theorem removal_sent_as_addition :
    let n : Name := [Component.generic [97]]
    let route : Route := { faceId := 1, cost := 10 }
    ∃ s, run NthElement.stable [.apply ⟨.register,n,route⟩,.respond 0 .success,
        .apply ⟨.unregister,n,route⟩,.respond 0 (.error errorTimeout)] = some s ∧
      ∃ c, s.commands = [c] ∧ c.update = .createRemoveUpdate n 1 ∧
        c.sent = .addNexthop n 1 0 ∧ Fib.carryOut [] (fun _ _ => none) c.sent n 1 = some 0 := by
  intro n route
  refine ⟨(run NthElement.stable [.apply ⟨.register,n,route⟩,.respond 0 .success,
    .apply ⟨.unregister,n,route⟩,.respond 0 (.error errorTimeout)]).get (by decide +kernel),by simp,
    ⟨⟨1,⟨.unregister,n,route⟩⟩,.createRemoveUpdate n 1,.addNexthop,1⟩,?_,rfl,rfl,rfl⟩
  decide +kernel

end UpdateQueue

end KiteNdn.Routing
