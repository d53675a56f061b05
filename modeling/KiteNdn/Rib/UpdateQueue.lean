import KiteNdn.Rib.FibUpdater

/-!
# The queue of RIB updates

`Rib` keeps the updates it is asked for in a queue of batches of one update each. The commands of
the batch at the front are sent, first those for its own face and then the others. A command is
remembered with the batch whose callbacks it was sent with, as the closures of the source do, while
the lists that the responses are checked against belong to whichever batch was computed last.

A step that fails stands for an event that cannot happen in the state, an exception or a failed
assertion.
-/

namespace KiteNdn.Routing

def maxNumTimeouts : Nat := 10
def errorTimeout : Nat := 10060
def errorFaceNotFound : Nat := 410

inductive Response where
  | success
  | error (code : Nat)
  deriving DecidableEq, Repr

structure Batch where
  id : Nat
  update : RibUpdate
  deriving DecidableEq, Repr

inductive Outcome where
  | success (inheritedRoutes : List RibUpdate)
  | failure (code : Nat)
  deriving DecidableEq, Repr

/-- A call of a batch's success or failure callback, with the time and the route that was stored
under the key of the update. -/
structure Decision where
  batch : Batch
  outcome : Outcome
  time : Time
  stored : Option Route
  deriving DecidableEq, Repr

structure Command where
  batch : Batch
  update : FibUpdate
  verb : FibAction
  nTimeouts : Nat
  deriving DecidableEq, Repr

namespace FibUpdater

def removeBatchUpdate (u : FibUpdater) (x : FibUpdate) : FibUpdater :=
  { u with
    updatesForBatchFaceId := u.updatesForBatchFaceId.filter fun y => y ≠ x
    batch_face := fun y hy => u.batch_face y (List.mem_filter.mp hy).1 }

def removeNonBatchUpdate (u : FibUpdater) (x : FibUpdate) : FibUpdater :=
  { u with
    updatesForNonBatchFaceId := u.updatesForNonBatchFaceId.filter fun y => y ≠ x
    nonBatch_face := fun y hy => u.nonBatch_face y (List.mem_filter.mp hy).1 }

end FibUpdater

structure UpdateQueue where
  rib : Rib
  fibUpdater : FibUpdater
  updateBatches : List Batch
  isUpdateInProgress : Bool
  commands : List Command
  started : List Batch
  decisions : List Decision
  nBatches : Nat
  cancelledEvents : List EventId
  now : Time

namespace UpdateQueue

def empty : UpdateQueue := ⟨Rib.empty,FibUpdater.init 0,[],false,[],[],[],0,[],0⟩

def sendAddNextHopUpdate (b : Batch) (nTimeouts : Nat) (s : UpdateQueue) (x : FibUpdate) :
    UpdateQueue :=
  { s with commands := s.commands ++ [⟨b,x,.addNexthop,nTimeouts⟩] }

def sendRemoveNextHopUpdate (b : Batch) (nTimeouts : Nat) (s : UpdateQueue) (x : FibUpdate) :
    UpdateQueue :=
  { s with commands := s.commands ++ [⟨b,x,.removeNexthop,nTimeouts⟩] }

def sendUpdates (s : UpdateQueue) (b : Batch) (updates : List FibUpdate) : UpdateQueue :=
  updates.foldl (fun s x =>
    match x.action with
    | .addNexthop => s.sendAddNextHopUpdate b 0 x
    | .removeNexthop => s.sendRemoveNextHopUpdate b 0 x) s

def sendUpdatesForNonBatchFaceId (s : UpdateQueue) (b : Batch)
    (onSuccess : UpdateQueue → Option UpdateQueue) : Option UpdateQueue :=
  if s.fibUpdater.updatesForNonBatchFaceId.items ≠ [] then
    some (s.sendUpdates b s.fibUpdater.updatesForNonBatchFaceId.items)
  else onSuccess s

def sendUpdatesForBatchFaceId (s : UpdateQueue) (b : Batch)
    (onSuccess : UpdateQueue → Option UpdateQueue) : Option UpdateQueue :=
  if s.fibUpdater.updatesForBatchFaceId.items ≠ [] then
    some (s.sendUpdates b s.fibUpdater.updatesForBatchFaceId.items)
  else s.sendUpdatesForNonBatchFaceId b onSuccess

def computeAndSendFibUpdates (nth : NthElement) (s : UpdateQueue) (b : Batch)
    (onSuccess : UpdateQueue → Option UpdateQueue) : Option UpdateQueue :=
  ((FibUpdater.init b.update.route.faceId).computeUpdates nth s.rib b.update).bind fun u =>
    { s with
      fibUpdater := u
      cancelledEvents := u.cancelledEvents ++ s.cancelledEvents
      }.sendUpdatesForBatchFaceId b onSuccess

def applySuccess (b : Batch) (s : UpdateQueue) : Option UpdateQueue :=
  (s.rib.onFibUpdateSuccess b.update s.fibUpdater.inheritedRoutes).map fun rib =>
    { s with
      rib := rib
      isUpdateInProgress := false
      decisions := s.decisions ++ [⟨b,.success s.fibUpdater.inheritedRoutes,s.now,
        s.rib.findRoute b.update.name b.update.route⟩] }

def applyFailure (b : Batch) (code : Nat) (s : UpdateQueue) : UpdateQueue :=
  { s with
    isUpdateInProgress := false
    decisions := s.decisions ++ [⟨b,.failure code,s.now,
      s.rib.findRoute b.update.name b.update.route⟩] }

/-- Starts batches from the front of the queue until one waits for responses. A batch without
commands succeeds at once and lets the next one start. -/
def sendBatchFromQueue (nth : NthElement) : List Batch → UpdateQueue → Option UpdateQueue
  | [], s => some s
  | b :: rest, s =>
    if s.isUpdateInProgress then some s
    else
      ({ s with
        isUpdateInProgress := true
        updateBatches := rest
        started := s.started ++ [b]
        }.computeAndSendFibUpdates nth b (applySuccess b)).bind (sendBatchFromQueue nth rest)

def advance (nth : NthElement) (s : UpdateQueue) : Option UpdateQueue :=
  sendBatchFromQueue nth s.updateBatches s

def onFibUpdateSuccess (nth : NthElement) (b : Batch) (s : UpdateQueue) : Option UpdateQueue :=
  (s.applySuccess b).bind (advance nth)

def onFibUpdateFailure (nth : NthElement) (b : Batch) (code : Nat) (s : UpdateQueue) :
    Option UpdateQueue :=
  (s.applyFailure b code).advance nth

/-- The branch for an update of another face than the batch's: a missing face is ignored. -/
def onNonBatchUpdateDone (nth : NthElement) (s : UpdateQueue) (c : Command) : Option UpdateQueue :=
  let s := { s with fibUpdater := s.fibUpdater.removeNonBatchUpdate c.update }
  if s.fibUpdater.updatesForNonBatchFaceId.items = [] then s.onFibUpdateSuccess nth c.batch
  else some s

def onUpdateSuccess (nth : NthElement) (s : UpdateQueue) (c : Command) : Option UpdateQueue :=
  if c.update.faceId = s.fibUpdater.batchFaceId then
    let s := { s with fibUpdater := s.fibUpdater.removeBatchUpdate c.update }
    if s.fibUpdater.updatesForBatchFaceId.items = [] then
      s.sendUpdatesForNonBatchFaceId c.batch (onFibUpdateSuccess nth c.batch)
    else some s
  else s.onNonBatchUpdateDone nth c

def onUpdateError (nth : NthElement) (s : UpdateQueue) (c : Command) (code : Nat) :
    Option UpdateQueue :=
  if code = errorTimeout ∧ c.nTimeouts < maxNumTimeouts then
    some (s.sendAddNextHopUpdate c.batch (c.nTimeouts + 1) c.update)
  else if code = errorFaceNotFound then
    if c.update.faceId = s.fibUpdater.batchFaceId then s.onFibUpdateFailure nth c.batch code
    else s.onNonBatchUpdateDone nth c
  else none

def addUpdateToQueue (s : UpdateQueue) (update : RibUpdate) : UpdateQueue :=
  { s with
    updateBatches := s.updateBatches ++ [⟨s.nBatches,update⟩]
    nBatches := s.nBatches + 1 }

def beginApplyUpdate (nth : NthElement) (s : UpdateQueue) (update : RibUpdate) :
    Option UpdateQueue :=
  (s.addUpdateToQueue update).advance nth

def enqueueRemoveFace (s : UpdateQueue) (entry : RibEntry) (faceId : FaceId) : UpdateQueue :=
  (entry.routes.filter fun r => r.faceId = faceId).foldl
    (fun s r => s.addUpdateToQueue ⟨.removeFace,entry.name,r⟩) s

def beginRemoveFace (nth : NthElement) (s : UpdateQueue) (faceId : FaceId) : Option UpdateQueue :=
  ((s.rib.faceEntries.filter fun e => e.1 = faceId).foldl
    (fun s e => s.enqueueRemoveFace (s.rib.heap e.2) e.1) s).advance nth

def beginRemoveFailedFaces (nth : NthElement) (s : UpdateQueue) (activeFaceIds : List FaceId) :
    Option UpdateQueue :=
  ((s.rib.faceEntries.filter fun e => e.1 ∉ activeFaceIds).foldl
    (fun s e => s.enqueueRemoveFace (s.rib.heap e.2) e.1) s).advance nth

inductive Event where
  | apply (update : RibUpdate)
  | removeFace (faceId : FaceId)
  | removeFailedFaces (activeFaceIds : List FaceId)
  | respond (i : Nat) (response : Response)
  | elapse (d : Nat)
  deriving DecidableEq, Repr

def step (nth : NthElement) (s : UpdateQueue) : Event → Option UpdateQueue
  | .apply update => s.beginApplyUpdate nth update
  | .removeFace faceId => s.beginRemoveFace nth faceId
  | .removeFailedFaces activeFaceIds => s.beginRemoveFailedFaces nth activeFaceIds
  | .elapse d => some { s with now := s.now + d }
  | .respond i response =>
    s.commands[i]?.bind fun c =>
      let s := { s with commands := s.commands.eraseIdx i }
      match response with
      | .success => s.onUpdateSuccess nth c
      | .error code => s.onUpdateError nth c code

def run (nth : NthElement) (events : List Event) : Option UpdateQueue :=
  events.foldlM (step nth) empty

end UpdateQueue

end KiteNdn.Routing
