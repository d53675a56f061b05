import KiteNdn.Chunks.DataFetcher

/-!
# The fixed pipeline

Each of the pipes of `PipelineInterestsFixed` has a `DataFetcher` for one segment. Events of a
fetcher that was replaced or that is stopped do nothing.
-/

namespace KiteNdn.Chunks

abbrev SegmentFetchers := List (Option (DataFetcher × Nat))

namespace SegmentFetchers

def setFetcher (fetchers : SegmentFetchers) (pipeNo : Nat) (f : DataFetcher) (segmentNo : Nat) :
    SegmentFetchers :=
  fetchers.set pipeNo (some (f,segmentNo))

def cancelAfter (fetchers : SegmentFetchers) (segmentNo : Nat) : SegmentFetchers :=
  fetchers.map (Option.map fun f => if f.2 > segmentNo then (f.1.cancel,f.2) else f)

def failedWithin (fetchers : SegmentFetchers) (lastSegmentNo : Nat) : Option Nat :=
  fetchers.findSome? fun slot =>
    slot.bind fun f => if f.2 ≤ lastSegmentNo ∧ f.1.hasError = true then some f.2 else none

def isRunningUpTo (fetchers : SegmentFetchers) (segmentNo : Nat) : Bool :=
  fetchers.any fun slot => slot.any fun f => f.2 ≤ segmentNo && f.1.isRunning

end SegmentFetchers

structure PipelineInterestsFixed where
  base : PipelineInterests := {}
  segmentFetchers : SegmentFetchers
  hasFailure : Bool := false

namespace PipelineInterestsFixed

def cancel (s : PipelineInterestsFixed) : PipelineInterestsFixed :=
  if s.base.isStopping then s
  else { s with
    base := { s.base with isStopping := true }
    segmentFetchers := [] }

def onFailure (s : PipelineInterestsFixed) (reason : Failure) : PipelineInterestsFixed :=
  if s.base.isStopping then s
  else { s.cancel with base := { s.cancel.base with failure := some reason } }

section Handlers

variable (o : Options)

def fetchNextSegment (pipeNo : Nat) (s : PipelineInterestsFixed) :
    Option (PipelineInterestsFixed × Bool) :=
  if s.base.isStopping then some (s,false)
  else if s.hasFailure then some (s.onFailure .noFinalSegment,false)
  else
    let nextSegmentNo := s.base.nextSegmentNo
    let s : PipelineInterestsFixed :=
      { s with base := { s.base with nextSegmentNo := nextSegmentNo + 1 } }
    if s.base.hasFinalBlockId = true ∧ nextSegmentNo > s.base.lastSegmentNo then some (s,false)
    else do
      let slot ← s.segmentFetchers[pipeNo]?
      o.assert (slot.all (fun f => !f.1.isRunning) = true)
      some ({ s with segmentFetchers := s.segmentFetchers.setFetcher pipeNo {} nextSegmentNo },true)

def requestSegments : Nat → Nat → PipelineInterestsFixed → Option PipelineInterestsFixed
  | 0, _, s => some s
  | count + 1, pipeNo, s =>
    (fetchNextSegment o pipeNo s).bind fun r =>
      if r.2 then requestSegments count (pipeNo + 1) r.1 else some r.1

def doRun (s : PipelineInterestsFixed) : Option PipelineInterestsFixed :=
  requestSegments o o.maxPipelineSize 0 s

def fetchAfterData (pipeNo : Nat) (s : PipelineInterestsFixed) : Option PipelineInterestsFixed :=
  if s.base.allSegmentsReceived then some s else (fetchNextSegment o pipeNo s).map Prod.fst

def handleData (d : Segment) (pipeNo : Nat) (s : PipelineInterestsFixed) :
    Option PipelineInterestsFixed :=
  if s.base.isStopping then some s
  else
    let s := { s with base := s.base.onData d }
    match s.base.newFinalBlock d with
    | none => fetchAfterData o pipeNo s
    | some component =>
      component.segment?.bind fun lastSegmentNo =>
        let s := { s with base := s.base.setFinalBlock lastSegmentNo }
        match s.segmentFetchers.failedWithin lastSegmentNo with
        | some segmentNo => some (s.onFailure (.segment segmentNo))
        | none =>
          fetchAfterData o pipeNo
            { s with segmentFetchers := s.segmentFetchers.cancelAfter lastSegmentNo }

def handleFail (reason : Failure) (segmentNo : Nat) (s : PipelineInterestsFixed) :
    PipelineInterestsFixed :=
  if s.base.isStopping then s
  else if s.base.hasFinalBlockId then
    if segmentNo ≤ s.base.lastSegmentNo then s.onFailure reason else s
  else
    let s := { s with segmentFetchers := s.segmentFetchers.cancelAfter segmentNo }
    if s.segmentFetchers.isRunningUpTo segmentNo then { s with hasFailure := true }
    else s.onFailure .noFinalSegment

def afterRetry (pipeNo segmentNo : Nat) (r : DataFetcher × Option Failure)
    (s : PipelineInterestsFixed) : PipelineInterestsFixed :=
  let s := { s with segmentFetchers := s.segmentFetchers.setFetcher pipeNo r.1 segmentNo }
  match r.2 with
  | some reason => s.handleFail reason segmentNo
  | none => s

def onFetcher (s : PipelineInterestsFixed) (pipeNo : Nat)
    (handle : DataFetcher → Nat → Option PipelineInterestsFixed) : Option PipelineInterestsFixed :=
  match s.segmentFetchers[pipeNo]? with
  | some (some (f,segmentNo)) => if f.isRunning then handle f segmentNo else some s
  | _ => none

def receiveData (pipeNo : Nat) (d : Segment) (s : PipelineInterestsFixed) :
    Option PipelineInterestsFixed :=
  s.onFetcher pipeNo fun f segmentNo =>
    if f.isBackingOff = false ∧ o.isAnswered segmentNo d = true then
      handleData o d pipeNo { s with
        segmentFetchers := s.segmentFetchers.setFetcher pipeNo { f with isStopped := true } segmentNo }
    else none

def receiveNack (pipeNo : Nat) (reason : NackReason) (s : PipelineInterestsFixed) :
    Option PipelineInterestsFixed :=
  s.onFetcher pipeNo fun f segmentNo =>
    if f.isBackingOff then none
    else some (s.afterRetry pipeNo segmentNo
      (f.handleNack o.maxRetriesOnTimeoutOrNack segmentNo reason))

def timeout (pipeNo : Nat) (s : PipelineInterestsFixed) : Option PipelineInterestsFixed :=
  s.onFetcher pipeNo fun f segmentNo =>
    if f.isBackingOff then none
    else some (s.afterRetry pipeNo segmentNo
      (f.handleTimeout o.maxRetriesOnTimeoutOrNack segmentNo))

def resend (pipeNo : Nat) (s : PipelineInterestsFixed) : Option PipelineInterestsFixed :=
  s.onFetcher pipeNo fun f segmentNo =>
    if f.isBackingOff then some (s.afterRetry pipeNo segmentNo ({ f with isBackingOff := false },none))
    else none

end Handlers

end PipelineInterestsFixed

end KiteNdn.Chunks
