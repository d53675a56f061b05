import KiteNdn.Chunks.FixedPipeline

/-!
# The adaptive pipelines

`PipelineInterestsAdaptive` keeps a congestion window of Interests in flight. The arithmetic of the
window belongs to its subclasses and is a parameter, with what they read from the clock and the RTT
estimator. The face may still report on an Interest that was cancelled.
-/

namespace KiteNdn.Chunks

open Framework Option

structure Window (ω τ : Type) where
  initial : ω
  /-- `m_cwnd` as a whole number. -/
  cwnd : ω → Int
  increaseWindow : τ → ω → ω
  decreaseWindow : τ → ω → ω

inductive SegmentState where
  | firstTimeSent
  | inRetxQueue
  | retransmitted
  deriving DecidableEq, Repr

structure SegmentInfo where
  segNo : Nat
  state : SegmentState
  deriving DecidableEq, Repr

structure PipelineInterestsAdaptive (ω : Type) where
  base : PipelineInterests := {}
  window : ω
  nInFlight : Int := 0
  segmentInfo : KeyedList SegmentInfo.segNo := .empty
  retxCount : KeyedList (Prod.fst : Nat × Int → Nat) := .empty
  retxQueue : List Nat := []
  highData : Nat := 0
  highInterest : Nat := 0
  recPoint : Nat := 0
  failed : Option (Nat × Failure) := none
  pendingInterests : List Nat := []

namespace PipelineInterestsAdaptive

variable {ω τ : Type}

def cancel (s : PipelineInterestsAdaptive ω) : PipelineInterestsAdaptive ω :=
  if s.base.isStopping then s
  else { s with
    base := { s.base with isStopping := true }
    segmentInfo := .empty }

def onFailure (s : PipelineInterestsAdaptive ω) (reason : Failure) : PipelineInterestsAdaptive ω :=
  if s.base.isStopping then s
  else { s.cancel with base := { s.cancel.base with failure := some reason } }

/-- Segments that wait for their retransmission are taken off the count, too. -/
def cancelInFlightSegmentsGreaterThan (segNo : Nat) (s : PipelineInterestsAdaptive ω) :
    PipelineInterestsAdaptive ω :=
  { s with
    segmentInfo := s.segmentInfo.filter fun info => info.segNo ≤ segNo
    nInFlight := s.nInFlight - s.segmentInfo.items.countP fun info => info.segNo > segNo }

def handleFail (segNo : Nat) (reason : Failure) (s : PipelineInterestsAdaptive ω) :
    PipelineInterestsAdaptive ω :=
  if s.base.isStopping then s
  else if s.base.hasFinalBlockId then
    if segNo ≤ s.base.lastSegmentNo then s.onFailure reason else s
  else
    let s := { s with
      segmentInfo := s.segmentInfo.filter fun info => info.segNo ≠ segNo
      nInFlight := s.nInFlight - 1 }
    if s.segmentInfo.items.isEmpty then s.onFailure .noFinalSegment
    else { s.cancelInFlightSegmentsGreaterThan segNo with failed := some (segNo,reason) }

def expressInterest (segNo : Nat) (isRetransmission : Bool) (s : PipelineInterestsAdaptive ω) :
    PipelineInterestsAdaptive ω :=
  { s with
    segmentInfo :=
      s.segmentInfo.put ⟨segNo,if isRetransmission then .retransmitted else .firstTimeSent⟩
    nInFlight := s.nInFlight + 1
    highInterest := if isRetransmission then s.highInterest else segNo
    pendingInterests := s.pendingInterests ++ [segNo] }

section Sending

variable (o : Options)

def sendInterest (segNo : Nat) (isRetransmission : Bool) (s : PipelineInterestsAdaptive ω) :
    PipelineInterestsAdaptive ω :=
  if s.base.isStopping then s
  else if s.base.hasFinalBlockId = true ∧ segNo > s.base.lastSegmentNo then s
  else if isRetransmission then
    match s.retxCount.find? segNo with
    | none => { s with retxCount := s.retxCount.put (segNo,1) }.expressInterest segNo true
    | some (_,count) =>
      let s := { s with retxCount := s.retxCount.put (segNo,count + 1) }
      if o.maxRetriesOnTimeoutOrNack ≠ maxRetriesInfinite ∧
          count + 1 > o.maxRetriesOnTimeoutOrNack then s.handleFail segNo (.retries segNo)
      else s.expressInterest segNo true
  else if s.failed.isSome then s
  else s.expressInterest segNo false

def sendNext (s : PipelineInterestsAdaptive ω) : PipelineInterestsAdaptive ω :=
  sendInterest o s.base.nextSegmentNo false
    { s with base := { s.base with nextSegmentNo := s.base.nextSegmentNo + 1 } }

/-- The loop of `schedulePackets` over the retransmission queue, then over the next segments. Sending
an Interest does not change the queue. -/
def fillWindow : List Nat → Nat → PipelineInterestsAdaptive ω → PipelineInterestsAdaptive ω
  | queue, 0, s => { s with retxQueue := queue }
  | [], available + 1, s => (sendNext o)^[available + 1] { s with retxQueue := [] }
  | segNo :: queue, available + 1, s =>
    if (s.segmentInfo.find? segNo).isSome then
      fillWindow queue available (sendInterest o segNo true s)
    else fillWindow queue (available + 1) s

variable (w : Window ω τ)

def schedulePackets (s : PipelineInterestsAdaptive ω) : Option (PipelineInterestsAdaptive ω) := do
  o.assert (0 ≤ s.nInFlight)
  some (fillWindow o s.retxQueue (w.cwnd s.window - s.nInFlight).toNat s)

def doRun (s : PipelineInterestsAdaptive ω) : Option (PipelineInterestsAdaptive ω) :=
  if s.base.allSegmentsReceived then some s.cancel else schedulePackets o w s

/-- A timeout or a congestion mark reduces the window, at most once in a round trip unless that is
disabled. -/
def recordTimeout (now : τ) (s : PipelineInterestsAdaptive ω) : PipelineInterestsAdaptive ω :=
  if o.disableCwa = true ∨ s.highData > s.recPoint then
    { s with
      recPoint := s.highInterest
      window := w.decreaseWindow now s.window }
  else s

def adaptWindow (congestionMark : Nat) (now : τ) (s : PipelineInterestsAdaptive ω) :
    PipelineInterestsAdaptive ω :=
  if congestionMark > 0 ∧ o.ignoreCongMarks = false then recordTimeout o w now s
  else { s with window := w.increaseWindow now s.window }

def enqueueForRetransmission (s : PipelineInterestsAdaptive ω) (segNo : Nat) :
    Option (PipelineInterestsAdaptive ω) := do
  o.assert (0 < s.nInFlight)
  let info ← s.segmentInfo.find? segNo
  some { s with
    nInFlight := s.nInFlight - 1
    retxQueue := s.retxQueue ++ [segNo]
    segmentInfo := s.segmentInfo.put { info with state := .inRetxQueue } }

/-- `expired` are the segments whose timers the loop finds expired. -/
def checkRto (expired : List Nat) (now : τ) (s : PipelineInterestsAdaptive ω) :
    Option (PipelineInterestsAdaptive ω) :=
  if s.base.isStopping then some s
  else do
    let s ← expired.foldlM (fun s segNo => do
      let info ← s.segmentInfo.find? segNo
      guard (info.state ≠ .inRetxQueue)
      enqueueForRetransmission o s segNo) s
    if expired.isEmpty then some s else schedulePackets o w (recordTimeout o w now s)

end Sending

section Receiving

variable (o : Options) (w : Window ω τ)

def handleSegment (d : Segment) (congestionMark : Nat) (now : τ)
    (s : PipelineInterestsAdaptive ω) : Option (PipelineInterestsAdaptive ω) :=
  d.number.bind fun recvSegNo =>
    match s.segmentInfo.find? recvSegNo with
    | none => some s
    | some info =>
      let s := adaptWindow o w congestionMark now { s with
        highData := max s.highData recvSegNo
        nInFlight := if info.state ≠ .inRetxQueue then s.nInFlight - 1 else s.nInFlight }
      doRun o w { s with
        base := s.base.onData d
        segmentInfo := s.segmentInfo.filter fun info => info.segNo ≠ recvSegNo }

def handleData (d : Segment) (congestionMark : Nat) (now : τ) (s : PipelineInterestsAdaptive ω) :
    Option (PipelineInterestsAdaptive ω) :=
  if s.base.isStopping then some s
  else
    match s.base.newFinalBlock d with
    | none => handleSegment o w d congestionMark now s
    | some component =>
      component.segment?.bind fun lastSegmentNo =>
        let s := { s with base := s.base.setFinalBlock lastSegmentNo
          }.cancelInFlightSegmentsGreaterThan lastSegmentNo
        match s.failed.filter fun failed => lastSegmentNo ≥ failed.1 with
        | some failed => some (s.onFailure failed.2)
        | none => handleSegment o w d congestionMark now { s with failed := none }

def retryLater (segNo : Nat) (now : τ) (s : PipelineInterestsAdaptive ω) :
    Option (PipelineInterestsAdaptive ω) :=
  (enqueueForRetransmission o s segNo).bind fun s => schedulePackets o w (recordTimeout o w now s)

def handleNack (segNo : Nat) (reason : NackReason) (now : τ) (s : PipelineInterestsAdaptive ω) :
    Option (PipelineInterestsAdaptive ω) :=
  if s.base.isStopping then some s
  else
    match reason with
    | .duplicate => some s
    | .congestion => retryLater o w segNo now s
    | .none | .noRoute => some (s.handleFail segNo (.nack segNo reason))

def handleLifetimeExpiration (segNo : Nat) (now : τ) (s : PipelineInterestsAdaptive ω) :
    Option (PipelineInterestsAdaptive ω) :=
  if s.base.isStopping then some s else retryLater o w segNo now s

def onInterest (s : PipelineInterestsAdaptive ω) (place : Nat)
    (handle : Nat → PipelineInterestsAdaptive ω → Option (PipelineInterestsAdaptive ω)) :
    Option (PipelineInterestsAdaptive ω) :=
  s.pendingInterests[place]?.bind fun segNo =>
    handle segNo { s with pendingInterests := s.pendingInterests.eraseIdx place }

def receiveData (place : Nat) (d : Segment) (congestionMark : Nat) (now : τ)
    (s : PipelineInterestsAdaptive ω) : Option (PipelineInterestsAdaptive ω) :=
  s.onInterest place fun segNo s =>
    if o.isAnswered segNo d then handleData o w d congestionMark now s else none

def receiveNack (place : Nat) (reason : NackReason) (now : τ) (s : PipelineInterestsAdaptive ω) :
    Option (PipelineInterestsAdaptive ω) :=
  s.onInterest place fun segNo s => handleNack o w segNo reason now s

def timeout (place : Nat) (now : τ) (s : PipelineInterestsAdaptive ω) :
    Option (PipelineInterestsAdaptive ω) :=
  s.onInterest place fun segNo s => handleLifetimeExpiration o w segNo now s

end Receiving

section Changes

variable (o : Options)

def IsInFlight (s : PipelineInterestsAdaptive ω) (segNo : Nat) : Prop :=
  ∃ info, s.segmentInfo.find? segNo = some info ∧ info.state ≠ .inRetxQueue

def NoneQueuedAfter (s : PipelineInterestsAdaptive ω) (segNo : Nat) : Prop :=
  ∀ info ∈ s.segmentInfo.items, segNo < info.segNo → info.state ≠ .inRetxQueue

/-- No segment that is queued turns out to be beyond the end. -/
def FitsData (s : PipelineInterestsAdaptive ω) (d : Segment) : Prop :=
  ∀ component last, s.base.newFinalBlock d = some component → component.segment? = some last →
    s.NoneQueuedAfter last

/-- The Nack is for a segment in flight, and if it ends the attempts beyond the segment, none of
them is queued. -/
def FitsNack (s : PipelineInterestsAdaptive ω) (segNo : Nat) : NackReason → Prop
  | .duplicate => True
  | .congestion => s.IsInFlight segNo
  | .none | .noRoute =>
    s.base.hasFinalBlockId = false → s.IsInFlight segNo ∧ s.NoneQueuedAfter segNo

/-- What can happen to the table of segments, the queue and the counters, where `D` are the packets
that may arrive, and `P` says that what is reported fits the table. -/
inductive Change (D : Segment → Prop) (P : Prop) :
    PipelineInterestsAdaptive ω → PipelineInterestsAdaptive ω → Prop
  | inert (s : PipelineInterestsAdaptive ω) (window : ω) (highData highInterest recPoint : Nat)
      (pendingInterests : List Nat) : Change D P s { s with
        window := window
        highData := highData
        highInterest := highInterest
        recPoint := recPoint
        pendingInterests := pendingInterests }
  | next {s : PipelineInterestsAdaptive ω} (hqueue : s.retxQueue = []) : Change D P s (sendNext o s)
  | skip {s : PipelineInterestsAdaptive ω} {segNo : Nat} {queue : List Nat}
      (hqueue : s.retxQueue = segNo :: queue) (hnone : s.segmentInfo.find? segNo = none) :
      Change D P s { s with retxQueue := queue }
  | resend {s : PipelineInterestsAdaptive ω} {segNo : Nat} {queue : List Nat} {info : SegmentInfo}
      (hqueue : s.retxQueue = segNo :: queue) (hinfo : s.segmentInfo.find? segNo = some info) :
      Change D P s (sendInterest o segNo true { s with retxQueue := queue })
  | enqueue {s s' : PipelineInterestsAdaptive ω} {segNo : Nat}
      (hs : enqueueForRetransmission o s segNo = some s') (hfits : P → s.IsInFlight segNo) :
      Change D P s s'
  | fail {segNo : Nat} {reason : Failure} (s : PipelineInterestsAdaptive ω)
      (hreason : reason.segmentNo? = some segNo)
      (hfits : P → s.base.hasFinalBlockId = false → s.IsInFlight segNo ∧ s.NoneQueuedAfter segNo) :
      Change D P s (s.handleFail segNo reason)
  | cancel (s : PipelineInterestsAdaptive ω) : Change D P s s.cancel
  | failed {s : PipelineInterestsAdaptive ω} {d : Segment} {component : Component} {last : Nat}
      {failed : Nat × Failure} (hd : D d) (hnew : s.base.newFinalBlock d = some component)
      (hlast : component.segment? = some last) (hfailed : s.failed = some failed)
      (hle : failed.1 ≤ last) (hrunning : s.base.isStopping = false) :
      Change D P s (({ s with base := s.base.setFinalBlock last
        }.cancelInFlightSegmentsGreaterThan last).onFailure failed.2)
  | final {s : PipelineInterestsAdaptive ω} {d : Segment} {component : Component} {last : Nat}
      (hd : D d) (hnew : s.base.newFinalBlock d = some component)
      (hlast : component.segment? = some last) (hrunning : s.base.isStopping = false)
      (hfits : P → s.NoneQueuedAfter last) :
      Change D P s { { s with base := s.base.setFinalBlock last
        }.cancelInFlightSegmentsGreaterThan last with failed := none }
  | receive {s : PipelineInterestsAdaptive ω} {d : Segment} {segNo : Nat} {info : SegmentInfo}
      (hd : D d) (hnumber : d.number = some segNo)
      (hinfo : s.segmentInfo.find? segNo = some info) : Change D P s { s with
        base := s.base.onData d
        segmentInfo := s.segmentInfo.filter fun info => info.segNo ≠ segNo
        nInFlight := if info.state ≠ .inRetxQueue then s.nInFlight - 1 else s.nInFlight }

abbrev Changes (D : Segment → Prop) (P : Prop) :
    PipelineInterestsAdaptive ω → PipelineInterestsAdaptive ω → Prop :=
  Relation.ReflTransGen (Change o D P)

variable {o} {w : Window ω τ} {D : Segment → Prop} {P : Prop}
  {s s' : PipelineInterestsAdaptive ω} {segNo : Nat} {now : τ}

theorem sendInterest_retxQueue (segNo : Nat) (isRetransmission : Bool)
    (s : PipelineInterestsAdaptive ω) (queue : List Nat) :
    { sendInterest o segNo isRetransmission s with retxQueue := queue } =
      sendInterest o segNo isRetransmission { s with retxQueue := queue } := by
  unfold sendInterest handleFail onFailure cancel
  cases s.retxCount.find? segNo <;> dsimp only <;> split_ifs <;> rfl

theorem retxQueue_sendInterest (segNo : Nat) (isRetransmission : Bool)
    (s : PipelineInterestsAdaptive ω) :
    (sendInterest o segNo isRetransmission s).retxQueue = s.retxQueue :=
  (congrArg retxQueue (sendInterest_retxQueue segNo isRetransmission s s.retxQueue)).symm

theorem changes_fillWindow (queue : List Nat) (available : Nat)
    (s : PipelineInterestsAdaptive ω) :
    Changes o D P { s with retxQueue := queue } (fillWindow o queue available s) := by
  induction queue generalizing available s with
  | nil =>
    cases available with
    | zero => exact .refl
    | succ available =>
      let s₀ := { s with retxQueue := [] }
      have hloop : Changes o D P s₀ ((sendNext o)^[available + 1] s₀) ∧
          ((sendNext o)^[available + 1] s₀).retxQueue = [] := by
        apply Function.Iterate.rec (fun t => Changes o D P s₀ t ∧ t.retxQueue = []) ⟨.refl,rfl⟩
        rintro t ⟨hchanges,hqueue⟩
        exact ⟨hchanges.tail (.next hqueue),(retxQueue_sendInterest _ false _).trans hqueue⟩
      exact hloop.1
  | cons segNo queue ih =>
    cases available with
    | zero => exact .refl
    | succ available =>
      rw [fillWindow]
      cases hinfo : s.segmentInfo.find? segNo with
      | none => exact (ih (available + 1) s).head (.skip rfl hinfo)
      | some info =>
        have hrest := ih available (sendInterest o segNo true s)
        rw [sendInterest_retxQueue] at hrest
        exact hrest.head (.resend rfl hinfo)

theorem changes_schedulePackets (hs : schedulePackets o w s = some s') : Changes o D P s s' := by
  obtain ⟨_,_,hs⟩ := bind_eq_some_iff.mp hs
  exact some.inj hs ▸ changes_fillWindow s.retxQueue _ s

theorem changes_doRun (hs : doRun o w s = some s') : Changes o D P s s' := by
  unfold doRun at hs
  split_ifs at hs
  · exact some.inj hs ▸ .single (.cancel s)
  · exact changes_schedulePackets hs

theorem change_recordTimeout (s : PipelineInterestsAdaptive ω) :
    Change o D P s (recordTimeout o w now s) := by
  unfold recordTimeout
  split_ifs
  · exact .inert s _ _ _ _ _
  · exact .inert s _ _ _ _ _

theorem changes_checkRto {expired : List Nat} (hs : checkRto o w expired now s = some s') :
    Changes o D P s s' := by
  unfold checkRto at hs
  by_cases hstopping : s.base.isStopping = true
  · rw [if_pos hstopping] at hs
    exact some.inj hs ▸ .refl
  rw [if_neg hstopping] at hs
  obtain ⟨t,ht,hs⟩ := bind_eq_some_iff.mp hs
  have hloop : Changes o D P s t := by
    refine foldlM_keeps (Changes o D P s) (fun t segNo t' h ht => ?_) expired .refl ht
    obtain ⟨info,hinfo,ht⟩ := bind_eq_some_iff.mp ht
    obtain ⟨_,hstate,ht⟩ := bind_eq_some_iff.mp ht
    exact h.tail (.enqueue ht fun _ => ⟨info,hinfo,fun heq => by simp [heq] at hstate⟩)
  by_cases hempty : expired.isEmpty = true
  · simp only [hempty,if_true] at hs
    exact some.inj hs ▸ hloop
  · simp only [hempty,Bool.false_eq_true,if_false] at hs
    exact (hloop.tail (change_recordTimeout t)).trans (changes_schedulePackets hs)

variable {d : Segment} {congestionMark : Nat}

theorem changes_handleSegment (hd : D d)
    (hs : handleSegment o w d congestionMark now s = some s') : Changes o D P s s' := by
  obtain ⟨segNo,hnumber,hs⟩ := bind_eq_some_iff.mp hs
  cases hinfo : s.segmentInfo.find? segNo with
  | none =>
    rw [hinfo] at hs
    exact some.inj hs ▸ .refl
  | some info =>
    rw [hinfo] at hs
    refine .trans (.tail (.single (.receive hd hnumber hinfo)) ?_) (changes_doRun hs)
    -- the window has changed before the packet is handed over
    unfold adaptWindow recordTimeout
    split_ifs <;> exact .inert _ _ _ _ _ _

theorem changes_handleData (hd : D d)
    (hs : handleData o w d congestionMark now s = some s') (hfits : P → s.FitsData d) :
    Changes o D P s s' := by
  unfold handleData at hs
  split_ifs at hs with hstopping
  · exact some.inj hs ▸ .refl
  cases hnew : s.base.newFinalBlock d with
  | none =>
    rw [hnew] at hs
    exact changes_handleSegment hd hs
  | some component =>
    rw [hnew] at hs
    obtain ⟨last,hlast,hs⟩ := bind_eq_some_iff.mp hs
    dsimp only at hs
    split at hs
    · rename_i failed hfailed
      obtain ⟨hsome,hle⟩ := filter_eq_some_iff.mp hfailed
      exact some.inj hs ▸ .single
        (.failed hd hnew hlast hsome (of_decide_eq_true hle) (by simpa using hstopping))
    · exact (changes_handleSegment hd hs).head (.final hd hnew hlast (by simpa using hstopping)
        fun hP => hfits hP component last hnew hlast)

theorem changes_retryLater (hs : retryLater o w segNo now s = some s')
    (hfits : P → s.IsInFlight segNo) : Changes o D P s s' := by
  obtain ⟨t,ht,hs⟩ := bind_eq_some_iff.mp hs
  exact ((changes_schedulePackets hs).head (change_recordTimeout t)).head (.enqueue ht hfits)

variable {reason : NackReason}

theorem changes_handleNack
    (hs : handleNack o w segNo reason now s = some s') (hfits : P → s.FitsNack segNo reason) :
    Changes o D P s s' := by
  unfold handleNack at hs
  split_ifs at hs
  · exact some.inj hs ▸ .refl
  · cases reason with
    | duplicate => exact some.inj hs ▸ .refl
    | congestion => exact changes_retryLater hs hfits
    | none | noRoute => exact some.inj hs ▸ .single (.fail s rfl hfits)

variable {place : Nat}

theorem changes_receiveData (hd : D d)
    (hfits : P → s.FitsData d) (hs : receiveData o w place d congestionMark now s = some s') :
    Changes o D P s s' := by
  obtain ⟨segNo,_,hs⟩ := bind_eq_some_iff.mp hs
  dsimp only at hs
  split_ifs at hs
  exact (changes_handleData hd hs hfits).head (.inert s _ _ _ _ _)

theorem changes_receiveNack
    (hfits : P → ∀ segNo ∈ s.pendingInterests[place]?, s.FitsNack segNo reason)
    (hs : receiveNack o w place reason now s = some s') : Changes o D P s s' := by
  obtain ⟨segNo,hsegNo,hs⟩ := bind_eq_some_iff.mp hs
  exact (changes_handleNack hs fun hP => hfits hP segNo hsegNo).head (.inert s _ _ _ _ _)

theorem changes_timeout (hfits : P → ∀ segNo ∈ s.pendingInterests[place]?, s.IsInFlight segNo)
    (hs : timeout o w place now s = some s') : Changes o D P s s' := by
  obtain ⟨segNo,hsegNo,hs⟩ := bind_eq_some_iff.mp hs
  unfold handleLifetimeExpiration at hs
  dsimp only at hs
  split_ifs at hs
  · exact some.inj hs ▸ .single (.inert s _ _ _ _ _)
  · exact (changes_retryLater hs fun hP => hfits hP segNo hsegNo).head (.inert s _ _ _ _ _)

end Changes

end PipelineInterestsAdaptive

inductive PipelineType where
  | fixed
  | adaptive
  deriving DecidableEq, Repr

inductive Pipeline (ω : Type) where
  | fixed (s : PipelineInterestsFixed)
  | adaptive (s : PipelineInterestsAdaptive ω)

/-- What happens around a pipeline. The place of an Interest is its pipe, or its place among the
pending Interests. -/
inductive Event (τ : Type) where
  | data (place : Nat) (d : Segment) (congestionMark : Nat) (now : τ)
  | nack (place : Nat) (reason : NackReason) (now : τ)
  | timeout (place : Nat) (now : τ)
  | resend (pipeNo : Nat)
  | checkRto (expired : List Nat) (now : τ)
  | validated (place : Nat)

namespace Pipeline

variable {ω τ : Type} {e : Event τ}

def base : Pipeline ω → PipelineInterests
  | .fixed s => s.base
  | .adaptive s => s.base

def setConsumer (c : Consumer) : Pipeline ω → Pipeline ω
  | .fixed s => .fixed { s with base := { s.base with consumer := c } }
  | .adaptive s => .adaptive { s with base := { s.base with consumer := c } }

section Runs

variable (o : Options) (w : Window ω τ)

def start : PipelineType → Option (Pipeline ω)
  | .fixed =>
    (PipelineInterestsFixed.doRun o
      { segmentFetchers := List.replicate o.maxPipelineSize none }).map .fixed
  | .adaptive => (PipelineInterestsAdaptive.doRun o w { window := w.initial }).map .adaptive

/-- An event that the pipeline does not have cannot happen. -/
def step (p : Pipeline ω) (e : Event τ) : Option (Pipeline ω) :=
  match p, e with
  | p, .validated place => (p.base.consumer.afterValidation place).map fun c => p.setConsumer c
  | .fixed s, .data place d _ _ => (s.receiveData o place d).map .fixed
  | .fixed s, .nack place reason _ => (s.receiveNack o place reason).map .fixed
  | .fixed s, .timeout place _ => (s.timeout o place).map .fixed
  | .fixed s, .resend pipeNo => (s.resend pipeNo).map .fixed
  | .fixed _, .checkRto _ _ => none
  | .adaptive s, .data place d congestionMark now =>
    (s.receiveData o w place d congestionMark now).map .adaptive
  | .adaptive s, .nack place reason now => (s.receiveNack o w place reason now).map .adaptive
  | .adaptive s, .timeout place now => (s.timeout o w place now).map .adaptive
  | .adaptive _, .resend _ => none
  | .adaptive s, .checkRto expired now => (s.checkRto o w expired now).map .adaptive

def run (type : PipelineType) (events : List (Event τ)) : Option (Pipeline ω) :=
  (start o w type).bind (events.foldlM (step o w))

end Runs

section Tracking

variable {o : Options} {w : Window ω τ} {p' : Pipeline ω}

def Carries : Event τ → Segment → Prop
  | .data _ d _ _, d' => d' = d
  | _, _ => False

def Fits (s : PipelineInterestsAdaptive ω) : Event τ → Prop
  | .data _ d _ _ => s.FitsData d
  | .nack place reason _ => ∀ segNo ∈ s.pendingInterests[place]?, s.FitsNack segNo reason
  | .timeout place _ => ∀ segNo ∈ s.pendingInterests[place]?, s.IsInFlight segNo
  | _ => True

theorem step_adaptive {s : PipelineInterestsAdaptive ω} (hp : step o w (.adaptive s) e = some p') :
    (∃ place c, s.base.consumer.afterValidation place = some c ∧
      p' = (Pipeline.adaptive s).setConsumer c) ∨
    ∃ s', p' = .adaptive s' ∧ PipelineInterestsAdaptive.Changes o (Carries e) (Fits s e) s s' := by
  cases e with
  | validated place =>
    obtain ⟨c,hc,rfl⟩ := map_eq_some_iff.mp hp
    exact .inl ⟨place,c,hc,rfl⟩
  | resend pipeNo => cases hp
  | data place d congestionMark now =>
    obtain ⟨s',hs,rfl⟩ := map_eq_some_iff.mp hp
    exact .inr ⟨s',rfl,PipelineInterestsAdaptive.changes_receiveData rfl id hs⟩
  | nack place reason now =>
    obtain ⟨s',hs,rfl⟩ := map_eq_some_iff.mp hp
    exact .inr ⟨s',rfl,PipelineInterestsAdaptive.changes_receiveNack id hs⟩
  | timeout place now =>
    obtain ⟨s',hs,rfl⟩ := map_eq_some_iff.mp hp
    exact .inr ⟨s',rfl,PipelineInterestsAdaptive.changes_timeout id hs⟩
  | checkRto expired now =>
    obtain ⟨s',hs,rfl⟩ := map_eq_some_iff.mp hp
    exact .inr ⟨s',rfl,PipelineInterestsAdaptive.changes_checkRto hs⟩

end Tracking

end Pipeline

end KiteNdn.Chunks
