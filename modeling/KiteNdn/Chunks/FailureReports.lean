import KiteNdn.Chunks.AdaptivePipeline

/-!
# Reports of failures

A pipeline should report a failure only for a segment of the content, or if it never learns the last
one. The fixed pipeline remembers that some segment has failed, but not which.
-/

namespace KiteNdn.Chunks

open Framework Option

/-- The report names a segment of the content, or the last segment is not known. -/
def PipelineInterests.Justifies (b : PipelineInterests) (reason : Failure) : Prop :=
  match reason.segmentNo? with
  | some n => b.hasFinalBlockId = true ∧ n ≤ b.lastSegmentNo
  | none => b.hasFinalBlockId = false

/-- There is no report while the pipeline runs, and a justified one afterwards. -/
structure PipelineInterests.Reports (b : PipelineInterests) : Prop where
  running : b.isStopping = false → b.failure = none
  justified : ∀ reason ∈ b.failure, b.Justifies reason

theorem PipelineInterests.Reports.congr {b b' : PipelineInterests} (h : b.Reports)
    (hstopping : b.isStopping = true → b'.isStopping = true) (hfailure : b'.failure = b.failure)
    (hsame : b.isStopping = true → b'.hasFinalBlockId = b.hasFinalBlockId ∧
      b'.lastSegmentNo = b.lastSegmentNo) : b'.Reports := by
  cases hs : b.isStopping with
  | false =>
    have hnone := hfailure.trans (h.running hs)
    exact ⟨fun _ => hnone,by simp [hnone]⟩
  | true =>
    obtain ⟨hfinal,hlast⟩ := hsame hs
    refine ⟨fun hno => absurd (hstopping hs) (by simp [hno]),?_⟩
    unfold Justifies
    rw [hfailure,hfinal,hlast]
    exact h.justified

theorem PipelineInterests.Reports.report {b : PipelineInterests} {reason : Failure}
    (hreason : b.Justifies reason) :
    PipelineInterests.Reports { b with isStopping := true, failure := some reason } :=
  ⟨fun hno => absurd hno (by simp),fun _ hr => mem_some_iff.mp hr ▸ hreason⟩

namespace PipelineInterestsFixed

variable {o : Options} {s s' : PipelineInterestsFixed} {pipeNo segmentNo : Nat} {reason : Failure}
  {fetchers : SegmentFetchers}

structure Reports (s : PipelineInterestsFixed) : Prop where
  base : s.base.Reports
  settled : s.base.isStopping = false → s.base.hasFinalBlockId = true → s.hasFailure = false

theorem reports_onFailure (hrunning : s.base.isStopping = false)
    (hreason : s.base.Justifies reason) : (s.onFailure reason).Reports := by
  simp only [onFailure,cancel,hrunning,Bool.false_eq_true,if_false]
  exact ⟨.report hreason,by simp⟩

theorem Reports.fetchNextSegment (h : s.Reports) {r : PipelineInterestsFixed × Bool}
    (hr : fetchNextSegment o pipeNo s = some r) : r.1.Reports := by
  have hnext : ∀ fetchers, Reports { s with
      base := { s.base with nextSegmentNo := s.base.nextSegmentNo + 1 }
      segmentFetchers := fetchers } := fun _ =>
    ⟨h.base.congr id rfl fun _ => ⟨rfl,rfl⟩,h.settled⟩
  unfold PipelineInterestsFixed.fetchNextSegment at hr
  dsimp only at hr
  split_ifs at hr with hstopping hfailure
  · exact some.inj hr ▸ h
  · have hrunning : s.base.isStopping = false := by simpa using hstopping
    refine some.inj hr ▸ reports_onFailure hrunning ?_
    show s.base.hasFinalBlockId = false
    by_contra hfinal
    have hnone := h.settled hrunning (by simpa using hfinal)
    simp [hfailure] at hnone
  · exact some.inj hr ▸ hnext _
  · obtain ⟨slot,hslot,hr⟩ := bind_eq_some_iff.mp hr
    obtain ⟨_,_,hr⟩ := bind_eq_some_iff.mp hr
    exact some.inj hr ▸ hnext _

theorem Reports.requestSegments (h : s.Reports) {count : Nat}
    (hs : requestSegments o count pipeNo s = some s') : s'.Reports := by
  induction count generalizing pipeNo s with
  | zero => exact some.inj hs ▸ h
  | succ count ih =>
    obtain ⟨r,hr,hs⟩ := bind_eq_some_iff.mp hs
    split_ifs at hs
    · exact ih (h.fetchNextSegment hr) hs
    · exact some.inj hs ▸ h.fetchNextSegment hr

theorem Reports.fetchAfterData (h : s.Reports) (hs : fetchAfterData o pipeNo s = some s') :
    s'.Reports := by
  unfold PipelineInterestsFixed.fetchAfterData at hs
  split_ifs at hs
  · exact some.inj hs ▸ h
  · obtain ⟨r,hr,rfl⟩ := map_eq_some_iff.mp hs
    exact h.fetchNextSegment hr

def FailedWithin (fetchers : SegmentFetchers) (last : Nat) : Prop :=
  ∃ (pipeNo : Nat) (f : DataFetcher) (n : Nat),
    fetchers[pipeNo]? = some (some (f,n)) ∧ f.hasError = true ∧ n ≤ last

/-- If a segment has failed when the last one becomes known, one of the content has. -/
def Settles (s : PipelineInterestsFixed) (d : Segment) : Prop :=
  ∀ component last, s.base.newFinalBlock d = some component → component.segment? = some last →
    s.hasFailure = true → FailedWithin s.segmentFetchers last

theorem isSome_failedWithin {last : Nat} (h : FailedWithin fetchers last) :
    (fetchers.failedWithin last).isSome = true := by
  obtain ⟨p,f,n,hslot,herror,hn⟩ := h
  rw [SegmentFetchers.failedWithin,List.findSome?_isSome_iff]
  exact ⟨_,List.mem_of_getElem? hslot,by simp [herror,hn]⟩

theorem le_of_failedWithin {last n : Nat} (h : fetchers.failedWithin last = some n) : n ≤ last := by
  obtain ⟨slot,-,hslot⟩ := List.exists_of_findSome?_eq_some h
  obtain ⟨⟨f,m⟩,-,hf⟩ := bind_eq_some_iff.mp hslot
  rw [ite_none_right_eq_some] at hf
  exact some.inj hf.2 ▸ hf.1.1

theorem Reports.handleData (h : s.Reports) {d : Segment} (hsettles : Settles s d)
    (hs : handleData o d pipeNo s = some s') : s'.Reports := by
  unfold PipelineInterestsFixed.handleData at hs
  split_ifs at hs with hstopping
  · exact some.inj hs ▸ h
  have hrunning : s.base.isStopping = false := by simpa using hstopping
  dsimp only at hs
  split at hs
  · have hdata : Reports { s with base := s.base.onData d } :=
      ⟨h.base.congr id rfl fun _ => ⟨rfl,rfl⟩,h.settled⟩
    exact hdata.fetchAfterData hs
  · rename_i component hnew
    obtain ⟨last,hlast,hs⟩ := bind_eq_some_iff.mp hs
    have hbase : ((s.base.onData d).setFinalBlock last).Reports :=
      h.base.congr id rfl fun hyes => absurd hyes hstopping
    split at hs
    · rename_i n hn
      have hreason : ((s.base.onData d).setFinalBlock last).Justifies (.segment n) :=
        ⟨rfl,le_of_failedWithin hn⟩
      exact some.inj hs ▸ reports_onFailure hrunning hreason
    · rename_i hnone
      have hfinal : Reports { s with
          base := (s.base.onData d).setFinalBlock last
          segmentFetchers := s.segmentFetchers.cancelAfter last } := by
        refine ⟨hbase,fun _ _ => ?_⟩
        by_contra hfailure
        have hsome := isSome_failedWithin
          (hsettles component last hnew hlast (by simpa using hfailure))
        simp [hnone] at hsome
      exact hfinal.fetchAfterData hs

theorem Reports.handleFail (h : s.Reports) (hreason : reason.segmentNo? = some segmentNo) :
    (s.handleFail reason segmentNo).Reports := by
  unfold PipelineInterestsFixed.handleFail
  dsimp only
  split_ifs with hstopping hfinal hle
  · exact h
  · refine reports_onFailure (by simpa using hstopping) ?_
    rw [PipelineInterests.Justifies,hreason]
    exact ⟨hfinal,hle⟩
  · exact h
  · exact ⟨h.base,fun _ hyes => absurd hyes hfinal⟩
  · refine reports_onFailure (by simpa using hstopping) ?_
    show s.base.hasFinalBlockId = false
    simpa using hfinal

theorem Reports.afterRetry (h : s.Reports) {r : DataFetcher × Option Failure}
    (hreason : ∀ reason ∈ r.2, reason.segmentNo? = some segmentNo) :
    (s.afterRetry pipeNo segmentNo r).Reports := by
  have hset : Reports { s with
      segmentFetchers := s.segmentFetchers.setFetcher pipeNo r.1 segmentNo } := ⟨h.base,h.settled⟩
  unfold PipelineInterestsFixed.afterRetry
  cases hr : r.2 with
  | none => exact hset
  | some reason => exact hset.handleFail (hreason reason hr)

theorem segmentNo_of_retry (f : DataFetcher) (max : Int) (segmentNo : Nat) :
    (∀ reason, ∀ r ∈ (f.handleNack max segmentNo reason).2, r.segmentNo? = some segmentNo) ∧
      ∀ r ∈ (f.handleTimeout max segmentNo).2, r.segmentNo? = some segmentNo := by
  constructor
  · intro reason r hr
    unfold DataFetcher.handleNack at hr
    grind [Failure.segmentNo?]
  · intro r hr
    unfold DataFetcher.handleTimeout at hr
    grind [Failure.segmentNo?]

theorem onFetcher_cases {handle : DataFetcher → Nat → Option PipelineInterestsFixed}
    (hs : s.onFetcher pipeNo handle = some s') : s' = s ∨ ∃ f n,
      s.segmentFetchers[pipeNo]? = some (some (f,n)) ∧ f.isRunning = true ∧
        handle f n = some s' := by
  unfold onFetcher at hs
  split at hs
  · split_ifs at hs with hrunning
    · exact .inr ⟨_,_,by assumption,hrunning,hs⟩
    · exact .inl (some.inj hs).symm
  · cases hs

theorem Reports.receiveData (h : s.Reports) {d : Segment} (hsettles : Settles s d)
    (hs : receiveData o pipeNo d s = some s') : s'.Reports := by
  rcases onFetcher_cases hs with rfl | ⟨f,n,hslot,hrunning,hs⟩
  · exact h
  split_ifs at hs
  have hstopped : Reports { s with
      segmentFetchers := s.segmentFetchers.setFetcher pipeNo { f with isStopped := true } n } :=
    ⟨h.base,h.settled⟩
  refine hstopped.handleData (fun component last hnew hlast hfailure => ?_) hs
  obtain ⟨p,g,m,hg,herror,hm⟩ := hsettles component last hnew hlast hfailure
  refine ⟨p,g,m,?_,herror,hm⟩
  have hne : pipeNo ≠ p := by
    rintro rfl
    obtain ⟨rfl,-⟩ := Prod.mk.inj (some.inj (some.inj (hslot.symm.trans hg)))
    simp [DataFetcher.isRunning,herror] at hrunning
  rw [SegmentFetchers.setFetcher,List.getElem?_set_ne hne]
  exact hg

theorem Reports.receiveNack (h : s.Reports) {reason : NackReason}
    (hs : receiveNack o pipeNo reason s = some s') : s'.Reports := by
  rcases onFetcher_cases hs with rfl | ⟨f,n,-,-,hs⟩
  · exact h
  split_ifs at hs
  exact some.inj hs ▸ h.afterRetry ((segmentNo_of_retry f _ n).1 reason)

theorem Reports.timeout (h : s.Reports) (hs : timeout o pipeNo s = some s') : s'.Reports := by
  rcases onFetcher_cases hs with rfl | ⟨f,n,-,-,hs⟩
  · exact h
  split_ifs at hs
  exact some.inj hs ▸ h.afterRetry (segmentNo_of_retry f _ n).2

theorem Reports.resend (h : s.Reports) (hs : resend pipeNo s = some s') : s'.Reports := by
  rcases onFetcher_cases hs with rfl | ⟨f,n,-,-,hs⟩
  · exact h
  split_ifs at hs
  exact some.inj hs ▸ h.afterRetry (by simp)

end PipelineInterestsFixed

namespace PipelineInterestsAdaptive

variable {ω : Type} {o : Options} {s s' : PipelineInterestsAdaptive ω} {segNo : Nat}
  {reason : Failure}

structure Reports (s : PipelineInterestsAdaptive ω) : Prop where
  base : s.base.Reports
  named : ∀ failed ∈ s.failed, failed.2.segmentNo? = some failed.1

theorem Reports.congr (h : s.Reports) (hbase : s'.base = s.base) (hfailed : s'.failed = s.failed) :
    s'.Reports :=
  ⟨hbase ▸ h.base,hfailed ▸ h.named⟩

theorem Reports.cancel (h : s.Reports) : s.cancel.Reports := by
  unfold PipelineInterestsAdaptive.cancel
  split_ifs with hstopping
  · exact h
  · exact ⟨h.base.congr (fun _ => rfl) rfl fun hyes => absurd hyes hstopping,h.named⟩

theorem Reports.onFailure (h : s.Reports) (hreason : s.base.Justifies reason) :
    (s.onFailure reason).Reports := by
  unfold PipelineInterestsAdaptive.onFailure
  split_ifs with hstopping
  · exact h
  · refine ⟨?_,?_⟩ <;> simp only [PipelineInterestsAdaptive.cancel,hstopping]
    · exact .report hreason
    · exact h.named

theorem Reports.handleFail (h : s.Reports) (hreason : reason.segmentNo? = some segNo) :
    (s.handleFail segNo reason).Reports := by
  unfold PipelineInterestsAdaptive.handleFail
  dsimp only
  split_ifs with hstopping hfinal hle
  · exact h
  · refine h.onFailure ?_
    rw [PipelineInterests.Justifies,hreason]
    exact ⟨hfinal,hle⟩
  · exact h
  · refine Reports.onFailure (h.congr rfl rfl) ?_
    show s.base.hasFinalBlockId = false
    simpa using hfinal
  · exact ⟨h.base,fun failed hf => mem_some_iff.mp hf ▸ hreason⟩

theorem Reports.sendInterest (h : s.Reports) (isRetransmission : Bool) :
    (sendInterest o segNo isRetransmission s).Reports := by
  unfold PipelineInterestsAdaptive.sendInterest
  split_ifs
  · exact h
  · exact h
  · split
    · exact h.congr rfl rfl
    · dsimp only
      split_ifs
      · exact Reports.handleFail (h.congr rfl rfl) rfl
      · exact h.congr rfl rfl
  · exact h
  · exact h.congr rfl rfl

theorem Reports.setFinalBlock (h : s.Reports) (hrunning : s.base.isStopping = false) (last : Nat) :
    ({ s with base := s.base.setFinalBlock last }.cancelInFlightSegmentsGreaterThan last).Reports :=
  ⟨h.base.congr id rfl fun hyes => absurd hyes (by simp [hrunning]),h.named⟩

theorem Reports.change (h : s.Reports) {D : Segment → Prop} {P : Prop} (hs : Change o D P s s') :
    s'.Reports := by
  cases hs with
  | next =>
    have hnext : Reports
        { s with base := { s.base with nextSegmentNo := s.base.nextSegmentNo + 1 } } :=
      ⟨h.base.congr id rfl fun _ => ⟨rfl,rfl⟩,h.named⟩
    exact hnext.sendInterest false
  | resend =>
    refine Reports.sendInterest ?_ true
    exact h.congr rfl rfl
  | enqueue hs =>
    obtain ⟨_,_,hs⟩ := bind_eq_some_iff.mp hs
    obtain ⟨_,_,hs⟩ := bind_eq_some_iff.mp hs
    exact some.inj hs ▸ h.congr rfl rfl
  | fail _ hreason => exact h.handleFail hreason
  | cancel => exact h.cancel
  | @failed _ _ _ last failed _ _ _ hfailed hle hrunning =>
    refine (h.setFinalBlock hrunning last).onFailure ?_
    rw [PipelineInterests.Justifies,h.named failed hfailed]
    exact ⟨rfl,hle⟩
  | final _ _ _ hrunning => exact ⟨(h.setFinalBlock hrunning _).base,by simp⟩
  | receive => exact ⟨h.base.congr id rfl fun _ => ⟨rfl,rfl⟩,h.named⟩
  | _ => exact h.congr rfl rfl

theorem Reports.changes (h : s.Reports) {D : Segment → Prop} {P : Prop} (hs : Changes o D P s s') :
    s'.Reports := by
  induction hs with
  | refl => exact h
  | tail _ hchange ih => exact ih.change hchange

end PipelineInterestsAdaptive

namespace Pipeline

variable {ω τ : Type} {o : Options} {w : Window ω τ} {p p' : Pipeline ω}

def Reports : Pipeline ω → Prop
  | .fixed s => s.Reports
  | .adaptive s => s.Reports

def Settles (p : Pipeline ω) (e : Event τ) : Prop :=
  match p, e with
  | .fixed s, .data _ d _ _ => PipelineInterestsFixed.Settles s d
  | _, _ => True

theorem reports_start {type : PipelineType} (hp : start o w type = some p) : p.Reports := by
  have hnew : PipelineInterests.Reports {} := ⟨fun _ => rfl,by simp⟩
  cases type with
  | fixed =>
    obtain ⟨s,hs,rfl⟩ := map_eq_some_iff.mp hp
    exact PipelineInterestsFixed.Reports.requestSegments ⟨hnew,fun _ h => by cases h⟩ hs
  | adaptive =>
    obtain ⟨s,hs,rfl⟩ := map_eq_some_iff.mp hp
    have hnew : PipelineInterestsAdaptive.Reports { window := w.initial } := ⟨hnew,by simp⟩
    exact hnew.changes (D := fun _ => False) (P := True) (PipelineInterestsAdaptive.changes_doRun hs)

theorem Reports.step (h : p.Reports) {e : Event τ} (he : p.Settles e)
    (hp : step o w p e = some p') : p'.Reports := by
  cases p with
  | fixed s =>
    cases e with
    | validated place =>
      obtain ⟨c,hc,rfl⟩ := map_eq_some_iff.mp hp
      exact ⟨h.base.congr id rfl fun _ => ⟨rfl,rfl⟩,h.settled⟩
    | data place d congestionMark now =>
      obtain ⟨s',hs,rfl⟩ := map_eq_some_iff.mp hp
      exact PipelineInterestsFixed.Reports.receiveData h he hs
    | nack place reason now =>
      obtain ⟨s',hs,rfl⟩ := map_eq_some_iff.mp hp
      exact PipelineInterestsFixed.Reports.receiveNack h hs
    | timeout place now =>
      obtain ⟨s',hs,rfl⟩ := map_eq_some_iff.mp hp
      exact PipelineInterestsFixed.Reports.timeout h hs
    | resend pipeNo =>
      obtain ⟨s',hs,rfl⟩ := map_eq_some_iff.mp hp
      exact PipelineInterestsFixed.Reports.resend h hs
    | checkRto expired now => cases hp
  | adaptive s =>
    rcases step_adaptive hp with ⟨place,c,hc,rfl⟩ | ⟨s',rfl,hs⟩
    · exact ⟨h.base.congr id rfl fun _ => ⟨rfl,rfl⟩,h.named⟩
    · exact PipelineInterestsAdaptive.Reports.changes h hs

theorem Reports.justified (h : p.Reports) : p.base.Reports := by
  cases p with
  | fixed s => exact PipelineInterestsFixed.Reports.base h
  | adaptive s => exact PipelineInterestsAdaptive.Reports.base h

/-- A failure is reported only for a segment of the content, or while the last segment is not known.
The fixed pipeline needs for that, that a segment of the content has failed if one has when the last
one becomes known. -/
theorem run_reports (o : Options) (w : Window ω τ) (type : PipelineType) (events : List (Event τ))
    (p : Pipeline ω) (hp : run o w type events = some p)
    (hsettles : ∀ past e future q, events = past ++ e :: future →
      run o w type past = some q → q.Settles e) (reason : Failure)
    (hreason : p.base.failure = some reason) :
    (∃ n, reason.segmentNo? = some n ∧ p.base.hasFinalBlockId = true ∧ n ≤ p.base.lastSegmentNo) ∨
      p.base.hasFinalBlockId = false := by
  obtain ⟨q,hq,hrun⟩ := bind_eq_some_iff.mp hp
  have h := foldlM_invariant_of_some (Pipeline.step o w) Reports Settles
    (fun _ _ _ h he hstep => h.step he hstep) q (reports_start hq) events
    (fun past e future r hsplit hr => hsettles past e future r hsplit (by rw [run,hq]; exact hr)) hrun
  have hjustified := h.justified.justified reason hreason
  unfold PipelineInterests.Justifies at hjustified
  cases hn : reason.segmentNo? with
  | none => exact .inr (by rwa [hn] at hjustified)
  | some n => exact .inl ⟨n,rfl,by rwa [hn] at hjustified⟩

section TwoSegments

private def threePipes : Options := { versionedName := [], maxPipelineSize := 3 }

private def noWindow : Window Unit Unit := ⟨(),fun _ => 1,fun _ _ => (),fun _ _ => ()⟩

private def packet (i : Nat) : Segment where
  name := [.fromSegment .typed i]
  content := [UInt8.ofNat i]
  finalBlock := some (.fromSegment .typed 1)

private def secondFails : List (Event Unit) := [.nack 1 .noRoute (),.data 0 (packet 0) 0 ()]

theorem run_reports_second : ∃ p, run threePipes noWindow .fixed secondFails = some p ∧
    p.base.failure = some (.segment 1) ∧ p.base.hasFinalBlockId = true ∧
      1 ≤ p.base.lastSegmentNo := by
  obtain ⟨p,hp⟩ : ∃ p, run threePipes noWindow .fixed secondFails = some p := ⟨_,rfl⟩
  have hfailure : p.base.failure = some (.segment 1) ∧ p.base.hasFinalBlockId = true := by
    cases hp
    decide +kernel
  have hsettles : ∀ past e future q, secondFails = past ++ e :: future →
      run threePipes noWindow .fixed past = some q → q.Settles e := by
    intro past e future q hsplit hq
    rcases past with _ | ⟨_,_ | ⟨_,past⟩⟩
    · cases hsplit
      cases q <;> trivial
    · cases hsplit
      cases hq
      intro component last hnew hlast _
      cases hnew
      exact ⟨1,_,1,rfl,rfl,(some.inj hlast).le⟩
    · cases past <;> cases hsplit
  rcases run_reports threePipes noWindow .fixed secondFails p hp hsettles _ hfailure.1 with
    ⟨n,hn,hfinal,hle⟩ | hno
  · cases hn
    exact ⟨p,hp,hfailure.1,hfinal,hle⟩
  · simp [hfailure.2] at hno

/-- The segment after the last one fails first. Nothing else fails, but the transfer is given up with
the first segment on its way. -/
theorem extra_segment_fails : ∃ p,
    run threePipes noWindow .fixed [.nack 2 .noRoute (),.data 1 (packet 1) 0 ()] = some p ∧
      p.base.failure = some .noFinalSegment ∧ p.base.hasFinalBlockId = true ∧
        p.base.lastSegmentNo = 1 :=
  ⟨_,rfl,by decide +kernel⟩

end TwoSegments

end Pipeline

end KiteNdn.Chunks
