import KiteNdn.Chunks.AdaptivePipeline

/-!
# Interests in flight

The adaptive pipeline counts the segments of its table that do not wait for their retransmission. A
timer does not cancel the Interest, so that a queued segment can be reported on and queued again.
-/

namespace KiteNdn.Chunks

open Framework List Option

namespace PipelineInterestsAdaptive

variable {ω : Type} {o : Options} {s s' : PipelineInterestsAdaptive ω} {segNo : Nat}
  {queue : List Nat} {info : SegmentInfo} {D : Segment → Prop} {P : Prop}

def inFlight (s : PipelineInterestsAdaptive ω) : Nat :=
  s.segmentInfo.items.countP fun info => info.state ≠ .inRetxQueue

structure Accounted (s : PipelineInterestsAdaptive ω) : Prop where
  count : s.nInFlight = s.inFlight
  once : s.retxQueue.Nodup
  queued : ∀ info ∈ s.segmentInfo.items, info.segNo ∈ s.retxQueue ↔ info.state = .inRetxQueue
  requested : ∀ info ∈ s.segmentInfo.items, info.segNo < s.base.nextSegmentNo
  below : ∀ n ∈ s.retxQueue, n < s.base.nextSegmentNo
  within : s.base.hasFinalBlockId = true →
    ∀ info ∈ s.segmentInfo.items, info.segNo ≤ s.base.lastSegmentNo

theorem Accounted.erase (h : s.Accounted) (hinfo : s.segmentInfo.find? segNo = some info) :
    Accounted { s with
      segmentInfo := s.segmentInfo.filter fun info => info.segNo ≠ segNo
      nInFlight := if info.state ≠ .inRetxQueue then s.nInFlight - 1 else s.nInFlight } := by
  have hsub : ∀ other ∈ (s.segmentInfo.filter fun info => info.segNo ≠ segNo).items,
      other ∈ s.segmentInfo.items := fun _ hother => (mem_filter.mp hother).1
  have hcount := s.segmentInfo.countP_of_find? hinfo fun info => info.state ≠ .inRetxQueue
  refine ⟨?_,h.once,fun _ hother => h.queued _ (hsub _ hother),
    fun _ hother => h.requested _ (hsub _ hother),h.below,
    fun hfinal _ hother => h.within hfinal _ (hsub _ hother)⟩
  have hold := h.count
  by_cases hstate : info.state = .inRetxQueue <;>
    simp only [inFlight,hstate,ne_eq,not_true_eq_false,not_false_eq_true,decide_true,decide_false,
      Bool.false_eq_true,if_true,if_false] at hold hcount ⊢ <;> omega

theorem Accounted.pop (h : s.Accounted) (hqueue : s.retxQueue = segNo :: queue)
    (hnone : s.segmentInfo.find? segNo = none) : Accounted { s with retxQueue := queue } := by
  have hfree := s.segmentInfo.find?_eq_none.mp hnone
  refine ⟨h.count,(hqueue ▸ h.once).of_cons,fun other hother => ?_,h.requested,
    fun n hn => h.below n (hqueue ▸ mem_cons_of_mem _ hn),h.within⟩
  rw [← h.queued other hother,hqueue]
  simp [hfree other hother]

theorem Accounted.put (info : SegmentInfo)
    (h : Accounted
      { s with segmentInfo := s.segmentInfo.filter fun other => other.segNo ≠ info.segNo })
    (hqueued : info.segNo ∈ s.retxQueue ↔ info.state = .inRetxQueue)
    (hlt : info.segNo < s.base.nextSegmentNo)
    (hwithin : s.base.hasFinalBlockId = true → info.segNo ≤ s.base.lastSegmentNo) :
    Accounted { s with
      segmentInfo := s.segmentInfo.put info
      nInFlight := s.nInFlight + if info.state ≠ .inRetxQueue then 1 else 0 } := by
  have hmem : ∀ other ∈ (s.segmentInfo.put info).items, other = info ∨
      other ∈ (s.segmentInfo.filter fun other => other.segNo ≠ info.segNo).items := by
    intro other hother
    exact (s.segmentInfo.mem_put_iff.mp hother).imp_right fun h => mem_filter.mpr (by simpa)
  refine ⟨?_,h.once,fun other hother => ?_,fun other hother => ?_,h.below,
    fun hfinal other hother => ?_⟩
  · have hcount := h.count
    unfold inFlight at hcount ⊢
    dsimp only at hcount ⊢
    rw [KeyedList.countP_put]
    split_ifs <;> simp_all
  · exact (hmem other hother).elim (fun heq => heq ▸ hqueued) (h.queued other)
  · exact (hmem other hother).elim (fun heq => heq ▸ hlt) (h.requested other)
  · exact (hmem other hother).elim (fun heq => heq ▸ hwithin hfinal) (h.within hfinal other)

theorem Accounted.expressInterest (h : Accounted
      { s with segmentInfo := s.segmentInfo.filter fun other => other.segNo ≠ segNo })
    (hfree : segNo ∉ s.retxQueue) (hlt : segNo < s.base.nextSegmentNo)
    (hwithin : s.base.hasFinalBlockId = true → segNo ≤ s.base.lastSegmentNo)
    (isRetransmission : Bool) : (s.expressInterest segNo isRetransmission).Accounted := by
  have hput := Accounted.put
    ⟨segNo,if isRetransmission then .retransmitted else .firstTimeSent⟩ h
    (by cases isRetransmission <;> simp [hfree]) hlt hwithin
  cases isRetransmission <;> exact { hput with }

theorem Accounted.truncate (h : s.Accounted) (base : PipelineInterests)
    (hnext : base.nextSegmentNo = s.base.nextSegmentNo) (hnone : s.NoneQueuedAfter segNo)
    (hwithin : base.hasFinalBlockId = true → segNo ≤ base.lastSegmentNo) :
    Accounted ({ s with base := base }.cancelInFlightSegmentsGreaterThan segNo) := by
  have hmem : ∀ info ∈ (s.segmentInfo.filter fun info => info.segNo ≤ segNo).items,
      info ∈ s.segmentInfo.items ∧ info.segNo ≤ segNo := by
    intro info hinfo
    simpa using mem_filter.mp hinfo
  refine ⟨?_,h.once,fun info hinfo => h.queued info (hmem info hinfo).1,fun info hinfo => ?_,
    fun n hn => ?_,fun hfinal info hinfo => (hmem info hinfo).2.trans (hwithin hfinal)⟩
  · have hcount := h.count
    have hsplit := countP_eq_countP_filter_add s.segmentInfo.items
      (fun info => info.state ≠ .inRetxQueue) (fun info => info.segNo ≤ segNo)
    have hrest : (s.segmentInfo.items.filter fun info => !decide (info.segNo ≤ segNo)).countP
        (fun info => info.state ≠ .inRetxQueue) =
          s.segmentInfo.items.countP fun info => info.segNo > segNo := by
      rw [countP_filter]
      refine countP_congr fun info hinfo => ?_
      have := hnone info hinfo
      simpa using this
    simp only [inFlight,cancelInFlightSegmentsGreaterThan,KeyedList.filter] at hcount ⊢
    omega
  · exact hnext ▸ h.requested info (hmem info hinfo).1
  · exact hnext ▸ h.below n hn

/-- Some segment was sent again more often than allowed. -/
def Exhausted (o : Options) (s : PipelineInterestsAdaptive ω) : Prop :=
  o.maxRetriesOnTimeoutOrNack ≠ maxRetriesInfinite ∧
    ∃ entry ∈ s.retxCount.items, o.maxRetriesOnTimeoutOrNack < entry.2

/-- The pipeline has stopped, or given up a segment that it had sent often enough. -/
def IsOver (o : Options) (s : PipelineInterestsAdaptive ω) : Prop :=
  s.base.isStopping = true ∨ s.Exhausted o

theorem IsOver.handleFail {reason : Failure} (h : s.IsOver o) :
    (s.handleFail segNo reason).IsOver o := by
  unfold PipelineInterestsAdaptive.handleFail onFailure PipelineInterestsAdaptive.cancel
  dsimp only
  split_ifs <;> first | exact h | exact .inl rfl

theorem Exhausted.put (h : s.Exhausted o) {count : Int}
    (hcount : ∀ entry ∈ s.retxCount.find? segNo, entry.2 ≤ count) :
    Exhausted o { s with retxCount := s.retxCount.put (segNo,count) } := by
  obtain ⟨hfinite,entry,hentry,hlt⟩ := h
  refine ⟨hfinite,?_⟩
  by_cases heq : entry.1 = segNo
  · have hle := hcount entry (s.retxCount.find?_eq_some.mpr ⟨hentry,heq⟩)
    exact ⟨(segNo,count),s.retxCount.mem_put_iff.mpr (.inl rfl),hlt.trans_le hle⟩
  · exact ⟨entry,s.retxCount.mem_put_iff.mpr (.inr ⟨hentry,heq⟩),hlt⟩

theorem IsOver.sendInterest (h : s.IsOver o) (isRetransmission : Bool) :
    (sendInterest o segNo isRetransmission s).IsOver o := by
  unfold PipelineInterestsAdaptive.sendInterest
  split_ifs
  · exact h
  · exact h
  · cases hcount : s.retxCount.find? segNo with
    | none => exact h.imp id fun h => h.put (by simp [hcount])
    | some entry =>
      have hput : IsOver o { s with retxCount := s.retxCount.put (segNo,entry.2 + 1) } :=
        h.imp id fun h => h.put (by simp [hcount])
      dsimp only
      split_ifs
      · exact hput.handleFail
      · exact hput
  · exact h
  · exact h

theorem IsOver.change (h : s.IsOver o) (hs : Change o D P s s') : s'.IsOver o := by
  cases hs with
  | next =>
    unfold sendNext
    exact IsOver.sendInterest (by exact h) false
  | resend => exact IsOver.sendInterest (by exact h) true
  | enqueue hs =>
    obtain ⟨_,_,hs⟩ := bind_eq_some_iff.mp hs
    obtain ⟨_,_,hs⟩ := bind_eq_some_iff.mp hs
    exact some.inj hs ▸ h
  | fail => exact h.handleFail
  | cancel =>
    unfold PipelineInterestsAdaptive.cancel
    split_ifs
    · exact h
    · exact .inl rfl
  | failed =>
    unfold onFailure PipelineInterestsAdaptive.cancel
    split_ifs
    · exact h
    · exact .inl rfl
  | _ => exact h

theorem Accounted.resend (h : s.Accounted) (hqueue : s.retxQueue = segNo :: queue)
    (hinfo : s.segmentInfo.find? segNo = some info)
    (hover : ¬(sendInterest o segNo true { s with retxQueue := queue }).IsOver o) :
    (sendInterest o segNo true { s with retxQueue := queue }).Accounted := by
  obtain ⟨hmem,rfl⟩ := s.segmentInfo.find?_eq_some.mp hinfo
  have hstate : info.state = .inRetxQueue := (h.queued info hmem).mp (by simp [hqueue])
  have herased := h.erase hinfo
  simp only [hstate,ne_eq,not_true_eq_false,if_false] at herased
  have hpopped := herased.pop hqueue (by simp [KeyedList.find?_filter,hinfo])
  have hfree : info.segNo ∉ queue := (nodup_cons.mp (hqueue ▸ h.once)).1
  have hsent : ∀ retxCount, Accounted (PipelineInterestsAdaptive.expressInterest info.segNo true
      { s with retxQueue := queue, retxCount := retxCount }) := by
    intro retxCount
    exact Accounted.expressInterest (s := { s with retxQueue := queue, retxCount := retxCount })
      { hpopped with } hfree (h.requested info hmem) (fun hfinal => h.within hfinal info hmem) true
  have hrunning : ¬s.base.isStopping = true :=
    fun hyes => hover (IsOver.sendInterest (by exact .inl hyes) true)
  have hbeyond : ¬(s.base.hasFinalBlockId = true ∧ info.segNo > s.base.lastSegmentNo) :=
    fun hyes => absurd (h.within hyes.1 info hmem) (by simpa using hyes.2)
  rw [PipelineInterestsAdaptive.sendInterest,if_neg hrunning,if_neg hbeyond,if_pos rfl] at hover ⊢
  cases hcount : s.retxCount.find? info.segNo with
  | none => exact hsent _
  | some entry =>
    simp only [hcount] at hover ⊢
    split_ifs at hover ⊢ with hretries
    · refine absurd
        (IsOver.handleFail (.inr ⟨hretries.1,(info.segNo,entry.2 + 1),?_,hretries.2⟩)) hover
      exact s.retxCount.mem_put_iff.mpr (.inl rfl)
    · exact hsent _

theorem Accounted.sendNext (h : s.Accounted) : (sendNext o s).Accounted := by
  have hnext : Accounted
      { s with base := { s.base with nextSegmentNo := s.base.nextSegmentNo + 1 } } :=
    { h with
      requested := fun info hinfo => (h.requested info hinfo).trans (Nat.lt_succ_self _)
      below := fun n hn => (h.below n hn).trans (Nat.lt_succ_self _) }
  have hnone : s.segmentInfo.filter (fun info => info.segNo ≠ s.base.nextSegmentNo) =
      s.segmentInfo :=
    s.segmentInfo.filter_eq_self fun info hinfo => by simpa using (h.requested info hinfo).ne
  unfold PipelineInterestsAdaptive.sendNext PipelineInterestsAdaptive.sendInterest
  split_ifs with _ hbeyond
  · exact hnext
  · exact hnext
  · contradiction
  · exact hnext
  · refine Accounted.expressInterest (hnone.symm ▸ hnext) (fun hmem => ?_) (Nat.lt_succ_self _) ?_
      false
    · exact (h.below _ hmem).false
    · exact fun hfinal => not_lt.mp fun hlt => hbeyond ⟨hfinal,hlt⟩

theorem Accounted.enqueue (h : s.Accounted) (hs : enqueueForRetransmission o s segNo = some s')
    (hfits : s.IsInFlight segNo) : s'.Accounted := by
  obtain ⟨info,hinfo,hstate⟩ := hfits
  obtain ⟨_,_,hs⟩ := bind_eq_some_iff.mp hs
  rw [hinfo] at hs
  cases hs
  obtain ⟨hmem,rfl⟩ := s.segmentInfo.find?_eq_some.mp hinfo
  have hfree : info.segNo ∉ s.retxQueue := mt (h.queued info hmem).mp hstate
  have herased := h.erase hinfo
  rw [if_pos hstate] at herased
  have hpushed : Accounted { s with
      segmentInfo := s.segmentInfo.filter fun other => other.segNo ≠ info.segNo
      nInFlight := s.nInFlight - 1
      retxQueue := s.retxQueue ++ [info.segNo] } := { herased with
    once := nodup_append.mpr ⟨h.once,nodup_singleton _,by grind⟩
    queued := fun other hother => by
      rw [← herased.queued other hother]
      have hne := (mem_filter.mp hother).2
      simp_all
    below := fun n hn => by
      rcases mem_append.mp hn with hn | hn
      · exact h.below n hn
      · exact mem_singleton.mp hn ▸ h.requested info hmem }
  have hput := Accounted.put
    (s := { s with nInFlight := s.nInFlight - 1, retxQueue := s.retxQueue ++ [info.segNo] })
    { info with state := .inRetxQueue } hpushed (by simp) (h.requested info hmem)
    fun hfinal => h.within hfinal info hmem
  simpa using hput

theorem Accounted.handleFail (h : s.Accounted) {reason : Failure}
    (hfits : s.base.hasFinalBlockId = false → s.IsInFlight segNo ∧ s.NoneQueuedAfter segNo)
    (hover : ¬(s.handleFail segNo reason).IsOver o) : (s.handleFail segNo reason).Accounted := by
  unfold PipelineInterestsAdaptive.handleFail onFailure PipelineInterestsAdaptive.cancel at hover ⊢
  dsimp only at hover ⊢
  split_ifs at hover ⊢ with hstopping hfinal
  · exact h
  · exact absurd (.inl rfl) hover
  · exact h
  · exact absurd (.inl rfl) hover
  · obtain ⟨⟨info,hinfo,hstate⟩,hnone⟩ := hfits (by simpa using hfinal)
    have herased := h.erase hinfo
    rw [if_pos hstate] at herased
    have hcut := herased.truncate s.base rfl
      (fun other hother => hnone other (mem_filter.mp hother).1) (fun hyes => absurd hyes hfinal)
    exact { hcut with }

theorem Accounted.change (h : s.Accounted) (hs : Change o D P s s') (hP : P)
    (hover : ¬s'.IsOver o) : s'.Accounted := by
  cases hs with
  | inert => exact { h with }
  | next => exact h.sendNext
  | skip hqueue hnone => exact h.pop hqueue hnone
  | resend hqueue hinfo => exact h.resend hqueue hinfo hover
  | enqueue hs hfits => exact h.enqueue hs (hfits hP)
  | fail _ _ hfits => exact h.handleFail (hfits hP) hover
  | cancel =>
    unfold PipelineInterestsAdaptive.cancel at hover ⊢
    split_ifs at hover ⊢
    · exact h
    · exact absurd (.inl rfl) hover
  | failed _ _ _ _ _ hrunning =>
    refine absurd (.inl ?_) hover
    simp [onFailure,PipelineInterestsAdaptive.cancel,cancelInFlightSegmentsGreaterThan,
      PipelineInterests.setFinalBlock,hrunning]
  | final _ _ _ _ hfits =>
    have hcut := h.truncate (s.base.setFinalBlock _) rfl (hfits hP) fun _ => le_rfl
    exact { hcut with }
  | receive _ _ hinfo => exact { h.erase hinfo with }

theorem Accounted.changes (h : s.Accounted) (hs : Changes o D P s s') (hP : P) :
    s'.IsOver o ∨ s'.Accounted := by
  induction hs with
  | refl => exact .inr h
  | @tail t u _ hchange ih =>
    by_cases hover : u.IsOver o
    · exact .inl hover
    · rcases ih with hlost | h
      · exact .inl (hlost.change hchange)
      · exact .inr (h.change hchange hP hover)

theorem IsOver.changes (h : s.IsOver o) (hs : Changes o D P s s') : s'.IsOver o := by
  induction hs with
  | refl => exact h
  | tail _ hchange ih => exact ih.change hchange

end PipelineInterestsAdaptive

namespace Pipeline

variable {ω τ : Type}

/-- In a run in which the reports fit the table, the pipeline counts its segments in flight and queues
each other segment of the table once, until it stops or gives up a segment after its retries. -/
theorem run_accounted (o : Options) (w : Window ω τ) (events : List (Event τ))
    (s : PipelineInterestsAdaptive ω) (hs : run o w .adaptive events = some (.adaptive s))
    (hfits : ∀ past e future q, events = past ++ e :: future →
      run o w .adaptive past = some (.adaptive q) → Fits q e)
    (hrunning : s.base.isStopping = false) (hretries : ¬s.Exhausted o) :
    0 ≤ s.nInFlight ∧ s.nInFlight = s.inFlight ∧ s.retxQueue.Nodup ∧
      ∀ info ∈ s.segmentInfo.items, info.segNo ∈ s.retxQueue ↔ info.state = .inRetxQueue := by
  obtain ⟨q,hq,hrun⟩ := bind_eq_some_iff.mp hs
  obtain ⟨s₀,hs₀,rfl⟩ := map_eq_some_iff.mp hq
  have hnew : PipelineInterestsAdaptive.Accounted { window := w.initial } :=
    ⟨rfl,nodup_nil,by simp [KeyedList.empty],by simp [KeyedList.empty],by simp,by simp⟩
  have hstart : ∃ s, Pipeline.adaptive s₀ = .adaptive s ∧ (s.IsOver o ∨ s.Accounted) :=
    ⟨s₀,rfl,hnew.changes (D := fun _ => False) (PipelineInterestsAdaptive.changes_doRun hs₀) trivial⟩
  have hinv : ∃ t, Pipeline.adaptive s = .adaptive t ∧ (t.IsOver o ∨ t.Accounted) := by
    refine foldlM_invariant_of_some (Pipeline.step o w)
      (fun p => ∃ s, p = .adaptive s ∧ (s.IsOver o ∨ s.Accounted))
      (fun p e => ∀ q, p = .adaptive q → Fits q e) ?_ _ hstart events ?_ hrun
    · rintro p e p' ⟨t,rfl,h⟩ he hstep
      rcases step_adaptive hstep with ⟨place,c,_,rfl⟩ | ⟨t',rfl,ht⟩
      · exact ⟨_,rfl,h.imp id fun h => { h with }⟩
      · refine ⟨t',rfl,?_⟩
        rcases h with hover | h
        · exact .inl (hover.changes ht)
        · exact h.changes ht (he t rfl)
    · rintro past e future r hsplit hr q rfl
      exact hfits past e future q hsplit (by rw [run,hq]; exact hr)
  obtain ⟨_,heq,h⟩ := hinv
  cases heq
  rcases h with hover | h
  · exact (hover.elim (by simp [hrunning]) hretries).elim
  · exact ⟨h.count ▸ Int.natCast_nonneg _,h.count,h.once,h.queued⟩

section FourSegments

private def lossy : Options := { versionedName := [], disableCwa := true }

private def halving : Window Nat Unit where
  initial := 4
  cwnd := Int.ofNat
  increaseWindow _ n := n + 1
  decreaseWindow _ n := max 2 (n / 2)

theorem run_accounted_two : ∃ s : PipelineInterestsAdaptive Nat,
    run lossy halving .adaptive [.checkRto [0] (),.timeout 1 ()] = some (.adaptive s) ∧
      s.nInFlight = s.inFlight ∧ s.retxQueue = [0,1] := by
  obtain ⟨s,hs,hqueue,hrunning,hretries⟩ : ∃ s : PipelineInterestsAdaptive Nat,
      run lossy halving .adaptive [.checkRto [0] (),.timeout 1 ()] = some (.adaptive s) ∧
        s.retxQueue = [0,1] ∧ s.base.isStopping = false ∧ s.retxCount.items = [] :=
    ⟨_,rfl,rfl,rfl,rfl⟩
  refine ⟨s,hs,(run_accounted lossy halving _ s hs ?_ hrunning ?_).2.1,hqueue⟩
  · intro past e future q hsplit hq
    rcases past with _ | ⟨_,_ | ⟨_,past⟩⟩
    · cases hsplit
      trivial
    · cases hsplit
      cases hq
      intro segNo hsegNo
      cases hsegNo
      exact ⟨_,rfl,by decide⟩
    · cases past <;> cases hsplit
  · rintro ⟨_,entry,hentry,hlt⟩
    rw [hretries] at hentry
    cases hentry

/-- All timers expire, two segments are sent again, and then the Interest of one that waits for that
expires, too. -/
theorem queued_segment_expires : ∃ s : PipelineInterestsAdaptive Nat,
    run lossy halving .adaptive [.checkRto [0,1,2,3] (),.timeout 2 ()] = some (.adaptive s) ∧
      s.nInFlight = 2 ∧ s.inFlight = 3 := 
  ⟨_,rfl,by decide +kernel⟩

end FourSegments

end Pipeline

end KiteNdn.Chunks
