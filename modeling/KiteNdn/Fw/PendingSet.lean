import KiteNdn.Fw.Satisfaction

/-!
# Forgetting answered Interests

A remembered Interest is forgotten when it is answered, if the out-record that the strategy looks at
carries the mark of the producer: for Data the record of the ingress face, for Nacks the first one.
-/

namespace KiteNdn.Fw.Forwarder

open Framework Option

variable {c : Config} {s s₁ s₂ s' : Forwarder} {id : PitId}

/-- No producer's table has the name of an Interest that was answered since it was put there. -/
def Hygienic (s : Forwarder) : Prop := ∀ p ∈ s.history.answered, s.listed p.2 p.1 = none

section Conditions

/-- If a matched Interest is still in the table where it was recorded, then an entry of the same
name is matched that went to the producer over the ingress face, marked; and the Data is no
acknowledgment. -/
def ForgetsOnData (c : Config) (s : Forwarder) (d : Data) (ingress : FaceId)
    (pitMatches : List PitId) : Prop :=
  violatesLocalhost c ingress d.name = false → failsAck d = false →
    ∀ id ∈ pitMatches, ∀ e ∈ s.pit.find? id, ∀ p ∈ s.history.recorded, p.1 = id →
      s.listed p.2 e.name ≠ none → d.contentType ≠ Kite.contentTypeKiteAck ∧
          ∃ id' ∈ pitMatches, ∃ e' ∈ s.pit.find? id', e'.name = e.name ∧
            markedKey (e'.outStatus ingress) = some p.2

/-- The entry after Nacks were returned to all its downstreams, if that is what `processNack`
does. -/
def returnedNacks (c : Config) (id : PitId) (s : Forwarder) : Option PitEntry :=
  (s.pit.find? id).bind fun e =>
    if notNacked e = [] ∧ (triedAll c id e s).2 = false then
      (((triedAll c id e s).1.sendNacks c (leastSevereReason e.outRecords.items) id).pit.find?
        id).filter fun e => e.inRecords.items.isEmpty
    else none

/-- If Nacks are returned to all downstreams of an Interest that is still in the table where it was
recorded, then the first out-record carries the mark. -/
def ForgetsOnNack (c : Config) (s : Forwarder) (nack : Nack) (ingress : FaceId) : Prop :=
  ∀ e ∈ s.acceptedNack c nack ingress,
    ∀ s₁ ∈ (s.modifyEntry e.id (setIncomingNack nack.reason ingress)).withdrawRoute c ingress e.id,
      ∀ e' ∈ s₁.returnedNacks c e.id, ∀ p ∈ s.history.recorded, p.1 = e.id →
        s.listed p.2 e.name ≠ none →
          markedKey (e'.outRecords.items.head?.bind OutRecord.info) = some p.2

def ForgetsAnswered (c : Config) (s : Forwarder) : Event → Prop
  | .data d ingress pitMatches _ => s.ForgetsOnData c d ingress pitMatches
  | .nack nack ingress => s.ForgetsOnNack c nack ingress
  | _ => True

instance (c : Config) (s : Forwarder) (d : Data) (ingress : FaceId) (pitMatches : List PitId) :
    Decidable (s.ForgetsOnData c d ingress pitMatches) :=
  @instDecidableForall _ _ inferInstance <| @instDecidableForall _ _ inferInstance <|
    @List.decidableBAll _ _ (fun _ => @Option.decidableForallMem _ _ (fun _ => @List.decidableBAll _ _ (fun _ =>
      @instDecidableForall _ _ inferInstance inferInstance) _) _) _

instance (c : Config) (s : Forwarder) (nack : Nack) (ingress : FaceId) :
    Decidable (s.ForgetsOnNack c nack ingress) := by
  dsimp only [ForgetsOnNack]
  infer_instance

instance (c : Config) (s : Forwarder) : ∀ event, Decidable (s.ForgetsAnswered c event)
  | .data d ingress pitMatches _ =>
    inferInstanceAs (Decidable (s.ForgetsOnData c d ingress pitMatches))
  | .nack nack ingress => inferInstanceAs (Decidable (s.ForgetsOnNack c nack ingress))
  | .interest _ _ _ _ | .finalize _ | .cleanup _ | .updateFib _ _ | .removeFace _ | .elapse _ =>
    inferInstanceAs (Decidable True)

end Conditions

theorem Hygienic.quiet (hs : s.Hygienic) (h : Quiet s s') : s'.Hygienic := by
  intro p hp
  rw [h.answered] at hp
  rw [h.listed]
  exact hs p hp

section Datas

variable {d : Data} {ingress : FaceId}

theorem Hygienic.data (hs : s.Hygienic) (hb : s.Bounded) {pitMatches : List PitId} {nOthers : Nat}
    (hnodup : pitMatches.Nodup) (hmatches : ∀ id ∈ pitMatches, s.isAlive id = true)
    (hc : s.ForgetsOnData c d ingress pitMatches)
    (h : s.onIncomingData c d ingress pitMatches nOthers = some s') : s'.Hygienic := by
  have hids : ∀ id ∈ pitMatches, id < s.nextId := fun id hid => hb id (hmatches id hid)
  have hanswers : ∀ s', violatesLocalhost c ingress d.name = false → failsAck d = false →
      Answers d ingress pitMatches s s' → s'.Hygienic := by
    intro s' hscope hdecoded ha p hp
    rcases ha.answered p hp with hp | ⟨id,hid,hrec,i,hi,hname⟩
    · exact ha.listed_none (hs p hp)
    · obtain ⟨e,he,rfl⟩ := map_eq_some_iff.mp hi
      by_cases hlisted : s.listed p.2 p.1 = none
      · exact ha.listed_none hlisted
      · have hname : p.1 = e.name := hname
        rw [hname] at hlisted
        obtain ⟨hd,id',hid',e',he',hname',hmark⟩ :=
          hc hscope hdecoded id hid e he (id,p.2) hrec rfl hlisted
        rw [hname,← hname']
        exact ha.erased hd id' hid' e' he' p.2 hmark
  rcases onIncomingData_cases h with hsteady | ⟨hscope,hdecoded,s₁,hsteady,hfold⟩
  · exact hs.quiet hsteady.quiet
  · exact (hanswers s₁ hscope hdecoded (answers_of_satisfied hnodup hids hfold)).quiet hsteady.quiet

end Datas

section Nacks

private theorem Hygienic.forgets (hs : s.Hygienic) {status : Option KiteInterestStatus}
    {name : Name} (h : Forgets status name s s') : s'.Hygienic := by
  intro p hp
  rw [h.history] at hp
  exact h.listed_none (hs p hp)

/-- Nacks went to the downstreams, and the entry was looked for in one table. If no downstream is
left, then the entry counts as answered. -/
private theorem Hygienic.returnsAll {e : PitEntry} (hs : s.Hygienic)
    (hquiet : Quiet s s₁) (hid : id < s.nextId) (he : s.interestOf id = some e.interest)
    (h : s₁.eraseWith c (fun e => e.outRecords.items.head?) id = some s₂)
    (hc : ∀ e', s₁.pit.find? id = some e' → e'.inRecords.items.isEmpty = true →
      ∀ p ∈ s.history.recorded, p.1 = id → s.listed p.2 e.name ≠ none →
        markedKey (e'.outRecords.items.head?.bind OutRecord.info) = some p.2) :
    (s₂.answerIfIdle id).Hygienic := by
  obtain ⟨e₁,he₁,hforgets⟩ := forgets_eraseWith h
  have hname : e₁.name = e.name := by
    have hi := hquiet.entries id hid
    rw [he,interestOf_of_find he₁] at hi
    exact congrArg Interest.name (some.inj hi)
  have hh : s₂.Hygienic := (hs.quiet hquiet).forgets hforgets
  unfold answerIfIdle
  split_ifs with hidle
  · rw [hforgets.pit,he₁] at hidle
    intro p hp
    rw [(keepsListed_answer id).listed]
    rcases answer_answered hp with hp | ⟨hp,i,hi,hpname⟩
    · exact hh p hp
    · rw [interestOf,hforgets.pit,he₁] at hi
      cases hi
      rw [hforgets.history,hquiet.recorded] at hp
      rw [hforgets.listed,hquiet.listed]
      split_ifs with hmark
      · rfl
      · by_contra hne
        have hpname : p.1 = e₁.name := hpname
        rw [hpname,hname] at hne
        exact hmark ⟨hc e₁ he₁ hidle (id,p.2) hp rfl hne,hpname⟩
  · exact hh

theorem Hygienic.nack (hs : s.Hygienic) (hb : s.Bounded) {nack : Nack} {ingress : FaceId}
    (hc : s.ForgetsOnNack c nack ingress) (h : s.onIncomingNack c nack ingress = some s') :
    s'.Hygienic := by
  rcases onIncomingNack_cases h with ⟨_,rfl⟩ | ⟨e,s₁,s₂,he,hs₁,hs₂,hs'⟩
  · exact hs
  have hfind := find_of_acceptedNack he
  have hquiet₁ := quiet_noted hs₁
  have hid : e.id < s.nextId := hb e.id (by rw [isAlive,hfind]; rfl)
  obtain ⟨e₁,he₁⟩ : ∃ e₁, s₁.pit.find? e.id = some e₁ := by
    have hi := hquiet₁.entries e.id hid
    rw [interestOf_of_find hfind,interestOf] at hi
    obtain ⟨e₁,he₁,_⟩ := map_eq_some_iff.mp hi
    exact ⟨e₁,he₁⟩
  have hcases := processNack_cases he₁ hs₂
  have hh₂ : s₂.Hygienic := by
    cases hcases with
    | waits => exact hs.quiet hquiet₁
    | triesAll _ _ => exact hs.quiet (hquiet₁.trans (steady_dealNacks _ _).quiet)
    | triesOne outFace _ => exact hs.quiet (hquiet₁.trans (steady_dealNack _ outFace).quiet)
    | returnsAll hnone hdealt herase =>
      refine (Hygienic.returnsAll hs (hquiet₁.trans (steady_returnedAll _ _ _).quiet) hid
        (interestOf_of_find hfind) herase fun e' he' hidle p hp hpid hne => ?_).quiet
          (quiet_settleIfIdle _)
      refine hc e he s₁ hs₁ e' ?_ p hp hpid hne
      rw [returnedNacks,he₁,bind_some,if_pos ⟨hnone,hdealt⟩]
      exact filter_eq_some_iff.mpr ⟨he',hidle⟩
    | returnsOne r _ _ _ herase =>
      obtain ⟨e',_,hforgets⟩ := forgets_eraseWith herase
      exact ((hs.quiet (hquiet₁.trans (steady_returnedOne _ _ _).quiet)).forgets hforgets).quiet
        (quiet_settleIfIdle _)
  rcases hs' with rfl | rfl
  · exact hh₂
  · exact hh₂.quiet (steady_setExpiryTimer (s := s₂) e.id 0).quiet

end Nacks

section Runs

variable {events : List Event}

private theorem Hygienic.records {key name : Name} (hs : s.Hygienic)
    (h : Records key name id s s') : s'.Hygienic := by
  intro p hp
  obtain ⟨hp,hown⟩ := h.answered p hp
  have hnone := hs p hp
  rw [h.listed]
  split_ifs with heq
  · -- The name was forgotten before, so the new entry is the one recorded.
    rw [heq.1,heq.2] at hnone
    refine absurd (Prod.ext heq.2 heq.1 : p = (name,key)) (hown ?_)
    rw [h.listed,if_pos ⟨rfl,rfl⟩,hnone]
    rfl
  · exact hnone

theorem Hygienic.interest (hs : s.Hygienic) {i : Interest} {ingress : FaceId}
    {inDnl csHit : Bool} (h : s.onIncomingInterest c i ingress inDnl csHit = some s') :
    s'.Hygienic := by
  rcases onIncomingInterest_steady h with hsteady | ⟨_,_,_,_,s₁,_,_,_,hsteady,hforwards⟩
  · exact hs.quiet hsteady.quiet
  · exact (hs.quiet hsteady.quiet).records (records_recordPitEntry hforwards.recorded)

private theorem Hygienic.step (hs : s.Hygienic) (hb : s.Bounded) {event : Event}
    (hc : s.ForgetsAnswered c event) (h : s.step c event = some s') : s'.Hygienic := by
  cases step_cases h with
  | interest h => exact hs.interest h
  | data hnodup halive h => exact hs.data hb hnodup halive hc h
  | nack h => exact hs.nack hb hc h
  | cleanup name =>
    intro p hp
    rw [listed_withoutMeasurements]
    split_ifs
    · rfl
    · exact hs p hp
  | _ => exact hs

/-- Along a run in which every answer finds the mark of the producer, answered Interests are
forgotten. -/
theorem run_hygienic (hc : ∀ past event future s, events = past ++ event :: future →
      run c past = some s → s.ForgetsAnswered c event)
    (h : run c events = some s) : s.Hygienic :=
  (foldlM_invariant_of_some (step c) (fun s => s.Hygienic ∧ s.Bounded) (ForgetsAnswered c)
    (fun _ _ _ hi hc hs => ⟨hi.1.step hi.2 hc hs,hi.2.step hs⟩) empty
    ⟨fun _ hp => absurd hp List.not_mem_nil,bounded_empty⟩ events hc h).1

theorem run_hygienic_answered :
    ∃ s, run fourFaces (producerEvents ++ [.data { name := producerInterest.name } 2 [0] 0]) =
        some s ∧
      s.history.answered = [(producerInterest.name,producerName)] ∧ s.Hygienic := by
  obtain ⟨s,hs⟩ : ∃ s, run fourFaces (producerEvents ++
      [.data { name := producerInterest.name } 2 [0] 0]) = some s := ⟨_,rfl⟩
  refine ⟨s,hs,?_,run_hygienic (fun past event future t hsplit ht => ?_) hs⟩
  · cases hs
    decide +kernel
  · have hall := forall_split (P := fun past event =>
      ((run fourFaces past).all fun t => decide (t.ForgetsAnswered fourFaces event)) = true) _
      (by decide +kernel) past event future hsplit
    rw [ht] at hall
    exact of_decide_eq_true hall

/-- The Data comes over the face to which the Interest was sent again, and the Interest stays in the
producer's table. -/
theorem answered_stays_listed :
    ∃ s, run fourFaces (movedEvents ++ [.data { name := producerInterest.name } 3 [0] 0]) = some s ∧
      s.history.answered = [(producerInterest.name,producerName)] ∧
      s.listed producerName producerInterest.name = some 0 ∧ ¬s.Hygienic := by
  refine ⟨_,rfl,by decide +kernel,by decide +kernel,?_⟩
  unfold Hygienic
  decide +kernel

end Runs

end KiteNdn.Fw.Forwarder
