import KiteNdn.Fw.Frame

/-!
# What leaves the remembered Interests alone

`Quiet` is a frame for what the strategy does between remembering and forgetting an Interest. The
two operations that change the producers' tables are described exactly.
-/

namespace KiteNdn.Fw.Forwarder

open Framework Option

variable {c : Config} {s s₁ s₂ s' : Forwarder} {id : PitId} {name : Name}
  {status : Option KiteInterestStatus}

/-- The producers' tables read the same, and no entry starts to wait for a producer. -/
structure KeepsListed (s s' : Forwarder) : Prop extends KeepsEntries s s' where
  listed : ∀ key name, s'.listed key name = s.listed key name
  pending : ∀ p ∈ s'.history.pending, p ∈ s.history.pending

structure Quiet (s s' : Forwarder) : Prop extends KeepsListed s s' where
  recorded : s'.history.recorded = s.history.recorded
  answered : s'.history.answered = s.history.answered

def Bounded (s : Forwarder) : Prop := ∀ id, s.isAlive id = true → id < s.nextId

section Relations

theorem Bounded.keepsEntries (hb : s.Bounded) (h : KeepsEntries s s') : s'.Bounded := by
  intro id ha
  rcases h.fresh id ha with ha | hlt
  · exact (hb id ha).trans_le h.nextId
  · exact hlt

theorem bounded_empty : empty.Bounded := fun _ ha => absurd ha Bool.false_ne_true

theorem Quiet.refl (s : Forwarder) : Quiet s s :=
  ⟨⟨keepsEntries_of_pit rfl rfl,fun _ _ => rfl,fun _ h => h⟩,rfl,rfl⟩

theorem KeepsListed.trans (h : KeepsListed s s₁) (h' : KeepsListed s₁ s₂) : KeepsListed s s₂ :=
  ⟨h.toKeepsEntries.trans h'.toKeepsEntries,
    fun key name => (h'.listed key name).trans (h.listed key name),
    fun p hp => h.pending p (h'.pending p hp)⟩

theorem Quiet.trans (h : Quiet s s₁) (h' : Quiet s₁ s₂) : Quiet s s₂ :=
  ⟨h.toKeepsListed.trans h'.toKeepsListed,h'.recorded.trans h.recorded,h'.answered.trans h.answered⟩

theorem Steady.quiet (h : Steady s s') : Quiet s s' := by
  refine ⟨⟨h.toKeepsEntries,fun key name => ?_,h.pending⟩,h.recorded,h.answered⟩
  rw [listed_eq,listed_eq,producerInfo_congr h.measurements]

end Relations

section Measurements

private theorem quiet_of_listed (hpit : s'.pit = s.pit) (hid : s'.nextId = s.nextId)
    (hhistory : s'.history = s.history)
    (hlisted : ∀ key name, s'.listed key name = s.listed key name) : Quiet s s' := by
  refine ⟨⟨keepsEntries_of_pit hpit hid,hlisted,?_⟩,?_,?_⟩
  · rw [hhistory]
    exact fun _ h => h
  · rw [hhistory]
  · rw [hhistory]

theorem quiet_act (a : Action) : Quiet s (s.act a) :=
  quiet_of_listed rfl rfl rfl fun _ _ => rfl

theorem quiet_getMeasurements (name : Name) : Quiet s (s.getMeasurements name) := by
  apply quiet_of_listed (getMeasurements_pit name) (getMeasurements_nextId name)
    (getMeasurements_history name)
  intro key n
  rw [listed_eq,listed_eq,producerInfo_getMeasurements]

theorem quiet_extendLifetime (name : Name) (lifetime : Time) :
    Quiet s (s.extendLifetime name lifetime) := by
  refine quiet_of_listed rfl rfl rfl fun key n => ?_
  rw [listed_eq,listed_eq,producerInfo_extendLifetime]

theorem quiet_modifyMobileProducerInfo (name : Name)
    {f : KiteMobileProducerInfo → KiteMobileProducerInfo}
    (hf : ∀ info, (f info).pitEntrys = info.pitEntrys) :
    Quiet s (s.modifyMobileProducerInfo name f) := by
  refine quiet_of_listed rfl rfl rfl fun key n => ?_
  rw [listed_eq,listed_eq,producerInfo_modifyMobileProducerInfo]
  split_ifs
  · cases s.producerInfo key with
    | none => rfl
    | some info => simp [hf]
  · rfl

theorem quiet_insertMobileProducerInfo (name : Name) :
    Quiet s (s.insertMobileProducerInfo name) := by
  refine quiet_of_listed rfl rfl rfl fun key n => ?_
  rw [listed_eq,listed_eq,producerInfo_insertMobileProducerInfo]
  split_ifs
  · unfold producerInfo
    cases s.measurements key with
    | none => rfl
    | some e => cases h : e.info <;> simp [h]
  · rfl

theorem quiet_retransmit (mpName : Name) (face : FaceId) :
    Quiet s (s.retransmit c mpName face) := by
  unfold retransmit
  split
  · next info _ =>
    split_ifs
    · exact .refl s
    · have hface : Quiet s (s.modifyMobileProducerInfo mpName fun i =>
          { i with faceIds := face :: i.faceIds }) :=
        quiet_modifyMobileProducerInfo mpName fun _ => rfl
      have hsent := hface.trans (steady_resends (c := c) mpName face info.pitEntrys.items).quiet
      exact ⟨⟨⟨hsent.nextId,hsent.entries,hsent.fresh⟩,hsent.listed,hsent.pending⟩,hsent.recorded,
        hsent.answered⟩
  · exact .refl s

theorem quiet_registPrefix (pa : PrefixAnnouncement) (records : List InRecord) :
    ∀ s : Forwarder, Quiet s (s.registPrefix c pa records) := by
  have hannounce : ∀ (s : Forwarder) face,
      Quiet s ((s.act (.slAnnounce pa face announceLifetime)).getMeasurements pa.announcedName) := by
    intro s face
    exact (quiet_act _).trans (quiet_getMeasurements _)
  induction records with
  | nil => exact fun s => .refl s
  | cons r records ih =>
    intro s
    rw [registPrefix]
    split_ifs
    · exact (((hannounce s r.face).trans (quiet_extendLifetime _ _)).trans
        (quiet_retransmit _ r.face)).trans (ih _)
    · exact hannounce s r.face
    · exact ih s

theorem quiet_removePrefix {face : FaceId} (h : s.removePrefix c name face = some s') :
    Quiet s s' := by
  unfold removePrefix at h
  split_ifs at h
  cases h
  exact ((quiet_act _).trans (quiet_getMeasurements name)).trans
    (quiet_modifyMobileProducerInfo name fun _ => rfl)

end Measurements

section Remembering

/-- Remembering an Interest: the first entry of a name stays. -/
structure Records (key name : Name) (id : PitId) (s s' : Forwarder) : Prop
    extends KeepsEntries s s' where
  listed : ∀ k n, s'.listed k n =
    if k = key ∧ n = name then some ((s.listed key name).getD id) else s.listed k n
  pending : s'.history.pending = (id,key) :: s.history.pending
  answered : ∀ p ∈ s'.history.answered, p ∈ s.history.answered ∧
    (s'.listed key name = some id → p ≠ (name,key))
  retransmissions : s'.history.retransmissions = s.history.retransmissions

private theorem listed_insertPitEntry {mpName : Name} (name : Name) {info : KiteMobileProducerInfo}
    (hinfo : s.producerInfo (measurementsName mpName) = some info) (id : PitId) (k n : Name) :
    (s.modifyMobileProducerInfo mpName fun i =>
      { i with pitEntrys := i.pitEntrys.insertNew (name,id) }).listed k n =
        if k = measurementsName mpName ∧ n = name then
          some ((s.listed (measurementsName mpName) name).getD id)
        else s.listed k n := by
  rw [listed_eq,listed_eq,listed_eq,producerInfo_modifyMobileProducerInfo,hinfo]
  by_cases hk : k = measurementsName mpName
  · subst hk
    rw [if_pos rfl,hinfo,map_some,bind_some,bind_some,KeyedList.find?_insertNew]
    by_cases hn : n = name
    · subst hn
      simp only [and_self,if_true]
      cases info.pitEntrys.find? n <;> simp
    · simp [hn]
  · simp [hk]

theorem records_recordPitEntry {mpName : Name} (h : s.recordPitEntry c mpName name id = some s') :
    Records (measurementsName mpName) name id s s' := by
  unfold recordPitEntry at h
  split_ifs at h
  cases h
  have hquiet : Quiet s ((s.getMeasurements mpName).insertMobileProducerInfo mpName) :=
    (quiet_getMeasurements mpName).trans (quiet_insertMobileProducerInfo mpName)
  obtain ⟨info,hinfo⟩ : ∃ info, ((s.getMeasurements mpName).insertMobileProducerInfo
      mpName).producerInfo (measurementsName mpName) = some info := by
    obtain ⟨e,he⟩ := isSome_iff_exists.mp (measurements_getMeasurements_isSome s mpName)
    rw [producerInfo_insertMobileProducerInfo,if_pos rfl,he]
    exact ⟨_,rfl⟩
  have hhistory : ((s.getMeasurements mpName).insertMobileProducerInfo mpName).history =
      s.history := getMeasurements_history mpName
  generalize (s.getMeasurements mpName).insertMobileProducerInfo mpName = t at *
  have hlisted := fun k n => listed_insertPitEntry name hinfo id k n
  unfold insertPitEntry
  dsimp only
  generalize ht : (t.modifyMobileProducerInfo mpName fun i =>
    { i with pitEntrys := i.pitEntrys.insertNew (name,id) }) = t' at hlisted ⊢
  have hsame : t'.history = t.history := by
    rw [← ht]
    rfl
  have hkeeps : KeepsEntries s t' := by
    rw [← ht]
    exact hquiet.toKeepsEntries.trans (keepsEntries_of_pit rfl rfl)
  simp only [hquiet.listed] at hlisted
  rw [hhistory] at hsame
  split_ifs with hown
  · refine ⟨⟨hkeeps.nextId,hkeeps.entries,hkeeps.fresh⟩,hlisted,by rw [hsame],fun p hp => ?_,
      by rw [hsame]⟩
    have hp' := List.mem_filter.mp (hsame ▸ hp)
    exact ⟨hp'.1,fun _ => of_decide_eq_true hp'.2⟩
  · exact ⟨⟨hkeeps.nextId,hkeeps.entries,hkeeps.fresh⟩,hlisted,by rw [hsame],
      fun p hp => ⟨hsame ▸ hp,fun hlist => absurd hlist hown⟩,by rw [hsame]⟩

/-- Forgetting an Interest under the producer that the mark on an out-record names. -/
structure Forgets (status : Option KiteInterestStatus) (name : Name) (s s' : Forwarder) : Prop
    where
  pit : s'.pit = s.pit
  nextId : s'.nextId = s.nextId
  history : s'.history = s.history
  listed : ∀ k n, s'.listed k n =
    if status.map (fun st => measurementsName st.mpName) = some k ∧ n = name then none
    else s.listed k n

theorem forgets_eraseMeasurement {r : OutRecord} (h : s.eraseMeasurement c r name = some s') :
    Forgets r.info name s s' := by
  unfold eraseMeasurement at h
  split at h
  · next status hstatus =>
    split_ifs at h
    cases h
    refine ⟨getMeasurements_pit _,getMeasurements_nextId _,getMeasurements_history _,fun k n => ?_⟩
    rw [listed_eq,listed_eq,producerInfo_modifyMobileProducerInfo,producerInfo_getMeasurements,
      hstatus]
    by_cases hk : k = measurementsName status.mpName
    · subst hk
      cases s.producerInfo (measurementsName status.mpName) with
      | none => simp
      | some info =>
        by_cases hn : n = name
        · subst hn
          simp only [map_some,bind_some,if_true,and_self,KeyedList.find?_filter]
          rw [map_eq_none_iff,filter_eq_none_iff]
          intro p hp
          simp [info.pitEntrys.find?_key hp]
        · simp only [map_some,bind_some,if_true,hn,and_false,if_false,
            KeyedList.find?_filter]
          cases hfind : info.pitEntrys.find? n with
          | none => rfl
          | some p =>
            have hp : p.1 ≠ name := by
              rw [info.pitEntrys.find?_key hfind]
              exact hn
            rw [filter_some,if_pos (decide_eq_true hp)]
    · have hk' : ¬measurementsName status.mpName = k := fun heq => hk heq.symm
      simp [hk,hk']
  · next hstatus =>
    cases h
    exact ⟨rfl,rfl,rfl,fun k n => by simp [hstatus]⟩

theorem Forgets.keepsEntries (h : Forgets status name s s') : KeepsEntries s s' :=
  keepsEntries_of_pit h.pit h.nextId

theorem Forgets.listed_none {k n : Name} (h : Forgets status name s s') (hn : s.listed k n = none) :
    s'.listed k n = none := by
  rw [h.listed]
  split_ifs
  · rfl
  · exact hn

end Remembering

section Nacks

theorem quiet_withdrawRoute {ingress : FaceId} (h : s.withdrawRoute c ingress id = some s') :
    Quiet s s' := by
  unfold withdrawRoute at h
  obtain ⟨e,_,h⟩ := bind_eq_some_iff.mp h
  split at h
  · split_ifs at h
    · exact quiet_removePrefix h
    · cases h
      exact .refl s
  · cases h
    exact .refl s

theorem quiet_noted {reason : NackReason} {ingress : FaceId}
    (h : (s.modifyEntry id (setIncomingNack reason ingress)).withdrawRoute c ingress id = some s') :
    Quiet s s' :=
  (steady_modifyEntry (by intro; rfl) (by intro; rfl)).quiet.trans (quiet_withdrawRoute h)

theorem forgets_eraseWith {find : PitEntry → Option OutRecord}
    (h : s.eraseWith c find id = some s') :
    ∃ e, s.pit.find? id = some e ∧ Forgets ((find e).bind OutRecord.info) e.name s s' := by
  unfold eraseWith at h
  obtain ⟨e,he,h⟩ := bind_eq_some_iff.mp h
  refine ⟨e,he,?_⟩
  split at h
  · next r hr =>
    rw [hr]
    exact forgets_eraseMeasurement h
  · next hr =>
    cases h
    exact ⟨rfl,rfl,rfl,fun k n => by simp [hr]⟩

theorem quiet_settleIfIdle (id : PitId) : Quiet s (s.settleIfIdle id) := by
  unfold settleIfIdle
  split_ifs
  · exact (steady_settle id).quiet
  · exact .refl s

theorem keepsListed_answer (id : PitId) : KeepsListed s (s.answer id) := by
  refine ⟨keepsEntries_of_pit (answer_pit id) (answer_nextId id),fun k n => ?_,fun p hp => ?_⟩
  · rw [listed_eq,listed_eq,producerInfo_congr (answer_measurements id)]
  · unfold answer at hp
    split at hp
    · exact hp
    · exact hp

theorem keepsListed_answerIfIdle (id : PitId) : KeepsListed s (s.answerIfIdle id) := by
  unfold answerIfIdle
  split_ifs
  · exact keepsListed_answer id
  · exact (Quiet.refl s).toKeepsListed

theorem answerIfIdle_retransmissions (id : PitId) :
    (s.answerIfIdle id).history.retransmissions = s.history.retransmissions := by
  unfold answerIfIdle
  split_ifs
  · exact answer_retransmissions id
  · rfl

theorem steady_returnedAll (id : PitId) (e : PitEntry) (reason : NackReason) :
    Steady s ((triedAll c id e s).1.sendNacks c reason id) :=
  (steady_dealNacks id (e.inRecords.items.map InRecord.face)).trans
    (Sends.steady (Q := Routine) (sends_sendNacks reason id))

theorem steady_returnedOne (id : PitId) (face : FaceId) (reason : NackReason) :
    Steady s ((s.dealNack c id face).1.sendNack c reason face id) :=
  (steady_dealNack id face).trans (Sends.steady (Q := Routine) (sends_sendNack reason face id))

theorem withdrawRoute_history {ingress : FaceId} (h : s.withdrawRoute c ingress id = some s') :
    s'.history = s.history := by
  unfold withdrawRoute at h
  obtain ⟨e,_,h⟩ := bind_eq_some_iff.mp h
  split at h
  · split_ifs at h
    · unfold removePrefix at h
      split_ifs at h
      cases h
      exact getMeasurements_history _
    · cases h
      rfl
  · cases h
    rfl

theorem settleIfIdle_retransmissions (id : PitId) :
    (s.settleIfIdle id).history.retransmissions = s.history.retransmissions := by
  unfold settleIfIdle
  split_ifs
  · rfl
  · rfl

theorem retransmissions_processesNack {e : PitEntry} (h : ProcessesNack c id e s s') :
    s'.history.retransmissions = s.history.retransmissions := by
  cases h with
  | waits => rfl
  | triesAll _ _ => exact (steady_dealNacks id _).retransmissions
  | triesOne outFace _ => exact (steady_dealNack id outFace).retransmissions
  | returnsAll _ _ herase =>
    obtain ⟨e₁,_,hforgets⟩ := forgets_eraseWith herase
    rw [settleIfIdle_retransmissions,answerIfIdle_retransmissions,hforgets.history]
    exact (steady_returnedAll id e _).retransmissions
  | returnsOne r _ _ _ herase =>
    obtain ⟨e₁,_,hforgets⟩ := forgets_eraseWith herase
    rw [settleIfIdle_retransmissions,hforgets.history]
    exact (steady_returnedOne id r.face _).retransmissions

theorem keepsEntries_processesNack {e : PitEntry} (h : ProcessesNack c id e s s') :
    KeepsEntries s s' := by
  cases h with
  | waits => exact keepsEntries_of_pit rfl rfl
  | triesAll _ _ => exact (steady_dealNacks id _).quiet.toKeepsEntries
  | triesOne outFace _ => exact (steady_dealNack id outFace).quiet.toKeepsEntries
  | returnsAll _ _ herase =>
    obtain ⟨e₁,_,hforgets⟩ := forgets_eraseWith herase
    have hnacks := steady_returnedAll (c := c) (s := s) id e
      (leastSevereReason e.outRecords.items)
    exact ((hnacks.quiet.toKeepsEntries.trans hforgets.keepsEntries).trans
      (keepsListed_answerIfIdle id).toKeepsEntries).trans (quiet_settleIfIdle id).toKeepsEntries
  | returnsOne r _ _ _ herase =>
    obtain ⟨e₁,_,hforgets⟩ := forgets_eraseWith herase
    have hnack := steady_returnedOne (c := c) (s := s) id r.face
      (leastSevereReason e.outRecords.items)
    exact (hnack.quiet.toKeepsEntries.trans hforgets.keepsEntries).trans
      (quiet_settleIfIdle id).toKeepsEntries

end Nacks

section Expiry

theorem Bounded.finalize (hb : s.Bounded) (id : PitId) : (s.finalized id).Bounded := by
  intro id' ha
  obtain ⟨e',he'⟩ := isSome_iff_exists.mp ha
  apply hb id'
  rw [isAlive,find_of_finalized he']
  rfl

theorem interestOf_cleanupOnFaceRemoval (face : FaceId) (id : PitId) :
    (s.cleanupOnFaceRemoval face).interestOf id = s.interestOf id := by
  have hfind := s.pit.find?_map (deleteInOutRecords face) (by intro; rfl) id
  have heq : (s.cleanupOnFaceRemoval face).interestOf id =
      ((s.pit.find? id).map (deleteInOutRecords face)).map PitEntry.interest :=
    congrArg (Option.map PitEntry.interest) hfind
  rw [heq,map_map]
  rfl

theorem listed_withoutMeasurements (name k n : Name) :
    (s.withoutMeasurements name).listed k n = if k = name then none else s.listed k n := by
  by_cases hk : k = name
  · subst hk
    simp [listed,withoutMeasurements]
  · simp [listed,withoutMeasurements,hk]

end Expiry

end KiteNdn.Fw.Forwarder
