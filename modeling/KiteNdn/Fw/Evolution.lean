import KiteNdn.Fw.Frame

/-!
# Moves of the forwarder

Whatever the pipelines and the strategy do is made of a few moves. `Performs` says which changes of
PIT entries an operation uses, and `Evolves` which of them an entry has gone through: what every
move keeps, every operation keeps.
-/

namespace KiteNdn.Fw

open Framework Option

variable {x : Change} {face : FaceId} {e : PitEntry}

namespace Change

theorem outStatus_apply {status : KiteInterestStatus}
    (h : (x.apply e).outStatus face = some status) :
    e.outStatus face = some status ∨ ∃ mpName rvName, x = mark mpName face ∧
      status = ⟨.straightForward,rvName,mpName⟩ := by
  cases x with
  | send egress i now =>
    rw [apply,PitEntry.outStatus_insertOrUpdateOutRecord] at h
    exact Or.inl h
  | mark mpName outFace =>
    rw [apply,PitEntry.outStatus_setOutStatus] at h
    split_ifs at h with hface
    · obtain ⟨r,_,rfl⟩ := map_eq_some_iff.mp h
      exact Or.inr ⟨mpName,_,by rw [hface],rfl⟩
    · exact Or.inl h
  | setIncomingNack reason ingress =>
    rw [apply,PitEntry.outStatus_setIncomingNack] at h
    exact Or.inl h
  | deleteOut egress => exact Or.inl (PitEntry.outStatus_deleteOutRecord h)
  | _ => exact Or.inl h

private theorem mem_modify {f : InRecord → InRecord} (hface : ∀ r, (f r).face = r.face)
    (hexpiry : ∀ r, (f r).expiry = r.expiry) {l : KeyedList InRecord.face} {r' : InRecord}
    (h : r' ∈ (l.modify face f).items) :
    ∃ r ∈ l.items, r.face = r'.face ∧ r.expiry = r'.expiry := by
  have hfind := (l.modify face f).find?_eq_some.mpr ⟨h,rfl⟩
  rw [KeyedList.find?_modify _ hface] at hfind
  split_ifs at hfind with heq
  · obtain ⟨r,hr,rfl⟩ := map_eq_some_iff.mp hfind
    exact ⟨r,(l.find?_eq_some.mp hr).1,(hface r).symm,(hexpiry r).symm⟩
  · exact ⟨r',(l.find?_eq_some.mp hfind).1,rfl,rfl⟩

/-- An in-record was there before, or is that of an Interest which is admitted. -/
theorem inRecords_apply {r' : InRecord} (h : r' ∈ (x.apply e).inRecords.items) :
    (∃ r ∈ e.inRecords.items, r.face = r'.face ∧ r.expiry = r'.expiry) ∨
      ∃ i now, x = enter r'.face i now ∧ r'.expiry = recordExpiry i now := by
  cases x with
  | enter face i now =>
    have hfind := (KeyedList.find?_eq_some _).mpr ⟨h,rfl⟩
    rw [apply,PitEntry.insertOrUpdateInRecord,KeyedList.find?_putFront] at hfind
    split_ifs at hfind with hface
    · cases hfind
      exact Or.inr ⟨i,now,rfl,rfl⟩
    · exact Or.inl ⟨r',((KeyedList.find?_eq_some _).mp hfind).1,rfl,rfl⟩
  | setInStatus rvName face => exact Or.inl (mem_modify (by intro; rfl) (by intro; rfl) h)
  | setInStage stage face => exact Or.inl (mem_modify (by intro; rfl) (by intro; rfl) h)
  | deleteIn face => exact Or.inl ⟨r',(List.mem_filter.mp h).1,rfl,rfl⟩
  | clearIn => exact absurd h List.not_mem_nil
  | _ => exact Or.inl ⟨r',h,rfl,rfl⟩

end Change

namespace Forwarder

variable {c : Config} {s s' s₁ : Forwarder} {Q Q' : PitId → Change → Prop}
  {P : PitId → FaceId → Prop} {N : Forwarder → Forwarder → Prop} {id : PitId} {ingress : FaceId}
  {i : Interest} {d : Data}

abbrev Plain : PitId → Change → Prop := fun _ x => x.isPlain = true

theorem PerformsBy.find (h : PerformsBy N (fun _ _ => False) s s') (id : PitId) :
    s'.pit.find? id = s.pit.find? id := by
  induction h with
  | refl => rfl
  | tail _ hmove ih =>
    rw [← ih]
    cases hmove with
    | @modify id' f hid hf =>
      have hsame : f = fun e => e := by
        funext e
        rcases Relation.ReflTransGen.cases_head (hf e) with heq | ⟨_,⟨_,hx,_⟩,_⟩
        · exact heq.symm
        · exact hx.1.elim
      rw [find_modifyEntry _ id' hid]
      split_ifs with heq
      · rw [heq,hsame,map_id']
      · rfl
    | send _ _ _ hx => exact hx.elim
    | act _ _ _ => rfl
    | note hpit _ _ _ => rw [hpit]

/-- Every entry of the later state was there before, and has been changed in ways that `Q` allows. -/
def Evolves (Q : PitId → Change → Prop) (s s' : Forwarder) : Prop :=
  ∀ id e', s'.pit.find? id = some e' → ∃ e, s.pit.find? id = some e ∧ Changes Q id e e'

namespace Evolves

theorem of_pit (h : s'.pit = s.pit) : Evolves Q s s' := by
  intro id e he
  rw [h] at he
  exact ⟨e,he,.refl⟩

theorem refl (s : Forwarder) : Evolves Q s s := of_pit rfl

theorem trans (h : Evolves Q s s₁) (h' : Evolves Q s₁ s') : Evolves Q s s' := by
  intro id e' he'
  obtain ⟨e₁,he₁,hlater⟩ := h' id e' he'
  obtain ⟨e,he,hearlier⟩ := h id e₁ he₁
  exact ⟨e,he,hearlier.trans hlater⟩

theorem mono (h : Evolves Q s s') (hq : ∀ id x, Q id x → Q' id x) : Evolves Q' s s' := by
  intro id e' he'
  obtain ⟨e,he,hchanges⟩ := h id e' he'
  exact ⟨e,he,hchanges.mono (hq id)⟩

/-- What every allowed change keeps is kept. -/
theorem keeps {R : PitEntry → PitEntry → Prop} (h : Evolves Q s s') (hrefl : ∀ e, R e e)
    (hstep : ∀ x e e', Q id x → R e e' → R e (x.apply e')) {e' : PitEntry}
    (he' : s'.pit.find? id = some e') : ∃ e, s.pit.find? id = some e ∧ R e e' := by
  obtain ⟨e,he,hchanges⟩ := h id e' he'
  refine ⟨e,he,?_⟩
  clear he'
  induction hchanges with
  | refl => exact hrefl e
  | tail _ hx ih =>
    obtain ⟨x,hq,rfl⟩ := hx
    exact hstep x _ _ hq ih

theorem interest (h : Evolves Q s s') {e' : PitEntry} (he' : s'.pit.find? id = some e') :
    ∃ e, s.pit.find? id = some e ∧ e.interest = e'.interest :=
  h.keeps (R := fun e e' => e.interest = e'.interest) (fun _ => rfl)
    (fun x _ _ _ heq => heq.trans (x.apply_interest _).symm) he'

end Evolves

private theorem evolves_modifyEntry {f : PitEntry → PitEntry} (hid : ∀ e, (f e).id = e.id)
    (hf : ∀ e, Changes Q id e (f e)) : Evolves Q s (s.modifyEntry id f) := by
  intro id' e' he'
  rw [find_modifyEntry s id hid] at he'
  by_cases h : id' = id
  · rw [if_pos h] at he'
    obtain ⟨e,he,rfl⟩ := map_eq_some_iff.mp he'
    rw [h]
    exact ⟨e,he,hf e⟩
  · rw [if_neg h] at he'
    exact ⟨e',he',.refl⟩

theorem evolves_change (x : Change) (hx : Q id x) : Evolves Q s (s.modifyEntry id x.apply) :=
  evolves_modifyEntry x.apply_id fun _ => .single ⟨x,hx,rfl⟩

theorem PerformsBy.evolves (h : PerformsBy N Q s s') : Evolves Q s s' := by
  induction h with
  | refl => exact .refl s
  | tail _ hmove ih =>
    refine ih.trans ?_
    cases hmove with
    | modify id hid hf => exact evolves_modifyEntry hid fun e => (hf e).mono fun _ hx => hx.1
    | send id i egress hx => exact evolves_change (.send egress i _) hx
    | act a _ _ => exact .of_pit rfl
    | note hpit _ _ _ => exact .of_pit hpit

theorem PerformsBy.now (h : PerformsBy N Q s s') : s'.now = s.now := by
  induction h with
  | refl => rfl
  | tail _ hmove ih =>
    rw [← ih]
    cases hmove with
    | note _ hnow _ _ => exact hnow
    | _ => rfl

theorem PerformsBy.inRecord (h : PerformsBy N (RoutineTo P) s s') {e' : PitEntry} {r' : InRecord}
    (he' : s'.pit.find? id = some e') (hr' : r' ∈ e'.inRecords.items) :
    ∃ e r, s.pit.find? id = some e ∧ r ∈ e.inRecords.items ∧ r.face = r'.face ∧
      r.expiry = r'.expiry := by
  have hstep : ∀ x (e₀ e₁ : PitEntry), RoutineTo P id x →
      (∀ r' ∈ e₁.inRecords.items, ∃ r ∈ e₀.inRecords.items, r.face = r'.face ∧ r.expiry = r'.expiry) →
      ∀ r' ∈ (x.apply e₁).inRecords.items,
        ∃ r ∈ e₀.inRecords.items, r.face = r'.face ∧ r.expiry = r'.expiry := by
    intro x e₀ e₁ hx ih r' hr'
    rcases Change.inRecords_apply hr' with ⟨r₁,hr₁,hface,hexpiry⟩ | ⟨i,now,rfl,_⟩
    · obtain ⟨r,hr,hface',hexpiry'⟩ := ih r₁ hr₁
      exact ⟨r,hr,hface'.trans hface,hexpiry'.trans hexpiry⟩
    · exact nomatch hx.1
  obtain ⟨e,he,hsame⟩ := h.evolves.keeps (fun _ r hr => ⟨r,hr,rfl,rfl⟩) hstep he'
  obtain ⟨r,hr,hboth⟩ := hsame r' hr'
  exact ⟨e,r,he,hr,hboth⟩

section Entries

theorem performs_getMeasurements (name : Name) : Performs Q s (s.getMeasurements name) :=
  .note (getMeasurements_pit name) (getMeasurements_now name) (getMeasurements_actions name) trivial

theorem performs_answer (id : PitId) : Performs Q s (s.answer id) :=
  .note (answer_pit id) (answer_now id) (answer_actions id) trivial

theorem performs_markSatisfied (ingress : FaceId) (id : PitId) :
    Performs (RoutineTo P) s (s.markSatisfied ingress id) := by
  have hmarked : Performs (RoutineTo P) s (s.modifyEntry id fun e =>
      PitEntry.deleteOutRecord ingress { e with isSatisfied := true }) := by
    refine .single (.modify id (fun _ => rfl) fun e => ?_)
    exact (Relation.ReflTransGen.single ⟨.satisfy,⟨⟨rfl,trivial⟩,rfl⟩,rfl⟩).tail
      ⟨.deleteOut ingress,⟨⟨rfl,trivial⟩,rfl⟩,rfl⟩
  exact (hmarked.trans (performs_answer id)).trans (sends_settle id).performs

theorem performs_answerIfIdle (id : PitId) : Performs Q s (s.answerIfIdle id) := by
  unfold answerIfIdle
  split_ifs
  · exact performs_answer id
  · exact .refl s

end Entries

section Producers

theorem performs_removePrefix {name : Name} (h : s.removePrefix c name face = some s') :
    Performs Q s s' := by
  unfold removePrefix at h
  split_ifs at h
  cases h
  have hrenewed : Performs Q s ((s.act (.slRenew name face 0)).getMeasurements name) :=
    .trans (.act _ rfl trivial) (performs_getMeasurements name)
  exact hrenewed.trans (.note rfl rfl rfl trivial)

theorem performs_eraseMeasurement {r : OutRecord} {name : Name}
    (h : s.eraseMeasurement c r name = some s') : Performs Q s s' := by
  unfold eraseMeasurement at h
  split at h
  · next status _ =>
    split_ifs at h
    cases h
    exact (performs_getMeasurements status.mpName).trans (.note rfl rfl rfl trivial)
  · cases h
    exact .refl _

theorem performs_recordPitEntry {mpName name : Name}
    (h : s.recordPitEntry c mpName name id = some s') :
    Performs Q s s' ∧ c.isEffective (measurementsName mpName) = true := by
  unfold recordPitEntry at h
  split_ifs at h with heff
  cases h
  refine ⟨(performs_getMeasurements mpName).trans ?_,heff⟩
  unfold insertPitEntry
  dsimp only
  split_ifs
  · exact .note rfl rfl rfl trivial
  · exact .note rfl rfl rfl trivial

/-- The Interests remembered for the producer may go to the face, if it is new. -/
def AllowsResend (P : PitId → FaceId → Prop) (c : Config) (mpName : Name) (face : FaceId)
    (s : Forwarder) : Prop :=
  ∀ info, s.getMobileProducerInfo mpName = some info → face ∉ info.faceIds →
    ∀ item ∈ info.pitEntrys.items, ∀ i, s.interestOf item.2 = some i → canLeave c i face →
      P item.2 face

/-- Faces are added to what is known of the producer. -/
def KeepsInfo (mpName : Name) (s s' : Forwarder) : Prop :=
  ∀ info', s'.getMobileProducerInfo mpName = some info' →
    ∃ info, s.getMobileProducerInfo mpName = some info ∧ info'.pitEntrys = info.pitEntrys ∧
      info.faceIds ⊆ info'.faceIds

section Infos

variable {mpName : Name}

theorem KeepsInfo.of_eq (h : s'.producerInfo (measurementsName mpName) =
    s.producerInfo (measurementsName mpName)) : KeepsInfo mpName s s' := by
  intro info hinfo
  rw [getMobileProducerInfo_eq,h] at hinfo
  exact ⟨info,hinfo,rfl,List.Subset.refl _⟩

theorem KeepsInfo.trans (h : KeepsInfo mpName s s₁) (h' : KeepsInfo mpName s₁ s') :
    KeepsInfo mpName s s' := by
  intro info' hinfo'
  obtain ⟨info₁,hinfo₁,hentrys₁,hfaces₁⟩ := h' info' hinfo'
  obtain ⟨info,hinfo,hentrys,hfaces⟩ := h info₁ hinfo₁
  exact ⟨info,hinfo,hentrys₁.trans hentrys,List.Subset.trans hfaces hfaces₁⟩

theorem AllowsResend.of_performs (h : s.AllowsResend P c mpName face) (hs' : Performs Q s s')
    (hinfo : KeepsInfo mpName s s') : s'.AllowsResend P c mpName face := by
  intro info' hinfo' hface item hitem i hi
  obtain ⟨info,hinfo,hentrys,hfaces⟩ := hinfo info' hinfo'
  rw [hs'.interestOf] at hi
  exact h info hinfo (fun hmem => hface (hfaces hmem)) item (hentrys ▸ hitem) i hi

theorem retransmit_spec (hp : s.AllowsResend P c mpName face) :
    Performs (SentTo P) s (s.retransmit c mpName face) ∧
      KeepsInfo mpName s (s.retransmit c mpName face) := by
  unfold retransmit
  split
  · next info hinfo =>
    split_ifs with hface
    · exact ⟨.refl s,.of_eq rfl⟩
    · have hnoted : Performs (SentTo P) s (s.modifyMobileProducerInfo mpName fun i =>
          { i with faceIds := face :: i.faceIds }) := .note rfl rfl rfl trivial
      refine ⟨.trans (hnoted.trans (.performs (N := Steady)
        (sends_resends mpName (hp info hinfo hface)))) (.note rfl rfl rfl trivial),?_⟩
      intro info' hinfo'
      have hsame : (info.pitEntrys.items.foldl (resend c mpName face)
          (s.modifyMobileProducerInfo mpName fun i =>
            { i with faceIds := face :: i.faceIds })).producerInfo (measurementsName mpName) =
          some info' := hinfo'
      rw [producerInfo_congr (steady_resends mpName face _).measurements,
        producerInfo_modifyMobileProducerInfo,if_pos rfl,← getMobileProducerInfo_eq,hinfo] at hsame
      cases hsame
      exact ⟨info,hinfo,rfl,List.subset_cons_self _ _⟩
  · exact ⟨.refl s,.of_eq rfl⟩

end Infos

theorem registPrefix_spec (pa : PrefixAnnouncement) {records : List InRecord}
    (hp : c.isEffective (measurementsName pa.announcedName) = true → ∀ r ∈ records,
      c.scope r.face ≠ .isLocal → s.now < r.expiry → s.AllowsResend P c pa.announcedName r.face) :
    Performs (SentTo P) s (s.registPrefix c pa records) ∧
      KeepsInfo pa.announcedName s (s.registPrefix c pa records) := by
  induction records generalizing s with
  | nil => exact ⟨.refl s,.of_eq rfl⟩
  | cons r records ih =>
    have hannounced : Performs (SentTo P) s
        ((s.act (.slAnnounce pa r.face announceLifetime)).getMeasurements pa.announcedName) :=
      .trans (.act _ rfl trivial) (performs_getMeasurements pa.announcedName)
    have hinfo : KeepsInfo pa.announcedName s
        ((s.act (.slAnnounce pa r.face announceLifetime)).getMeasurements pa.announcedName) :=
      .of_eq (producerInfo_getMeasurements _ _ _)
    rw [registPrefix]
    split_ifs with hwaits heff
    · have hextended : Performs (SentTo P) s (extendLifetime pa.announcedName
          (toNanoseconds pa.expiration) _) := hannounced.trans (.note rfl rfl rfl trivial)
      have hinfo₁ := hinfo.trans (.of_eq (producerInfo_extendLifetime _ pa.announcedName _
        (toNanoseconds pa.expiration)))
      have hfirst := hp heff r List.mem_cons_self hwaits.1 hwaits.2
      obtain ⟨hsent,hinfo₂⟩ := retransmit_spec (hfirst.of_performs hextended hinfo₁)
      have hdone := hextended.trans hsent
      obtain ⟨hrest,hinfo₃⟩ := ih (s := retransmit c pa.announcedName r.face _) fun heff r' hr' hscope
        hlater => (hp heff r' (List.mem_cons_of_mem r hr') hscope (hdone.now ▸ hlater)).of_performs
          hdone (hinfo₁.trans hinfo₂)
      exact ⟨hdone.trans hrest,(hinfo₁.trans hinfo₂).trans hinfo₃⟩
    · exact ⟨hannounced,hinfo⟩
    · exact ih fun heff r' hr' => hp heff r' (List.mem_cons_of_mem r hr')

/-- If the Data is an acknowledgment, the Interests remembered for its producer may go to the new
faces among the downstreams of the entry. -/
def AllowsSatisfy (P : PitId → FaceId → Prop) (c : Config) (d : Data) (id : PitId)
    (s : Forwarder) : Prop :=
  ∀ ack, Kite.Ack.ofData d = .ok ack →
    c.isEffective (measurementsName ack.prefixAnnouncement.announcedName) = true →
      ∀ e, s.pit.find? id = some e → ∀ r ∈ e.inRecords.items, c.scope r.face ≠ .isLocal →
        s.now < r.expiry → s.AllowsResend P c ack.prefixAnnouncement.announcedName r.face

theorem allowsSatisfy_true (s : Forwarder) (d : Data) (id : PitId) :
    s.AllowsSatisfy (fun _ _ => True) c d id := by
  intros _ _ _ _ _ _ _ _ _ _ _ _ _ _ _ _ _
  trivial

private def KeepsInfos (d : Data) (s s' : Forwarder) : Prop :=
  ∀ ack, Kite.Ack.ofData d = .ok ack → KeepsInfo ack.prefixAnnouncement.announcedName s s'

private theorem AllowsSatisfy.of_performs {P' : PitId → FaceId → Prop}
    (h : s.AllowsSatisfy P c d id) (hs' : Performs (RoutineTo P') s s')
    (hinfo : KeepsInfos d s s') : s'.AllowsSatisfy P c d id := by
  intro ack hack heff e' he' r' hr' hscope hlater
  obtain ⟨e,r,he,hr,hface,hexpiry⟩ := hs'.inRecord he' hr'
  rw [hs'.now,← hexpiry] at hlater
  rw [← hface] at hscope ⊢
  exact (h ack hack heff e he r hr hscope hlater).of_performs hs' (hinfo ack hack)

private theorem beforeSatisfyInterest_spec (hp : s.AllowsSatisfy P c d id)
    (h : s.beforeSatisfyInterest c d ingress id = some s') :
    Performs (SentTo P) s s' ∧ KeepsInfos d s s' := by
  obtain ⟨e,he,hsat⟩ := beforeSatisfyInterest_cases h
  have hnoAck : d.contentType ≠ Kite.contentTypeKiteAck → KeepsInfos d s s' := by
    intro hne ack hack
    rw [Kite.Ack.ofData,if_pos hne] at hack
    exact nomatch hack
  cases hsat with
  | ack ack _ hdata =>
    obtain ⟨hsent,hinfo⟩ := registPrefix_spec ack.prefixAnnouncement
      fun heff r hr => hp ack hdata heff e he r hr
    refine ⟨hsent,fun ack' hack' => ?_⟩
    cases hdata.symm.trans hack'
    exact hinfo
  | erase r hne _ herase => exact ⟨performs_eraseMeasurement herase,hnoAck hne⟩
  | other hne _ => exact ⟨.refl s,hnoAck hne⟩

private theorem performs_satisfyAll {g : PitId → Forwarder → Forwarder}
    (hg : ∀ id s, Performs (RoutineTo P) s (g id s))
    (hmeasurements : ∀ id s, (g id s).measurements = s.measurements) {ids : List PitId}
    (hp : ∀ id ∈ ids, s.AllowsSatisfy P c d id) (h : ids.foldlM (fun s id =>
      ((s.setExpiryTimer id 0).beforeSatisfyInterest c d ingress id).map (g id)) s = some s') :
    Performs (RoutineTo P) s s' := by
  induction ids generalizing s with
  | nil =>
    cases h
    exact .refl _
  | cons id ids ih =>
    rw [List.foldlM_cons] at h
    obtain ⟨s₂,hs₂,h⟩ := bind_eq_some_iff.mp h
    obtain ⟨s₁,hs₁,rfl⟩ := map_eq_some_iff.mp hs₂
    obtain ⟨hid,hids⟩ := List.forall_mem_cons.mp hp
    have htimer : Performs (RoutineTo P) s (s.setExpiryTimer id 0) :=
      (sends_setExpiryTimer id 0).performs
    obtain ⟨hsent,hinfo⟩ := beforeSatisfyInterest_spec
      (hid.of_performs htimer fun _ _ => .of_eq rfl) hs₁
    have hdone := (htimer.trans hsent.routine).trans (hg id s₁)
    have hinfos : KeepsInfos d s (g id s₁) := fun ack hack =>
      (hinfo ack hack).trans (.of_eq (producerInfo_congr (hmeasurements id s₁) _))
    exact hdone.trans (ih (fun id' hid' => (hids id' hid').of_performs hdone hinfos) h)

private theorem measurements_markSatisfied (ingress : FaceId) (id : PitId) (s : Forwarder) :
    (s.markSatisfied ingress id).measurements = s.measurements :=
  answer_measurements id

theorem performs_onIncomingData {pitMatches : List PitId} {nOthers : Nat}
    (hp : violatesLocalhost c ingress d.name = false → ∀ id ∈ pitMatches,
      s.AllowsSatisfy P c d id)
    (h : s.onIncomingData c d ingress pitMatches nOthers = some s') :
    Performs (RoutineTo P) s s' := by
  unfold onIncomingData at h
  split_ifs at h with hlocal
  · cases h
    exact .refl _
  · cases h
    cases pitMatches with
    | nil => exact .refl _
    | cons id _ => exact (sends_setExpiryTimer id 0).performs
  · refine performs_satisfyAll (fun id s => (sends_sendDataToAll d ingress id).performs.trans
      (performs_markSatisfied ingress id)) (fun id s => ?_) (hp (by simpa using hlocal)) h
    rw [measurements_markSatisfied,(steady_sendDataToAll d ingress id).measurements]
  · obtain ⟨s₁,hs₁,rfl⟩ := map_eq_some_iff.mp h
    refine (performs_satisfyAll (fun id s => (performs_markSatisfied ingress id).trans
      (.change .clearIn ⟨rfl,trivial⟩ rfl)) (fun id s => ?_) (hp (by simpa using hlocal))
        hs₁).trans (sends_onOutgoingDatas d _).performs
    exact measurements_markSatisfied ingress id s

theorem performs_eraseWith {find : PitEntry → Option OutRecord}
    (h : s.eraseWith c find id = some s') : Performs Q s s' := by
  obtain ⟨e,_,h⟩ := bind_eq_some_iff.mp h
  split at h
  · exact performs_eraseMeasurement h
  · cases h
    exact .refl _

theorem performs_processesNack {e : PitEntry} (hp : ∀ f, s.isUnused id f = true → P id f)
    (h : ProcessesNack c id e s s') : Performs (RoutineTo P) s s' := by
  cases h with
  | waits => exact .refl s
  | triesAll _ _ => exact (sends_dealNacks id _ hp).performs
  | triesOne outFace _ => exact (sends_dealNack id outFace hp).performs
  | returnsAll _ _ herase =>
    have hreturned := (sends_dealNacks (c := c) id (e.inRecords.items.map InRecord.face)
      hp).trans (sends_sendNacks (c := c) (leastSevereReason e.outRecords.items) id)
    exact ((hreturned.performs.trans (performs_eraseWith herase)).trans
      (performs_answerIfIdle id)).trans
      (sends_settleIfIdle id).performs
  | returnsOne r _ _ _ herase =>
    have hreturned := (sends_dealNack (c := c) id r.face hp).trans
      (sends_sendNack (c := c) (leastSevereReason e.outRecords.items) r.face id)
    exact (hreturned.performs.trans (performs_eraseWith herase)).trans (sends_settleIfIdle id).performs

theorem performs_withdrawRoute (h : s.withdrawRoute c ingress id = some s') : Performs Q s s' := by
  obtain ⟨e,_,h⟩ := bind_eq_some_iff.mp h
  split at h
  · split_ifs at h
    · exact performs_removePrefix h
    · cases h
      exact .refl _
  · cases h
    exact .refl _

theorem afterReceiveNack_eq (ingress : FaceId) (id : PitId) (s : Forwarder) :
    s.afterReceiveNack c ingress id =
      (s.withdrawRoute c ingress id).bind (processNack c id) := by
  unfold afterReceiveNack withdrawRoute
  cases s.pit.find? id with
  | none => rfl
  | some e => rfl

theorem performs_afterReceiveNack (hp : ∀ f, s.isUnused id f = true → P id f)
    (h : s.afterReceiveNack c ingress id = some s') : Performs (RoutineTo P) s s' := by
  rw [afterReceiveNack_eq] at h
  obtain ⟨s₁,hs₁,h⟩ := bind_eq_some_iff.mp h
  obtain ⟨e,he,_⟩ := bind_eq_some_iff.mp h
  have hsame : s₁.pit.find? id = s.pit.find? id := (performs_withdrawRoute hs₁).find id
  refine (performs_withdrawRoute hs₁).trans (performs_processesNack (fun f hf => hp f ?_)
    (processNack_cases he h))
  rw [isUnused,hsame] at hf
  exact hf

theorem performs_afterReceiveInterest (hp : ∀ e, s.pit.find? id = some e →
      ∀ f ∈ s.nextHops c i ingress e, canLeave c i f → P id f)
    (h : s.afterReceiveInterest c i ingress id = some s') :
    Performs (fun id' x => RoutineTo P id' x ∨ (∃ rvName face, x = .setInStatus rvName face) ∨
      id' = id ∧ ∃ mpName face, x = .mark mpName face ∧
        c.isEffective (measurementsName mpName) = true) s s' := by
  obtain ⟨e,he,⟨s₁,hforwards⟩ | hrelays⟩ := afterReceiveInterest_cases h
  · obtain ⟨hrecorded,heff⟩ := performs_recordPitEntry hforwards.recorded
    refine .trans ((sends_forwards hforwards (hp e he)).performs.mono ?_) hrecorded
    intro id' x hx
    rcases hx with hx | hx | ⟨hid,face,hx⟩
    · exact Or.inl hx
    · exact Or.inr (Or.inl hx)
    · exact Or.inr (Or.inr ⟨hid,_,face,hx,heff⟩)
  · exact (sends_relays (hp e he) hrelays).performs.mono fun _ _ hx => Or.inl hx

end Producers

theorem PerformsBy.plain (h : PerformsBy N Routine s s') : Evolves Plain s s' :=
  h.evolves.mono fun _ _ hx => Change.isPlain_of_isRoutine hx.1

theorem evolves_setIncomingNack (id : PitId) (reason : NackReason) (ingress : FaceId) :
    Evolves Plain s (s.modifyEntry id (setIncomingNack reason ingress)) :=
  evolves_change (.setIncomingNack reason ingress) rfl

theorem evolves_afterReceiveInterest {i : Interest}
    (h : s.afterReceiveInterest c i ingress id = some s') :
    Evolves (fun id' x => x.isPlain = true ∨ (∃ rvName face, x = .setInStatus rvName face) ∨
      id' = id ∧ ∃ mpName face, x = .mark mpName face ∧
        c.isEffective (measurementsName mpName) = true) s s' :=
  (performs_afterReceiveInterest (P := fun _ _ => True) (fun _ _ _ _ _ => trivial) h).evolves.mono
    fun _ _ hx => hx.imp_left fun hx => Change.isPlain_of_isRoutine hx.1

section Removal

theorem evolves_cleanupOnFaceRemoval (face : FaceId) :
    Evolves Plain s (s.cleanupOnFaceRemoval face) := by
  intro id e he
  have hfind := s.pit.find?_map (deleteInOutRecords face) (by intro; rfl) id
  obtain ⟨e₀,he₀,rfl⟩ := map_eq_some_iff.mp (hfind.symm.trans he)
  exact ⟨e₀,he₀,(Relation.ReflTransGen.single ⟨.deleteIn face,rfl,rfl⟩).tail
    ⟨.deleteOut face,rfl,rfl⟩⟩

theorem evolves_finalized (id : PitId) : Evolves Plain s (s.finalized id) :=
  fun _ e he => ⟨e,find_of_finalized he,.refl⟩

end Removal

section Admission

/-- The changes up to the strategy: the Interest gets an in-record. -/
def Admitted (ingress : FaceId) (now : Time) (_ : PitId) (x : Change) : Prop :=
  x.isPlain = true ∨ ∃ i, x = .enter ingress i now

/-- `Evolves` with new entries, which start without records. -/
def Arises (Q : PitId → Change → Prop) (s s' : Forwarder) : Prop :=
  ∀ id e', s'.pit.find? id = some e' → ∃ e, (s.pit.find? id = some e ∨ ∃ i, e = PitEntry.new id i) ∧
    Changes Q id e e'

theorem Arises.evolves (h : Arises Q s s₁) (h' : Evolves Q s₁ s') : Arises Q s s' := by
  intro id e' he'
  obtain ⟨e₁,he₁,hlater⟩ := h' id e' he'
  obtain ⟨e,he,hearlier⟩ := h id e₁ he₁
  exact ⟨e,he,hearlier.trans hlater⟩

theorem Arises.mono (h : Arises Q s s') (hq : ∀ id x, Q id x → Q' id x) : Arises Q' s s' := by
  intro id e' he'
  obtain ⟨e,he,hchanges⟩ := h id e' he'
  exact ⟨e,he,hchanges.mono (hq id)⟩

theorem Evolves.arises (h : Evolves Q s s') : Arises Q s s' := by
  intro id e' he'
  obtain ⟨e,he,hchanges⟩ := h id e' he'
  exact ⟨e,Or.inl he,hchanges⟩

/-- What new entries have and every allowed change keeps, all entries have. -/
theorem Arises.forall_entries {P : PitEntry → Prop} (h : Arises Q s s')
    (hnew : ∀ id i, P (PitEntry.new id i)) (hstep : ∀ id x e, Q id x → P e → P (x.apply e))
    (hs : ∀ id e, s.pit.find? id = some e → P e) (id : PitId) (e : PitEntry)
    (he : s'.pit.find? id = some e) : P e := by
  obtain ⟨e₀,he₀,hchanges⟩ := h id e he
  clear he
  induction hchanges with
  | refl =>
    rcases he₀ with he₀ | ⟨i,rfl⟩
    · exact hs id _ he₀
    · exact hnew id i
  | tail _ hx ih =>
    obtain ⟨x,hq,rfl⟩ := hx
    exact hstep id x _ hq ih

theorem arises_insertPit (i : Interest) : Arises Q s (s.insertPit i).1 := by
  unfold insertPit
  split
  · exact (Evolves.refl s).arises
  · intro id e he
    rw [KeyedList.find?_put] at he
    split_ifs at he with hid
    · cases he
      exact ⟨_,Or.inr ⟨i,by rw [hid]; rfl⟩,.refl⟩
    · exact ⟨e,Or.inl he,.refl⟩

private theorem arises_admitted (i : Interest) (ingress : FaceId) :
    Arises (Admitted ingress s.now) s ((s.insertPit i).1.modifyEntry (s.insertPit i).2
      (admitted c i ingress (s.findPitEntry i).isNone s.now)) := by
  cases h : s.findPitEntry i with
  | some e =>
    rw [find_insertPit_old h]
    have hadmits : Evolves (Admitted ingress s.now) s
        (s.modifyEntry e.id (admitted c i ingress false s.now)) :=
      evolves_change (.enter ingress (attachHopLimit c i) s.now) (Or.inr ⟨_,rfl⟩)
    exact hadmits.arises
  | none =>
    rw [find_insertPit_new h]
    intro id e' he'
    rw [find_modifyEntry (f := admitted c i ingress none.isNone s.now) _ _ (fun _ => rfl)] at he'
    dsimp only at he'
    by_cases hid : id = s.nextId
    · rw [if_pos hid,KeyedList.find?_put,PitEntry.new,if_pos rfl] at he'
      cases he'
      rw [hid]
      exact ⟨PitEntry.new s.nextId (attachHopLimit c i),Or.inr ⟨_,rfl⟩,
        .single ⟨.enter ingress (attachHopLimit c i) s.now,Or.inr ⟨_,rfl⟩,rfl⟩⟩
    · rw [if_neg hid,KeyedList.find?_put,PitEntry.new,if_neg hid] at he'
      exact ⟨e',Or.inl he',.refl⟩

theorem arises_admits {a : Admission} (h : Admits c ingress s a) :
    Arises (Admitted ingress s.now) s a.state := by
  obtain ⟨t,ht,hcases⟩ := sends_admits h
  have hplain : Evolves (Admitted ingress s.now) t a.state :=
    ht.plain.mono fun _ _ hx => Or.inl hx
  obtain rfl | ⟨i,rfl | rfl⟩ := hcases
  · exact hplain.arises
  · exact (arises_insertPit i).evolves hplain
  · exact (arises_admitted i ingress).evolves hplain

end Admission

section Steps

theorem evolves_onIncomingNack {nack : Nack} (h : s.onIncomingNack c nack ingress = some s') :
    Evolves Plain s s' := by
  unfold onIncomingNack at h
  split at h
  · cases h
    exact .refl _
  · next e _ =>
    obtain ⟨s₁,hs₁,rfl⟩ := map_eq_some_iff.mp h
    have hnack := (evolves_setIncomingNack e.id nack.reason ingress).trans
      (performs_afterReceiveNack (fun _ _ => trivial) hs₁).plain
    split_ifs
    · exact hnack
    · exact hnack.trans (sends_setExpiryTimer e.id 0).plain

abbrev Changed : PitId → Change → Prop := fun _ _ => True

theorem Evolves.changed (h : Evolves Q s s') : Evolves Changed s s' := h.mono fun _ _ _ => trivial

theorem arises_onIncomingInterest {i : Interest} {inDnl csHit : Bool}
    (h : s.onIncomingInterest c i ingress inDnl csHit = some s') : Arises Changed s s' := by
  have hadmitted : ∀ {a}, Admits c ingress s a → Arises Changed s a.state :=
    fun h => (arises_admits h).mono fun _ _ _ => trivial
  rcases onIncomingInterest_cases h with hadmits | ⟨s₀,i₁,id,_,hadmits,h⟩
  · exact hadmitted hadmits
  · exact (hadmitted hadmits).evolves (evolves_afterReceiveInterest h).changed

/-- Without an Interest, the entries change in plain ways. -/
theorem evolves_step {event : Event} (hquiet : event.isInterest = false)
    (h : s.step c event = some s') : Evolves Plain s s' := by
  cases step_cases h with
  | interest => exact nomatch hquiet
  | data _ _ h => exact (performs_onIncomingData (fun _ _ _ => allowsSatisfy_true s _ _) h).plain
  | nack h => exact evolves_onIncomingNack h
  | finalize id => exact evolves_finalized id
  | removeFace face => exact evolves_cleanupOnFaceRemoval face
  | _ => exact .of_pit rfl

theorem arises_step {event : Event} (h : s.step c event = some s') : Arises Changed s s' := by
  cases hquiet : event.isInterest with
  | false => exact (evolves_step hquiet h).changed.arises
  | true =>
    cases step_cases h with
    | interest h => exact arises_onIncomingInterest h
    | _ => cases hquiet

end Steps

end Forwarder

end KiteNdn.Fw
