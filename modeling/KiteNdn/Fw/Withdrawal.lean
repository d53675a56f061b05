import KiteNdn.Fw.Evolution
import KiteNdn.Framework.Run

/-!
# Marks on out-records and withdrawn routes

The strategy marks the out-records of the Interests that it sends to a producer, and withdraws the
route over which a Nack comes back if the out-record carries its mark. Interests that were sent
again after an acknowledgment go out without it.
-/

namespace KiteNdn.Fw

open Framework Option

namespace Forwarder

variable {c : Config} {s s' s₁ : Forwarder} {P : Name → KiteInterestStatus → Prop} {id : PitId}
  {ingress : FaceId}

/-- Every mark of the later state was there before, on the entry of the same number and name, unless
it is one that `P` allows. -/
def AddsMarks (P : Name → KiteInterestStatus → Prop) (s s' : Forwarder) : Prop :=
  ∀ id e', s'.pit.find? id = some e' → ∀ face status, e'.outStatus face = some status →
    P e'.name status ∨
      ∃ e, s.pit.find? id = some e ∧ e.name = e'.name ∧ e.outStatus face = some status

theorem Evolves.addsMarks {Q : PitId → Change → Prop} (h : Evolves Q s s')
    (hq : ∀ id e, s.pit.find? id = some e → ∀ mpName face, Q id (.mark mpName face) →
      ∀ rvName, P e.name ⟨.straightForward,rvName,mpName⟩) : AddsMarks P s s' := by
  intro id e' he' face status hstatus
  obtain ⟨e,he,hchanges⟩ := h id e' he'
  have hname : e.name = e'.name := by
    obtain ⟨e₀,he₀,hi⟩ := h.interest he'
    rw [he] at he₀
    cases he₀
    exact congrArg Interest.name hi
  rw [← hname]
  clear he' hname
  -- The mark is followed back through the changes of the entry.
  induction hchanges with
  | refl => exact Or.inr ⟨e,he,rfl,hstatus⟩
  | tail _ hx ih =>
    obtain ⟨x,hx,rfl⟩ := hx
    rcases Change.outStatus_apply hstatus with hold | ⟨mpName,rvName,rfl,rfl⟩
    · exact ih hold
    · exact Or.inl (hq id e he mpName face hx rvName)

theorem Evolves.keepsMarks (h : Evolves Plain s s') : AddsMarks P s s' :=
  h.addsMarks fun _ _ _ _ _ hx => nomatch hx

theorem addsMarks_admits {a : Admission} (h : Admits c ingress s a) : AddsMarks P s a.state := by
  intro id e' he' face status hstatus
  obtain ⟨e,he,hchanges⟩ := arises_admits h id e' he'
  obtain ⟨hname,hold⟩ : e.name = e'.name ∧ e.outStatus face = some status := by
    clear he'
    induction hchanges with
    | refl => exact ⟨rfl,hstatus⟩
    | tail _ hx ih =>
      obtain ⟨x,hx,rfl⟩ := hx
      rcases Change.outStatus_apply hstatus with hstatus | ⟨_,_,rfl,_⟩
      · refine ⟨(ih hstatus).1.trans ?_,(ih hstatus).2⟩
        exact congrArg Interest.name (x.apply_interest _).symm
      · rcases hx with hx | ⟨_,hx⟩
        · exact nomatch hx
        · exact nomatch hx
  rcases he with he | ⟨i,rfl⟩
  · exact Or.inr ⟨e,he,hname,hold⟩
  · exact nomatch hold

end Forwarder

open List Option

namespace PitEntry

variable {Q : KiteInterestStatus → Prop} {e : PitEntry}

/-- All marks on out-records satisfy `Q`. -/
def Marks (Q : KiteInterestStatus → Prop) (e : PitEntry) : Prop :=
  ∀ face status, e.outStatus face = some status → Q status

end PitEntry

namespace Forwarder

variable {c : Config} {s s' s₁ : Forwarder} {Q : KiteInterestStatus → Prop} {e : PitEntry}
  {id : PitId} {ingress : FaceId}

def Marks (Q : KiteInterestStatus → Prop) (s : Forwarder) : Prop :=
  ∀ id e, s.pit.find? id = some e → e.Marks Q

theorem AddsMarks.marks (h : AddsMarks (fun _ => Q) s s') (hm : s.Marks Q) : s'.Marks Q := by
  intro id e' he' face status hstatus
  rcases h id e' he' face status hstatus with hq | ⟨e,he,_,hold⟩
  · exact hq
  · exact hm id e he face status hold

/-- The marks that the strategy makes: the stage is the first one, and the producer has a
measurements entry. -/
def IsWithdrawable (c : Config) (status : KiteInterestStatus) : Prop :=
  status.retrasmissionStage = .straightForward ∧
    c.isEffective (measurementsName status.mpName) = true

section Nacks

def facesOf (s : Forwarder) (key : Name) : Option (List FaceId) :=
  (s.producerInfo key).map KiteMobileProducerInfo.faceIds

/-- The faces of the producers stay, and only packets go out. -/
structure KeepsFaces (s s' : Forwarder) : Prop where
  faces : ∀ key, s'.facesOf key = s.facesOf key
  actions : ∃ new, s'.actions = s.actions ++ new ∧ ∀ a ∈ new, a.isPacket = true

private theorem KeepsFaces.trans (h : KeepsFaces s s₁) (h' : KeepsFaces s₁ s') :
    KeepsFaces s s' := by
  obtain ⟨new,hnew,hp⟩ := h.actions
  obtain ⟨new',hnew',hp'⟩ := h'.actions
  refine ⟨fun key => (h'.faces key).trans (h.faces key),new ++ new',?_,?_⟩
  · rw [hnew',hnew,append_assoc]
  · exact forall_mem_append.mpr ⟨hp,hp'⟩

private theorem Steady.keepsFaces (h : Steady s s') : KeepsFaces s s' :=
  ⟨fun key => congrArg _ (producerInfo_congr h.measurements key),h.actions⟩

private theorem keepsFaces_eraseMeasurement {r : OutRecord} (name : Name)
    (hr : ∀ status, r.info = some status → IsWithdrawable c status) :
    ∃ s', s.eraseMeasurement c r name = some s' ∧ KeepsFaces s s' ∧ s'.pit = s.pit := by
  unfold eraseMeasurement
  cases hinfo : r.info with
  | none => exact ⟨s,rfl,(Steady.refl s).keepsFaces,rfl⟩
  | some status =>
    dsimp only
    rw [if_pos (hr status hinfo).2]
    refine ⟨_,rfl,⟨fun key => ?_,[],?_,by simp⟩,getMeasurements_pit status.mpName⟩
    · unfold facesOf
      rw [producerInfo_modifyMobileProducerInfo,producerInfo_getMeasurements]
      split_ifs
      · rw [Option.map_map]
        rfl
      · rfl
    · rw [append_nil]
      unfold getMeasurements
      dsimp only
      split
      · rfl
      · rfl

private theorem keepsFaces_eraseWith (h : Sends Routine s s₁) (hm : s.Marks (IsWithdrawable c))
    (he : s.pit.find? id = some e) (find : PitEntry → Option OutRecord)
    (hfind : ∀ (e : PitEntry) r, find e = some r → e.getOutRecord r.face = some r) :
    ∃ s', s₁.eraseWith c find id = some s' ∧ KeepsFaces s s' ∧ s'.Marks (IsWithdrawable c) := by
  have hmarks := h.plain.keepsMarks.marks hm
  obtain ⟨e₁,he₁⟩ := h.steady.find he
  unfold eraseWith
  rw [he₁,bind_some]
  cases hr : find e₁ with
  | none => exact ⟨s₁,rfl,h.steady.keepsFaces,hmarks⟩
  | some r =>
    have hmark : ∀ status, r.info = some status → IsWithdrawable c status := by
      intro status hstatus
      apply hmarks id e₁ he₁ r.face
      rw [PitEntry.outStatus,hfind e₁ r hr]
      exact hstatus
    obtain ⟨s',hs',hkeeps,hpit⟩ := keepsFaces_eraseMeasurement (s := s₁) e₁.name hmark
    exact ⟨s',hs',h.steady.keepsFaces.trans hkeeps,(Evolves.of_pit hpit).keepsMarks.marks hmarks⟩

private theorem keepsFaces_answerIfIdle (id : PitId) : KeepsFaces s (s.answerIfIdle id) := by
  unfold answerIfIdle
  split_ifs
  · exact ⟨fun key => congrArg _ (producerInfo_congr (answer_measurements id) key),[],
      by rw [answer_actions,append_nil],by simp⟩
  · exact (Steady.refl s).keepsFaces

private theorem sendNackForProcessNackTraits_keeps (h : s.Marks (IsWithdrawable c))
    (he : s.pit.find? id = some e) (outFace : FaceId) (reason : NackReason) :
    ∃ s', s.sendNackForProcessNackTraits c id outFace reason = some s' ∧ KeepsFaces s s' ∧
      s'.Marks (IsWithdrawable c) := by
  have hdeal : Sends Routine s (s.dealNack c id outFace).1 :=
    sends_dealNack id outFace fun _ _ => trivial
  unfold sendNackForProcessNackTraits
  dsimp only
  split_ifs
  · exact ⟨_,rfl,hdeal.steady.keepsFaces,hdeal.plain.keepsMarks.marks h⟩
  · obtain ⟨s₁,hs₁,hkeeps,hm₁⟩ := keepsFaces_eraseWith
      (hdeal.trans (sends_sendNack reason outFace id)) h he
      (fun e => e.getOutRecord outFace) fun _ _ hr => getOutRecord_face hr
    rw [hs₁,map_some]
    have hsettle : Sends Routine s₁ (s₁.settleIfIdle id) := sends_settleIfIdle id
    exact ⟨_,rfl,hkeeps.trans hsettle.steady.keepsFaces,hsettle.plain.keepsMarks.marks hm₁⟩

private theorem sendNacksForProcessNackTraits_keeps (h : s.Marks (IsWithdrawable c))
    (he : s.pit.find? id = some e) (reason : NackReason) :
    ∃ s', s.sendNacksForProcessNackTraits c id reason = some s' ∧ KeepsFaces s s' ∧
      s'.Marks (IsWithdrawable c) := by
  have hdeal : Sends Routine s (s.dealNacks c id (e.inRecords.items.map InRecord.face)).1 :=
    sends_dealNacks id _ fun _ _ => trivial
  unfold sendNacksForProcessNackTraits
  rw [he,bind_some]
  dsimp only
  split_ifs
  · exact ⟨_,rfl,hdeal.steady.keepsFaces,hdeal.plain.keepsMarks.marks h⟩
  · obtain ⟨s₁,hs₁,hkeeps,hm₁⟩ := keepsFaces_eraseWith
      (hdeal.trans (sends_sendNacks reason id)) h he
      (fun e => e.outRecords.items.head?) fun _ _ hr => getOutRecord_head hr
    rw [hs₁,map_some]
    have hanswered : Performs Routine s₁ (s₁.answerIfIdle id) := performs_answerIfIdle id
    have hsettle : Sends Routine _ ((s₁.answerIfIdle id).settleIfIdle id) := sends_settleIfIdle id
    exact ⟨_,rfl,(hkeeps.trans (keepsFaces_answerIfIdle id)).trans hsettle.steady.keepsFaces,
      (hanswered.plain.trans hsettle.plain).keepsMarks.marks hm₁⟩

private theorem processNack_keeps (h : s.Marks (IsWithdrawable c)) (he : s.pit.find? id = some e) :
    ∃ s', s.processNack c id = some s' ∧ KeepsFaces s s' ∧ s'.Marks (IsWithdrawable c) := by
  unfold processNack
  rw [he,bind_some]
  dsimp only
  split
  · exact sendNacksForProcessNackTraits_keeps h he _
  · split_ifs
    · exact sendNackForProcessNackTraits_keeps h he _ _
    · exact ⟨s,rfl,(Steady.refl s).keepsFaces,h⟩
  · exact ⟨s,rfl,(Steady.refl s).keepsFaces,h⟩

private theorem removePrefix_spec {name : Name} (face : FaceId)
    (heff : c.isEffective (measurementsName name) = true) :
    ∃ s', s.removePrefix c name face = some s' ∧ s'.pit = s.pit ∧
      s'.actions = s.actions ++ [.slRenew name face 0] ∧
        ∀ l ∈ s'.facesOf (measurementsName name), face ∉ l := by
  unfold removePrefix
  rw [if_pos heff]
  refine ⟨_,rfl,getMeasurements_pit name,(getMeasurements_actions name),fun l hl => ?_⟩
  rw [facesOf,producerInfo_modifyMobileProducerInfo,if_pos rfl,Option.map_map] at hl
  obtain ⟨info,_,rfl⟩ := map_eq_some_iff.mp hl
  simp

def withdrawal (e : PitEntry) (ingress : FaceId) : List Action :=
  ((e.outStatus ingress).map fun status => .slRenew status.mpName ingress 0).toList

private theorem afterReceiveNack_spec (h : s.Marks (IsWithdrawable c)) (ingress : FaceId)
    (he : s.pit.find? id = some e) :
    ∃ s', s.afterReceiveNack c ingress id = some s' ∧ s'.Marks (IsWithdrawable c) ∧
      (∃ new, s'.actions = s.actions ++ (withdrawal e ingress ++ new) ∧
        ∀ a ∈ new, a.isPacket = true) ∧
      ∀ status, e.outStatus ingress = some status →
        ∀ l ∈ s'.facesOf (measurementsName status.mpName), ingress ∉ l := by
  unfold afterReceiveNack
  rw [he,bind_some]
  rw [show (e.getOutRecord ingress).bind OutRecord.info = e.outStatus ingress from rfl]
  unfold withdrawal
  cases hstatus : e.outStatus ingress with
  | none =>
    obtain ⟨s',hs',hkeeps,hmarks⟩ := processNack_keeps h he
    obtain ⟨new,hnew,hpackets⟩ := hkeeps.actions
    exact ⟨s',hs',hmarks,⟨new,hnew,hpackets⟩,fun _ hnone => nomatch hnone⟩
  | some status =>
    obtain ⟨hstage,heff⟩ := h id e he ingress status hstatus
    obtain ⟨s₁,hs₁,hpit,hactions,hfaces⟩ := removePrefix_spec (s := s) ingress heff
    have he₁ : s₁.pit.find? id = some e := by rw [hpit,he]
    obtain ⟨s',hs',hkeeps,hmarks⟩ := processNack_keeps ((Evolves.of_pit hpit).keepsMarks.marks h) he₁
    obtain ⟨new,hnew,hpackets⟩ := hkeeps.actions
    dsimp only
    rw [if_pos hstage,hs₁,bind_some]
    refine ⟨s',hs',hmarks,⟨new,?_,hpackets⟩,?_⟩
    · rw [hnew,hactions,append_assoc]
      rfl
    · intro status' heq l hl
      cases heq
      rw [hkeeps.faces] at hl
      exact hfaces l hl

/-- An accepted Nack withdraws the route of the mark, if there is one, and nothing else. -/
theorem onIncomingNack_spec (h : s.Marks (IsWithdrawable c)) {nack : Nack}
    (he : s.acceptedNack c nack ingress = some e) :
    ∃ s', s.onIncomingNack c nack ingress = some s' ∧ s'.Marks (IsWithdrawable c) ∧
      (∃ new, s'.actions = s.actions ++ (withdrawal e ingress ++ new) ∧
        ∀ a ∈ new, a.isPacket = true) ∧
      ∀ status, e.outStatus ingress = some status →
        ∀ l ∈ s'.facesOf (measurementsName status.mpName), ingress ∉ l := by
  have hmarks : (s.modifyEntry e.id (setIncomingNack nack.reason ingress)).Marks
      (IsWithdrawable c) := (evolves_setIncomingNack e.id nack.reason ingress).keepsMarks.marks h
  have hfind : (s.modifyEntry e.id (setIncomingNack nack.reason ingress)).pit.find? e.id =
      some (setIncomingNack nack.reason ingress e) := by
    rw [find_modifyEntry s e.id (by intro; rfl),if_pos rfl,find_of_acceptedNack he]
    rfl
  obtain ⟨s₁,hs₁,hm₁,hactions,hfaces⟩ := afterReceiveNack_spec hmarks ingress hfind
  have hstatus := e.outStatus_setIncomingNack nack.reason ingress ingress
  rw [withdrawal,hstatus] at hactions
  rw [hstatus] at hfaces
  unfold onIncomingNack
  rw [he]
  dsimp only
  rw [hs₁,map_some]
  split_ifs
  · exact ⟨s₁,rfl,hm₁,hactions,hfaces⟩
  · exact ⟨_,rfl,(sends_setExpiryTimer e.id 0).plain.keepsMarks.marks hm₁,hactions,hfaces⟩

end Nacks

section Runs

variable {events : List Event}

theorem Marks.step (h : s.Marks (IsWithdrawable c)) {event : Event}
    (hs : s.step c event = some s') : s'.Marks (IsWithdrawable c) := by
  cases hquiet : event.isInterest with
  | false => exact (evolves_step hquiet hs).keepsMarks.marks h
  | true =>
    cases step_cases hs with
    | interest hs =>
      rcases onIncomingInterest_cases hs with hadmits | ⟨s₀,i,id,_,hadmits,hs⟩
      · exact (addsMarks_admits hadmits).marks h
      · apply AddsMarks.marks ((evolves_afterReceiveInterest hs).addsMarks _)
          ((addsMarks_admits hadmits).marks h)
        rintro id' e he mpName face (hx | ⟨_,_,hx⟩ | ⟨rfl,mpName',_,hx,heff⟩) rvName
        · exact nomatch hx
        · exact nomatch hx
        · cases hx
          exact ⟨rfl,heff⟩
    | _ => cases hquiet

theorem run_marks (h : run c events = some s) : s.Marks (IsWithdrawable c) := by
  apply foldlM_keeps (Marks (IsWithdrawable c)) (fun _ _ _ hm hs => hm.step hs) events _ h
  intro id e he
  exact nomatch he

def nackedTransmissions (c : Config) (s : Forwarder) (nack : Nack) (ingress : FaceId) :
    List (PitEntry × Transmission) :=
  (s.acceptedNack c nack ingress).toList.flatMap fun e =>
    (s.history.transmissions.filter fun t =>
      t.id = e.id ∧ t.face = ingress ∧ t.nonce = nack.interest.nonce).map fun t => (e,t)

/-- A Nack withdraws the route of each Interest that it is for. -/
def Withdraws (c : Config) (s : Forwarder) (nack : Nack) (ingress : FaceId) : Prop :=
  ∀ p ∈ s.nackedTransmissions c nack ingress, ∃ s', s.onIncomingNack c nack ingress = some s' ∧
    .slRenew p.2.mpName ingress 0 ∈ s'.actions.drop s.actions.length ∧
      ∀ info ∈ s'.getMobileProducerInfo p.2.mpName, ingress ∉ info.faceIds

/-- The out-record of each such Interest carries the mark for its producer. -/
def CarriesMark (c : Config) (s : Forwarder) (nack : Nack) (ingress : FaceId) : Prop :=
  ∀ p ∈ s.nackedTransmissions c nack ingress,
    (p.1.outStatus ingress).map KiteInterestStatus.mpName = some p.2.mpName

private theorem acceptedNack_of_mem {nack : Nack} {p : PitEntry × Transmission}
    (h : p ∈ s.nackedTransmissions c nack ingress) : s.acceptedNack c nack ingress = some p.1 := by
  obtain ⟨e,he,hp⟩ := mem_flatMap.mp h
  obtain ⟨t,_,rfl⟩ := mem_map.mp hp
  exact mem_toList.mp he

private theorem mem_withdrawal {name : Name} :
    Action.slRenew name ingress 0 ∈ withdrawal e ingress ↔
      (e.outStatus ingress).map KiteInterestStatus.mpName = some name := by
  unfold withdrawal
  cases e.outStatus ingress with
  | none => simp
  | some status => simp [eq_comm]

/-- In every state of a run, a Nack withdraws the routes of the Interests it is for exactly if they
were sent with the mark. -/
theorem run_withdraws_iff (h : run c events = some s) (nack : Nack) (ingress : FaceId) :
    s.Withdraws c nack ingress ↔ s.CarriesMark c nack ingress := by
  have hmarks := run_marks h
  constructor
  · intro hw p hp
    obtain ⟨s₁,hs₁,_,⟨new,hnew,hpackets⟩,_⟩ := onIncomingNack_spec hmarks (acceptedNack_of_mem hp)
    obtain ⟨s',hs',hrenew,_⟩ := hw p hp
    rw [hs₁] at hs'
    cases hs'
    rw [hnew,drop_left] at hrenew
    rcases mem_append.mp hrenew with hrenew | hrenew
    · exact mem_withdrawal.mp hrenew
    · have hpacket := hpackets _ hrenew
      exact absurd hpacket (by simp [Action.isPacket])
  · intro hm p hp
    obtain ⟨s₁,hs₁,_,⟨new,hnew,_⟩,hfaces⟩ := onIncomingNack_spec hmarks (acceptedNack_of_mem hp)
    refine ⟨s₁,hs₁,?_,fun info hinfo => ?_⟩
    · rw [hnew,drop_left]
      exact mem_append_left new (mem_withdrawal.mpr (hm p hp))
    · obtain ⟨status,hstatus,hname⟩ := map_eq_some_iff.mp (hm p hp)
      apply hfaces status hstatus
      rw [hname,facesOf,← getMobileProducerInfo_eq,hinfo]
      rfl

theorem run_withdraws_iff_marked : ∃ s, run fourFaces producerEvents = some s ∧
      (s.nackedTransmissions fourFaces ⟨producerInterest,.noRoute⟩ 2).map Prod.snd =
        [⟨0,2,[1],producerName⟩] ∧
      s.Withdraws fourFaces ⟨producerInterest,.noRoute⟩ 2 := by
  obtain ⟨s,hs⟩ : ∃ s, run fourFaces producerEvents = some s := ⟨_,rfl⟩
  refine ⟨s,hs,?_,(run_withdraws_iff hs _ _).mpr ?_⟩
  · cases hs
    decide +kernel
  · cases hs
    unfold CarriesMark
    decide +kernel

/-- The Nack for the Interest that was sent again withdraws nothing, and face 3 stays known. -/
theorem retransmission_not_withdrawn : ∃ s s', run fourFaces movedEvents = some s ∧
      (s.nackedTransmissions fourFaces ⟨producerInterest,.noRoute⟩ 3).map Prod.snd =
        [⟨0,3,[1],producerName⟩] ∧
      s.onIncomingNack fourFaces ⟨producerInterest,.noRoute⟩ 3 = some s' ∧
      s'.actions.drop s.actions.length = [] ∧
      s'.facesOf producerName = some [3] ∧
      ¬s.Withdraws fourFaces ⟨producerInterest,.noRoute⟩ 3 := by
  obtain ⟨s,hs⟩ : ∃ s, run fourFaces movedEvents = some s := ⟨_,rfl⟩
  obtain ⟨s',hs'⟩ : ∃ s', s.onIncomingNack fourFaces ⟨producerInterest,.noRoute⟩ 3 = some s' := by
    cases hs
    exact ⟨_,rfl⟩
  have hnacked : (s.nackedTransmissions fourFaces ⟨producerInterest,.noRoute⟩ 3).map Prod.snd =
      [⟨0,3,[1],producerName⟩] := by
    cases hs
    decide +kernel
  have hactions : s'.actions.drop s.actions.length = [] := by
    cases hs
    cases hs'
    decide +kernel
  refine ⟨s,s',hs,hnacked,hs',hactions,?_,fun h => ?_⟩
  · cases hs
    cases hs'
    decide +kernel
  · obtain ⟨p,hp,_⟩ := mem_map.mp (hnacked ▸ mem_singleton_self _)
    obtain ⟨s₁,hs₁,hrenew,_⟩ := h p hp
    rw [hs'] at hs₁
    cases hs₁
    rw [hactions] at hrenew
    exact nomatch hrenew

end Runs

end Forwarder

end KiteNdn.Fw
