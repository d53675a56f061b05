import KiteNdn.Framework.Run
import KiteNdn.Fw.Evolution

/-!
# The Nack on an out-record

An out-record remembers the Nack that came back for the Interest last sent on its face. Sending
again on the same face updates the record and does not clear the Nack.
-/

namespace KiteNdn.Fw

open Framework List Option

/-- What concerns the upstream of an entry on a face. -/
inductive Observation where
  | sent (id : PitId) (face : FaceId)
  | nacked (id : PitId) (face : FaceId)
  deriving DecidableEq, Repr

def Action.observation? : Action → Option Observation
  | .interest id _ face => some (.sent id face)
  | _ => none

/-- A Nack was accepted from the face, and no Interest was sent there since. -/
def LastNacked (log : List Observation) (id : PitId) (face : FaceId) : Prop :=
  ∃ before after, log = before ++ .nacked id face :: after ∧ .sent id face ∉ after

theorem lastNacked_concat {log : List Observation} {o : Observation} {id : PitId} {face : FaceId} :
    LastNacked (log ++ [o]) id face ↔
      o = .nacked id face ∨ LastNacked log id face ∧ o ≠ .sent id face := by
  constructor
  · intro ⟨before,after,h,hsent⟩
    rcases eq_nil_or_concat after with rfl | ⟨after',o',rfl⟩
    · exact Or.inl (append_inj_right' h rfl |> singleton_inj.mp)
    · rw [concat_eq_append] at h hsent
      rw [← cons_append,← append_assoc] at h
      obtain ⟨hlog,ho⟩ := append_inj' h rfl
      rw [mem_append,not_or] at hsent
      refine Or.inr ⟨⟨before,after',hlog,hsent.1⟩,fun heq => hsent.2 ?_⟩
      rw [← singleton_inj.mp ho,heq]
      exact mem_singleton_self _
  · intro h
    rcases h with rfl | ⟨⟨before,after,rfl,hsent⟩,ho⟩
    · exact ⟨log,[],rfl,not_mem_nil⟩
    · refine ⟨before,after ++ [o],by simp,fun hmem => ?_⟩
      rcases mem_append.mp hmem with hmem | hmem
      · exact hsent hmem
      · exact ho (mem_singleton.mp hmem).symm

theorem lastNacked_append {log new : List Observation} {id : PitId} {face : FaceId}
    (hnew : ∀ o ∈ new, ∃ id' face', o = .sent id' face') :
    LastNacked (log ++ new) id face ↔ LastNacked log id face ∧ .sent id face ∉ new := by
  induction new generalizing log with
  | nil => simp
  | cons o new ih =>
    obtain ⟨hone,hrest⟩ := forall_mem_cons.mp hnew
    obtain ⟨id',face',rfl⟩ := hone
    rw [append_cons,ih hrest,lastNacked_concat]
    simp [and_assoc,eq_comm]

namespace Change

/-- A Nack is noted on an out-record and leaves with it, and nothing else changes it. -/
theorem incomingNack_apply {x : Change} {e : PitEntry} {face : FaceId} {r' : OutRecord}
    (hsend : x.isSend = false) (hnack : ∀ reason ingress, x ≠ setIncomingNack reason ingress)
    (h : (x.apply e).getOutRecord face = some r') :
    ∃ r, e.getOutRecord face = some r ∧ r.incomingNack = r'.incomingNack := by
  cases x with
  | send egress i now => exact nomatch hsend
  | setIncomingNack reason ingress => exact absurd rfl (hnack reason ingress)
  | mark mpName egress =>
    rw [apply,PitEntry.getOutRecord,Forwarder.setOutStatus,
      KeyedList.find?_modify _ (by intro; rfl)] at h
    split_ifs at h with hface
    · obtain ⟨r,hr,rfl⟩ := map_eq_some_iff.mp h
      exact ⟨r,hface ▸ hr,rfl⟩
    · exact ⟨r',h,rfl⟩
  | deleteOut egress =>
    rw [apply,PitEntry.getOutRecord,PitEntry.deleteOutRecord,KeyedList.find?_filter] at h
    exact ⟨r',(filter_eq_some_iff.mp h).1,rfl⟩
  | _ => exact ⟨r',h,rfl⟩

end Change

namespace Forwarder

variable {c : Config} {s s' s₁ s₂ : Forwarder} {Q : PitId → Change → Prop}
  {P P' : PitId → FaceId → Prop} {N : Forwarder → Forwarder → Prop} {id : PitId} {face : FaceId}
  {w : Forwarder × List Observation}

def nackOf (s : Forwarder) (id : PitId) (face : FaceId) : Option (Option NackReason) :=
  ((s.pit.find? id).bind fun e => e.getOutRecord face).map OutRecord.incomingNack

theorem nackOf_eq_some {nack : Option NackReason} : s.nackOf id face = some nack ↔
    ∃ e r, s.pit.find? id = some e ∧ e.getOutRecord face = some r ∧ r.incomingNack = nack := by
  simp [nackOf,bind_eq_some_iff]

section Picking

/-- The Interest as it is looked up in the PIT. -/
def lookedUp (c : Config) (i : Interest) : Interest :=
  let i := { i with hopLimit := i.hopLimit.map fun n => n - 1 }
  if i.forwardingHint ≠ [] ∧ c.isInProducerRegion i.forwardingHint then
    { i with forwardingHint := [] } else i

def egresses (c : Config) (i : Interest) (ingress : FaceId) (s : Forwarder) (e : PitEntry) :
    List FaceId :=
  (match i.nextHopFaceId with
    | some f => if c.hasFace f then [f] else []
    | none => s.nextHops c i ingress e).filter fun f => canLeave c i f

def waitingFaces (c : Config) (s : Forwarder) (ids : List PitId) : List FaceId :=
  ids.flatMap fun id => (s.pit.find? id).elim [] fun e =>
    (e.inRecords.items.filter fun r => c.scope r.face ≠ .isLocal ∧ s.now < r.expiry).map InRecord.face

def resends (c : Config) (s : Forwarder) (mpName : Name) (faces : List FaceId) :
    List (PitId × FaceId) :=
  (s.getMobileProducerInfo mpName).elim [] fun info =>
    (faces.filter fun f => f ∉ info.faceIds).flatMap fun f =>
      (info.pitEntrys.items.filter fun item => (s.interestOf item.2).any fun i => canLeave c i f).map
        fun item => (item.2,f)

/-- The faces that an event picks for Interests of entries that are in the PIT. A Nack picks only
faces for which its entry has no record. -/
def picks (c : Config) (s : Forwarder) : Event → List (PitId × FaceId)
  | .interest i ingress hasDuplicateNonceInDnl csHit =>
    if i.hopLimit = some 0 ∨ violatesLocalhost c ingress i.name ∨ hasDuplicateNonceInDnl then []
    else
      match s.findPitEntry (lookedUp c i) with
      | some e =>
        if hasDuplicateNonceInPit c (lookedUp c i) ingress e ∨ e.inRecords.items = [] ∧ csHit then []
        else (s.egresses c (attachHopLimit c (lookedUp c i)) ingress e).map fun f => (e.id,f)
      | none => []
  | .data d ingress pitMatches _ =>
    match Kite.Ack.ofData d with
    | .ok ack =>
      let mpName := ack.prefixAnnouncement.announcedName
      if violatesLocalhost c ingress d.name ∨ c.isEffective (measurementsName mpName) = false then []
      else s.resends c mpName (s.waitingFaces c pitMatches)
    | .error _ => []
  | _ => []

theorem nextHops_congr {i : Interest} {ingress : FaceId} {e e' : PitEntry} (hfib : s'.fib = s.fib)
    (hinterest : e'.interest = e.interest) :
    s'.nextHops c i ingress e' = s.nextHops c i ingress e := by
  have hmatch : s'.findLongestPrefixMatch = s.findLongestPrefixMatch := by
    funext name
    unfold findLongestPrefixMatch
    rw [hfib]
  unfold nextHops producerHops lookupFib PitEntry.name
  rw [hmatch,hinterest]

private theorem allowsSatisfy_of_picks {d : Data} {ingress : FaceId} {pitMatches : List PitId}
    {nOthers : Nat} (hp : ∀ p ∈ s.picks c (.data d ingress pitMatches nOthers), P p.1 p.2)
    (hlocal : violatesLocalhost c ingress d.name = false) (hid : id ∈ pitMatches) :
    s.AllowsSatisfy P c d id := by
  intro ack hack heff e he r hr hscope hlater info hinfo hface item hitem i hi hleaves
  refine hp (item.2,r.face) ?_
  have hwaits : r.face ∈ s.waitingFaces c pitMatches := by
    refine mem_flatMap.mpr ⟨id,hid,?_⟩
    rw [he]
    exact mem_map_of_mem (mem_filter.mpr ⟨hr,decide_eq_true ⟨hscope,hlater⟩⟩)
  simp only [picks,hack,hlocal,heff,resends,hinfo,Bool.false_eq_true,Bool.true_eq_false,false_or,
    if_false]
  refine mem_flatMap.mpr ⟨r.face,mem_filter.mpr ⟨hwaits,decide_eq_true hface⟩,?_⟩
  refine mem_map.mpr ⟨item,mem_filter.mpr ⟨hitem,?_⟩,rfl⟩
  rw [hi]
  exact decide_eq_true hleaves

end Picking

section Tracking

/-- An out-record of the later state has the status that it had, and Interests went out for it only if
`P` allows that; or it is new, has no Nack and comes from an Interest that went out. -/
def Tracks (P : PitId → FaceId → Prop) (s s' : Forwarder) : Prop :=
  ∃ new, s'.actions = s.actions ++ new ∧ ∀ id face nack, s'.nackOf id face = some nack →
    s.nackOf id face = some nack ∧ (∀ i, Action.interest id i face ∈ new → P id face) ∨
      nack = none ∧ ∃ i, Action.interest id i face ∈ new

namespace Tracks

theorem of_nackOf (hactions : s'.actions = s.actions)
    (h : ∀ id face nack, s'.nackOf id face = some nack → s.nackOf id face = some nack) :
    Tracks P s s' :=
  ⟨[],by rw [hactions,append_nil],fun id face nack hnack => Or.inl ⟨h id face nack hnack,nofun⟩⟩

theorem of_pit (hpit : s'.pit = s.pit) (hactions : s'.actions = s.actions) : Tracks P s s' := by
  apply of_nackOf hactions
  intro id face nack h
  rw [nackOf,← hpit]
  exact h

theorem trans (h : Tracks P s s₁)
    (h' : Tracks (fun id face => s₁.nackOf id face ≠ none → P id face) s₁ s₂) : Tracks P s s₂ := by
  obtain ⟨new,hnew,hearlier⟩ := h
  obtain ⟨new',hnew',hlater⟩ := h'
  refine ⟨new ++ new',by rw [hnew',hnew,append_assoc],fun id face nack hnack => ?_⟩
  rcases hlater id face nack hnack with ⟨hnack₁,hsent'⟩ | ⟨hnone,i,hi⟩
  · rcases hearlier id face nack hnack₁ with ⟨hnack,hsent⟩ | ⟨hnone,i,hi⟩
    · refine Or.inl ⟨hnack,fun i hi => ?_⟩
      rcases mem_append.mp hi with hi | hi
      · exact hsent i hi
      · exact hsent' i hi (by simp [hnack₁])
    · exact Or.inr ⟨hnone,i,mem_append_left new' hi⟩
  · exact Or.inr ⟨hnone,i,mem_append_right new hi⟩

theorem mono (h : Tracks P s s') (hp : ∀ id face, P id face → P' id face) : Tracks P' s s' := by
  obtain ⟨new,hnew,htracks⟩ := h
  refine ⟨new,hnew,fun id face nack hnack => (htracks id face nack hnack).imp_left ?_⟩
  exact fun ⟨hsame,hsent⟩ => ⟨hsame,fun i hi => hp id face (hsent i hi)⟩

end Tracks

variable {f : PitEntry → PitEntry}

private theorem tracks_modifyEntry (hid : ∀ e, (f e).id = e.id)
    (hf : ∀ e face r', (f e).getOutRecord face = some r' →
      ∃ r, e.getOutRecord face = some r ∧ r.incomingNack = r'.incomingNack) :
    Tracks P s (s.modifyEntry id f) := by
  refine .of_nackOf rfl fun id' face nack h => ?_
  obtain ⟨e',r',he',hr',rfl⟩ := nackOf_eq_some.mp h
  rw [find_modifyEntry s id hid] at he'
  split_ifs at he' with heq
  · obtain ⟨e,he,rfl⟩ := map_eq_some_iff.mp he'
    obtain ⟨r,hr,hnack⟩ := hf e face r' hr'
    exact nackOf_eq_some.mpr ⟨e,r,heq ▸ he,hr,hnack⟩
  · exact nackOf_eq_some.mpr ⟨e',r',he',hr',rfl⟩

private theorem incomingNack_changes (hq : ∀ reason ingress, ¬Q id (.setIncomingNack reason ingress))
    {e e' : PitEntry} (h : Changes (Unsent Q) id e e') {r' : OutRecord}
    (hr' : e'.getOutRecord face = some r') :
    ∃ r, e.getOutRecord face = some r ∧ r.incomingNack = r'.incomingNack := by
  induction h generalizing r' with
  | refl => exact ⟨r',hr',rfl⟩
  | tail _ hx ih =>
    obtain ⟨x,⟨hx,hsend⟩,rfl⟩ := hx
    have hnack : ∀ reason ingress, x ≠ .setIncomingNack reason ingress := by
      intro reason ingress heq
      exact hq reason ingress (heq ▸ hx)
    obtain ⟨r₁,hr₁,hsame⟩ := Change.incomingNack_apply hsend hnack hr'
    obtain ⟨r,hr,hsame₁⟩ := ih hr₁
    exact ⟨r,hr,hsame₁.trans hsame⟩

private theorem tracks_send (i : Interest) {egress : FaceId} (hp : P id egress) :
    Tracks P s ((s.modifyEntry id (PitEntry.insertOrUpdateOutRecord egress i s.now)).act
      (.interest id i egress)) := by
  refine ⟨[.interest id i egress],rfl,fun id' face nack h => ?_⟩
  have hsent : ∀ i', Action.interest id' i' face ∈ [Action.interest id i egress] → P id' face := by
    intro i' hi'
    cases mem_singleton.mp hi'
    exact hp
  obtain ⟨e',r',he',hr',rfl⟩ := nackOf_eq_some.mp h
  rw [act,find_modifyEntry s id (by intro; rfl)] at he'
  split_ifs at he' with heq
  · obtain ⟨e,he,rfl⟩ := map_eq_some_iff.mp he'
    rw [PitEntry.getOutRecord,PitEntry.insertOrUpdateOutRecord,KeyedList.find?_putFront] at hr'
    split_ifs at hr' with hface
    · cases hr'
      subst heq hface
      cases hr : e.getOutRecord face with
      | none => exact Or.inr ⟨rfl,i,mem_singleton_self _⟩
      | some r => exact Or.inl ⟨nackOf_eq_some.mpr ⟨e,r,he,hr,rfl⟩,hsent⟩
    · exact Or.inl ⟨nackOf_eq_some.mpr ⟨e,r',heq ▸ he,hr',rfl⟩,hsent⟩
  · exact Or.inl ⟨nackOf_eq_some.mpr ⟨e',r',he',hr',rfl⟩,hsent⟩

theorem PerformsBy.tracks (h : PerformsBy N Q s s')
    (hq : ∀ id reason ingress, ¬Q id (.setIncomingNack reason ingress))
    (hp : ∀ id x, Q id x → x.GoesTo (P id)) : Tracks P s s' := by
  induction h with
  | refl => exact .of_pit rfl rfl
  | tail _ hmove ih =>
    refine ih.trans (.mono ?_ fun _ _ hallowed _ => hallowed)
    cases hmove with
    | modify id hid hf =>
      exact tracks_modifyEntry hid fun e face r' hr' => incomingNack_changes (hq id) (hf e) hr'
    | send id i egress hx => exact tracks_send i (hp id _ hx)
    | act a ha _ =>
      refine ⟨[a],rfl,fun id face nack hnack => Or.inl ⟨hnack,fun i hi => ?_⟩⟩
      cases mem_singleton.mp hi
      exact nomatch ha
    | note hpit _ hactions _ => exact .of_pit hpit hactions

theorem PerformsBy.tracksRoutine (h : PerformsBy N (RoutineTo P) s s') : Tracks P s s' :=
  h.tracks (fun _ _ _ hx => nomatch hx.1) fun _ _ hx => hx.2

private theorem tracks_insertPit (i : Interest) : Tracks P s (s.insertPit i).1 := by
  unfold insertPit
  split
  · exact .of_pit rfl rfl
  · refine .of_nackOf rfl fun id face nack h => ?_
    obtain ⟨e,r,he,hr,rfl⟩ := nackOf_eq_some.mp h
    rw [KeyedList.find?_put] at he
    split_ifs at he
    · cases he
      cases hr
    · exact nackOf_eq_some.mpr ⟨e,r,he,hr,rfl⟩

private theorem nackOf_modifyEntry (hid : ∀ e, (f e).id = e.id)
    (hout : ∀ e, (f e).outRecords = e.outRecords) (id' : PitId) (face : FaceId) :
    (s.modifyEntry id f).nackOf id' face = s.nackOf id' face := by
  unfold nackOf
  rw [find_modifyEntry s id hid]
  split_ifs with heq
  · subst heq
    cases s.pit.find? id' with
    | none => rfl
    | some e => simp [PitEntry.getOutRecord,hout]
  · rfl

private theorem admitted_frame (i : Interest) (ingress : FaceId) (isNew : Bool) (now : Time)
    (e : PitEntry) : (admitted c i ingress isNew now e).id = e.id ∧
      (admitted c i ingress isNew now e).outRecords = e.outRecords := by
  unfold admitted
  split_ifs <;> exact ⟨rfl,rfl⟩

private theorem nackOf_setExpiryTimer (duration : Int) (id' : PitId) (face : FaceId) :
    (s.setExpiryTimer id duration).nackOf id' face = s.nackOf id' face :=
  nackOf_modifyEntry (by intro; rfl) (by intro; rfl) id' face

variable {i : Interest}

private theorem interestOf_missed {e : PitEntry} (h : s.findPitEntry i = some e)
    (ingress : FaceId) (now : Time) (duration : Int) :
    ((s.modifyEntry e.id (admitted c i ingress false now)).setExpiryTimer e.id
      duration).interestOf e.id = some e.interest := by
  unfold setExpiryTimer
  rw [interestOf_modifyEntry (by intro; rfl) (by intro; rfl),
    interestOf_modifyEntry (by intro; rfl) (by intro; rfl)]
  exact interestOf_of_find (s.pit.find?_eq_some.mpr ⟨mem_of_find?_eq_some h,rfl⟩)

private theorem nackOf_insertPit (h : s.findPitEntry i = none) (face : FaceId) :
    (s.insertPit i).1.nackOf (s.insertPit i).2 face = none := by
  rw [find_insertPit_new h]
  dsimp only [nackOf]
  rw [KeyedList.find?_put,PitEntry.new,if_pos rfl]
  rfl

/-- The Interest is handled without being sent, or it is a miss: at an entry that was there before,
the picked faces are those of the miss. -/
private theorem admitInterest_cases (s : Forwarder) (i : Interest) (ingress : FaceId)
    (inDnl csHit : Bool) :
    (∃ t, s.admitInterest c i ingress inDnl csHit = .handled t ∧ Tracks P s t) ∨
      s.admitInterest c i ingress inDnl csHit = (s.insertPit (lookedUp c i)).1.onContentStoreMiss c
        (lookedUp c i) ingress (s.insertPit (lookedUp c i)).2 (s.findPitEntry (lookedUp c i)).isNone ∧
      ∀ e, s.findPitEntry (lookedUp c i) = some e → s.picks c (.interest i ingress inDnl csHit) =
        (s.egresses c (attachHopLimit c (lookedUp c i)) ingress e).map fun f => (e.id,f) := by
  obtain ⟨e,he,-⟩ := find_insertPit (s := s) (lookedUp c i)
  have hadmitted : s.admitInterest c i ingress inDnl csHit =
      if i.hopLimit = some 0 then .handled s
      else if violatesLocalhost c ingress i.name then .handled s
      else if inDnl then
        .handled (s.onInterestLoop c { i with hopLimit := i.hopLimit.map fun n => n - 1 } ingress)
      else if hasDuplicateNonceInPit c (lookedUp c i) ingress e then
        .handled ((s.insertPit (lookedUp c i)).1.onInterestLoop c (lookedUp c i) ingress)
      else if e.inRecords.items = [] ∧ csHit then
        .handled ((s.insertPit (lookedUp c i)).1.onContentStoreHit (s.insertPit (lookedUp c i)).2)
      else (s.insertPit (lookedUp c i)).1.onContentStoreMiss c (lookedUp c i) ingress
        (s.insertPit (lookedUp c i)).2 (s.findPitEntry (lookedUp c i)).isNone := by
    unfold admitInterest
    dsimp only [lookedUp] at he ⊢
    rw [he]
    rfl
  rw [hadmitted]
  split_ifs with hhops hlocal hdnl hnonce hhit
  · exact Or.inl ⟨s,rfl,.of_pit rfl rfl⟩
  · exact Or.inl ⟨s,rfl,.of_pit rfl rfl⟩
  · exact Or.inl ⟨_,rfl,(sends_onInterestLoop _ ingress).tracksRoutine⟩
  · exact Or.inl ⟨_,rfl,(tracks_insertPit _).trans (sends_onInterestLoop _ ingress).tracksRoutine⟩
  · exact Or.inl ⟨_,rfl,(tracks_insertPit _).trans (sends_onContentStoreHit _).tracksRoutine⟩
  · refine Or.inr ⟨rfl,fun e' he' => ?_⟩
    have hsame : s.pit.find? e'.id = some e' :=
      s.pit.find?_eq_some.mpr ⟨mem_of_find?_eq_some he',rfl⟩
    rw [find_insertPit_old he',hsame] at he
    cases he
    simp [picks,he',hhops,hlocal,hdnl,hnonce,hhit]

theorem tracks_onIncomingInterest {ingress : FaceId} {inDnl csHit : Bool}
    (hp : ∀ p ∈ s.picks c (.interest i ingress inDnl csHit), P p.1 p.2)
    (h : s.onIncomingInterest c i ingress inDnl csHit = some s') : Tracks P s s' := by
  unfold onIncomingInterest at h
  rcases admitInterest_cases (c := c) (P := P) s i ingress inDnl csHit with
    ⟨t,ht,htracks⟩ | ⟨hmiss,hpicks⟩
  · rw [ht] at h
    cases h
    exact htracks
  · obtain ⟨duration,t,ht,hcases⟩ := onContentStoreMiss_cases (c := c) (s.insertPit (lookedUp c i)).1
      (lookedUp c i) ingress (s.insertPit (lookedUp c i)).2 (s.findPitEntry (lookedUp c i)).isNone
    have hkept : ∀ id f, t.nackOf id f = (s.insertPit (lookedUp c i)).1.nackOf id f := by
      intro id f
      rw [ht,nackOf_setExpiryTimer,nackOf_modifyEntry (fun e => (admitted_frame _ ingress _ _ e).1)
        fun e => (admitted_frame _ ingress _ _ e).2]
    have htimer : Tracks P s t := by
      refine (tracks_insertPit _).trans (.of_nackOf (by rw [ht]; rfl) fun id f nack hnack => ?_)
      rw [← hkept]
      exact hnack
    -- A new entry has no out-record; at the others the picked faces may be used.
    have hallowed : ∀ f, (∀ e, s.findPitEntry (lookedUp c i) = some e →
          f ∈ s.egresses c (attachHopLimit c (lookedUp c i)) ingress e) →
        t.nackOf (s.insertPit (lookedUp c i)).2 f ≠ none → P (s.insertPit (lookedUp c i)).2 f := by
      intro f hf hrecord
      cases hfind : s.findPitEntry (lookedUp c i) with
      | some e =>
        rw [find_insertPit_old hfind]
        apply hp (e.id,f)
        rw [hpicks e hfind]
        exact mem_map_of_mem (hf e hfind)
      | none =>
        rw [hkept,nackOf_insertPit hfind] at hrecord
        exact absurd rfl hrecord
    rw [hmiss] at h
    rcases hcases with ⟨htag,heq⟩ | heq | ⟨f,htag,hface,heq⟩
    · rw [heq] at h
      refine htimer.trans ((performs_afterReceiveInterest
        (P := fun id face => t.nackOf id face ≠ none → P id face) ?_ h).tracks ?_ ?_)
      · intro e' he' f hf hleaves
        refine hallowed f fun e hfind => ?_
        rw [find_insertPit_old hfind,hfind] at ht
        have hold : t.interestOf e.id = some e.interest := by
          rw [ht]
          exact interestOf_missed hfind ingress _ duration
        rw [find_insertPit_old hfind] at he'
        have hsame : e'.interest = e.interest :=
          some.inj ((interestOf_of_find he').symm.trans hold)
        have hfib : t.fib = s.fib := by
          rw [ht]
          rfl
        rw [egresses,htag]
        refine mem_filter.mpr ⟨?_,decide_eq_true hleaves⟩
        rw [← nextHops_congr hfib hsame]
        exact hf
      · rintro id reason ingress (hx | ⟨_,_,hx⟩ | ⟨_,_,_,hx,_⟩)
        · exact nomatch hx.1
        · exact nomatch hx
        · exact nomatch hx
      · rintro id x (hx | ⟨_,_,rfl⟩ | ⟨_,_,_,rfl,_⟩)
        · exact hx.2
        · trivial
        · trivial
    · rw [heq] at h
      cases h
      exact htimer
    · rw [heq] at h
      cases h
      refine htimer.trans (sends_sendInterest fun hleaves => hallowed f fun e hfind =>
        ?_).routine.tracksRoutine
      rw [egresses,htag]
      simp [hface,hleaves]

private theorem tracks_cleanupOnFaceRemoval (face : FaceId) :
    Tracks P s (s.cleanupOnFaceRemoval face) := by
  refine .of_nackOf rfl fun id face' nack h => ?_
  obtain ⟨e',r',he',hr',rfl⟩ := nackOf_eq_some.mp h
  obtain ⟨e,he,rfl⟩ := map_eq_some_iff.mp
    ((s.pit.find?_map (deleteInOutRecords face) (by intro; rfl) id).symm.trans he')
  obtain ⟨r,hr,hnack⟩ := Change.incomingNack_apply (x := .deleteOut face) rfl (fun _ _ => nofun) hr'
  exact nackOf_eq_some.mpr ⟨e,r,he,hr,hnack⟩

private theorem tracks_finalized (id : PitId) : Tracks P s (s.finalized id) := by
  refine .of_nackOf rfl fun id' face nack h => ?_
  obtain ⟨e',r',he',hr',rfl⟩ := nackOf_eq_some.mp h
  exact nackOf_eq_some.mpr ⟨e',r',find_of_finalized he',hr',rfl⟩

private theorem nackOf_unused (h : s.isUnused id face = true) : s.nackOf id face = none := by
  unfold isUnused at h
  unfold nackOf
  cases he : s.pit.find? id with
  | none => rfl
  | some e =>
    rw [he,any_some,Bool.and_eq_true] at h
    rw [bind_some,isNone_iff_eq_none.mp h.2,map_none]

/-- The Nack that a step accepts, with the entry and the face it is for. -/
def acceptedBy (c : Config) (s : Forwarder) : Event → Option (PitId × FaceId × NackReason)
  | .nack nack ingress =>
    (s.acceptedNack c nack ingress).map fun e => (e.id,ingress,nack.reason)
  | _ => none

def noted (c : Config) (s : Forwarder) (event : Event) : Forwarder :=
  match s.acceptedBy c event with
  | some (id,ingress,reason) => s.modifyEntry id (setIncomingNack reason ingress)
  | none => s

/-- After the Nack has been noted, the out-records are tracked, with sends where the event picks a
face or there was no out-record. -/
theorem tracks_step {event : Event} (hp : ∀ p ∈ s.picks c event, P p.1 p.2)
    (hnew : ∀ id face, (s.noted c event).nackOf id face = none → P id face)
    (h : s.step c event = some s') : Tracks P (s.noted c event) s' := by
  cases step_cases h with
  | interest h => exact tracks_onIncomingInterest hp h
  | data _ _ h =>
    exact (performs_onIncomingData (fun hlocal _ hid => allowsSatisfy_of_picks hp hlocal hid)
      h).tracksRoutine
  | @nack nack ingress _ h =>
    dsimp only [onIncomingNack] at h
    dsimp only [noted,acceptedBy] at hnew ⊢
    cases haccepted : s.acceptedNack c nack ingress with
    | none =>
      rw [haccepted] at h
      cases h
      exact .of_pit rfl rfl
    | some e =>
      rw [haccepted] at h hnew
      obtain ⟨s₁,hs₁,rfl⟩ := map_eq_some_iff.mp h
      have hprocessed := performs_afterReceiveNack (P := P)
        (fun f hf => hnew _ f (nackOf_unused hf)) hs₁
      split_ifs
      · exact hprocessed.tracksRoutine
      · exact (hprocessed.trans (sends_setExpiryTimer e.id 0).performs).tracksRoutine
  | finalize id => exact tracks_finalized id
  | removeFace face => exact tracks_cleanupOnFaceRemoval face
  | _ => exact .of_pit rfl rfl

end Tracking

section Observing

/-- What is seen of a step: the Nack that it accepts, and then the Interests that it sends. -/
def observations (c : Config) (s : Forwarder) (event : Event) (s' : Forwarder) : List Observation :=
  ((s.acceptedBy c event).map fun p => Observation.nacked p.1 p.2.1).toList ++
    (s'.actions.drop s.actions.length).filterMap Action.observation?

def watch (c : Config) (w : Forwarder × List Observation) (event : Event) :
    Option (Forwarder × List Observation) :=
  (w.1.step c event).map fun s' => (s',w.2 ++ w.1.observations c event s')

theorem watch_run (c : Config) (events : List Event) (w : Forwarder × List Observation) :
    (events.foldlM (watch c) w).map Prod.fst = events.foldlM (step c) w.1 := by
  induction events generalizing w with
  | nil => rfl
  | cons event events ih =>
    rw [foldlM_cons,foldlM_cons,watch]
    cases w.1.step c event with
    | none => rfl
    | some s' => exact ih _

/-- The Nacks on the out-records tell which upstreams have sent one, and both readers of the records
go by them. -/
structure NackStatus (w : Forwarder × List Observation) : Prop where
  status : ∀ id e face r, w.1.pit.find? id = some e → e.getOutRecord face = some r →
    (r.incomingNack.isSome = true ↔ LastNacked w.2 id face)
  pending : ∀ id e r, w.1.pit.find? id = some e → r ∈ e.outRecords.items →
    ¬LastNacked w.2 id r.face → w.1.now ≤ r.expiry → e.hasPendingOutRecords w.1.now = true
  notNacked : ∀ id e r, w.1.pit.find? id = some e → r ∈ e.outRecords.items →
    (r ∈ notNacked e ↔ ¬LastNacked w.2 id r.face)

theorem nackStatus_iff : NackStatus w ↔ ∀ id face nack, w.1.nackOf id face = some nack →
      (nack.isSome = true ↔ LastNacked w.2 id face) := by
  constructor
  · intro h id face nack hnack
    obtain ⟨e,r,he,hr,rfl⟩ := nackOf_eq_some.mp hnack
    exact h.status id e face r he hr
  · intro h
    have hstatus : ∀ id e face r, w.1.pit.find? id = some e → e.getOutRecord face = some r →
        (r.incomingNack.isSome = true ↔ LastNacked w.2 id face) := by
      intro id e face r he hr
      exact h id face _ (nackOf_eq_some.mpr ⟨e,r,he,hr,rfl⟩)
    have hmem : ∀ id e r, w.1.pit.find? id = some e → r ∈ e.outRecords.items →
        (r.incomingNack.isNone = true ↔ ¬LastNacked w.2 id r.face) := by
      intro id e r he hr
      rw [← hstatus id e r.face r he (e.outRecords.find?_eq_some.mpr ⟨hr,rfl⟩)]
      cases r.incomingNack <;> simp
    refine ⟨hstatus,fun id e r he hr hlast hexpiry => ?_,fun id e r he hr => ?_⟩
    · exact any_eq_true.mpr ⟨r,hr,by simp [hexpiry,(hmem id e r he hr).mpr hlast]⟩
    · rw [← hmem id e r he hr,notNacked,mem_filter,and_iff_right hr]

/-- No Nack is noted from a face that the event picks. -/
def ResendsUnnacked (c : Config) (s : Forwarder) (event : Event) : Prop :=
  ∀ p ∈ s.picks c event, (s.nackOf p.1 p.2).join = none

instance (c : Config) (s : Forwarder) (event : Event) : Decidable (ResendsUnnacked c s event) :=
  inferInstanceAs (Decidable (∀ p ∈ _, _))

private theorem noted_of_picks {event : Event} (h : ResendsUnnacked c s event) (p : PitId × FaceId)
    (hp : p ∈ s.picks c event) : ((s.noted c event).nackOf p.1 p.2).join = none := by
  cases event with
  | nack nack ingress => exact nomatch hp
  | _ => exact h p hp

private theorem noted_actions (c : Config) (s : Forwarder) (event : Event) :
    (s.noted c event).actions = s.actions := by
  unfold noted
  split <;> rfl

private theorem NackStatus.noted (h : NackStatus w) (event : Event) : NackStatus (w.1.noted c event,
      w.2 ++ ((w.1.acceptedBy c event).map fun p => Observation.nacked p.1 p.2.1).toList) := by
  unfold Forwarder.noted
  cases w.1.acceptedBy c event with
  | none => simpa using h
  | some p =>
    obtain ⟨id,ingress,reason⟩ := p
    rw [nackStatus_iff] at h ⊢
    intro id' face nack hnack
    obtain ⟨e',r',he',hr',rfl⟩ := nackOf_eq_some.mp hnack
    dsimp only [map_some,toList_some]
    rw [lastNacked_concat,and_iff_left (by simp : Observation.nacked id ingress ≠ .sent id' face)]
    rw [find_modifyEntry (f := setIncomingNack reason ingress) w.1 id (fun _ => rfl)] at he'
    split_ifs at he' with heq
    · obtain ⟨e,he,rfl⟩ := map_eq_some_iff.mp he'
      rw [PitEntry.getOutRecord,setIncomingNack,KeyedList.find?_modify _ (by intro; rfl)] at hr'
      split_ifs at hr' with hface
      · obtain ⟨r,_,rfl⟩ := map_eq_some_iff.mp hr'
        exact iff_of_true rfl (Or.inl (by rw [heq,hface]))
      · rw [← h id' face _ (nackOf_eq_some.mpr ⟨e,r',heq ▸ he,hr',rfl⟩)]
        simp [Ne.symm hface]
    · rw [← h id' face _ (nackOf_eq_some.mpr ⟨e',r',he',hr',rfl⟩)]
      simp [Ne.symm heq]

/-- What one step does to the status, if it does not send where a Nack is noted. -/
theorem NackStatus.watch {w' : Forwarder × List Observation} {event : Event} (h : NackStatus w)
    (hresends : ResendsUnnacked c w.1 event) (hw : Forwarder.watch c w event = some w') :
    NackStatus w' := by
  obtain ⟨s',hs',rfl⟩ := map_eq_some_iff.mp hw
  obtain ⟨new,hnew,htracks⟩ := tracks_step (P := fun id face =>
    ((w.1.noted c event).nackOf id face).join = none) (noted_of_picks hresends)
    (by simp +contextual) hs'
  rw [noted_actions] at hnew
  have hdrop : s'.actions.drop w.1.actions.length = new := by rw [hnew,drop_left]
  have hnoted := nackStatus_iff.mp (h.noted (c := c) event)
  have hsends : ∀ o ∈ new.filterMap Action.observation?, ∃ id face, o = .sent id face := by
    intro o ho
    obtain ⟨a,_,ha⟩ := mem_filterMap.mp ho
    cases a with
    | interest id i face => exact ⟨id,face,(some.inj ha).symm⟩
    | _ => exact nomatch ha
  rw [nackStatus_iff]
  intro id face nack hnack
  dsimp only [observations]
  rw [hdrop,← append_assoc,lastNacked_append hsends]
  rcases htracks id face nack hnack with ⟨hnack,hallowed⟩ | ⟨rfl,i,hi⟩
  · rw [← hnoted id face nack hnack]
    refine ⟨fun hsome => ⟨hsome,fun hsent => ?_⟩,fun hboth => hboth.1⟩
    obtain ⟨a,ha,hobserved⟩ := mem_filterMap.mp hsent
    cases a with
    | interest id' i face' =>
      cases hobserved
      have hnone : ((w.1.noted c event).nackOf id face).join = none := hallowed i ha
      rw [hnack,join_some] at hnone
      rw [hnone] at hsome
      exact nomatch hsome
    | _ => exact nomatch hobserved
  · exact iff_of_false nofun fun hboth => hboth.2 (mem_filterMap.mpr ⟨_,hi,rfl⟩)

/-- In a run that never sends an Interest again where a Nack is noted, the out-records tell which
upstreams have answered with one. -/
theorem nackStatus_of_run {events : List Event} {w : Forwarder × List Observation}
    (hresends : ∀ past event future w₀, events = past ++ event :: future →
      past.foldlM (Forwarder.watch c) (empty,[]) = some w₀ → ResendsUnnacked c w₀.1 event)
    (hrun : events.foldlM (Forwarder.watch c) (empty,[]) = some w) : NackStatus w := by
  refine foldlM_invariant_of_some (Forwarder.watch c) NackStatus
    (fun w event => ResendsUnnacked c w.1 event) (fun _ _ _ h hc hw => h.watch hc hw) (empty,[]) ?_
    events hresends hrun
  exact nackStatus_iff.mpr fun _ _ _ hnack => nomatch hnack

def plainInterest (nonce : Nonce) : Interest :=
  { name := producerInterest.name, nonce := nonce }

def nackedOnce : List Event :=
  [.updateFib producerName [2,3],.interest (plainInterest [1]) 1 false false,
    .nack ⟨plainInterest [1],.noRoute⟩ 2]

theorem nackStatus_of_run_once : ∃ w, nackedOnce.foldlM (watch fourFaces) (empty,[]) = some w ∧
    w.2 = [.sent 0 2,.sent 0 3,.nacked 0 2] ∧ w.1.nackOf 0 2 = some (some .noRoute) ∧
      NackStatus w := by
  obtain ⟨w,hw⟩ : ∃ w, nackedOnce.foldlM (watch fourFaces) (empty,[]) = some w := ⟨_,rfl⟩
  refine ⟨w,hw,?_,?_,nackStatus_of_run (fun past event future w₀ hsplit hw₀ => ?_) hw⟩
  · cases hw
    decide +kernel
  · cases hw
    decide +kernel
  · have hall := forall_split (P := fun past event =>
      ((past.foldlM (watch fourFaces) (empty,[])).all fun t =>
        decide (ResendsUnnacked fourFaces t.1 event)) = true) _ (by decide +kernel) past event future
      hsplit
    rw [hw₀] at hall
    exact of_decide_eq_true hall

def nackedAgain : List Event :=
  nackedOnce ++ [.interest (plainInterest [2]) 1 false false,.nack ⟨plainInterest [2],.noRoute⟩ 3]

/-- Face 2 has not answered the second Interest, and its out-record shows a Nack: with the Nack of
face 3 the entry counts as rejected, and face 1 gets a Nack. -/
theorem resent_counts_as_nacked : ∃ w, nackedAgain.foldlM (watch fourFaces) (empty,[]) = some w ∧
    w.2 = [.sent 0 2,.sent 0 3,.nacked 0 2,.sent 0 2,.sent 0 3,.nacked 0 3] ∧
    w.1.nackOf 0 2 = some (some .noRoute) ∧ ¬LastNacked w.2 0 2 ∧
    w.1.actions.getLast? = some (.nack ⟨plainInterest [2],.noRoute⟩ 1) ∧ ¬NackStatus w := by
  obtain ⟨w,hw⟩ : ∃ w, nackedAgain.foldlM (watch fourFaces) (empty,[]) = some w := ⟨_,rfl⟩
  obtain ⟨hlog,hnack,hlast⟩ : w.2 = [.sent 0 2,.sent 0 3,.nacked 0 2,.sent 0 2,.sent 0 3,.nacked 0 3] ∧
      w.1.nackOf 0 2 = some (some .noRoute) ∧
      w.1.actions.getLast? = some (.nack ⟨plainInterest [2],.noRoute⟩ 1) := by
    cases hw
    decide +kernel
  have hsent : ¬LastNacked w.2 0 2 := by
    rw [hlog,show ([.sent 0 2,.sent 0 3,.nacked 0 2,.sent 0 2,.sent 0 3,.nacked 0 3] :
      List Observation) = ([.sent 0 2,.sent 0 3,.nacked 0 2] ++ [.sent 0 2,.sent 0 3]) ++
        [.nacked 0 3] from rfl,lastNacked_concat,lastNacked_append (by simp)]
    simp
  refine ⟨w,hw,hlog,hnack,hsent,hlast,fun h => ?_⟩
  exact hsent ((nackStatus_iff.mp h 0 2 _ hnack).mp rfl)

end Observing

end Forwarder

end KiteNdn.Fw
