import KiteNdn.Fw.Satisfaction

/-!
# Retransmission to a new face of the producer

Every Interest that waits for the producer goes out on the new face once, as long as the producer's
table has them all. It loses one if another entry has the name, and if the name is erased on behalf
of an entry that is answered earlier.
-/

namespace KiteNdn.Fw.Forwarder

open Framework List Option

variable {c : Config} {s s₁ s₂ s' : Forwarder} {id : PitId}

/-- The producers' tables have PIT entries under their names only. -/
def Named (s : Forwarder) : Prop :=
  ∀ k n x, s.listed k n = some x → x < s.nextId ∧ ∀ i, s.interestOf x = some i → i.name = n

theorem Named.of_listed (h : s.Named) (hk : KeepsEntries s s')
    (hl : ∀ k n x, s'.listed k n = some x → s.listed k n = some x) : s'.Named := by
  intro k n x hx
  obtain ⟨hlt,hname⟩ := h k n x (hl k n x hx)
  rw [hk.entries x hlt]
  exact ⟨hlt.trans_le hk.nextId,hname⟩

theorem Named.keepsListed (h : s.Named) (hk : KeepsListed s s') : s'.Named :=
  h.of_listed hk.toKeepsEntries fun k n _ hx => (hk.listed k n).symm.trans hx

theorem Named.forgets {status : Option KiteInterestStatus} {name : Name} (h : s.Named)
    (hs : Forgets status name s s') : s'.Named := by
  refine h.of_listed hs.keepsEntries fun k n x hx => ?_
  rw [hs.listed] at hx
  split_ifs at hx
  exact hx

theorem Named.answers {d : Data} {ingress : FaceId} {ids : List PitId} (h : s.Named)
    (hs : Answers d ingress ids s s') : s'.Named := by
  refine h.of_listed hs.toKeepsEntries fun k n x hx => ?_
  rcases hs.listed k n with heq | ⟨hnone,_⟩
  · exact heq ▸ hx
  · rw [hnone] at hx
    exact nomatch hx

theorem Named.records {key name : Name} {j : Interest} (h : s.Named) (hb : s.Bounded)
    (hs : Records key name id s s') (hj : s.interestOf id = some j) (hname : j.name = name) :
    s'.Named := by
  have hlt : id < s.nextId := hb id (isAlive_iff.mpr ⟨j,hj⟩)
  intro k n x hx
  rw [hs.listed] at hx
  obtain ⟨hx,hn⟩ : x < s.nextId ∧ ∀ i, s.interestOf x = some i → i.name = n := by
    split_ifs at hx with hnew
    · cases hold : s.listed key name with
      | none =>
        rw [hold] at hx
        cases hx
        refine ⟨hlt,fun i hi => ?_⟩
        rw [Option.getD_none,hj] at hi
        cases hi
        rw [hname,hnew.2]
      | some y =>
        rw [hold] at hx
        cases hx
        rw [hnew.2]
        exact h key name y hold
    · exact h k n x hx
  rw [hs.entries x hx]
  exact ⟨hx.trans_le hs.nextId,hn⟩

section Steps

theorem Named.finalize (h : s.Named) (id : PitId) : (s.finalized id).Named := by
  intro k n x hx
  obtain ⟨hlt,hname⟩ := h k n x hx
  refine ⟨hlt,fun i hi => hname i ?_⟩
  obtain ⟨e',he',rfl⟩ := map_eq_some_iff.mp hi
  exact interestOf_of_find (find_of_finalized he')

theorem Named.cleanup (h : s.Named) (name : Name) : (s.withoutMeasurements name).Named := by
  refine h.of_listed (keepsEntries_of_pit rfl rfl) fun k n x hx => ?_
  rw [listed_withoutMeasurements] at hx
  split_ifs at hx
  exact hx

theorem Named.removeFace (h : s.Named) (face : FaceId) :
    (s.cleanupOnFaceRemoval face).Named := by
  intro k n x hx
  rw [interestOf_cleanupOnFaceRemoval]
  exact h k n x hx

end Steps

/-- Every reaction to a new face of a producer has sent each waiting Interest once. -/
def RetransmitsAll (s : Forwarder) : Prop :=
  ∀ r ∈ s.history.retransmissions, ∀ x ∈ r.pending, r.sent.count x = 1

/-- The producers' tables hold the Interests that wait. -/
structure Remembers (s : Forwarder) : Prop where
  bounded : s.Bounded
  named : ∀ k n x, s.listed k n = some x → x < s.nextId ∧ ∀ i, s.interestOf x = some i → i.name = n
  remembered : ∀ p ∈ s.history.pending, ∃ i, s.interestOf p.1 = some i ∧
    s.listed p.2 i.name = some p.1

section Invariant

theorem Remembers.lt (h : s.Remembers) {i : Interest} (hi : s.interestOf id = some i) :
    id < s.nextId :=
  h.bounded id (isAlive_iff.mpr ⟨i,hi⟩)

theorem Remembers.keepsListed (h : s.Remembers) (hs : KeepsListed s s') : s'.Remembers where
  bounded := h.bounded.keepsEntries hs.toKeepsEntries
  named := Named.keepsListed h.named hs
  remembered := by
    intro p hp
    obtain ⟨i,hi,hlisted⟩ := h.remembered p (hs.pending p hp)
    rw [hs.entries p.1 (h.lt hi)]
    refine ⟨i,hi,?_⟩
    rw [hs.listed]
    exact hlisted

theorem RetransmitsAll.of_eq (h : s.RetransmitsAll)
    (heq : s'.history.retransmissions = s.history.retransmissions) : s'.RetransmitsAll := by
  intro r hr
  rw [heq] at hr
  exact h r hr

theorem Remembers.forgets (h : s.Remembers) {status : Option KiteInterestStatus} {name : Name}
    (hs : Forgets status name s s₁) (hk : KeepsListed s₁ s')
    (hfree : ∀ p ∈ s'.history.pending, markedKey status = some p.2 →
      s.listed p.2 name ≠ some p.1) : s'.Remembers := by
  have hkeeps := hs.keepsEntries.trans hk.toKeepsEntries
  refine ⟨h.bounded.keepsEntries hkeeps,(Named.forgets h.named hs).keepsListed hk,fun p hp => ?_⟩
  have hp₁ := hk.pending p hp
  rw [hs.history] at hp₁
  obtain ⟨i,hi,hlisted⟩ := h.remembered p hp₁
  rw [hkeeps.entries p.1 (h.lt hi)]
  refine ⟨i,hi,?_⟩
  rw [hk.listed,hs.listed,if_neg]
  · exact hlisted
  · intro hmark
    rw [hmark.2] at hlisted
    exact hfree p hp hmark.1 hlisted

end Invariant

section Sending

private def resent (c : Config) (face : FaceId) (s : Forwarder) (item : Name × PitId) :
    Option PitId :=
  (s.interestOf item.2).bind fun i =>
    if i.hopLimit = some 0 ∧ c.scope face = .nonLocal then none else some item.2

private theorem actions_resend (mpName : Name) (face : FaceId) (item : Name × PitId) :
    ∃ new, (s.resend c mpName face item).actions = s.actions ++ new ∧
      sentOn face new = (resent c face s item).toList := by
  unfold resend resent interestOf
  cases he : s.pit.find? item.2 with
  | none => exact ⟨[],by simp,rfl⟩
  | some e =>
    have hid : e.id = item.2 := s.pit.find?_key he
    dsimp only [map_some,bind_some]
    by_cases hhop : e.interest.hopLimit = some 0 ∧ c.scope face = .nonLocal
    · rw [onOutgoingInterest,if_pos hhop,if_pos hhop]
      exact ⟨[],by simp,rfl⟩
    · rw [onOutgoingInterest,if_neg hhop,if_neg hhop]
      refine ⟨[.interest e.id e.interest face],rfl,?_⟩
      simp [sentOn,hid]

private theorem sentOn_append (face : FaceId) (l l' : List Action) :
    sentOn face (l ++ l') = sentOn face l ++ sentOn face l' :=
  filterMap_append

private theorem actions_foldl_resend (mpName : Name) (face : FaceId) (items : List (Name × PitId)) :
    ∀ t : Forwarder, (∀ id, t.interestOf id = s.interestOf id) →
      ∃ new, (items.foldl (resend c mpName face) t).actions = t.actions ++ new ∧
        sentOn face new = items.filterMap (resent c face s) := by
  induction items with
  | nil => exact fun t _ => ⟨[],by simp,rfl⟩
  | cons item items ih =>
    intro t ht
    obtain ⟨new,hnew,hsent⟩ := actions_resend (c := c) (s := t) mpName face item
    obtain ⟨new',hnew',hsent'⟩ := ih (t.resend c mpName face item)
      fun id => .trans
        ((sends_resend (P := fun _ _ => True) mpName fun _ _ _ => trivial).interestOf id) (ht id)
    have hresent : resent c face t item = resent c face s item := by rw [resent,ht,resent]
    refine ⟨new ++ new',?_,?_⟩
    · rw [foldl_cons,hnew',hnew,append_assoc]
    · rw [sentOn_append,hsent,hsent',hresent,filterMap_cons]
      cases resent c face s item <;> rfl

/-- The Interests that wait for the producer can go out. -/
def CanSend (s : Forwarder) (key : Name) : Prop :=
  ∀ p ∈ s.history.pending, p.2 = key → ∀ i ∈ s.interestOf p.1, i.hopLimit ≠ some 0

private theorem count_resent (h : s.Remembers) {key : Name} {face : FaceId}
    {info : KiteMobileProducerInfo} (hinfo : s.producerInfo key = some info)
    (hsend : s.CanSend key) {x : PitId} (hx : (x,key) ∈ s.history.pending) :
    (info.pitEntrys.items.filterMap (resent c face s)).count x = 1 := by
  obtain ⟨i,hi,hlisted⟩ := h.remembered (x,key) hx
  have hlisted_iff : ∀ item ∈ info.pitEntrys.items, s.listed key item.1 = some item.2 := by
    intro item hitem
    rw [listed_eq,hinfo,bind_some,info.pitEntrys.find?_eq_some.mpr ⟨hitem,rfl⟩]
    rfl
  have hmem : (i.name,x) ∈ info.pitEntrys.items := by
    rw [listed_eq,hinfo,bind_some] at hlisted
    obtain ⟨item,hitem,hsnd⟩ := map_eq_some_iff.mp hlisted
    obtain ⟨hmem,hfst⟩ := info.pitEntrys.find?_eq_some.mp hitem
    have heq : item = (i.name,x) := Prod.ext hfst hsnd
    exact heq ▸ hmem
  have hnodup : info.pitEntrys.items.Nodup := List.Nodup.of_map Prod.fst info.pitEntrys.distinct
  -- The entry is alive, so every item for it has its name.
  have hunique : ∀ item ∈ info.pitEntrys.items,
      ((resent c face s item == some x) = true ↔ (item == (i.name,x)) = true) := by
    intro item hitem
    rw [beq_iff_eq,beq_iff_eq]
    constructor
    · intro hresent
      obtain ⟨j,hj,hsome⟩ := bind_eq_some_iff.mp hresent
      split_ifs at hsome
      have hsnd : item.2 = x := some.inj hsome
      have hname := (h.named key item.1 item.2 (hlisted_iff item hitem)).2 i (by rw [hsnd,hi])
      exact Prod.ext hname.symm hsnd
    · rintro rfl
      have hhop := hsend (x,key) hx rfl i hi
      rw [resent,hi,bind_some,if_neg fun hzero => hhop hzero.1]
  calc (info.pitEntrys.items.filterMap (resent c face s)).count x
    _ = info.pitEntrys.items.countP fun item => resent c face s item == some x :=
      count_filterMap
    _ = info.pitEntrys.items.count (i.name,x) := countP_congr hunique
    _ = 1 := count_eq_one_of_mem hnodup hmem

/-- A new face of the producer gets each waiting Interest once. -/
theorem RetransmitsAll.retransmit (hall : s.RetransmitsAll) (h : s.Remembers) (mpName : Name)
    (face : FaceId) (hsend : s.CanSend (measurementsName mpName)) :
    (s.retransmit c mpName face).RetransmitsAll := by
  unfold Forwarder.retransmit
  split
  · next info hinfo =>
    split_ifs
    · exact hall
    · rw [getMobileProducerInfo_eq] at hinfo
      let t := s.modifyMobileProducerInfo mpName fun i => { i with faceIds := face :: i.faceIds }
      obtain ⟨new,hnew,hsent⟩ := actions_foldl_resend (c := c) (s := s) mpName face
        info.pitEntrys.items t fun _ => rfl
      have hsteady := steady_resends (c := c) (s := t) mpName face info.pitEntrys.items
      have hactions : t.actions = s.actions := rfl
      have hretransmissions : t.history.retransmissions = s.history.retransmissions := rfl
      intro r hr x hx
      rcases mem_append.mp hr with hr | hr
      · rw [hsteady.retransmissions,hretransmissions] at hr
        exact hall r hr x hx
      · cases mem_singleton.mp hr
        obtain ⟨p,hp,rfl⟩ := mem_map.mp hx
        obtain ⟨hp,hkey⟩ := mem_filter.mp hp
        have hkey := (of_decide_eq_true hkey).1
        dsimp only
        rw [hnew,hactions,drop_left,hsent]
        apply count_resent h hinfo hsend
        rw [← hkey]
        exact hp
  · exact hall

theorem CanSend.keepsListed {key : Name} (hsend : s.CanSend key) (h : s.Remembers)
    (hs : KeepsListed s s') : s'.CanSend key := by
  intro p hp hkey i hi
  have hp := hs.pending p hp
  obtain ⟨j,hj,_⟩ := h.remembered p hp
  rw [hs.entries p.1 (h.lt hj)] at hi
  exact hsend p hp hkey i hi

/-- One face after the other is announced and, if it is new, gets the waiting Interests. -/
theorem RetransmitsAll.registPrefix (pa : PrefixAnnouncement) (records : List InRecord) :
    ∀ s : Forwarder, s.RetransmitsAll → s.Remembers → s.CanSend (measurementsName pa.announcedName) →
      (s.registPrefix c pa records).RetransmitsAll := by
  have hretransmissions : ∀ (s : Forwarder) face,
      ((s.act (.slAnnounce pa face announceLifetime)).getMeasurements
        pa.announcedName).history.retransmissions = s.history.retransmissions := by
    intro s face
    rw [getMeasurements_history]
    rfl
  induction records with
  | nil => exact fun s hall _ _ => hall
  | cons r records ih =>
    intro s hall h hsend
    rw [Forwarder.registPrefix]
    split_ifs
    · let t := ((s.act (.slAnnounce pa r.face announceLifetime)).getMeasurements
        pa.announcedName).extendLifetime pa.announcedName
          (toNanoseconds pa.expiration)
      have hquiet : KeepsListed s t := (((quiet_act _).trans (quiet_getMeasurements _)).trans
        (quiet_extendLifetime _ _)).toKeepsListed
      have hall₁ : t.RetransmitsAll := hall.of_eq (hretransmissions s r.face)
      have h₁ := h.keepsListed hquiet
      have hsend₁ := hsend.keepsListed h hquiet
      have hretransmit := (quiet_retransmit (c := c) (s := t) pa.announcedName r.face).toKeepsListed
      exact ih _ (hall₁.retransmit h₁ _ r.face hsend₁) (h₁.keepsListed hretransmit)
        (hsend₁.keepsListed h₁ hretransmit)
    · exact hall.of_eq (hretransmissions s r.face)
    · exact ih s hall h hsend

end Sending

section Conditions

/-- An Interest that is forwarded to the producer finds its name free in the producer's table, or
taken by its own entry. -/
def KeepsOnInterest (c : Config) (s : Forwarder) (i : Interest) (ingress : FaceId)
    (inDnl csHit : Bool) : Prop :=
  match s.admitInterest c i ingress inDnl csHit with
  | .handled _ => True
  | .dispatched s i id =>
    ∀ e ∈ s.pit.find? id, kiteHint i ≠ [] → (s.producerHops c i ingress e).2 ≠ [] →
      ((s.listed (measurementsName (s.producerHops c i ingress e).1) i.name).getD id) = id

/-- The Interests that wait for the producer of an acknowledgment can go out. -/
def CanSendAfter (s : Forwarder) : Except String Kite.Ack → Prop
  | .ok ack => s.CanSend (measurementsName ack.prefixAnnouncement.announcedName)
  | .error _ => True

instance (s : Forwarder) (key : Name) : Decidable (s.CanSend key) := by
  dsimp only [CanSend]
  infer_instance

instance (s : Forwarder) : ∀ result, Decidable (s.CanSendAfter result)
  | .ok _ => inferInstanceAs (Decidable (s.CanSend _))
  | .error _ => inferInstanceAs (Decidable True)

/-- A name that is forgotten because of a Data belongs to an entry that the Data answers or that does
not wait; and after an acknowledgment the waiting Interests can be sent. -/
def KeepsOnData (c : Config) (s : Forwarder) (d : Data) (ingress : FaceId)
    (pitMatches : List PitId) : Prop :=
  violatesLocalhost c ingress d.name = false →
    (d.contentType ≠ Kite.contentTypeKiteAck → ∀ id ∈ pitMatches, ∀ e ∈ s.pit.find? id,
      ∀ p ∈ s.history.pending, markedKey (e.outStatus ingress) = some p.2 →
        s.listed p.2 e.name = some p.1 → p.1 ∈ pitMatches) ∧
      s.CanSendAfter (Kite.Ack.ofData d)

/-- The entry after it got Nacks for its downstreams, and the mark under which it is forgotten. -/
def forgottenOnNack (c : Config) (id : PitId) (s : Forwarder) :
    Option (PitEntry × Option KiteInterestStatus) :=
  (s.pit.find? id).bind fun e =>
    match notNacked e with
    | [] =>
      if (triedAll c id e s).2 then none
      else (((triedAll c id e s).1.sendNacks c (leastSevereReason e.outRecords.items) id).pit.find?
        id).map fun e => (e,e.outRecords.items.head?.bind OutRecord.info)
    | [r] =>
      if (e.getInRecord r.face).isNone ∨ (s.dealNack c id r.face).2 then none
      else (((s.dealNack c id r.face).1.sendNack c (leastSevereReason e.outRecords.items) r.face
        id).pit.find? id).map fun e => (e,e.outStatus r.face)
    | _ => none

theorem forgottenOnNack_all {e e' : PitEntry} (he : s.pit.find? id = some e)
    (hnone : notNacked e = []) (hdealt : (triedAll c id e s).2 = false)
    (he' : ((triedAll c id e s).1.sendNacks c (leastSevereReason e.outRecords.items) id).pit.find?
      id = some e') :
    s.forgottenOnNack c id = some (e',e'.outRecords.items.head?.bind OutRecord.info) := by
  rw [forgottenOnNack,he,bind_some,hnone]
  dsimp only
  rw [if_neg (Bool.not_eq_true _ ▸ hdealt),he']
  rfl

theorem forgottenOnNack_one {e e' : PitEntry} {r : OutRecord} (he : s.pit.find? id = some e)
    (hone : notNacked e = [r]) (hin : (e.getInRecord r.face).isSome = true)
    (hdealt : (s.dealNack c id r.face).2 = false)
    (he' : ((s.dealNack c id r.face).1.sendNack c (leastSevereReason e.outRecords.items) r.face
      id).pit.find? id = some e') :
    s.forgottenOnNack c id = some (e',e'.outStatus r.face) := by
  rw [forgottenOnNack,he,bind_some,hone]
  dsimp only
  rw [if_neg,he']
  · rfl
  · rw [hdealt,isNone_iff_eq_none]
    simp [isSome_iff_ne_none.mp hin]

/-- A name that is forgotten because of a Nack belongs to the entry that the Nack is for, which has
no downstream left, or to one that does not wait. -/
def KeepsOnNack (c : Config) (s : Forwarder) (nack : Nack) (ingress : FaceId) : Prop :=
  ∀ e ∈ s.acceptedNack c nack ingress,
    ∀ s₁ ∈ (s.modifyEntry e.id (setIncomingNack nack.reason ingress)).withdrawRoute c ingress e.id,
      ∀ q ∈ s₁.forgottenOnNack c e.id, ∀ p ∈ s.history.pending, markedKey q.2 = some p.2 →
        s.listed p.2 e.name = some p.1 → p.1 = e.id ∧ q.1.inRecords.items.isEmpty = true

/-- The events that do not make a producer's table lose an Interest that waits. -/
def KeepsWaiting (c : Config) (s : Forwarder) : Event → Prop
  | .interest i ingress inDnl csHit => s.KeepsOnInterest c i ingress inDnl csHit
  | .data d ingress pitMatches _ => s.KeepsOnData c d ingress pitMatches
  | .nack nack ingress => s.KeepsOnNack c nack ingress
  | .cleanup name => ∀ p ∈ s.history.pending, p.2 ≠ name
  | _ => True

instance (c : Config) (s : Forwarder) (i : Interest) (ingress : FaceId) (inDnl csHit : Bool) :
    Decidable (s.KeepsOnInterest c i ingress inDnl csHit) := by
  dsimp only [KeepsOnInterest]
  cases s.admitInterest c i ingress inDnl csHit <;> dsimp only <;> infer_instance

instance (c : Config) (s : Forwarder) (d : Data) (ingress : FaceId) (pitMatches : List PitId) :
    Decidable (s.KeepsOnData c d ingress pitMatches) :=
  @instDecidableForall _ _ inferInstance <| @instDecidableAnd _ _
    (@instDecidableForall _ _ inferInstance <| @List.decidableBAll _ _ (fun _ =>
      @Option.decidableForallMem _ _ (fun _ => @List.decidableBAll _ _ (fun _ =>
        @instDecidableForall _ _ inferInstance inferInstance) _) _) _)
    inferInstance

instance (c : Config) (s : Forwarder) (nack : Nack) (ingress : FaceId) :
    Decidable (s.KeepsOnNack c nack ingress) := by
  dsimp only [KeepsOnNack]
  infer_instance

instance (c : Config) (s : Forwarder) : ∀ event, Decidable (s.KeepsWaiting c event)
  | .interest i ingress inDnl csHit =>
    inferInstanceAs (Decidable (s.KeepsOnInterest c i ingress inDnl csHit))
  | .data d ingress pitMatches _ => inferInstanceAs (Decidable (s.KeepsOnData c d ingress pitMatches))
  | .nack nack ingress => inferInstanceAs (Decidable (s.KeepsOnNack c nack ingress))
  | .cleanup name => inferInstanceAs (Decidable (∀ p ∈ s.history.pending, p.2 ≠ name))
  | .finalize _ | .updateFib _ _ | .removeFace _ | .elapse _ => inferInstanceAs (Decidable True)

end Conditions

section Steps

theorem Remembers.records {key name : Name} {j : Interest} (h : s.Remembers)
    (hs : Records key name id s s') (hj : s.interestOf id = some j) (hname : j.name = name)
    (hown : (s.listed key name).getD id = id) : s'.Remembers := by
  have hid := h.lt hj
  refine ⟨h.bounded.keepsEntries hs.toKeepsEntries,
    Named.records h.named h.bounded hs hj hname,fun p hp => ?_⟩
  rw [hs.pending] at hp
  rcases mem_cons.mp hp with rfl | hp
  · refine ⟨j,(hs.entries id hid).trans hj,?_⟩
    rw [hs.listed,if_pos ⟨rfl,hname⟩,hown]
  · obtain ⟨i,hi,hlisted⟩ := h.remembered p hp
    refine ⟨i,(hs.entries p.1 (h.lt hi)).trans hi,?_⟩
    rw [hs.listed]
    split_ifs with heq
    · rw [heq.1,heq.2] at hlisted
      rw [hlisted]
      rfl
    · exact hlisted

theorem Remembers.interest (h : s.Remembers) (hall : s.RetransmitsAll) {i : Interest}
    {ingress : FaceId} {inDnl csHit : Bool} (hc : s.KeepsOnInterest c i ingress inDnl csHit)
    (hs : s.onIncomingInterest c i ingress inDnl csHit = some s') :
    s'.Remembers ∧ s'.RetransmitsAll := by
  rcases onIncomingInterest_steady hs with
    hsteady | ⟨s₀,i₁,id,e,s₁,hs₀,hadmits,he,hsteady,hforwards⟩
  · exact ⟨h.keepsListed hsteady.quiet.toKeepsListed,hall.of_eq hsteady.retransmissions⟩
  · have hadmitted := steady_admits hadmits
    have hsent := (sends_forwards (P := fun _ _ => True) hforwards fun _ _ _ => trivial).steady
    have hrecords := records_recordPitEntry hforwards.recorded
    obtain ⟨j,hj,hname⟩ := interestOf_dispatched hadmits
    rw [KeepsOnInterest,hs₀] at hc
    have hown := hc e he hforwards.kite hforwards.hops
    rw [← hsent.quiet.listed] at hown
    have hlt := (h.keepsListed hadmitted.quiet.toKeepsListed).lt hj
    have hj₁ : s₁.interestOf id = some j := (hsent.entries id hlt).trans hj
    exact ⟨(h.keepsListed hsteady.quiet.toKeepsListed).records hrecords hj₁ hname hown,
      (hall.of_eq hsteady.retransmissions).of_eq hrecords.retransmissions⟩

variable {d : Data} {ingress : FaceId}

theorem Remembers.answers {ids : List PitId} (h : s.Remembers) (hs : Answers d ingress ids s s')
    (hc : d.contentType ≠ Kite.contentTypeKiteAck → ∀ id ∈ ids, ∀ e ∈ s.pit.find? id,
      ∀ p ∈ s.history.pending, markedKey (e.outStatus ingress) = some p.2 →
        s.listed p.2 e.name = some p.1 → p.1 ∈ ids) : s'.Remembers := by
  refine ⟨h.bounded.keepsEntries hs.toKeepsEntries,Named.answers h.named hs,fun p hp => ?_⟩
  obtain ⟨hp,hne⟩ := hs.pending p hp
  obtain ⟨i,hi,hlisted⟩ := h.remembered p hp
  refine ⟨i,(hs.entries p.1 (h.lt hi)).trans hi,?_⟩
  rcases hs.listed p.2 i.name with heq | ⟨_,hd,id,hid,e,he,hmark,hname⟩
  · exact heq.trans hlisted
  · rw [← hname] at hlisted
    exact absurd (hc hd id hid e he p hp hmark hlisted) hne

private structure Acknowledges (d : Data) (s : Forwarder) : Prop extends Remembers s where
  all : s.RetransmitsAll
  canSend : ∀ ack, Kite.Ack.ofData d = .ok ack →
    s.CanSend (measurementsName ack.prefixAnnouncement.announcedName)

private theorem Acknowledges.keepsListed (h : Acknowledges d s) (hs : KeepsListed s s')
    (hall : s'.RetransmitsAll) : Acknowledges d s' :=
  ⟨h.toRemembers.keepsListed hs,hall,
    fun ack hack => (h.canSend ack hack).keepsListed h.toRemembers hs⟩

private theorem Acknowledges.steady (h : Acknowledges d s) (hs : Steady s s') : Acknowledges d s' :=
  h.keepsListed hs.quiet.toKeepsListed (h.all.of_eq hs.retransmissions)

private theorem Acknowledges.beforeSatisfyInterest (h : Acknowledges d s)
    (hd : d.contentType = Kite.contentTypeKiteAck)
    (hs : s.beforeSatisfyInterest c d ingress id = some s') : Acknowledges d s' := by
  obtain ⟨e,_,hsat⟩ := beforeSatisfyInterest_cases hs
  cases hsat with
  | ack ack _ hack =>
    exact h.keepsListed (quiet_registPrefix ack.prefixAnnouncement _ s).toKeepsListed
      (RetransmitsAll.registPrefix ack.prefixAnnouncement _ s h.all h.toRemembers
        (h.canSend ack hack))
  | erase r hne _ _ | other hne _ => exact absurd hd hne

private theorem Acknowledges.markSatisfied (h : Acknowledges d s) (ingress : FaceId) (id : PitId) :
    Acknowledges d (s.markSatisfied ingress id) := by
  have hmodify : Steady s (s.modifyEntry id fun e =>
      PitEntry.deleteOutRecord ingress { e with isSatisfied := true }) :=
    steady_modifyEntry (fun _ => rfl) fun _ => rfl
  have hmodified := h.steady hmodify
  exact (hmodified.keepsListed (keepsListed_answer id)
    (hmodified.all.of_eq (answer_retransmissions id))).steady (steady_settle id)

theorem Remembers.data (h : s.Remembers) (hall : s.RetransmitsAll) {pitMatches : List PitId}
    {nOthers : Nat} (hnodup : pitMatches.Nodup) (hids : ∀ id ∈ pitMatches, s.isAlive id = true)
    (hc : s.KeepsOnData c d ingress pitMatches)
    (hs : s.onIncomingData c d ingress pitMatches nOthers = some s') :
    s'.Remembers ∧ s'.RetransmitsAll := by
  rcases onIncomingData_cases hs with hsteady | ⟨hscope,_,s₁,hsteady,hfold⟩
  · exact ⟨h.keepsListed hsteady.quiet.toKeepsListed,hall.of_eq hsteady.retransmissions⟩
  obtain ⟨hmarks,hack⟩ := hc hscope
  have hkept : s₁.Remembers ∧ s₁.RetransmitsAll := by
    by_cases hd : d.contentType = Kite.contentTypeKiteAck
    · have hstart : Acknowledges d s := by
        refine ⟨h,hall,fun ack hok => ?_⟩
        rw [hok] at hack
        exact hack
      have hend : Acknowledges d s₁ := by
        rcases hfold with hfold | hfold
        · refine foldlM_keeps (Acknowledges d) (fun t id t' ht hsat => ?_) pitMatches hstart hfold
          obtain ⟨t₁,ht₁,rfl⟩ := map_eq_some_iff.mp hsat
          exact (((ht.steady (steady_setExpiryTimer id 0)).beforeSatisfyInterest hd ht₁).steady
            (steady_sendDataToAll d ingress id)).markSatisfied ingress id
        · refine foldlM_keeps (Acknowledges d) (fun t id t' ht hsat => ?_) pitMatches hstart hfold
          obtain ⟨t₁,ht₁,rfl⟩ := map_eq_some_iff.mp hsat
          exact (((ht.steady (steady_setExpiryTimer id 0)).beforeSatisfyInterest hd
            ht₁).markSatisfied ingress id).steady (steady_modifyEntry (fun _ => rfl) fun _ => rfl)
      exact ⟨hend.toRemembers,hend.all⟩
    · have hanswers := answers_of_satisfied hnodup (fun id hid => h.bounded id (hids id hid)) hfold
      exact ⟨h.answers hanswers hmarks,hall.of_eq (hanswers.retransmissions hd)⟩
  exact ⟨hkept.1.keepsListed hsteady.quiet.toKeepsListed,hkept.2.of_eq hsteady.retransmissions⟩

private theorem Remembers.returned (h : s.Remembers) {e : PitEntry}
    (hsteady : Steady s s₁) (hid : id < s.nextId) (he : s.interestOf id = some e.interest)
    {find : PitEntry → Option OutRecord} (hs : s₁.eraseWith c find id = some s₂)
    (hk : KeepsListed s₂ s')
    (hc : ∀ e', s₁.pit.find? id = some e' → ∀ p ∈ s.history.pending,
      markedKey ((find e').bind OutRecord.info) = some p.2 → s.listed p.2 e.name = some p.1 →
        p.1 = id ∧ e'.inRecords.items.isEmpty = true) (hpit : s'.pit = s₂.pit) :
    (s'.settleIfIdle id).Remembers := by
  obtain ⟨e₁,he₁,hforgets⟩ := forgets_eraseWith hs
  have hname : e₁.name = e.name := by
    have hi := hsteady.entries id hid
    rw [he,interestOf_of_find he₁] at hi
    exact congrArg Interest.name (some.inj hi)
  have hkeeps := hk.trans (quiet_settleIfIdle (s := s') id).toKeepsListed
  refine (h.keepsListed hsteady.quiet.toKeepsListed).forgets hforgets hkeeps ?_
  intro p hp hmark hlisted
  have hp' := hkeeps.pending p hp
  rw [hforgets.history] at hp'
  rw [hname,hsteady.quiet.listed] at hlisted
  obtain ⟨hpid,hidle⟩ := hc e₁ he₁ p (hsteady.pending p hp') hmark hlisted
  -- Without downstreams the entry is settled and does not wait any more.
  unfold settleIfIdle at hp
  rw [hpit,hforgets.pit,he₁,all_some,if_pos hidle] at hp
  exact of_decide_eq_true (mem_filter.mp hp).2 hpid

theorem Remembers.nack (h : s.Remembers) (hall : s.RetransmitsAll) {nack : Nack}
    (hc : s.KeepsOnNack c nack ingress) (hs : s.onIncomingNack c nack ingress = some s') :
    s'.Remembers ∧ s'.RetransmitsAll := by
  rcases onIncomingNack_cases hs with ⟨_,rfl⟩ | ⟨e,s₁,s₂,he,hs₁,hs₂,hs'⟩
  · exact ⟨h,hall⟩
  have hfind := find_of_acceptedNack he
  have hquiet₁ := quiet_noted hs₁
  have hall₁ : s₁.RetransmitsAll := hall.of_eq (by rw [withdrawRoute_history hs₁]; rfl)
  have h₁ := h.keepsListed hquiet₁.toKeepsListed
  have hi₁ : s₁.interestOf e.id = some e.interest :=
    (hquiet₁.entries e.id (h.lt (interestOf_of_find hfind))).trans (interestOf_of_find hfind)
  obtain ⟨e₁,he₁,_⟩ := map_eq_some_iff.mp hi₁
  have hcases := processNack_cases he₁ hs₂
  have hall₂ := hall₁.of_eq (retransmissions_processesNack hcases)
  have hforgotten : ∀ q, s₁.forgottenOnNack c e.id = some q → ∀ p ∈ s₁.history.pending,
      markedKey q.2 = some p.2 → s₁.listed p.2 e.name = some p.1 →
        p.1 = e.id ∧ q.1.inRecords.items.isEmpty = true := by
    intro q hq p hp hmark hlisted
    rw [hquiet₁.listed] at hlisted
    exact hc e he s₁ hs₁ q hq p (hquiet₁.pending p hp) hmark hlisted
  have h₂ : s₂.Remembers := by
    cases hcases with
    | waits => exact h₁
    | triesAll _ _ => exact h₁.keepsListed (steady_dealNacks _ _).quiet.toKeepsListed
    | triesOne outFace _ => exact h₁.keepsListed (steady_dealNack _ outFace).quiet.toKeepsListed
    | returnsAll hnone hdealt herase =>
      refine h₁.returned (steady_returnedAll _ _ _) (h₁.lt hi₁) hi₁ herase
        (keepsListed_answerIfIdle _) (fun e' he' => ?_) (answerIfIdle_pit _)
      exact hforgotten _ (forgottenOnNack_all he₁ hnone hdealt he')
    | returnsOne r hone hin hdealt herase =>
      refine h₁.returned (steady_returnedOne _ _ _) (h₁.lt hi₁) hi₁ herase
        (Quiet.refl _).toKeepsListed (fun e' he' => ?_) rfl
      exact hforgotten _ (forgottenOnNack_one he₁ hone hin hdealt he')
  rcases hs' with rfl | rfl
  · exact ⟨h₂,hall₂⟩
  · have htimer := steady_setExpiryTimer (s := s₂) e.id 0
    exact ⟨h₂.keepsListed htimer.quiet.toKeepsListed,hall₂.of_eq htimer.retransmissions⟩

private theorem Remembers.finalize (h : s.Remembers) (id : PitId) :
    (s.finalized id).Remembers := by
  refine ⟨h.bounded.finalize id,Named.finalize h.named id,fun p hp => ?_⟩
  obtain ⟨hp,hne⟩ := mem_filter.mp hp
  obtain ⟨i,hi,hlisted⟩ := h.remembered p hp
  obtain ⟨e',he',rfl⟩ := map_eq_some_iff.mp hi
  refine ⟨e'.interest,?_,hlisted⟩
  have hid : e'.id ≠ id := by
    rw [s.pit.find?_key he']
    exact of_decide_eq_true hne
  rw [interestOf,finalized,KeyedList.find?_filter,he',filter_some,if_pos (decide_eq_true hid)]
  rfl

private theorem Remembers.cleanup (h : s.Remembers) {name : Name}
    (hc : ∀ p ∈ s.history.pending, p.2 ≠ name) : (s.withoutMeasurements name).Remembers := by
  refine ⟨h.bounded,Named.cleanup h.named name,fun p hp => ?_⟩
  obtain ⟨i,hi,hl⟩ := h.remembered p hp
  refine ⟨i,hi,?_⟩
  rw [listed_withoutMeasurements,if_neg (hc p hp)]
  exact hl

private theorem Remembers.removeFace (h : s.Remembers) (face : FaceId) :
    (s.cleanupOnFaceRemoval face).Remembers := by
  have hinterest : ∀ id, (s.cleanupOnFaceRemoval face).interestOf id = s.interestOf id :=
    interestOf_cleanupOnFaceRemoval face
  refine ⟨fun id ha => h.bounded id ?_,Named.removeFace h.named face,fun p hp => ?_⟩
  · rw [isAlive_iff] at ha ⊢
    rw [hinterest] at ha
    exact ha
  · rw [hinterest]
    exact h.remembered p hp

theorem Remembers.step (h : s.Remembers) (hall : s.RetransmitsAll) {event : Event}
    (hc : s.KeepsWaiting c event) (hs : s.step c event = some s') :
    s'.Remembers ∧ s'.RetransmitsAll := by
  cases step_cases hs with
  | interest hs => exact h.interest hall hc hs
  | data hnodup halive hs => exact h.data hall hnodup halive hc hs
  | nack hs => exact h.nack hall hc hs
  | finalize id => exact ⟨h.finalize id,hall⟩
  | cleanup name => exact ⟨h.cleanup hc,hall⟩
  | removeFace face => exact ⟨h.removeFace face,hall⟩
  | _ => exact ⟨⟨h.bounded,h.named,h.remembered⟩,hall⟩

end Steps

section Runs

variable {events : List Event}

private theorem remembers_empty : empty.Remembers where
  bounded := fun _ ha => absurd ha Bool.false_ne_true
  named := fun _ _ _ hx => nomatch hx
  remembered := fun _ hp => absurd hp not_mem_nil

/-- Along a run in which no producer's table loses an Interest that waits, every new face of a
producer gets the waiting Interests, each once. -/
theorem run_retransmitsAll (hc : ∀ past event future s, events = past ++ event :: future →
      run c past = some s → s.KeepsWaiting c event)
    (h : run c events = some s) : s.RetransmitsAll :=
  (foldlM_invariant_of_some (step c) (fun s => s.Remembers ∧ s.RetransmitsAll) (KeepsWaiting c)
    (fun _ _ _ hi hc hs => hi.1.step hi.2 hc hs) empty
    ⟨remembers_empty,fun _ hr => absurd hr not_mem_nil⟩ events hc h).2

theorem run_retransmitsAll_moved : ∃ s, run fourFaces movedEvents = some s ∧
      s.history.retransmissions = [⟨producerName,3,[0],[0]⟩] ∧ s.RetransmitsAll := by
  obtain ⟨s,hs⟩ : ∃ s, run fourFaces movedEvents = some s := ⟨_,rfl⟩
  refine ⟨s,hs,?_,run_retransmitsAll (fun past event future t hsplit ht => ?_) hs⟩
  · cases hs
    decide +kernel
  · have hall := forall_split (P := fun past event =>
      ((run fourFaces past).all fun t => decide (t.KeepsWaiting fourFaces event)) = true) _
      (by decide +kernel) past event future hsplit
    rw [ht] at hall
    exact of_decide_eq_true hall

/-- Of two Interests with one name, the second is lost: it differs in MustBeFresh, or the first one
has expired. -/
theorem second_of_name_lost : (∃ s, run fourFaces (producerEvents ++
        .interest { producerInterest with mustBeFresh := true, nonce := [3] } 1 false false ::
          requestEvents 2) = some s ∧
      s.history.retransmissions = [⟨producerName,3,[1,0],[0]⟩] ∧ ¬s.RetransmitsAll) ∧
    ∃ s, run fourFaces ([.updateFib producerName [2],
        .interest { producerInterest with interestLifetime := 1000 } 1 false false,
        .elapse 1000000000,.finalize 0,
        .interest { producerInterest with nonce := [3] } 1 false false] ++ requestEvents 2) =
          some s ∧
      s.history.retransmissions = [⟨producerName,3,[1],[]⟩] ∧ ¬s.RetransmitsAll := by
  refine ⟨⟨_,rfl,by decide +kernel,?_⟩,⟨_,rfl,by decide +kernel,?_⟩⟩
  · unfold RetransmitsAll
    decide +kernel
  · unfold RetransmitsAll
    decide +kernel

end Runs

end KiteNdn.Fw.Forwarder
