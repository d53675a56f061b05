import KiteNdn.Fw.Frame

/-!
# The announcements of an acknowledgment

For each downstream that is not local and still waits, the strategy announces the prefix of an
acknowledgment to the RIB. The loop stops after the first of them where the measurements entry of
the prefix belongs to another strategy. The prefix is not compared with the name of the Interest.
-/

namespace KiteNdn.Fw

open List

def Action.isAnnouncement : Action → Bool
  | .slAnnounce _ _ _ => true
  | _ => false

namespace Forwarder

variable {c : Config} {s s' s₁ : Forwarder} {pa : PrefixAnnouncement}

/-- An in-record for which `registPrefix` announces. -/
def IsNonLocalDownstream (c : Config) (s : Forwarder) (r : InRecord) : Prop :=
  c.scope r.face ≠ .isLocal ∧ r.expiry > s.now

instance (c : Config) (s : Forwarder) (r : InRecord) : Decidable (s.IsNonLocalDownstream c r) :=
  inferInstanceAs (Decidable (_ ∧ _))

def downstreams (c : Config) (s : Forwarder) (records : List InRecord) : List InRecord :=
  records.filter fun r => s.IsNonLocalDownstream c r

def announcement (pa : PrefixAnnouncement) (r : InRecord) : Action :=
  .slAnnounce pa r.face announceLifetime

section Loop

structure AnnouncesAll (as : List Action) (s s' : Forwarder) : Prop where
  now : s'.now = s.now
  actions : ∃ new, s'.actions = s.actions ++ new ∧ new.filter Action.isAnnouncement = as

private theorem AnnouncesAll.of_eq (hn : s'.now = s.now) (ha : s'.actions = s.actions) :
    AnnouncesAll [] s s' :=
  ⟨hn,[],by rw [ha,append_nil],rfl⟩

private theorem AnnouncesAll.trans {as as' : List Action} (h : AnnouncesAll as s s₁)
    (h' : AnnouncesAll as' s₁ s') : AnnouncesAll (as ++ as') s s' := by
  obtain ⟨new,hnew,rfl⟩ := h.actions
  obtain ⟨new',hnew',rfl⟩ := h'.actions
  exact ⟨h'.now.trans h.now,new ++ new',by rw [hnew',hnew,append_assoc],filter_append ..⟩

private theorem AnnouncesAll.then {as : List Action} (h : AnnouncesAll as s s₁)
    (h' : AnnouncesAll [] s₁ s') : AnnouncesAll as s s' := by
  have htrans := h.trans h'
  rw [append_nil] at htrans
  exact htrans

private theorem Steady.announcesNone (h : Steady s s') : AnnouncesAll [] s s' := by
  obtain ⟨new,hnew,hpacket⟩ := h.actions
  refine ⟨h.now,new,hnew,filter_eq_nil_iff.mpr fun a ha => ?_⟩
  have hp := hpacket a ha
  cases a with
  | slAnnounce pa face lifetime => exact nomatch hp
  | _ => exact nofun

private theorem announcesAll_act (pa : PrefixAnnouncement) (r : InRecord) :
    AnnouncesAll [announcement pa r] s (s.act (announcement pa r)) :=
  ⟨rfl,[announcement pa r],rfl,rfl⟩

private theorem announcesNone_getMeasurements (name : Name) :
    AnnouncesAll [] s (s.getMeasurements name) :=
  .of_eq (getMeasurements_now name) (getMeasurements_actions name)

private theorem announcesNone_retransmit (mpName : Name) (face : FaceId) :
    AnnouncesAll [] s (s.retransmit c mpName face) := by
  unfold retransmit
  split
  · next info _ =>
    split_ifs
    · exact .of_eq rfl rfl
    · have hface : AnnouncesAll [] s (s.modifyMobileProducerInfo mpName fun i =>
          { i with faceIds := face :: i.faceIds }) := .of_eq rfl rfl
      have hsent := hface.then (steady_resends (c := c) mpName face info.pitEntrys.items).announcesNone
      exact ⟨hsent.now,hsent.actions⟩
  · exact .of_eq rfl rfl

def reached (c : Config) (pa : PrefixAnnouncement) (rs : List InRecord) : List InRecord :=
  if c.isEffective (measurementsName pa.announcedName) then rs else rs.take 1

theorem announcesAll_registPrefix (c : Config) (pa : PrefixAnnouncement) (records : List InRecord)
    (s : Forwarder) : AnnouncesAll ((reached c pa (s.downstreams c records)).map (announcement pa)) s
      (s.registPrefix c pa records) := by
  induction records generalizing s with
  | nil =>
    unfold reached
    split_ifs <;> exact .of_eq rfl rfl
  | cons r records ih =>
    rw [registPrefix]
    by_cases hr : c.scope r.face ≠ .isLocal ∧ r.expiry > s.now
    · have hfirst : s.downstreams c (r :: records) = r :: s.downstreams c records :=
        filter_cons_of_pos (decide_eq_true hr)
      have hannounced := (announcesAll_act (s := s) pa r).then
        (announcesNone_getMeasurements pa.announcedName)
      rw [if_pos hr,hfirst]
      dsimp only
      split_ifs with heff
      · have hextended : AnnouncesAll _ s (extendLifetime pa.announcedName
            (toNanoseconds pa.expiration) _) := hannounced.then (.of_eq rfl rfl)
        have hrest := hextended.then (announcesNone_retransmit (c := c) pa.announcedName r.face)
        have hall := hrest.trans (ih _)
        have hsame : ∀ {t : Forwarder}, t.now = s.now →
            t.downstreams c records = s.downstreams c records := by
          intro t ht
          exact filter_congr fun r _ => decide_eq_decide.mpr
            (by rw [IsNonLocalDownstream,IsNonLocalDownstream,ht])
        rw [hsame hrest.now] at hall
        unfold reached at hall ⊢
        rw [if_pos heff] at hall ⊢
        exact hall
      · unfold reached
        rw [if_neg heff]
        exact hannounced
    · have hskip : s.downstreams c (r :: records) = s.downstreams c records :=
        filter_cons_of_neg fun h => hr (of_decide_eq_true h)
      rw [if_neg hr,hskip]
      exact ih s

end Loop

/-- Exactly one announcement for each downstream that is not local and waits, and none for another
face. -/
structure AnnouncesEach (c : Config) (pa : PrefixAnnouncement) (e : PitEntry) (s : Forwarder) :
    Prop where
  once : ∀ r ∈ e.inRecords.items, s.IsNonLocalDownstream c r →
    ((s.registPrefix c pa e.inRecords.items).actions.drop s.actions.length).count
      (announcement pa r) = 1
  only : ∀ pa' face lifetime, Action.slAnnounce pa' face lifetime ∈
    (s.registPrefix c pa e.inRecords.items).actions.drop s.actions.length →
      ∃ r ∈ e.inRecords.items, s.IsNonLocalDownstream c r ∧ r.face = face

private theorem nodup_announcements (c : Config) (pa : PrefixAnnouncement) (e : PitEntry)
    (s : Forwarder) : ((s.downstreams c e.inRecords.items).map (announcement pa)).Nodup := by
  have hfaces : ((s.downstreams c e.inRecords.items).map InRecord.face).Nodup :=
    (e.inRecords.filter fun r => s.IsNonLocalDownstream c r).distinct
  have hinj : Function.Injective fun face => Action.slAnnounce pa face announceLifetime :=
    fun _ _ h => (Action.slAnnounce.inj h).2.1
  have hmap := hfaces.map hinj
  rw [map_map] at hmap
  exact hmap

/-- All downstreams are announced exactly if the measurements entry of the prefix belongs to the
strategy, or there is at most one downstream to announce. -/
theorem announcesEach_iff (c : Config) (pa : PrefixAnnouncement) (e : PitEntry) (s : Forwarder) :
    AnnouncesEach c pa e s ↔ c.isEffective (measurementsName pa.announcedName) = true ∨
      (s.downstreams c e.inRecords.items).length ≤ 1 := by
  obtain ⟨new,hnew,hfilter⟩ := (announcesAll_registPrefix c pa e.inRecords.items s).actions
  have hdrop : (s.registPrefix c pa e.inRecords.items).actions.drop s.actions.length = new := by
    rw [hnew,drop_left]
  have hcount : ∀ r, new.count (announcement pa r) =
      ((reached c pa (s.downstreams c e.inRecords.items)).map (announcement pa)).count
        (announcement pa r) := by
    intro r
    rw [← hfilter,count_filter rfl]
  have hnodup := nodup_announcements c pa e s
  have hmem : ∀ {r}, r ∈ s.downstreams c e.inRecords.items ↔
      r ∈ e.inRecords.items ∧ s.IsNonLocalDownstream c r := by
    intro r
    rw [downstreams,mem_filter,decide_eq_true_iff]
  constructor
  · intro h
    by_contra! hneg
    obtain ⟨hother,htwo⟩ := hneg
    -- The second downstream is not announced.
    obtain ⟨r₁,r₂,rest,hrs⟩ : ∃ r₁ r₂ rest, s.downstreams c e.inRecords.items = r₁ :: r₂ :: rest := by
      match hrs : s.downstreams c e.inRecords.items with
      | [] => rw [hrs] at htwo; exact absurd htwo (by decide)
      | [r₁] => rw [hrs] at htwo; exact absurd htwo (by decide : ¬1 < 1)
      | r₁ :: r₂ :: rest => exact ⟨r₁,r₂,rest,rfl⟩
    obtain ⟨hr₂,hwaits⟩ := hmem.mp (by rw [hrs]; simp : r₂ ∈ s.downstreams c e.inRecords.items)
    have honce := h.once r₂ hr₂ hwaits
    rw [hdrop,hcount,reached,if_neg hother,hrs] at honce
    rw [hrs] at hnodup
    have hne : announcement pa r₁ ≠ announcement pa r₂ := by
      intro heq
      simp [heq] at hnodup
    rw [take_succ_cons,take_zero,map_singleton,count_singleton,
      if_neg (by simpa using hne)] at honce
    exact nomatch honce
  · intro h
    have hall : reached c pa (s.downstreams c e.inRecords.items) =
        s.downstreams c e.inRecords.items := by
      unfold reached
      split_ifs with heff
      · rfl
      · exact take_of_length_le (h.resolve_left heff)
    rw [hall] at hcount hfilter
    constructor
    · intro r hr hwaits
      rw [hdrop,hcount]
      exact count_eq_one_of_mem hnodup (mem_map_of_mem (hmem.mpr ⟨hr,hwaits⟩))
    · intro pa' face lifetime ha
      rw [hdrop] at ha
      have hann : Action.slAnnounce pa' face lifetime ∈ new.filter Action.isAnnouncement :=
        mem_filter.mpr ⟨ha,rfl⟩
      rw [hfilter] at hann
      obtain ⟨r,hr,heq⟩ := mem_map.mp hann
      exact ⟨r,(hmem.mp hr).1,(hmem.mp hr).2,(Action.slAnnounce.inj heq).2.1⟩

def otherStrategyAtProducer : Config :=
  { fourFaces with isEffective := fun name => !producerName.isPrefixOf name }

def requestedTwice : List Event :=
  [.updateFib [Component.generic [114,118]] [4],
    .interest { name := producerAck.name, nonce := [1] } 1 false false,
    .interest { name := producerAck.name, nonce := [2] } 3 false false]

/-- The acknowledgment is announced for face 3 and not for face 1. -/
theorem downstream_not_announced : ∃ s e ack, run otherStrategyAtProducer requestedTwice = some s ∧
    s.pit.find? 0 = some e ∧ Kite.Ack.ofData producerAck = .ok ack ∧
    (s.downstreams otherStrategyAtProducer e.inRecords.items).map InRecord.face = [3,1] ∧
    (s.registPrefix otherStrategyAtProducer ack.prefixAnnouncement
      e.inRecords.items).actions.drop s.actions.length =
        [.slAnnounce ack.prefixAnnouncement 3 announceLifetime] ∧
    ¬AnnouncesEach otherStrategyAtProducer ack.prefixAnnouncement e s := by
  refine ⟨_,_,_,rfl,rfl,rfl,by decide +kernel,by decide +kernel,fun h => ?_⟩
  have hone := h.once _ (getElem_mem (n := 1) (by decide +kernel)) (by decide +kernel)
  exact absurd hone (by decide +kernel)

/-- Every announcement handed to the RIB is for the producer prefix in the name of the Interest. -/
def AnnouncesRequested (c : Config) (s : Forwarder) (d : Data) (ingress : FaceId) (id : PitId) :
    Prop :=
  ∀ e ∈ s.pit.find? id, ∀ s' ∈ s.beforeSatisfyInterest c d ingress id, ∀ pa face lifetime,
    Action.slAnnounce pa face lifetime ∈ s'.actions.drop s.actions.length →
      ∃ rvPrefix, Kite.extractPrefixes e.name = .ok (rvPrefix,pa.announcedName)

/-- The acknowledgment announces the producer prefix of the Interest, unless it cannot be decoded or
there is no downstream to announce it for. -/
def AcknowledgesRequest (c : Config) (s : Forwarder) (d : Data) (id : PitId) : Prop :=
  ∀ e ∈ s.pit.find? id, ∀ ack, Kite.Ack.ofData d = .ok ack →
    (∃ r ∈ e.inRecords.items, s.IsNonLocalDownstream c r) →
      ∃ rvPrefix, Kite.extractPrefixes e.name = .ok (rvPrefix,ack.prefixAnnouncement.announcedName)

structure Announces (pa : PrefixAnnouncement) (s s' : Forwarder) : Prop where
  now : s'.now = s.now
  actions : ∃ new, s'.actions = s.actions ++ new ∧
    ∀ pa' face lifetime, Action.slAnnounce pa' face lifetime ∈ new → pa' = pa

theorem announces_registPrefix (pa : PrefixAnnouncement) (records : List InRecord) (s : Forwarder) :
    Announces pa s (s.registPrefix c pa records) := by
  have hall := announcesAll_registPrefix c pa records s
  obtain ⟨new,hnew,hfilter⟩ := hall.actions
  refine ⟨hall.now,new,hnew,fun pa' face lifetime ha => ?_⟩
  have hann := List.mem_filter_of_mem ha (rfl : Action.isAnnouncement (.slAnnounce ..) = true)
  rw [hfilter] at hann
  obtain ⟨r,_,heq⟩ := mem_map.mp hann
  exact (Action.slAnnounce.inj heq).1.symm

private theorem mem_registPrefix (pa : PrefixAnnouncement) (records : List InRecord)
    (s : Forwarder) (h : ∃ r ∈ records, s.IsNonLocalDownstream c r) :
    ∃ face, Action.slAnnounce pa face announceLifetime ∈
      (s.registPrefix c pa records).actions.drop s.actions.length := by
  obtain ⟨new,hnew,hfilter⟩ := (announcesAll_registPrefix c pa records s).actions
  obtain ⟨r,hr,hwaits⟩ := h
  have hdownstream : r ∈ s.downstreams c records := mem_filter.mpr ⟨hr,decide_eq_true hwaits⟩
  obtain ⟨first,rest,hrs⟩ := exists_cons_of_ne_nil (List.ne_nil_of_mem hdownstream)
  have hfirst : announcement pa first ∈ new.filter Action.isAnnouncement := by
    rw [hfilter,hrs,reached]
    split_ifs <;> simp
  rw [hnew,drop_left]
  exact ⟨first.face,(mem_filter.mp hfirst).1⟩

theorem eraseMeasurement_actions {r : OutRecord} {name : Name}
    (h : s.eraseMeasurement c r name = some s') : s'.actions = s.actions := by
  unfold eraseMeasurement at h
  split at h
  · next status _ =>
    split_ifs at h
    cases h
    exact getMeasurements_actions status.mpName
  · cases h
    rfl

variable {d : Data}

private theorem beforeSatisfyInterest_announces {ingress : FaceId} {id : PitId}
    {e : PitEntry} (he : s.pit.find? id = some e)
    (h : s.beforeSatisfyInterest c d ingress id = some s') :
    (∃ ack, Kite.Ack.ofData d = .ok ack ∧
      s' = s.registPrefix c ack.prefixAnnouncement e.inRecords.items) ∨
        s'.actions = s.actions := by
  unfold beforeSatisfyInterest at h
  rw [he] at h
  dsimp only [Option.bind_some] at h
  split_ifs at h
  · split at h
    · next ack hack =>
      exact Or.inl ⟨ack,hack,(Option.some.inj h).symm⟩
    · exact nomatch h
  · right
    split at h
    · exact eraseMeasurement_actions h
    · cases h
      rfl

theorem contentType_of_ofData {ack : Kite.Ack} (h : Kite.Ack.ofData d = .ok ack) :
    d.contentType = Kite.contentTypeKiteAck := by
  by_contra hne
  rw [Kite.Ack.ofData,if_pos hne] at h
  exact nomatch h

theorem beforeSatisfyInterest_ack {ingress : FaceId} {id : PitId}
    {e : PitEntry} {ack : Kite.Ack} (he : s.pit.find? id = some e)
    (hack : Kite.Ack.ofData d = .ok ack) :
    s.beforeSatisfyInterest c d ingress id =
      some (s.registPrefix c ack.prefixAnnouncement e.inRecords.items) := by
  simp [beforeSatisfyInterest,he,contentType_of_ofData hack,hack]

theorem slAnnounce_registPrefix {records : List InRecord} {pa' : PrefixAnnouncement}
    {face : FaceId} {lifetime : Int}
    (h : Action.slAnnounce pa' face lifetime ∈
      (s.registPrefix c pa records).actions.drop s.actions.length) : pa' = pa := by
  obtain ⟨new,hnew,hp⟩ := (announces_registPrefix (c := c) pa records s).actions
  rw [hnew,drop_left] at h
  exact hp pa' face lifetime h

private theorem registPrefix_of_none (records : List InRecord)
    (h : ∀ r ∈ records, ¬s.IsNonLocalDownstream c r) : s.registPrefix c pa records = s := by
  induction records with
  | nil => rfl
  | cons r records ih =>
    have hr := h r mem_cons_self
    rw [IsNonLocalDownstream] at hr
    rw [registPrefix,if_neg hr]
    exact ih fun r' hr' => h r' (mem_cons_of_mem r hr')

/-- An entry is satisfied without an unrequested announcement exactly if the acknowledgment is for
the producer that the Interest names. -/
theorem announcesRequested_iff (c : Config) (s : Forwarder) (d : Data) (ingress : FaceId)
    (id : PitId) : s.AnnouncesRequested c d ingress id ↔ s.AcknowledgesRequest c d id := by
  constructor
  · intro h e he ack hack hr
    obtain ⟨face,hface⟩ := mem_registPrefix ack.prefixAnnouncement e.inRecords.items s hr
    exact h e he _ (beforeSatisfyInterest_ack he hack) _ face announceLifetime hface
  · intro h e he s' hs' pa face lifetime ha
    rcases beforeSatisfyInterest_announces he hs' with ⟨ack,hack,rfl⟩ | hs'
    · rw [slAnnounce_registPrefix ha]
      apply h e he ack hack
      by_contra hnone
      push Not at hnone
      rw [registPrefix_of_none _ hnone,List.drop_length] at ha
      exact nomatch ha
    · rw [hs',List.drop_length] at ha
      exact nomatch ha

def twoFaces : Config where
  scope := fun _ => .nonLocal
  linkType := fun _ => .pointToPoint
  hasFace := fun _ => true
  isEffective := fun _ => true
  isInProducerRegion := fun _ => false
  defaultHopLimit := 0

def victimAnnouncement : PrefixAnnouncement := ⟨[Component.generic [118]],1000,none⟩

def victimAck : Data := acknowledgment [Component.generic [97]] [Component.generic [118]] [3,232]

/-- The Interest `/a` is no request, and the Data that satisfies it announces `/v` for the face that
sent it. -/
theorem unrequested_prefix_announced : ∃ s e, run twoFaces [.updateFib [Component.generic [97]] [2],
        .interest { name := [Component.generic [97]], nonce := [1] } 1 false false] = some s ∧
      s.pit.find? 0 = some e ∧ e.interest.matchesData victimAck = true ∧
      Kite.extractPrefixes e.name = .error "Missing \"KITE\" keyword" ∧
      ((s.beforeSatisfyInterest twoFaces victimAck 2 0).map fun s' =>
        s'.actions.drop s.actions.length) =
          some [.slAnnounce victimAnnouncement 1 announceLifetime] ∧
      ¬s.AnnouncesRequested twoFaces victimAck 2 0 := by
  refine ⟨_,_,rfl,rfl,by decide +kernel,by decide +kernel,by decide +kernel,fun h => ?_⟩
  obtain ⟨rvPrefix,hrv⟩ := h _ rfl _ rfl victimAnnouncement 1 announceLifetime (by decide +kernel)
  have herror : Kite.extractPrefixes [Component.generic [97]] =
      .error "Missing \"KITE\" keyword" := by decide +kernel
  exact nomatch herror.symm.trans hrv

end Forwarder

end KiteNdn.Fw
