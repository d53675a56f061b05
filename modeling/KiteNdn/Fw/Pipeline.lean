import KiteNdn.Fw.KiteStrategy

/-!
# The incoming pipelines and their outcomes

Events of the forwarder for names under the KITE strategy. The Content Store and the Dead Nonce List
are outside the model: whether they know a packet is part of the event. So are the order in which
the PIT entries that match a Data are visited and the number of matching entries of other
strategies.

Relations list the operations that each pipeline is composed of. `receive` is the pipelines with the
calls of the strategy as a parameter, so that entries can be handled by different strategies.
-/

namespace KiteNdn.Fw

open Framework Option List Function

inductive Event where
  | interest (i : Interest) (ingress : FaceId) (hasDuplicateNonceInDnl csHit : Bool)
  | data (d : Data) (ingress : FaceId) (pitMatches : List PitId) (nOthers : Nat)
  | nack (nack : Nack) (ingress : FaceId)
  | finalize (id : PitId)
  | cleanup (name : Name)
  | updateFib (pfx : Name) (nextHops : List FaceId)
  | removeFace (face : FaceId)
  | elapse (d : Nat)
  deriving DecidableEq, Repr

def Event.isInterest : Event → Bool
  | .interest _ _ _ _ => true
  | _ => false

/-- Where the incoming Interest pipeline ends: with the Interest handled, or at the strategy. -/
inductive Admission where
  | handled (s : Forwarder)
  | dispatched (s : Forwarder) (i : Interest) (id : PitId)

namespace Forwarder

variable (c : Config)

section Interests

def onInterestLoop (i : Interest) (ingress : FaceId) (s : Forwarder) : Forwarder :=
  if c.linkType ingress ≠ .pointToPoint then s
  else s.act (.nack ⟨i,.duplicate⟩ ingress)

def insertPit (i : Interest) (s : Forwarder) : Forwarder × PitId :=
  match s.findPitEntry i with
  | some e => (s,e.id)
  | none => ({ s with pit := s.pit.put (PitEntry.new s.nextId i), nextId := s.nextId + 1 },s.nextId)

def hasDuplicateNonceInPit (i : Interest) (ingress : FaceId) (e : PitEntry) : Bool :=
  let dnw := e.findDuplicateNonce i.nonce ingress
  dnw ≠ 0 && !(c.linkType ingress = .pointToPoint && dnw &&& PitEntry.duplicateNonceInSame ≠ 0)

def attachHopLimit (i : Interest) : Interest :=
  if c.defaultHopLimit > 0 ∧ i.hopLimit = none then { i with hopLimit := some c.defaultHopLimit }
  else i

/-- The time from now to the last expiry of an in-record, in milliseconds. -/
def expiryFromNow (s : Forwarder) (id : PitId) : Int :=
  let lastExpiry := ((s.pit.find? id).bind PitEntry.lastExpiry).getD s.now
  (wrap64 (lastExpiry - s.now)).tdiv nanosecondsPerMillisecond

/-- A new entry shares the Interest object to which the hop limit is attached. -/
def onContentStoreMiss (i : Interest) (ingress : FaceId) (id : PitId) (isNew : Bool)
    (s : Forwarder) : Admission :=
  let i := attachHopLimit c i
  let s := s.modifyEntry id fun e =>
    (if isNew then { e with interest := i } else e).insertOrUpdateInRecord ingress i s.now
  let s := s.setExpiryTimer id (s.expiryFromNow id)
  match i.nextHopFaceId with
  | some f => .handled (if c.hasFace f then s.sendInterest c i f id else s)
  | none => .dispatched s i id

def onContentStoreHit (id : PitId) (s : Forwarder) : Forwarder :=
  ((s.modifyEntry id fun e => { e with isSatisfied := true }).setExpiryTimer id 0).settle id

def admitInterest (i : Interest) (ingress : FaceId) (hasDuplicateNonceInDnl csHit : Bool)
    (s : Forwarder) : Admission :=
  if i.hopLimit = some 0 then .handled s
  else
    let i := { i with hopLimit := i.hopLimit.map fun n => n - 1 }
    if violatesLocalhost c ingress i.name then .handled s
    else if hasDuplicateNonceInDnl then .handled (s.onInterestLoop c i ingress)
    else
      let i := if i.forwardingHint ≠ [] ∧ c.isInProducerRegion i.forwardingHint then
          { i with forwardingHint := [] } else i
      let isNew := (s.findPitEntry i).isNone
      let (s,id) := s.insertPit i
      match s.pit.find? id with
      | none => .handled s
      | some e =>
        if hasDuplicateNonceInPit c i ingress e then .handled (s.onInterestLoop c i ingress)
        else if e.inRecords.items = [] ∧ csHit then .handled (s.onContentStoreHit id)
        else s.onContentStoreMiss c i ingress id isNew

def onIncomingInterest (i : Interest) (ingress : FaceId) (hasDuplicateNonceInDnl csHit : Bool)
    (s : Forwarder) : Option Forwarder :=
  match s.admitInterest c i ingress hasDuplicateNonceInDnl csHit with
  | .handled s => some s
  | .dispatched s i id => s.afterReceiveInterest c i ingress id

end Interests

section Datas

def markSatisfied (ingress : FaceId) (id : PitId) (s : Forwarder) : Forwarder :=
  ((s.modifyEntry id fun e =>
    { e with isSatisfied := true }.deleteOutRecord ingress).answer id).settle id

def satisfyOnly (d : Data) (ingress : FaceId) (id : PitId) (s : Forwarder) : Option Forwarder :=
  ((s.setExpiryTimer id 0).beforeSatisfyInterest c d ingress id).map fun s =>
    (s.sendDataToAll c d ingress id).markSatisfied ingress id

def satisfyOne (d : Data) (ingress : FaceId) (s : Forwarder) (id : PitId) : Option Forwarder :=
  ((s.setExpiryTimer id 0).beforeSatisfyInterest c d ingress id).map fun s =>
    (s.markSatisfied ingress id).modifyEntry id PitEntry.clearInRecords

def pendingDownstreams (s : Forwarder) (ids : List PitId) : List FaceId :=
  (ids.flatMap fun id =>
    ((s.pit.find? id).map fun e =>
      (e.inRecords.items.filter fun r => r.expiry > s.now).map InRecord.face).getD []).dedup

def onIncomingData (d : Data) (ingress : FaceId) (pitMatches : List PitId) (nOthers : Nat)
    (s : Forwarder) : Option Forwarder :=
  if violatesLocalhost c ingress d.name then some s
  else if failsAck d then
    -- The exception is caught in `GenericLinkService`, after the timer of the first entry was set.
    some (pitMatches.head?.elim s fun id => s.setExpiryTimer id 0)
  else if pitMatches.length + nOthers = 1 then
    pitMatches.foldlM (fun s id => s.satisfyOnly c d ingress id) s
  else
    let downstreams := (s.pendingDownstreams pitMatches).filter fun f =>
      !(f = ingress && c.linkType f ≠ .adHoc)
    (pitMatches.foldlM (satisfyOne c d ingress) s).map fun s =>
      downstreams.foldl (fun s f => s.onOutgoingData c d f) s

end Datas

section Nacks

def acceptedNack (nack : Nack) (ingress : FaceId) (s : Forwarder) : Option PitEntry :=
  if c.linkType ingress ≠ .pointToPoint then none
  else
    (s.findPitEntry nack.interest).bind fun e =>
      (e.getOutRecord ingress).bind fun r => if r.lastNonce = nack.interest.nonce then some e else none

def setIncomingNack (reason : NackReason) (ingress : FaceId) (e : PitEntry) : PitEntry :=
  { e with outRecords := e.outRecords.modify ingress fun r => { r with incomingNack := some reason } }

def onIncomingNack (nack : Nack) (ingress : FaceId) (s : Forwarder) : Option Forwarder :=
  match s.acceptedNack c nack ingress with
  | none => some s
  | some e =>
    ((s.modifyEntry e.id (setIncomingNack nack.reason ingress)).afterReceiveNack c ingress
      e.id).map fun s =>
      if (s.pit.find? e.id).any fun e => e.hasPendingOutRecords s.now then s
      else s.setExpiryTimer e.id 0

end Nacks

section Expiry

def onInterestFinalize (id : PitId) (s : Forwarder) : Option Forwarder :=
  (s.pit.find? id).bind fun e =>
    if e.expiryTimer.any fun t => t ≤ s.now then
      some { s.settle id with pit := s.pit.filter fun e => e.id ≠ id }
    else none

def cleanupMeasurements (name : Name) (s : Forwarder) : Option Forwarder :=
  (s.measurements name).bind fun e =>
    if e.expiry ≤ s.now then
      some { s with measurements := update s.measurements name none }
    else none

/-- FIB entries have distinct next hops, at least one, and prefixes of bounded depth. -/
def updateFib (pfx : Name) (nextHops : List FaceId) (s : Forwarder) : Option Forwarder :=
  if pfx.length ≤ maxNameDepth ∧ nextHops.Nodup then
    let entry := if nextHops = [] then none else some nextHops
    some { s with fib := update s.fib pfx entry }
  else none

def deleteInOutRecords (face : FaceId) (e : PitEntry) : PitEntry :=
  (e.deleteInRecord face).deleteOutRecord face

def cleanupOnFaceRemoval (face : FaceId) (s : Forwarder) : Forwarder :=
  { s with
    pit := s.pit.map (deleteInOutRecords face) fun _ => rfl
    fib := fun p => (s.fib p).bind fun l =>
      if l.filter (fun f => f ≠ face) = [] then none else some (l.filter fun f => f ≠ face) }

end Expiry

def step (s : Forwarder) : Event → Option Forwarder
  | .interest i ingress hasDuplicateNonceInDnl csHit =>
    if c.isEffective i.name then s.onIncomingInterest c i ingress hasDuplicateNonceInDnl csHit
    else none
  | .data d ingress pitMatches nOthers =>
    if pitMatches.Perm (s.findAllDataMatches d) then
      s.onIncomingData c d ingress pitMatches nOthers
    else none
  | .nack nack ingress => s.onIncomingNack c nack ingress
  | .finalize id => s.onInterestFinalize id
  | .cleanup name => s.cleanupMeasurements name
  | .updateFib pfx nextHops => s.updateFib pfx nextHops
  | .removeFace face => some (s.cleanupOnFaceRemoval face)
  | .elapse d => some { s with now := s.now + d }

def run (events : List Event) : Option Forwarder := events.foldlM (step c) empty

end Forwarder

namespace Forwarder

variable {s s' : Forwarder}

def producerInfo (s : Forwarder) (key : Name) : Option KiteMobileProducerInfo :=
  (s.measurements key).bind MeasurementsEntry.info

theorem producerInfo_congr (h : s'.measurements = s.measurements) (key : Name) :
    s'.producerInfo key = s.producerInfo key := by
  rw [producerInfo,h,producerInfo]

theorem getMobileProducerInfo_eq (s : Forwarder) (name : Name) :
    s.getMobileProducerInfo name = s.producerInfo (measurementsName name) := rfl

theorem listed_eq (s : Forwarder) (key name : Name) : s.listed key name =
      ((s.producerInfo key).bind fun i => i.pitEntrys.find? name).map Prod.snd := rfl

@[simp] theorem producerInfo_getMeasurements (s : Forwarder) (name key : Name) :
    (s.getMeasurements name).producerInfo key = s.producerInfo key := by
  unfold getMeasurements
  dsimp only
  split
  · rfl
  · next h =>
    by_cases hkey : key = measurementsName name
    · subst hkey
      simp [producerInfo,h]
    · simp [producerInfo,hkey]

private theorem getMeasurements_eq (name : Name) :
    s.getMeasurements name = { s with measurements := (s.getMeasurements name).measurements } := by
  unfold getMeasurements
  dsimp only
  split
  · rfl
  · rfl

theorem getMeasurements_pit (name : Name) : (s.getMeasurements name).pit = s.pit := by
  rw [getMeasurements_eq]

theorem getMeasurements_now (name : Name) : (s.getMeasurements name).now = s.now := by
  rw [getMeasurements_eq]

theorem getMeasurements_actions (name : Name) : (s.getMeasurements name).actions = s.actions := by
  rw [getMeasurements_eq]

theorem getMeasurements_history (name : Name) : (s.getMeasurements name).history = s.history := by
  rw [getMeasurements_eq]

theorem getMeasurements_nextId (name : Name) : (s.getMeasurements name).nextId = s.nextId := by
  rw [getMeasurements_eq]

private theorem producerInfo_modifyMeasurements (s : Forwarder) (name key : Name)
    (f : MeasurementsEntry → MeasurementsEntry) :
    (s.modifyMeasurements name f).producerInfo key =
      if key = measurementsName name then (s.measurements key).bind fun e => (f e).info
      else s.producerInfo key := by
  by_cases hkey : key = measurementsName name
  · subst hkey
    cases h : s.measurements (measurementsName name) <;> simp [producerInfo,modifyMeasurements,h]
  · simp [producerInfo,modifyMeasurements,hkey]

theorem producerInfo_modifyMobileProducerInfo (s : Forwarder) (name key : Name)
    (f : KiteMobileProducerInfo → KiteMobileProducerInfo) :
    (s.modifyMobileProducerInfo name f).producerInfo key =
      if key = measurementsName name then (s.producerInfo key).map f else s.producerInfo key := by
  unfold modifyMobileProducerInfo
  rw [producerInfo_modifyMeasurements]
  split_ifs
  · cases h : s.measurements key <;> simp [producerInfo,h]
  · rfl

@[simp] theorem producerInfo_extendLifetime (s : Forwarder) (name key : Name) (lifetime : Time) :
    (s.extendLifetime name lifetime).producerInfo key = s.producerInfo key := by
  unfold extendLifetime
  rw [producerInfo_modifyMeasurements]
  split_ifs
  · rfl
  · rfl

theorem producerInfo_insertMobileProducerInfo (s : Forwarder) (name key : Name) :
    (s.insertMobileProducerInfo name).producerInfo key =
      if key = measurementsName name then
        (s.measurements key).map fun e => e.info.getD ⟨KeyedList.empty,[]⟩
      else s.producerInfo key := by
  unfold insertMobileProducerInfo
  rw [producerInfo_modifyMeasurements]
  split_ifs
  · cases h : s.measurements key <;> simp
  · rfl

theorem measurements_getMeasurements_isSome (s : Forwarder) (name : Name) :
    ((s.getMeasurements name).measurements (measurementsName name)).isSome = true := by
  unfold getMeasurements
  dsimp only
  split
  · next h => rw [h]; rfl
  · simp

end Forwarder

open Option

def Admission.state : Admission → Forwarder
  | .handled s => s
  | .dispatched s _ _ => s

namespace Forwarder

variable {c : Config} {s s' : Forwarder} {ingress : FaceId} {id : PitId}

def nextHops (c : Config) (i : Interest) (ingress : FaceId) (s : Forwarder) (e : PitEntry) :
    List FaceId :=
  if kiteHint i ≠ [] ∧ (s.producerHops c i ingress e).2 = [] then
    (s.findLongestPrefixMatch (kiteHint i)).2.filter fun f => isNextHopEligible c ingress i f
  else (s.producerHops c i ingress e).2

/-- The Interest is sent to next hops that are not marked, or rejected. -/
inductive Relays (c : Config) (i : Interest) (ingress : FaceId) (id : PitId) (hops : List FaceId)
    (s : Forwarder) : Forwarder → Prop where
  | refl : Relays c i ingress id hops s s
  | sendToAll {s' : Forwarder} :
      Relays c i ingress id hops s s' → Relays c i ingress id hops s (s'.sendToAll c i id hops)
  | rejectInterest {s' : Forwarder} :
      Relays c i ingress id hops s s' → Relays c i ingress id hops s (s'.rejectInterest c ingress id)

/-- The Interest is sent to the producer and its entry recorded. -/
structure Forwards (c : Config) (i : Interest) (ingress : FaceId) (id : PitId) (e : PitEntry)
    (s s₁ s' : Forwarder) : Prop where
  kite : kiteHint i ≠ []
  hops : (s.producerHops c i ingress e).2 ≠ []
  sent : (s.producerHops c i ingress e).2.foldlM
    (sendToProducer c i id (s.producerHops c i ingress e).1)
      (s.modifyEntry id (setInStatus (kiteHint i) ingress)) = some s₁
  recorded : s₁.recordPitEntry c (s.producerHops c i ingress e).1 i.name id = some s'

theorem afterReceiveInterest_cases {i : Interest}
    (h : s.afterReceiveInterest c i ingress id = some s') :
    ∃ e, s.pit.find? id = some e ∧
      ((∃ s₁, Forwards c i ingress id e s s₁ s') ∨
        Relays c i ingress id (s.nextHops c i ingress e) s s') := by
  unfold afterReceiveInterest at h
  obtain ⟨e,he,h⟩ := bind_eq_some_iff.mp h
  refine ⟨e,he,?_⟩
  by_cases hkite : kiteHint i ≠ []
  · rw [if_pos hkite] at h
    dsimp only at h
    by_cases hhops : (s.producerHops c i ingress e).2 ≠ []
    · rw [if_pos hhops] at h
      obtain ⟨s₁,hs₁,h⟩ := bind_eq_some_iff.mp h
      exact Or.inl ⟨s₁,hkite,hhops,hs₁,h⟩
    · rw [if_neg hhops] at h
      right
      rw [nextHops,if_pos ⟨hkite,not_not.mp hhops⟩]
      by_cases hrv : ((s.findLongestPrefixMatch (kiteHint i)).2.filter fun f =>
          isNextHopEligible c ingress i f) ≠ []
      · rw [if_pos hrv] at h
        cases h
        exact .sendToAll .refl
      · rw [if_neg hrv] at h
        cases h
        exact .rejectInterest .refl
  · rw [if_neg hkite] at h
    right
    rw [nextHops,if_neg fun hno => hkite hno.1]
    have hstart : Relays c i ingress id (s.producerHops c i ingress e).2 s
        (if (s.lookupFib e).2 = [] then s.rejectInterest c ingress id else s) := by
      split_ifs
      · exact .rejectInterest .refl
      · exact .refl
    dsimp only at h
    by_cases hhops : ((s.lookupFib e).2.filter fun f => isNextHopEligible c ingress i f) ≠ []
    · rw [if_pos hhops] at h
      cases h
      exact hstart.sendToAll
    · rw [if_neg hhops] at h
      cases h
      exact hstart.rejectInterest

inductive Admits (c : Config) (ingress : FaceId) (s : Forwarder) : Admission → Prop where
  | dropped : Admits c ingress s (.handled s)
  | looped (i : Interest) : Admits c ingress s (.handled (s.onInterestLoop c i ingress))
  | unfound (i : Interest) : Admits c ingress s (.handled (s.insertPit i).1)
  | looping (i : Interest) :
      Admits c ingress s (.handled ((s.insertPit i).1.onInterestLoop c i ingress))
  | hit (i : Interest) :
      Admits c ingress s (.handled ((s.insertPit i).1.onContentStoreHit (s.insertPit i).2))
  | miss (i : Interest) :
      Admits c ingress s ((s.insertPit i).1.onContentStoreMiss c i ingress (s.insertPit i).2
        (s.findPitEntry i).isNone)

theorem admits_admitInterest (s : Forwarder) (i : Interest) (ingress : FaceId)
    (inDnl csHit : Bool) : Admits c ingress s (s.admitInterest c i ingress inDnl csHit) := by
  unfold admitInterest
  dsimp only
  split_ifs
  · exact .dropped
  · exact .dropped
  · exact .looped _
  -- with and without the forwarding hint
  all_goals
    split
    · exact .unfound _
    · split_ifs
      · exact .looping _
      · exact .hit _
      · exact .miss _

theorem onIncomingInterest_cases {i : Interest} {inDnl csHit : Bool}
    (h : s.onIncomingInterest c i ingress inDnl csHit = some s') :
    Admits c ingress s (.handled s') ∨ ∃ s₀ i₁ id,
      s.admitInterest c i ingress inDnl csHit = .dispatched s₀ i₁ id ∧
      Admits c ingress s (.dispatched s₀ i₁ id) ∧
      s₀.afterReceiveInterest c i₁ ingress id = some s' := by
  have hadmits := admits_admitInterest (c := c) s i ingress inDnl csHit
  unfold onIncomingInterest at h
  split at h
  · next heq =>
    rw [heq,some.inj h] at hadmits
    exact Or.inl hadmits
  · next heq => exact Or.inr ⟨_,_,_,heq,heq ▸ hadmits,h⟩

def admitted (c : Config) (i : Interest) (ingress : FaceId) (isNew : Bool) (now : Time)
    (e : PitEntry) : PitEntry :=
  (if isNew then { e with interest := attachHopLimit c i } else e).insertOrUpdateInRecord ingress
    (attachHopLimit c i) now

/-- A miss records the downstream and restarts the timer; then the Interest may go straight to the
face that its tag names. -/
theorem onContentStoreMiss_cases (s : Forwarder) (i : Interest) (ingress : FaceId) (id : PitId)
    (isNew : Bool) :
    ∃ duration, ∃ t, t = (s.modifyEntry id (admitted c i ingress isNew s.now)).setExpiryTimer id
        duration ∧
      ((attachHopLimit c i).nextHopFaceId = none ∧
          s.onContentStoreMiss c i ingress id isNew = .dispatched t (attachHopLimit c i) id ∨
        s.onContentStoreMiss c i ingress id isNew = .handled t ∨
        ∃ face, (attachHopLimit c i).nextHopFaceId = some face ∧ c.hasFace face = true ∧
          s.onContentStoreMiss c i ingress id isNew =
            .handled (t.sendInterest c (attachHopLimit c i) face id)) := by
  let t := s.modifyEntry id (admitted c i ingress isNew s.now)
  refine ⟨t.expiryFromNow id,_,rfl,?_⟩
  cases h : (attachHopLimit c i).nextHopFaceId with
  | none =>
    left
    refine ⟨rfl,?_⟩
    simp only [onContentStoreMiss,h]
    rfl
  | some face =>
    right
    cases hface : c.hasFace face with
    | false =>
      left
      simp only [onContentStoreMiss,h,hface]
      rfl
    | true =>
      right
      refine ⟨face,rfl,hface,?_⟩
      simp only [onContentStoreMiss,h,hface]
      rfl

inductive Satisfies (c : Config) (d : Data) (ingress : FaceId) (e : PitEntry) (s : Forwarder) :
    Forwarder → Prop where
  | ack (ack : Kite.Ack) : d.contentType = Kite.contentTypeKiteAck → Kite.Ack.ofData d = .ok ack →
      Satisfies c d ingress e s (s.registPrefix c ack.prefixAnnouncement e.inRecords.items)
  | erase {s' : Forwarder} (r : OutRecord) : d.contentType ≠ Kite.contentTypeKiteAck →
      e.getOutRecord ingress = some r → s.eraseMeasurement c r e.name = some s' →
        Satisfies c d ingress e s s'
  | other : d.contentType ≠ Kite.contentTypeKiteAck → e.getOutRecord ingress = none →
      Satisfies c d ingress e s s

theorem beforeSatisfyInterest_cases {d : Data}
    (h : s.beforeSatisfyInterest c d ingress id = some s') :
    ∃ e, s.pit.find? id = some e ∧ Satisfies c d ingress e s s' := by
  unfold beforeSatisfyInterest at h
  obtain ⟨e,he,h⟩ := bind_eq_some_iff.mp h
  refine ⟨e,he,?_⟩
  split_ifs at h with hack
  · split at h
    · next ack hdata =>
      cases h
      exact .ack ack hack hdata
    · exact nomatch h
  · split at h
    · next r hr => exact .erase r hack hr h
    · next hr =>
      cases h
      exact .other hack hr

/-- The first half of `afterReceiveNack`: the route of the mark is withdrawn. -/
def withdrawRoute (c : Config) (ingress : FaceId) (id : PitId) (s : Forwarder) : Option Forwarder :=
  (s.pit.find? id).bind fun e =>
    match (e.getOutRecord ingress).bind OutRecord.info with
    | some status =>
      if status.retrasmissionStage = InterestRetrasmissionStage.straightForward then
        s.removePrefix c status.mpName ingress
      else some s
    | none => some s

def notNacked (e : PitEntry) : List OutRecord :=
  e.outRecords.items.filter fun r => r.incomingNack.isNone

def triedAll (c : Config) (id : PitId) (e : PitEntry) (s : Forwarder) : Forwarder × Bool :=
  s.dealNacks c id (e.inRecords.items.map InRecord.face)

inductive ProcessesNack (c : Config) (id : PitId) (e : PitEntry) (s : Forwarder) :
    Forwarder → Prop where
  | waits : ProcessesNack c id e s s
  | triesAll : notNacked e = [] → (triedAll c id e s).2 = true →
      ProcessesNack c id e s (triedAll c id e s).1
  | triesOne (outFace : FaceId) : (s.dealNack c id outFace).2 = true →
      ProcessesNack c id e s (s.dealNack c id outFace).1
  | returnsAll {s' : Forwarder} : notNacked e = [] → (triedAll c id e s).2 = false →
      ((triedAll c id e s).1.sendNacks c (leastSevereReason e.outRecords.items) id).eraseWith c
        (fun e => e.outRecords.items.head?) id = some s' →
      ProcessesNack c id e s ((s'.answerIfIdle id).settleIfIdle id)
  | returnsOne {s' : Forwarder} (r : OutRecord) : notNacked e = [r] →
      (e.getInRecord r.face).isSome = true → (s.dealNack c id r.face).2 = false →
      ((s.dealNack c id r.face).1.sendNack c (leastSevereReason e.outRecords.items) r.face
        id).eraseWith c (fun e => e.getOutRecord r.face) id = some s' →
      ProcessesNack c id e s (s'.settleIfIdle id)

theorem processNack_cases {e : PitEntry} (he : s.pit.find? id = some e)
    (h : s.processNack c id = some s') : ProcessesNack c id e s s' := by
  unfold processNack at h
  rw [he,bind_some] at h
  dsimp only at h
  split at h
  · next hnone =>
    rw [sendNacksForProcessNackTraits,he,bind_some] at h
    dsimp only at h
    split_ifs at h with hdealt
    · cases h
      exact .triesAll hnone hdealt
    · obtain ⟨s₁,hs₁,rfl⟩ := map_eq_some_iff.mp h
      exact .returnsAll hnone (Bool.eq_false_of_not_eq_true hdealt) hs₁
  · next r hone =>
    split_ifs at h with hin
    · rw [sendNackForProcessNackTraits] at h
      dsimp only at h
      split_ifs at h with hdealt
      · cases h
        exact .triesOne r.face hdealt
      · obtain ⟨s₁,hs₁,rfl⟩ := map_eq_some_iff.mp h
        exact .returnsOne r hone hin (Bool.eq_false_of_not_eq_true hdealt) hs₁
    · cases h
      exact .waits
  · cases h
    exact .waits

theorem find_of_acceptedNack {nack : Nack} {e : PitEntry}
    (he : s.acceptedNack c nack ingress = some e) : s.pit.find? e.id = some e := by
  unfold acceptedNack at he
  split_ifs at he
  obtain ⟨e',he',he⟩ := bind_eq_some_iff.mp he
  obtain ⟨r,_,he⟩ := bind_eq_some_iff.mp he
  split_ifs at he
  cases he
  exact s.pit.find?_eq_some.mpr ⟨mem_of_find?_eq_some he',rfl⟩

/-- A Nack that is not accepted changes nothing; otherwise it is noted on the out-record, the route
is withdrawn, the Nack is processed, and the timer may be set. -/
theorem onIncomingNack_cases {nack : Nack} (h : s.onIncomingNack c nack ingress = some s') :
    (s.acceptedNack c nack ingress = none ∧ s' = s) ∨
      ∃ e s₁ s₂, s.acceptedNack c nack ingress = some e ∧
        (s.modifyEntry e.id (setIncomingNack nack.reason ingress)).withdrawRoute c ingress e.id =
          some s₁ ∧
        s₁.processNack c e.id = some s₂ ∧ (s' = s₂ ∨ s' = s₂.setExpiryTimer e.id 0) := by
  unfold onIncomingNack at h
  split at h
  · next hnone =>
    cases h
    exact Or.inl ⟨hnone,rfl⟩
  · next e he =>
    obtain ⟨s₂,hs₂,rfl⟩ := map_eq_some_iff.mp h
    rw [afterReceiveNack] at hs₂
    obtain ⟨e₁,he₁,hs₂⟩ := bind_eq_some_iff.mp hs₂
    obtain ⟨s₁,hs₁,hs₂⟩ := bind_eq_some_iff.mp hs₂
    refine Or.inr ⟨e,s₁,s₂,he,?_,hs₂,?_⟩
    · rw [withdrawRoute,he₁]
      exact hs₁
    · split_ifs
      · exact Or.inl rfl
      · exact Or.inr rfl

section Steps

variable {event : Event}

def finalized (id : PitId) (s : Forwarder) : Forwarder :=
  { s.settle id with pit := s.pit.filter fun e => e.id ≠ id }

theorem onInterestFinalize_eq (h : s.onInterestFinalize id = some s') : s' = s.finalized id := by
  obtain ⟨e,_,h⟩ := bind_eq_some_iff.mp h
  split_ifs at h
  exact (some.inj h).symm

theorem find_of_finalized {id' : PitId} {e : PitEntry}
    (h : (s.finalized id).pit.find? id' = some e) : s.pit.find? id' = some e := by
  rw [finalized,KeyedList.find?_filter] at h
  exact (filter_eq_some_iff.mp h).1

def withoutMeasurements (name : Name) (s : Forwarder) : Forwarder :=
  { s with measurements := update s.measurements name none }

theorem cleanupMeasurements_eq {name : Name} (h : s.cleanupMeasurements name = some s') :
    s' = s.withoutMeasurements name := by
  obtain ⟨e,_,h⟩ := bind_eq_some_iff.mp h
  split_ifs at h
  exact (some.inj h).symm

theorem updateFib_eq {pfx : Name} {nextHops : List FaceId}
    (h : s.updateFib pfx nextHops = some s') : ∃ fib, s' = { s with fib := fib } := by
  unfold updateFib at h
  split_ifs at h <;> exact ⟨_,(some.inj h).symm⟩

theorem isAlive_of_mem_findAllDataMatches {d : Data} (h : id ∈ s.findAllDataMatches d) :
    s.isAlive id = true := by
  obtain ⟨e,he,rfl⟩ := mem_map.mp h
  rw [isAlive,s.pit.find?_eq_some.mpr ⟨(mem_filter.mp he).1,rfl⟩]
  rfl

theorem nodup_findAllDataMatches (s : Forwarder) (d : Data) : (s.findAllDataMatches d).Nodup :=
  s.pit.distinct.sublist (List.filter_sublist.map PitEntry.id)

inductive Stepped (c : Config) (s : Forwarder) : Event → Forwarder → Prop where
  | interest {i ingress inDnl csHit s'} (h : s.onIncomingInterest c i ingress inDnl csHit = some s') :
      Stepped c s (.interest i ingress inDnl csHit) s'
  | data {d ingress pitMatches nOthers s'} (hnodup : pitMatches.Nodup)
      (halive : ∀ id ∈ pitMatches, s.isAlive id = true)
      (h : s.onIncomingData c d ingress pitMatches nOthers = some s') :
      Stepped c s (.data d ingress pitMatches nOthers) s'
  | nack {nack ingress s'} (h : s.onIncomingNack c nack ingress = some s') :
      Stepped c s (.nack nack ingress) s'
  | finalize (id : PitId) : Stepped c s (.finalize id) (s.finalized id)
  | cleanup (name : Name) : Stepped c s (.cleanup name) (s.withoutMeasurements name)
  | updateFib {pfx nextHops} (fib : Name → Option (List FaceId)) :
      Stepped c s (.updateFib pfx nextHops) { s with fib := fib }
  | removeFace (face : FaceId) : Stepped c s (.removeFace face) (s.cleanupOnFaceRemoval face)
  | elapse (d : Nat) : Stepped c s (.elapse d) { s with now := s.now + d }

theorem step_cases (h : s.step c event = some s') : Stepped c s event s' := by
  cases event with
  | interest i ingress inDnl csHit =>
    dsimp only [step] at h
    split_ifs at h
    exact .interest h
  | data d ingress pitMatches nOthers =>
    dsimp only [step] at h
    split_ifs at h with hperm
    exact .data (hperm.nodup_iff.mpr (s.nodup_findAllDataMatches d))
      (fun id hid => isAlive_of_mem_findAllDataMatches (hperm.mem_iff.mp hid)) h
  | nack nack ingress => exact .nack h
  | finalize id => exact onInterestFinalize_eq h ▸ .finalize id
  | cleanup name => exact cleanupMeasurements_eq h ▸ .cleanup name
  | updateFib pfx nextHops =>
    obtain ⟨fib,rfl⟩ := updateFib_eq h
    exact .updateFib fib
  | removeFace face => exact some.inj h ▸ .removeFace face
  | elapse d => exact some.inj h ▸ .elapse d

end Steps

section Scenario

def fourFaces : Config where
  scope := fun f => if f = 9 then .isLocal else .nonLocal
  linkType := fun _ => .pointToPoint
  hasFace := fun _ => true
  isEffective := fun _ => true
  isInProducerRegion := fun _ => false
  defaultHopLimit := 0

def producerName : Name := [Component.generic [112]]

def producerInterest : Interest where
  name := [Component.generic [112],Component.generic [120]]
  nonce := [1]
  forwardingHint := [[Kite.kiteKeyword,Component.generic [114,118]]]

def producerEvents : List Event :=
  [.updateFib producerName [2],.interest producerInterest 1 false false]

def producerAck : Data :=
  acknowledgment [Component.generic [114,118],Kite.kiteKeyword,Component.generic [112],
    Component.generic [49]] producerName [3,232]

def movedEvents : List Event :=
  producerEvents ++ [.updateFib [Component.generic [114,118]] [4],
    .interest { name := producerAck.name, nonce := [2] } 3 false false,
    .data producerAck 4 [1] 0]

def requestEvents (id : PitId) : List Event :=
  [.updateFib [Component.generic [114,118]] [4],
    .interest { name := producerAck.name, nonce := [2] } 3 false false,.data producerAck 4 [id] 0]

end Scenario

end Forwarder

end KiteNdn.Fw
