import KiteNdn.Fw.Pipeline

/-!
# What the packet pipelines leave alone

Sending packets, renewing records and setting timers change neither the measurements nor the
Interests of the PIT entries that are there.
-/

namespace KiteNdn.Fw

open Framework Option List Bool

variable {e : PitEntry} {ingress face : FaceId}

def Action.isPacket : Action → Bool
  | .interest _ _ _ | .data _ _ | .nack _ _ => true
  | .slAnnounce _ _ _ | .slRenew _ _ _ => false

namespace PitEntry

def outStatus (e : PitEntry) (face : FaceId) : Option KiteInterestStatus :=
  (e.getOutRecord face).bind OutRecord.info

@[simp] theorem outStatus_insertOrUpdateOutRecord (e : PitEntry) (egress : FaceId) (i : Interest)
    (now : Time) (face : FaceId) :
    (e.insertOrUpdateOutRecord egress i now).outStatus face = e.outStatus face := by
  unfold outStatus getOutRecord insertOrUpdateOutRecord
  rw [KeyedList.find?_putFront]
  split_ifs with h
  · rw [h]
    rfl
  · rfl

theorem outStatus_setOutStatus (e : PitEntry) (mpName : Name) (outFace face : FaceId) :
    (Forwarder.setOutStatus mpName outFace e).outStatus face =
      if face = outFace then
        (e.getOutRecord outFace).map fun r =>
          { r.info.getD { retrasmissionStage := .straightForward } with
            retrasmissionStage := .straightForward, mpName := mpName }
      else e.outStatus face := by
  unfold outStatus getOutRecord Forwarder.setOutStatus
  rw [KeyedList.find?_modify _ (by intro; rfl)]
  split_ifs with h
  · cases e.outRecords.find? outFace <;> rfl
  · rfl

@[simp] theorem outStatus_setIncomingNack (e : PitEntry) (reason : NackReason)
    (ingress face : FaceId) :
    (Forwarder.setIncomingNack reason ingress e).outStatus face = e.outStatus face := by
  unfold outStatus getOutRecord Forwarder.setIncomingNack
  rw [KeyedList.find?_modify _ (by intro; rfl)]
  split_ifs with h
  · rw [h]
    cases e.outRecords.find? ingress <;> rfl
  · rfl

theorem outStatus_deleteOutRecord {face : FaceId} {status : KiteInterestStatus}
    (h : (e.deleteOutRecord ingress).outStatus face = some status) :
    e.outStatus face = some status := by
  unfold outStatus getOutRecord deleteOutRecord at h
  rw [KeyedList.find?_filter] at h
  obtain ⟨r,hr,hinfo⟩ := bind_eq_some_iff.mp h
  rw [outStatus,getOutRecord,(filter_eq_some_iff.mp hr).1]
  exact hinfo

end PitEntry

/-- The changes of a PIT entry. -/
inductive Change where
  | enter (face : FaceId) (i : Interest) (now : Time)
  | send (face : FaceId) (i : Interest) (now : Time)
  | mark (mpName : Name) (face : FaceId)
  | setInStatus (rvName : Name) (face : FaceId)
  | setInStage (stage : InterestRetrasmissionStage) (face : FaceId)
  | setIncomingNack (reason : NackReason) (face : FaceId)
  | deleteIn (face : FaceId)
  | deleteOut (face : FaceId)
  | clearIn
  | setTimer (expiry : Time)
  | satisfy
  deriving DecidableEq, Repr

namespace Change

variable {x : Change}

def apply : Change → PitEntry → PitEntry
  | enter face i now, e => e.insertOrUpdateInRecord face i now
  | send face i now, e => e.insertOrUpdateOutRecord face i now
  | mark mpName face, e => Forwarder.setOutStatus mpName face e
  | setInStatus rvName face, e => Forwarder.setInStatus rvName face e
  | setInStage stage face, e => Forwarder.setInStage stage face e
  | setIncomingNack reason face, e => Forwarder.setIncomingNack reason face e
  | deleteIn face, e => e.deleteInRecord face
  | deleteOut face, e => e.deleteOutRecord face
  | clearIn, e => e.clearInRecords
  | setTimer expiry, e => { e with expiryTimer := some expiry }
  | satisfy, e => { e with isSatisfied := true }

def isSend : Change → Bool
  | send _ _ _ => true
  | _ => false

/-- Nothing that only an Interest does: no new in-record, no mark, and no in-record gets a status. -/
def isPlain : Change → Bool
  | enter _ _ _ | mark _ _ | setInStatus _ _ | setInStage .straightForward _ => false
  | _ => true

def isRoutine : Change → Bool
  | setIncomingNack _ _ => false
  | x => x.isPlain

/-- If the change sends an Interest, it does so on a face that `P` allows. -/
def GoesTo (P : FaceId → Prop) : Change → Prop
  | send face _ _ => P face
  | _ => True

theorem isRoutine_of_isSend (h : x.isSend = true) : x.isRoutine = true := by
  cases x <;> first | rfl | exact nomatch h

theorem isPlain_of_isRoutine (h : x.isRoutine = true) : x.isPlain = true := by
  cases x <;> first | rfl | exact h

@[simp] theorem apply_id (x : Change) (e : PitEntry) : (x.apply e).id = e.id := by
  cases x <;> rfl

@[simp] theorem apply_interest (x : Change) (e : PitEntry) :
    (x.apply e).interest = e.interest := by
  cases x <;> rfl

end Change

def Action.isInterest : Action → Bool
  | .interest _ _ _ => true
  | _ => false

namespace Forwarder

variable {c : Config} {s s' s₁ s₂ : Forwarder} {id : PitId} {i : Interest} {f : PitEntry → PitEntry}

def interestOf (s : Forwarder) (id : PitId) : Option Interest :=
  (s.pit.find? id).map PitEntry.interest

theorem isAlive_iff : s.isAlive id = true ↔ ∃ i, s.interestOf id = some i := by
  rw [isAlive,interestOf,← isSome_map,isSome_iff_exists]

theorem interestOf_of_find (h : s.pit.find? id = some e) : s.interestOf id = some e.interest := by
  rw [interestOf,h]
  rfl

structure KeepsEntries (s s' : Forwarder) : Prop where
  nextId : s.nextId ≤ s'.nextId
  entries : ∀ id < s.nextId, s'.interestOf id = s.interestOf id
  fresh : ∀ id, s'.isAlive id = true → s.isAlive id = true ∨ id < s'.nextId

theorem KeepsEntries.trans (h : KeepsEntries s s₁) (h' : KeepsEntries s₁ s₂) :
    KeepsEntries s s₂ := by
  refine ⟨h.nextId.trans h'.nextId,fun id hid => ?_,fun id ha => ?_⟩
  · exact (h'.entries id (hid.trans_le h.nextId)).trans (h.entries id hid)
  · rcases h'.fresh id ha with ha | hlt
    · rcases h.fresh id ha with ha | hlt
      · exact Or.inl ha
      · exact Or.inr (hlt.trans_le h'.nextId)
    · exact Or.inr hlt

theorem keepsEntries_of_pit (hpit : s'.pit = s.pit) (hid : s'.nextId = s.nextId) :
    KeepsEntries s s' := by
  refine ⟨hid.ge,fun id _ => by rw [interestOf,hpit,interestOf],fun id ha => Or.inl ?_⟩
  rw [isAlive,hpit] at ha
  exact ha

structure Steady (s s' : Forwarder) : Prop extends KeepsEntries s s' where
  measurements : s'.measurements = s.measurements
  pending : ∀ p ∈ s'.history.pending, p ∈ s.history.pending
  recorded : s'.history.recorded = s.history.recorded
  answered : s'.history.answered = s.history.answered
  retransmissions : s'.history.retransmissions = s.history.retransmissions
  alive : ∀ id, s.isAlive id = true → s'.isAlive id = true
  now : s'.now = s.now
  fib : s'.fib = s.fib
  actions : ∃ new, s'.actions = s.actions ++ new ∧ ∀ a ∈ new, a.isPacket = true

namespace Steady

theorem refl (s : Forwarder) : Steady s s :=
  ⟨keepsEntries_of_pit rfl rfl,rfl,fun _ h => h,rfl,rfl,rfl,fun _ h => h,rfl,rfl,[],by simp,by simp⟩

theorem trans (h : Steady s s₁) (h' : Steady s₁ s₂) : Steady s s₂ := by
  obtain ⟨new,hnew,hp⟩ := h.actions
  obtain ⟨new',hnew',hp'⟩ := h'.actions
  constructor
  · exact h.toKeepsEntries.trans h'.toKeepsEntries
  · exact h'.measurements.trans h.measurements
  · exact fun p hm => h.pending p (h'.pending p hm)
  · exact h'.recorded.trans h.recorded
  · exact h'.answered.trans h.answered
  · exact h'.retransmissions.trans h.retransmissions
  · exact fun id ha => h'.alive id (h.alive id ha)
  · exact h'.now.trans h.now
  · exact h'.fib.trans h.fib
  · exact ⟨new ++ new',by rw [hnew',hnew,append_assoc],forall_mem_append.mpr ⟨hp,hp'⟩⟩

end Steady

theorem Steady.find (h : Steady s s') {id : PitId} (he : s.pit.find? id = some e) :
    ∃ e', s'.pit.find? id = some e' := by
  apply isSome_iff_exists.mp
  apply h.alive id
  rw [isAlive,he]
  rfl

section Entries

theorem getOutRecord_face {face : FaceId} {r : OutRecord} (h : e.getOutRecord face = some r) :
    e.getOutRecord r.face = some r := by
  rw [e.outRecords.find?_key h]
  exact h

theorem getOutRecord_head {r : OutRecord} (h : e.outRecords.items.head? = some r) :
    e.getOutRecord r.face = some r :=
  e.outRecords.find?_eq_some.mpr ⟨List.mem_of_head? h,rfl⟩

theorem find_modifyEntry (s : Forwarder) (id : PitId) (hf : ∀ e, (f e).id = e.id) (id' : PitId) :
    (s.modifyEntry id f).pit.find? id' =
      if id' = id then (s.pit.find? id).map f else s.pit.find? id' :=
  s.pit.find?_modify hf id'

theorem interestOf_modifyEntry (hf : ∀ e, (f e).id = e.id) (hi : ∀ e, (f e).interest = e.interest)
    (id' : PitId) : (s.modifyEntry id f).interestOf id' = s.interestOf id' := by
  unfold interestOf
  rw [find_modifyEntry s id hf]
  by_cases h : id' = id
  · subst id'
    rw [if_pos rfl,Option.map_map]
    congr 1
    funext e
    exact hi e
  · rw [if_neg h]

private theorem isAlive_modifyEntry (hf : ∀ e, (f e).id = e.id) (id' : PitId) :
    (s.modifyEntry id f).isAlive id' = s.isAlive id' := by
  unfold isAlive
  rw [find_modifyEntry s id hf]
  by_cases h : id' = id
  · subst id'
    simp
  · rw [if_neg h]

theorem steady_modifyEntry (hf : ∀ e, (f e).id = e.id) (hi : ∀ e, (f e).interest = e.interest) :
    Steady s (s.modifyEntry id f) := by
  refine ⟨⟨le_rfl,fun id' _ => interestOf_modifyEntry hf hi id',fun id' h => ?_⟩,rfl,fun _ h => h,
    rfl,rfl,rfl,fun id' h => ?_,rfl,rfl,[],by simp [modifyEntry],by simp⟩
  · rw [isAlive_modifyEntry hf] at h
    exact Or.inl h
  · rw [isAlive_modifyEntry hf]
    exact h

private theorem Steady.modifyNew (h : Steady s s₁) (hid : s.nextId ≤ id)
    (hf : ∀ e, (f e).id = e.id) : Steady s (s₁.modifyEntry id f) := by
  refine ⟨⟨h.nextId,fun id' hlt => ?_,fun id' ha => ?_⟩,h.measurements,h.pending,h.recorded,
    h.answered,h.retransmissions,fun id' ha => ?_,h.now,h.fib,h.actions⟩
  · rw [← h.entries id' hlt,interestOf,find_modifyEntry s₁ id hf,
      if_neg (hlt.trans_le hid).ne]
    rfl
  · rw [isAlive_modifyEntry hf] at ha
    exact h.fresh id' ha
  · rw [isAlive_modifyEntry hf]
    exact h.alive id' ha

theorem steady_act {a : Action} (ha : a.isPacket = true) : Steady s (s.act a) :=
  ⟨keepsEntries_of_pit rfl rfl,rfl,fun _ h => h,rfl,rfl,rfl,fun _ h => h,rfl,rfl,[a],rfl,by simp [ha]⟩

theorem steady_settle (id : PitId) : Steady s (s.settle id) :=
  ⟨keepsEntries_of_pit rfl rfl,rfl,fun _ h => (mem_filter.mp h).1,rfl,rfl,rfl,fun _ h => h,rfl,rfl,[],
    by simp [settle],by simp⟩

private theorem answer_eq (id : PitId) :
    s.answer id = { s with history := (s.answer id).history } := by
  unfold answer
  split
  · rfl
  · rfl

theorem answer_pit (id : PitId) : (s.answer id).pit = s.pit := by
  rw [answer_eq]

theorem answer_now (id : PitId) : (s.answer id).now = s.now := by
  rw [answer_eq]

theorem answer_actions (id : PitId) : (s.answer id).actions = s.actions := by
  rw [answer_eq]

theorem answer_nextId (id : PitId) : (s.answer id).nextId = s.nextId := by
  rw [answer_eq]

theorem answer_measurements (id : PitId) : (s.answer id).measurements = s.measurements := by
  rw [answer_eq]

theorem answerIfIdle_pit (id : PitId) : (s.answerIfIdle id).pit = s.pit := by
  unfold answerIfIdle
  split_ifs
  · exact answer_pit id
  · rfl

theorem answer_retransmissions (id : PitId) :
    (s.answer id).history.retransmissions = s.history.retransmissions := by
  unfold answer
  split
  · rfl
  · rfl

theorem steady_transmitted (t : Transmission) : Steady s (s.transmitted t) :=
  ⟨keepsEntries_of_pit rfl rfl,rfl,fun _ h => h,rfl,rfl,rfl,fun _ h => h,rfl,rfl,[],
    by simp [transmitted],by simp⟩

end Entries

section Moves

variable {Q Q' : PitId → Change → Prop} {P : PitId → FaceId → Prop}
  {N : Forwarder → Forwarder → Prop}

abbrev Changes (Q : PitId → Change → Prop) (id : PitId) : PitEntry → PitEntry → Prop :=
  Relation.ReflTransGen fun e e' => ∃ x, Q id x ∧ e' = x.apply e

variable {e e' : PitEntry}

theorem Changes.mono (h : Changes Q id e e') (hq : ∀ x, Q id x → Q' id x) :
    Changes Q' id e e' :=
  Relation.ReflTransGen.mono (fun _ _ ⟨x,hx,heq⟩ => ⟨x,hq x hx,heq⟩) _ _ h

theorem Changes.interest (h : Changes Q id e e') : e'.interest = e.interest := by
  induction h with
  | refl => rfl
  | tail _ hx ih =>
    obtain ⟨x,_,rfl⟩ := hx
    rw [x.apply_interest,ih]

abbrev Unsent (Q : PitId → Change → Prop) : PitId → Change → Prop :=
  fun id x => Q id x ∧ x.isSend = false

/-- An operation changes an entry, sends an Interest, or does something else that `N` allows. -/
inductive Move (N : Forwarder → Forwarder → Prop) (Q : PitId → Change → Prop) (s : Forwarder) :
    Forwarder → Prop where
  | modify (id : PitId) {f : PitEntry → PitEntry} : (∀ e, (f e).id = e.id) →
      (∀ e, Changes (Unsent Q) id e (f e)) → Move N Q s (s.modifyEntry id f)
  | send (id : PitId) (i : Interest) (egress : FaceId) : Q id (.send egress i s.now) →
      Move N Q s ((s.modifyEntry id (PitEntry.insertOrUpdateOutRecord egress i s.now)).act
        (.interest id i egress))
  | act (a : Action) : a.isInterest = false → N s (s.act a) → Move N Q s (s.act a)
  | note {s' : Forwarder} : s'.pit = s.pit → s'.now = s.now → s'.actions = s.actions → N s s' →
      Move N Q s s'

/-- What consists of such moves. -/
def PerformsBy (N : Forwarder → Forwarder → Prop) (Q : PitId → Change → Prop) :
    Forwarder → Forwarder → Prop :=
  Relation.ReflTransGen (Move N Q)

abbrev Performs : (PitId → Change → Prop) → Forwarder → Forwarder → Prop :=
  PerformsBy fun _ _ => True

abbrev Sends : (PitId → Change → Prop) → Forwarder → Forwarder → Prop := PerformsBy Steady

/-- Changes that only an Interest makes and Nacks apart, and sends where `P` allows it. -/
abbrev RoutineTo (P : PitId → FaceId → Prop) : PitId → Change → Prop :=
  fun id x => x.isRoutine = true ∧ x.GoesTo (P id)

abbrev Routine : PitId → Change → Prop := RoutineTo fun _ _ => True

/-- Interests go out where `P` allows it. -/
abbrev SentTo (P : PitId → FaceId → Prop) : PitId → Change → Prop :=
  fun id x => x.isSend = true ∧ x.GoesTo (P id)

namespace PerformsBy

theorem refl (s : Forwarder) : PerformsBy N Q s s := Relation.ReflTransGen.refl

theorem trans (h : PerformsBy N Q s s₁) (h' : PerformsBy N Q s₁ s') : PerformsBy N Q s s' :=
  Relation.ReflTransGen.trans h h'

theorem mono (h : PerformsBy N Q s s') (hq : ∀ id x, Q id x → Q' id x) : PerformsBy N Q' s s' := by
  refine Relation.ReflTransGen.mono (fun _ _ hmove => ?_) _ _ h
  cases hmove with
  | modify id hid hf =>
    exact .modify id hid fun e => (hf e).mono fun x hx => ⟨hq id x hx.1,hx.2⟩
  | send id i egress hx => exact .send id i egress (hq id _ hx)
  | act a ha hn => exact .act a ha hn
  | note hpit hnow hactions hn => exact .note hpit hnow hactions hn

theorem performs (h : PerformsBy N Q s s') : Performs Q s s' := by
  refine Relation.ReflTransGen.mono (fun _ _ hmove => ?_) _ _ h
  cases hmove with
  | modify id hid hf => exact .modify id hid hf
  | send id i egress hx => exact .send id i egress hx
  | act a ha _ => exact .act a ha trivial
  | note hpit hnow hactions _ => exact .note hpit hnow hactions trivial

theorem routine (h : PerformsBy N (SentTo P) s s') : PerformsBy N (RoutineTo P) s s' :=
  h.mono fun _ _ hx => ⟨Change.isRoutine_of_isSend hx.1,hx.2⟩

theorem change (x : Change) (hx : Q id x) (hsend : x.isSend = false) :
    PerformsBy N Q s (s.modifyEntry id x.apply) :=
  .single (.modify id x.apply_id fun _ => .single ⟨x,⟨hx,hsend⟩,rfl⟩)

theorem act (a : Action) (ha : a.isInterest = false) (hn : N s (s.act a)) :
    PerformsBy N Q s (s.act a) :=
  .single (.act a ha hn)

theorem note (hpit : s'.pit = s.pit) (hnow : s'.now = s.now) (hactions : s'.actions = s.actions)
    (hn : N s s') : PerformsBy N Q s s' :=
  .single (.note hpit hnow hactions hn)

theorem foldl {α : Type} {f : Forwarder → α → Forwarder} {l : List α}
    (hf : ∀ a ∈ l, ∀ s, PerformsBy N Q s (f s a)) (s : Forwarder) :
    PerformsBy N Q s (l.foldl f s) := by
  induction l generalizing s with
  | nil => exact refl s
  | cons a l ih =>
    obtain ⟨ha,hl⟩ := forall_mem_cons.mp hf
    exact (ha s).trans (ih hl (f s a))

theorem foldlM {α : Type} {f : Forwarder → α → Option Forwarder} {l : List α}
    (hf : ∀ a ∈ l, ∀ s s', f s a = some s' → PerformsBy N Q s s') {s s' : Forwarder}
    (h : l.foldlM f s = some s') : PerformsBy N Q s s' := by
  induction l generalizing s with
  | nil =>
    cases h
    exact refl _
  | cons a l ih =>
    rw [foldlM_cons] at h
    obtain ⟨s₁,h₁,h₂⟩ := bind_eq_some_iff.mp h
    obtain ⟨ha,hl⟩ := forall_mem_cons.mp hf
    exact (ha s s₁ h₁).trans (ih hl h₂)

theorem interestOf (h : PerformsBy N Q s s') (id : PitId) : s'.interestOf id = s.interestOf id := by
  induction h with
  | refl => rfl
  | tail _ hmove ih =>
    rw [← ih]
    cases hmove with
    | modify id' hid hf => exact interestOf_modifyEntry hid (fun e => (hf e).interest) id
    | send id' i egress _ => exact interestOf_modifyEntry (by intro; rfl) (by intro; rfl) id
    | act _ _ _ => rfl
    | note hpit _ _ _ => rw [Forwarder.interestOf,hpit,Forwarder.interestOf]

end PerformsBy

theorem Sends.steady (h : Sends Q s s') : Steady s s' := by
  induction h with
  | refl => exact .refl s
  | tail _ hmove ih =>
    refine ih.trans ?_
    cases hmove with
    | modify id hid hf => exact steady_modifyEntry hid fun e => (hf e).interest
    | send id i egress _ =>
      exact .trans (steady_modifyEntry (by intro; rfl) (by intro; rfl)) (steady_act rfl)
    | act _ _ hn | note _ _ _ hn => exact hn

theorem sends_setExpiryTimer (id : PitId) (duration : Int) :
    Sends (RoutineTo P) s (s.setExpiryTimer id duration) :=
  .change (.setTimer (s.now + max duration 0 * nanosecondsPerMillisecond)) ⟨rfl,trivial⟩ rfl

theorem steady_setExpiryTimer (id : PitId) (duration : Int) :
    Steady s (s.setExpiryTimer id duration) :=
  Sends.steady (Q := Routine) (sends_setExpiryTimer id duration)

theorem sends_settle (id : PitId) : Sends Q s (s.settle id) :=
  .note rfl rfl rfl (steady_settle id)

theorem sends_settleIfIdle (id : PitId) : Sends Q s (s.settleIfIdle id) := by
  unfold settleIfIdle
  split_ifs
  · exact sends_settle id
  · exact .refl s

theorem sends_transmitted (t : Transmission) : Sends Q s (s.transmitted t) :=
  .note rfl rfl rfl (steady_transmitted t)

/-- The hop limit lets the Interest leave on the face. -/
def canLeave (c : Config) (i : Interest) (egress : FaceId) : Prop :=
  ¬(i.hopLimit = some 0 ∧ c.scope egress = .nonLocal)

instance (c : Config) (i : Interest) (egress : FaceId) : Decidable (canLeave c i egress) :=
  inferInstanceAs (Decidable (¬_))

variable {egress : FaceId}

theorem sends_onOutgoingInterest (hp : canLeave c i egress → P id egress)
    (h : s.onOutgoingInterest c i egress id = some s') : Sends (SentTo P) s s' := by
  unfold onOutgoingInterest at h
  split_ifs at h with hleaves
  cases h
  exact .single (.send id i egress ⟨rfl,hp hleaves⟩)

theorem sends_sendInterest (hp : canLeave c i egress → P id egress) :
    Sends (SentTo P) s (s.sendInterest c i egress id) := by
  unfold sendInterest
  cases h : s.onOutgoingInterest c i egress id with
  | none => exact .refl s
  | some s' => exact sends_onOutgoingInterest hp h

variable {hops : List FaceId}

theorem sends_sendToAll (hp : ∀ f ∈ hops, canLeave c i f → P id f) :
    Sends (SentTo P) s (s.sendToAll c i id hops) :=
  .foldl (fun f hf _ => sends_sendInterest (hp f hf)) s

theorem sends_sendNack (reason : NackReason) (egress : FaceId) (id : PitId) :
    Sends (RoutineTo P) s (s.sendNack c reason egress id) := by
  unfold sendNack
  split
  · split_ifs
    · exact .trans (.change (.deleteIn egress) ⟨rfl,trivial⟩ rfl) (.act _ rfl (steady_act rfl))
    · exact .refl s
  · exact .refl s

theorem sends_sendNacks (reason : NackReason) (id : PitId) :
    Sends (RoutineTo P) s (s.sendNacks c reason id) := by
  unfold sendNacks
  split
  · exact .foldl (fun r _ _ => sends_sendNack reason r.face id) s
  · exact .refl s

theorem sends_onOutgoingData (d : Data) (egress : FaceId) :
    Sends Q s (s.onOutgoingData c d egress) := by
  unfold onOutgoingData
  split_ifs
  · exact .refl s
  · exact .act _ rfl (steady_act rfl)

theorem sends_sendDataToAll (d : Data) (inFace : FaceId) (id : PitId) :
    Sends (RoutineTo P) s (s.sendDataToAll c d inFace id) := by
  unfold sendDataToAll
  split
  · apply PerformsBy.foldl
    intro r _ s
    exact .trans (.change (.deleteIn r.face) ⟨rfl,trivial⟩ rfl) (sends_onOutgoingData d r.face)
  · exact .refl s

theorem steady_sendDataToAll (d : Data) (inFace : FaceId) (id : PitId) :
    Steady s (s.sendDataToAll c d inFace id) :=
  Sends.steady (Q := Routine) (sends_sendDataToAll d inFace id)

theorem sends_onOutgoingDatas (d : Data) (faces : List FaceId) :
    Sends Q s (faces.foldl (fun s face => s.onOutgoingData c d face) s) :=
  PerformsBy.foldl (fun f _ _ => sends_onOutgoingData d f) s

theorem sends_rejectInterest (ingress : FaceId) (id : PitId) :
    Sends (RoutineTo P) s (s.rejectInterest c ingress id) :=
  (sends_sendNack .noRoute ingress id).trans (sends_setExpiryTimer id 0)

theorem sends_relays (hp : ∀ f ∈ hops, canLeave c i f → P id f)
    (h : Relays c i ingress id hops s s') : Sends (RoutineTo P) s s' := by
  induction h with
  | refl => exact .refl s
  | sendToAll _ ih => exact ih.trans (sends_sendToAll hp).routine
  | rejectInterest _ ih => exact ih.trans (sends_rejectInterest ingress id)

/-- The changes when an Interest is sent to a producer: its in-record gets a status, and the entry
marks for the producer. -/
def Marked (P : PitId → FaceId → Prop) (id : PitId) (mpName : Name) (id' : PitId) (x : Change) :
    Prop :=
  RoutineTo P id' x ∨ (∃ rvName face, x = .setInStatus rvName face) ∨
    id' = id ∧ ∃ face, x = .mark mpName face

variable {mpName : Name}

theorem sends_sendToProducer {outFace : FaceId} (hp : canLeave c i outFace → P id outFace)
    (h : s.sendToProducer c i id mpName outFace = some s') : Sends (Marked P id mpName) s s' := by
  obtain ⟨s₁,hs₁,rfl⟩ := map_eq_some_iff.mp h
  have hsent : Sends (Marked P id mpName) s s₁ :=
    (sends_onOutgoingInterest hp hs₁).routine.mono fun _ _ hx => Or.inl hx
  have hmarked : Sends (Marked P id mpName) s (s₁.modifyEntry id (setOutStatus mpName outFace)) :=
    hsent.trans (.change (.mark mpName outFace) (Or.inr (Or.inr ⟨rfl,outFace,rfl⟩)) rfl)
  exact hmarked.trans (sends_transmitted _)

theorem sends_forwards (h : Forwards c i ingress id e s s₁ s')
    (hp : ∀ f ∈ s.nextHops c i ingress e, canLeave c i f → P id f) :
    Sends (Marked P id (s.producerHops c i ingress e).1) s s₁ := by
  rw [nextHops,if_neg fun hno => h.hops hno.2] at hp
  have hstatus : Sends (Marked P id (s.producerHops c i ingress e).1) s
      (s.modifyEntry id (setInStatus (kiteHint i) ingress)) :=
    .change (.setInStatus (kiteHint i) ingress) (Or.inr (Or.inl ⟨_,_,rfl⟩)) rfl
  exact hstatus.trans (.foldlM (fun f hf _ _ hs => sends_sendToProducer (hp f hf) hs) h.sent)

private theorem isUnused_modifyEntry {f : PitEntry → PitEntry} (hid : ∀ e, (f e).id = e.id)
    (hf : ∀ e, ((f e).getInRecord face).isNone = true → ((f e).getOutRecord face).isNone = true →
      (e.getInRecord face).isNone = true ∧ (e.getOutRecord face).isNone = true)
    (h : (s.modifyEntry id f).isUnused id face = true) : s.isUnused id face = true := by
  unfold isUnused at h ⊢
  rw [find_modifyEntry s id hid,if_pos rfl] at h
  cases he : s.pit.find? id with
  | none =>
    rw [he] at h
    exact nomatch h
  | some e =>
    rw [he,map_some,any_some,and_eq_true] at h
    rw [any_some,and_eq_true]
    exact hf e h.1 h.2

private theorem isUnused_sendInterest
    (h : (s.sendInterest c i egress id).isUnused id face = true) : s.isUnused id face = true := by
  unfold sendInterest onOutgoingInterest at h
  split_ifs at h
  · exact h
  · refine isUnused_modifyEntry (f := PitEntry.insertOrUpdateOutRecord egress i s.now)
      (fun _ => rfl) (fun e hin hout => ⟨hin,?_⟩) h
    rw [PitEntry.getOutRecord,PitEntry.insertOrUpdateOutRecord,KeyedList.find?_putFront] at hout
    split_ifs at hout with hface
    · cases hout
    · exact hout

private theorem isUnused_setInStage {stage : InterestRetrasmissionStage} {inFace : FaceId}
    (h : (s.modifyEntry id (setInStage stage inFace)).isUnused id face = true) :
    s.isUnused id face = true := by
  refine isUnused_modifyEntry (f := setInStage stage inFace) (fun _ => rfl)
    (fun e hin hout => ⟨?_,hout⟩) h
  rw [PitEntry.getInRecord,setInStage,KeyedList.find?_modify _ (by intro; rfl)] at hin
  split_ifs at hin with hface
  · rw [isNone_map] at hin
    rw [hface]
    exact hin
  · exact hin

private theorem sends_sendIfUnused (hops : List FaceId) {p : Forwarder × Bool}
    (hp : ∀ f, p.1.isUnused id f = true → P id f) :
    Sends (SentTo P) p.1 (hops.foldl (sendIfUnused c i id) p).1 ∧
      ∀ f, (hops.foldl (sendIfUnused c i id) p).1.isUnused id f = true → P id f := by
  induction hops generalizing p with
  | nil => exact ⟨.refl p.1,hp⟩
  | cons f hops ih =>
    rw [foldl_cons,sendIfUnused]
    split_ifs with hunused
    · obtain ⟨hrest,hleft⟩ := @ih (p.1.sendInterest c i f id,true)
        fun f' hf' => hp f' (isUnused_sendInterest hf')
      exact ⟨(sends_sendInterest fun _ => hp f hunused).trans hrest,hleft⟩
    · exact ih hp

private theorem dealNack_spec (inFace : FaceId) (hp : ∀ f, s.isUnused id f = true → P id f) :
    Sends (RoutineTo P) s (s.dealNack c id inFace).1 ∧
      ∀ f, (s.dealNack c id inFace).1.isUnused id f = true → P id f := by
  have hstage : Sends (RoutineTo P) s (s.modifyEntry id (setInStage .rv inFace)) :=
    .change (.setInStage .rv inFace) ⟨rfl,trivial⟩ rfl
  unfold dealNack
  split
  · exact ⟨.refl s,hp⟩
  · next e _ =>
    split
    · exact ⟨.refl s,hp⟩
    · next status _ =>
      split_ifs
      · obtain ⟨hsent,hleft⟩ := sends_sendIfUnused (c := c) (i := e.interest)
          (s.findLongestPrefixMatch status.rvName).2
          (p := (s.modifyEntry id (setInStage .rv inFace),false))
          fun f hf => hp f (isUnused_setInStage hf)
        exact ⟨hstage.trans hsent.routine,hleft⟩
      · exact ⟨.refl s,hp⟩

theorem sends_dealNack (id : PitId) (inFace : FaceId) (hp : ∀ f, s.isUnused id f = true → P id f) :
    Sends (RoutineTo P) s (s.dealNack c id inFace).1 :=
  (dealNack_spec inFace hp).1

theorem steady_dealNack (id : PitId) (inFace : FaceId) : Steady s (s.dealNack c id inFace).1 :=
  Sends.steady (Q := Routine) (sends_dealNack id inFace fun _ _ => trivial)

theorem sends_dealNacks (id : PitId) (faces : List FaceId)
    (hp : ∀ f, s.isUnused id f = true → P id f) :
    Sends (RoutineTo P) s (s.dealNacks c id faces).1 := by
  induction faces generalizing s with
  | nil => exact .refl s
  | cons f faces ih =>
    obtain ⟨hone,hleft⟩ := dealNack_spec (c := c) f hp
    rw [dealNacks]
    dsimp only
    split_ifs
    · exact hone
    · exact hone.trans (ih hleft)

theorem steady_dealNacks (id : PitId) (faces : List FaceId) : Steady s (s.dealNacks c id faces).1 :=
  Sends.steady (Q := Routine) (sends_dealNacks id faces fun _ _ => trivial)

theorem pit_onOutgoingData (d : Data) (egress : FaceId) :
    (s.onOutgoingData c d egress).pit = s.pit := by
  unfold onOutgoingData
  split_ifs <;> rfl

theorem sends_resend (mpName : Name) {item : Name × PitId}
    (hp : ∀ i, s.interestOf item.2 = some i → canLeave c i face → P item.2 face) :
    Sends (SentTo P) s (s.resend c mpName face item) := by
  unfold resend
  split
  · next e he =>
    have hid : e.id = item.2 := s.pit.find?_key he
    split
    · next hs =>
      have hsent := sends_onOutgoingInterest (hid ▸ hp e.interest (interestOf_of_find he)) hs
      exact hsent.trans (sends_transmitted _)
    · exact .refl s
  · exact .refl s

theorem sends_resends (mpName : Name) {items : List (Name × PitId)}
    (hp : ∀ item ∈ items, ∀ i, s.interestOf item.2 = some i → canLeave c i face → P item.2 face) :
    Sends (SentTo P) s (items.foldl (resend c mpName face) s) := by
  induction items generalizing s with
  | nil => exact .refl s
  | cons item items ih =>
    obtain ⟨hitem,hitems⟩ := forall_mem_cons.mp hp
    have hsent := sends_resend mpName hitem
    refine hsent.trans (ih fun item' hitem' i hi => hitems item' hitem' i ?_)
    rw [← hsent.interestOf]
    exact hi

theorem steady_resends (mpName : Name) (face : FaceId) (items : List (Name × PitId)) :
    Steady s (items.foldl (resend c mpName face) s) :=
  (sends_resends (P := fun _ _ => True) mpName fun _ _ _ _ _ => trivial).steady

theorem sends_onContentStoreHit (id : PitId) :
    Sends (RoutineTo P) s (s.onContentStoreHit id) := by
  have hsatisfied : Sends (RoutineTo P) s
      (s.modifyEntry id fun e => { e with isSatisfied := true }) :=
    .change .satisfy ⟨rfl,trivial⟩ rfl
  exact (hsatisfied.trans (sends_setExpiryTimer id 0)).trans (sends_settle id)

theorem sends_onInterestLoop (i : Interest) (ingress : FaceId) :
    Sends Q s (s.onInterestLoop c i ingress) := by
  unfold onInterestLoop
  split_ifs
  · exact .refl s
  · exact .act _ rfl (steady_act rfl)

end Moves

section Admission

theorem find_insertPit_new (h : s.findPitEntry i = none) :
    s.insertPit i = ({ s with pit := s.pit.put (PitEntry.new s.nextId i), nextId := s.nextId + 1 },
      s.nextId) := by
  rw [insertPit,h]

theorem find_insertPit_old (h : s.findPitEntry i = some e) : s.insertPit i = (s,e.id) := by
  rw [insertPit,h]

theorem steady_insertPit (i : Interest) : Steady s (s.insertPit i).1 := by
  cases h : s.findPitEntry i with
  | some e =>
    rw [find_insertPit_old h]
    exact .refl s
  | none =>
    rw [find_insertPit_new h]
    refine ⟨⟨Nat.le_succ _,fun id' hlt => ?_,fun id' ha => ?_⟩,rfl,fun _ h => h,rfl,rfl,rfl,
      fun id' ha => ?_,rfl,rfl,[],by simp,by simp⟩
    · rw [interestOf,KeyedList.find?_put,PitEntry.new,if_neg hlt.ne]
      rfl
    · rw [isAlive,KeyedList.find?_put] at ha
      split_ifs at ha with heq
      · exact Or.inr (heq ▸ Nat.lt_succ_self _)
      · exact Or.inl ha
    · rw [isAlive,KeyedList.find?_put]
      split_ifs
      · rfl
      · exact ha

private theorem steady_admitted (i : Interest) (ingress : FaceId) (now : Time) :
    Steady s ((s.insertPit i).1.modifyEntry (s.insertPit i).2
      (admitted c i ingress (s.findPitEntry i).isNone now)) := by
  cases h : s.findPitEntry i with
  | some e =>
    rw [find_insertPit_old h]
    exact steady_modifyEntry (fun _ => rfl) fun _ => rfl
  | none =>
    apply (steady_insertPit i).modifyNew
    · rw [find_insertPit_new h]
    · exact fun _ => rfl

/-- What is sent after the entry has been looked up, inserted or given an in-record. -/
theorem sends_admits {a : Admission} (h : Admits c ingress s a) :
    ∃ t, Sends Routine t a.state ∧ (t = s ∨ ∃ i, t = (s.insertPit i).1 ∨
      t = (s.insertPit i).1.modifyEntry (s.insertPit i).2
        (admitted c i ingress (s.findPitEntry i).isNone s.now)) := by
  cases h with
  | dropped => exact ⟨s,.refl s,Or.inl rfl⟩
  | looped i => exact ⟨s,sends_onInterestLoop i ingress,Or.inl rfl⟩
  | unfound i => exact ⟨_,.refl _,Or.inr ⟨i,Or.inl rfl⟩⟩
  | looping i => exact ⟨_,sends_onInterestLoop i ingress,Or.inr ⟨i,Or.inl rfl⟩⟩
  | hit i => exact ⟨_,sends_onContentStoreHit _,Or.inr ⟨i,Or.inl rfl⟩⟩
  | miss i =>
    obtain ⟨duration,t,ht,hcases⟩ := onContentStoreMiss_cases (c := c) (s.insertPit i).1 i ingress
      (s.insertPit i).2 (s.findPitEntry i).isNone
    rw [(steady_insertPit i).now] at ht
    have htimer : Sends Routine _ t := ht ▸ sends_setExpiryTimer _ duration
    refine ⟨_,?_,Or.inr ⟨i,Or.inr rfl⟩⟩
    rcases hcases with ⟨_,heq⟩ | heq | ⟨face,_,_,heq⟩
    · rw [heq]
      exact htimer
    · rw [heq]
      exact htimer
    · rw [heq]
      exact htimer.trans (sends_sendInterest fun _ => trivial).routine

theorem steady_admits {a : Admission} (h : Admits c ingress s a) : Steady s a.state := by
  obtain ⟨t,ht,rfl | ⟨i,rfl | rfl⟩⟩ := sends_admits h
  · exact ht.steady
  · exact (steady_insertPit i).trans ht.steady
  · exact (steady_admitted i ingress _).trans ht.steady

theorem find_insertPit (i : Interest) :
    ∃ e, (s.insertPit i).1.pit.find? (s.insertPit i).2 = some e ∧ e.name = i.name := by
  cases h : s.findPitEntry i with
  | some e =>
    rw [find_insertPit_old h]
    have hmatch := List.find?_some h
    rw [PitEntry.canMatch,Interest.matchesInterest,and_eq_true,and_eq_true,
      toName_component,toName_component] at hmatch
    exact ⟨e,s.pit.find?_eq_some.mpr ⟨mem_of_find?_eq_some h,rfl⟩,of_decide_eq_true hmatch.1.1⟩
  | none =>
    rw [find_insertPit_new h]
    refine ⟨PitEntry.new s.nextId i,?_,rfl⟩
    rw [KeyedList.find?_put]
    exact if_pos rfl

theorem attachHopLimit_name (i : Interest) : (attachHopLimit c i).name = i.name := by
  unfold attachHopLimit
  split_ifs
  · rfl
  · rfl

private theorem admitted_spec (i : Interest) (ingress : FaceId) (isNew : Bool) (now : Time)
    (hname : e.name = i.name) :
    (admitted c i ingress isNew now e).name = (attachHopLimit c i).name ∧
      ∃ r, (admitted c i ingress isNew now e).getInRecord ingress = some r ∧
        r.interest = attachHopLimit c i ∧ r.expiry = recordExpiry (attachHopLimit c i) now := by
  unfold admitted
  constructor
  · split_ifs
    · rfl
    · exact hname.trans (attachHopLimit_name i).symm
  · unfold PitEntry.insertOrUpdateInRecord PitEntry.getInRecord
    rw [KeyedList.find?_putFront,if_pos rfl]
    exact ⟨_,rfl,rfl,rfl⟩

theorem find_dispatched (h : Admits c ingress s (.dispatched s' i id)) :
    ∃ e, s'.pit.find? id = some e ∧ e.name = i.name ∧ ∃ r, e.getInRecord ingress = some r ∧
      r.interest = i ∧ r.expiry = recordExpiry i s'.now := by
  generalize ha : Admission.dispatched s' i id = a at h
  cases h with
  | miss i' =>
    obtain ⟨duration,t,ht,hcases⟩ := onContentStoreMiss_cases (c := c) (s.insertPit i').1 i' ingress
      (s.insertPit i').2 (s.findPitEntry i').isNone
    rcases hcases with ⟨_,heq⟩ | heq | ⟨face,_,_,heq⟩
    · rw [heq] at ha
      cases ha
      obtain ⟨e,he,hname⟩ := find_insertPit (s := s) i'
      have hfind := find_modifyEntry (s.insertPit i').1 (s.insertPit i').2
        (f := admitted c i' ingress (s.findPitEntry i').isNone (s.insertPit i').1.now)
        (by intro e; unfold admitted; split_ifs <;> rfl) (s.insertPit i').2
      rw [if_pos rfl,he] at hfind
      have hnow : s'.now = (s.insertPit i').1.now := by
        rw [ht]
        rfl
      have hspec := admitted_spec (c := c) i' ingress (s.findPitEntry i').isNone s'.now hname
      rw [ht,setExpiryTimer,find_modifyEntry _ _ (by intro; rfl),if_pos rfl,hfind]
      rw [hnow] at hspec
      exact ⟨_,rfl,hspec.1,hspec.2⟩
    · rw [heq] at ha
      exact nomatch ha
    · rw [heq] at ha
      exact nomatch ha
  | _ => exact nomatch ha

theorem interestOf_dispatched (h : Admits c ingress s (.dispatched s' i id)) :
    ∃ j, s'.interestOf id = some j ∧ j.name = i.name := by
  obtain ⟨e,he,hname,_⟩ := find_dispatched h
  exact ⟨e.interest,interestOf_of_find he,hname⟩

end Admission

end Forwarder

end KiteNdn.Fw
