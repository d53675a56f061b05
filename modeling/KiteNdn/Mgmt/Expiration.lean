import KiteNdn.Mgmt.RibManager
import KiteNdn.Rib.ExactlyOnce

/-!
# When routes expire

An expiration event is cancelled when its route is overwritten or erased in the RIB, not when its
registration fails, and not while a newer registration waits in the queue. An event that is executed
while it belongs to the route under its key never removes a route before its time.
-/

namespace KiteNdn.Routing

open Framework List Option

variable {update : RibUpdate} {expires : Option Time} {route : Route}

def Route.ExpiredAt (r : Route) (now : Time) : Prop := ∃ t ∈ r.expires, t ≤ now

instance (r : Route) (now : Time) : Decidable (r.ExpiredAt now) :=
  match h : r.expires with
  | none => .isFalse (by simp [Route.ExpiredAt,h])
  | some t => decidable_of_iff (t ≤ now) (by simp [Route.ExpiredAt,h])

theorem Route.ExpiredAt.mono {r : Route} {now now' : Time} (h : r.ExpiredAt now)
    (hle : now ≤ now') : r.ExpiredAt now' := by
  obtain ⟨t,ht,hn⟩ := h
  exact ⟨t,ht,hn.trans hle⟩

/-- A time of the steady clock in 64 bits. -/
def Fits (t : Time) : Prop := wrap64 t = t

theorem fits_addDuration (t duration : Time) : Fits (addDuration t duration) := Int.bmod_bmod

theorem fits_min {t t' : Time} (h : Fits t) (h' : Fits t') : Fits (min t t') := by
  rcases min_choice t t' with hmin | hmin
  · rwa [hmin]
  · rwa [hmin]

/-- The route's event, if it has one, is scheduled for the time at which the route expires. -/
structure Route.Owned (scheduled : List ExpirationEvent) (r : Route) : Prop where
  event : ∀ id ∈ r.expirationEvent, ∃ e ∈ scheduled[id]?, r.expires = some e.time
  fits : Fits r.annExpires

theorem Route.Owned.append {scheduled : List ExpirationEvent} {r : Route} (h : r.Owned scheduled)
    (e : ExpirationEvent) : r.Owned (scheduled ++ [e]) := by
  refine ⟨fun id hid => ?_,h.fits⟩
  obtain ⟨e',he',hr⟩ := h.event id hid
  refine ⟨e',?_,hr⟩
  obtain ⟨hlt,_⟩ := List.getElem?_eq_some_iff.mp he'
  rw [getElem?_append_left hlt]
  exact he'

/-- The update registers a route under the key of `route` and `name`. -/
def RibUpdate.Registers (update : RibUpdate) (name : Name) (route : Route) : Prop :=
  update.action = .register ∧ update.name = name ∧ update.route.key = route.key

instance (update : RibUpdate) (name : Name) (route : Route) :
    Decidable (update.Registers name route) :=
  inferInstanceAs (Decidable (_ ∧ _))

namespace RibManager

/-- The routes that a later update may find under a key: the stored one and those whose
registration waits. -/
def candidates (s : RibManager) (name : Name) (route : Route) : List Route :=
  (s.queue.rib.findRoute name route).toList ++
    (s.queue.ledger.waiting.filter fun b => b.update.Registers name route).map
      fun b => b.update.route

/-- An event is executed only if the routes under its key own it or have expired, and no response is
mixed up. -/
def Safe (s : RibManager) : Event → Prop
  | .execute id => ∀ e ∈ s.scheduled[id]?, ∀ r ∈ s.candidates e.name e.route,
      r.expirationEvent = some id ∨ r.ExpiredAt s.now
  | .respond i response => s.queue.NoMixUp (.respond i response)
  | _ => True

instance (s : RibManager) : DecidablePred s.Safe
  | .execute id => inferInstanceAs (Decidable (∀ e ∈ s.scheduled[id]?,
      ∀ r ∈ s.candidates e.name e.route, r.expirationEvent = some id ∨ r.ExpiredAt s.now))
  | .respond i response => inferInstanceAs (Decidable (s.queue.NoMixUp (.respond i response)))
  | .registerEntry _ _ | .unregisterEntry _ _ | .slAnnounce _ _ _ _ | .slRenew _ _ _
  | .faceDestroyed _ | .removeInvalidFaces _ | .elapse _ => .isTrue trivial

def removals (s : RibManager) : List (Route × Time) :=
  (s.queue.decisions.filter fun d => d.batch.id ∈ s.expirations).filterMap fun d =>
    match d.outcome with
    | .success _ => d.stored.map fun r => (r,d.time)
    | .failure _ => none

end RibManager

/-- `r` may be stored under the key of `update` when the batches ahead of it are decided. -/
def Rib.Candidate (rib : Rib) (ahead : List Batch) (update : RibUpdate) (r : Route) : Prop :=
  r.key = update.route.key ∧ (rib.Stores update.name r ∨
    ∃ b ∈ ahead, b.update.action = .register ∧ b.update.name = update.name ∧ b.update.route = r)

/-- What holds of the ledger when every event was executed for a route of its own. -/
structure Ledger.Timed (scheduled : List ExpirationEvent) (expirations : List Nat) (l : Ledger) :
    Prop where
  wellFormed : l.rib.WellFormed
  stored : ∀ n r, l.rib.Stores n r → r.Owned scheduled
  waiting : ∀ b ∈ l.waiting, b.update.action = .register → b.update.route.Owned scheduled
  requested : ∀ id ∈ expirations, id < l.nBatches
  numbered : (∀ b ∈ l.waiting, b.id < l.nBatches) ∧ ∀ d ∈ l.decisions, d.batch.id < l.nBatches
  due : ∀ past b future, l.waiting = past ++ b :: future → b.id ∈ expirations →
    ∀ r, l.rib.Candidate past b.update r → r.ExpiredAt l.now
  timely : ∀ d ∈ l.decisions, d.batch.id ∈ expirations → ∀ r ∈ d.stored, r.ExpiredAt d.time

namespace Ledger.Timed

variable {scheduled : List ExpirationEvent} {expirations : List Nat} {l l' : Ledger}

private theorem decided (h : l.Timed scheduled expirations) {b : Batch} {rest : List Batch}
    (hw : l.waiting = b :: rest) {rib : Rib} (hwf : rib.WellFormed)
    (hr : ∀ n r, rib.Stores n r → b.update.action = .register ∧ n = b.update.name ∧
      r = b.update.route ∨ l.rib.Stores n r) (outcome : Outcome) :
    Timed scheduled expirations { l with
      rib := rib
      waiting := rest
      decisions := l.decisions ++ [⟨b,outcome,l.now,
        l.rib.findRoute b.update.name b.update.route⟩] } := by
  have hb : b ∈ l.waiting := hw ▸ mem_cons_self
  have hrest : ∀ b' ∈ rest, b' ∈ l.waiting := fun b' hb' => hw ▸ mem_cons_of_mem b hb'
  refine ⟨hwf,?_,fun b' hb' => h.waiting b' (hrest b' hb'),h.requested,⟨?_,?_⟩,?_,?_⟩
  · intro n r hs
    rcases hr n r hs with ⟨ha,_,rfl⟩ | hold
    · exact h.waiting b hb ha
    · exact h.stored n r hold
  · exact fun b' hb' => h.numbered.1 b' (hrest b' hb')
  · intro d hd
    rcases mem_append.mp hd with hd | hd
    · exact h.numbered.2 d hd
    · rw [mem_singleton.mp hd]
      exact h.numbered.1 b hb
  · rintro past b' future hsplit hid r ⟨hk,hc⟩
    refine h.due (b :: past) b' future (by rw [hw,cons_append,← hsplit]) hid r ⟨hk,?_⟩
    rcases hc with hs | ⟨a,ha,hreg⟩
    · rcases hr _ r hs with ⟨hact,hn,rfl⟩ | hold
      · exact Or.inr ⟨b,mem_cons_self,hact,hn.symm,rfl⟩
      · exact Or.inl hold
    · exact Or.inr ⟨a,mem_cons_of_mem b ha,hreg⟩
  · intro d hd hid r hst
    rcases mem_append.mp hd with hd | hd
    · exact h.timely d hd hid r hst
    · obtain rfl := mem_singleton.mp hd
      obtain ⟨hs,hk⟩ := Rib.stores_of_findRoute hst
      exact h.due [] b rest hw hid r ⟨hk,Or.inl hs⟩

theorem step (h : l.Timed scheduled expirations) (hs : l.Step l') :
    l'.Timed scheduled expirations := by
  cases hs with
  | succeed b rest inheritedRoutes rib hw hr =>
    have hsame := modifyInheritedRoutes_sameRoutes _ hr
    refine h.decided hw (hsame.wellFormed (h.wellFormed.applyBatch _)) (fun n r hst => ?_) _
    rw [Rib.Stores,hsame.routesAt] at hst
    exact Rib.Stores.of_applyBatch h.wellFormed.toLinked hst
  | fail b rest code hw => exact h.decided hw h.wellFormed (fun _ _ hst => Or.inr hst) _
  | elapse d =>
    refine ⟨h.wellFormed,h.stored,h.waiting,h.requested,h.numbered,?_,h.timely⟩
    intro past b future hw hid r hc
    exact (h.due past b future hw hid r hc).mono (Int.le_add_of_nonneg_right (Int.natCast_nonneg d))

theorem steps (h : l.Timed scheduled expirations) (hs : l.Steps l') :
    l'.Timed scheduled expirations := by
  induction hs with
  | refl => exact h
  | tail _ hlast ih => exact ih.step hlast

private theorem split_concat {α : Type} {xs past future : List α} {x b : α}
    (h : xs ++ [x] = past ++ b :: future) :
    past = xs ∧ b = x ∨ ∃ future', xs = past ++ b :: future' := by
  rcases eq_nil_or_concat future with rfl | ⟨init,y,rfl⟩
  · obtain ⟨hp,hb⟩ := append_inj' h rfl
    exact Or.inl ⟨hp.symm,(cons.inj hb).1.symm⟩
  · rw [concat_eq_append,← cons_append,← append_assoc] at h
    exact Or.inr ⟨init,(append_inj' h rfl).1⟩

private theorem request (h : l.Timed scheduled expirations)
    (hu : update.action = .register → update.route.Owned scheduled) {expirations' : List Nat}
    (he : ∀ id ∈ expirations', id ∈ expirations ∨ id = l.nBatches ∧
      ∀ r, l.rib.Candidate l.waiting update r → r.ExpiredAt l.now) :
    (l.enqueue update).Timed scheduled expirations' := by
  have hold : ∀ id ∈ expirations', id < l.nBatches → id ∈ expirations := fun id hid hlt =>
    (he id hid).resolve_right fun hx => absurd hx.1 hlt.ne
  refine ⟨h.wellFormed,h.stored,?_,?_,⟨?_,?_⟩,?_,?_⟩
  · intro b hb ha
    rcases mem_append.mp hb with hb | hb
    · exact h.waiting b hb ha
    · obtain rfl := mem_singleton.mp hb
      exact hu ha
  · intro id hid
    rcases he id hid with hx | ⟨rfl,_⟩
    · exact Nat.lt_succ_of_lt (h.requested id hx)
    · exact Nat.lt_succ_self _
  · intro b hb
    rcases mem_append.mp hb with hb | hb
    · exact Nat.lt_succ_of_lt (h.numbered.1 b hb)
    · rw [mem_singleton.mp hb]
      exact Nat.lt_succ_self _
  · exact fun d hd => Nat.lt_succ_of_lt (h.numbered.2 d hd)
  · intro past b future hsplit hid r hc
    rcases split_concat hsplit with ⟨rfl,rfl⟩ | ⟨future',hw⟩
    · rcases he _ hid with hx | ⟨_,hx⟩
      · exact absurd (h.requested _ hx) (lt_irrefl _)
      · exact hx r hc
    · have hb : b ∈ l.waiting := hw ▸ mem_append_right _ mem_cons_self
      exact h.due past b future' hw (hold _ hid (h.numbered.1 b hb)) r hc
  · intro d hd hid
    exact h.timely d hd (hold _ hid (h.numbered.2 d hd))

theorem enqueue (h : l.Timed scheduled expirations)
    (hu : update.action = .register → update.route.Owned scheduled) :
    (l.enqueue update).Timed scheduled expirations :=
  h.request hu fun _ hid => Or.inl hid

theorem expire (h : l.Timed scheduled expirations) (hu : update.action = .unregister)
    (hexp : ∀ r, l.rib.Candidate l.waiting update r → r.ExpiredAt l.now) :
    (l.enqueue update).Timed scheduled (l.nBatches :: expirations) := by
  refine h.request (fun ha => absurd (hu.symm.trans ha) (by simp)) fun id hid => ?_
  rcases mem_cons.mp hid with rfl | hid
  · exact Or.inr ⟨rfl,hexp⟩
  · exact Or.inl hid

theorem enqueueAll (h : l.Timed scheduled expirations) {updates : List RibUpdate}
    (hu : ∀ u ∈ updates, u.action ≠ .register) :
    (updates.foldl Ledger.enqueue l).Timed scheduled expirations := by
  induction updates generalizing l with
  | nil => exact h
  | cons u us ih =>
    exact ih (h.enqueue fun ha => absurd ha (hu u mem_cons_self))
      fun u' hu' => hu u' (mem_cons_of_mem u hu')

theorem schedule (h : l.Timed scheduled expirations) (e : ExpirationEvent) :
    l.Timed (scheduled ++ [e]) expirations :=
  ⟨h.wellFormed,fun n r hs => (h.stored n r hs).append e,
    fun b hb ha => (h.waiting b hb ha).append e,h.requested,h.numbered,h.due,h.timely⟩

end Ledger.Timed

namespace RibManager

variable {nth : NthElement} {s s' : RibManager}

structure Inv (s : RibManager) : Prop where
  waiting : s.queue.Waiting
  timed : s.queue.ledger.Timed s.scheduled s.expirations

private theorem inv_empty : empty.Inv := by
  refine ⟨UpdateQueue.waiting_empty,Rib.WellFormed.empty,?_,?_,?_,⟨?_,?_⟩,?_,?_⟩
  · rintro n r ⟨routes,hr,_⟩
    exact absurd hr (by simp [empty,UpdateQueue.empty,UpdateQueue.ledger,Rib.routesAt,Rib.entryAt,
      Rib.find,Rib.empty])
  all_goals simp [empty,UpdateQueue.empty,UpdateQueue.ledger]

private theorem Inv.queue (hw : s.queue.Waiting) (event : UpdateQueue.Event)
    (hcond : s.queue.NoMixUp event) {queue : UpdateQueue}
    (hs : s.queue.step nth event = some queue)
    (ht : ∀ updates, UpdateQueue.Requests event updates →
      (updates.foldl Ledger.enqueue s.queue.ledger).Timed s.scheduled s.expirations) :
    Inv { s with queue := queue } := by
  obtain ⟨hw',updates,hu,hsteps⟩ := hw.step hcond hs
  exact ⟨hw',(ht updates hu).steps hsteps⟩

private theorem Inv.beginRibUpdate (hs : s.beginRibUpdate nth update = some s')
    (hw : s.queue.Waiting) (ht : (s.queue.ledger.enqueue update).Timed s.scheduled s.expirations) :
    s'.Inv := by
  obtain ⟨queue,hq,rfl⟩ := map_eq_some_iff.mp hs
  refine Inv.queue hw (.apply update) trivial hq fun updates hu => ?_
  obtain rfl : updates = [update] := hu
  exact ht

private theorem Inv.queueStep (h : s.Inv) {event : UpdateQueue.Event}
    (hs : s.queueStep nth event = some s') (hcond : s.queue.NoMixUp event)
    (hreq : ∀ updates, UpdateQueue.Requests event updates →
      ∀ u ∈ updates, u.action ≠ .register) : s'.Inv := by
  obtain ⟨queue,hq,rfl⟩ := map_eq_some_iff.mp hs
  exact Inv.queue h.waiting event hcond hq fun updates hu => h.timed.enqueueAll (hreq updates hu)

private theorem lifetime_spec {d : Time} (hfits : ∀ t ∈ route.expires, Fits t)
    (h : (s.lifetime route expires).2 = some d) :
    (s.lifetime route expires).1 = some (addDuration s.now d) := by
  cases expires with
  | some d' =>
    cases h
    rfl
  | none =>
    obtain ⟨t,ht,rfl⟩ := map_eq_some_iff.mp h
    have hback : addDuration s.now (addDuration t (-s.now)) = t := by
      rw [addDuration,addDuration,wrap64_add_wrap64,Int.add_comm,Int.neg_add_cancel_right]
      exact hfits t ht
    rw [lifetime,ht,hback]

private theorem lifetime_none (h : (s.lifetime route expires).2 = none) :
    expires = none ∧ route.expires = none := by
  cases expires with
  | some d => exact absurd h (by simp [lifetime])
  | none => exact ⟨rfl,map_eq_none_iff.mp h⟩

private theorem Inv.beginAddRoute (h : s.Inv) {name : Name}
    (hs : s.beginAddRoute nth name route expires = some s') (hann : Fits route.annExpires)
    (hfits : ∀ t ∈ route.expires, Fits t)
    (hnew : route.expires = none → route.expirationEvent = none) : s'.Inv := by
  unfold RibManager.beginAddRoute at hs
  cases hl : (s.lifetime route expires).2 with
  | none =>
    simp only [hl] at hs
    have hev := hnew (lifetime_none hl).2
    refine Inv.beginRibUpdate hs h.waiting (h.timed.enqueue fun _ => ⟨fun id hid => ?_,hann⟩)
    rw [hev] at hid
    exact absurd hid (by simp)
  | some d =>
    have htime := lifetime_spec hfits hl
    simp only [hl] at hs
    split_ifs at hs with hd
    · exact Inv.beginRibUpdate hs h.waiting (h.timed.enqueue fun ha => absurd ha (by simp))
    · refine Inv.beginRibUpdate hs h.waiting
        ((h.timed.schedule _).enqueue fun _ => ⟨fun id hid => ?_,hann⟩)
      cases hid
      exact ⟨_,getElem?_concat_length,htime⟩

private theorem fits_expires {annExpires : Time} (h : Fits annExpires) (maxLifetime : Int) :
    ∀ t ∈ some (min annExpires (addDuration s.now (toNanoseconds maxLifetime))), Fits t := by
  intro t ht
  cases ht
  exact fits_min h (fits_addDuration _ _)

private theorem Inv.fits_found (h : s.Inv) {name : Name} {found : Route}
    (hfound : s.queue.rib.findLongestPrefix name route = some found) : Fits found.annExpires := by
  have hstored : ∀ n, s.queue.rib.findRoute n route = some found → Fits found.annExpires :=
    fun n hn => (h.timed.stored n found (Rib.stores_of_findRoute hn).1).fits
  unfold Rib.findLongestPrefix at hfound
  split at hfound
  · next hroute =>
    cases hfound
    exact hstored _ hroute
  · obtain ⟨p,_,hroute⟩ := bind_eq_some_iff.mp hfound
    exact hstored _ hroute

private theorem Inv.expired (h : s.Inv) {id : EventId} {e : ExpirationEvent}
    (he : s.scheduled[id]? = some e) (hsafe : s.Safe (.execute id)) (hdue : e.time ≤ s.now) :
    ∀ r, s.queue.rib.Candidate s.queue.ledger.waiting ⟨.unregister,e.name,e.route⟩ r →
      r.ExpiredAt s.now := by
  rintro r ⟨hk,hc⟩
  have howned : r ∈ s.candidates e.name e.route ∧ r.Owned s.scheduled := by
    rcases hc with hst | ⟨b,hb,ha,hn,rfl⟩
    · refine ⟨mem_append_left _ ?_,h.timed.stored _ r hst⟩
      rw [mem_toList]
      exact hst.findRoute h.timed.wellFormed hk
    · refine ⟨mem_append_right _ (mem_map.mpr ⟨b,mem_filter.mpr ⟨hb,?_⟩,rfl⟩),
        h.timed.waiting b hb ha⟩
      exact decide_eq_true ⟨ha,hn,hk⟩
  rcases hsafe e he r howned.1 with hown | hexp
  · obtain ⟨e',he',hr⟩ := howned.2.event id hown
    obtain rfl := some.inj (he.symm.trans he')
    exact ⟨e.time,hr,hdue⟩
  · exact hexp

private theorem Inv.execute (h : s.Inv) {id : EventId} (hsafe : s.Safe (.execute id))
    (hs : s.step nth (.execute id) = some s') : s'.Inv := by
  obtain ⟨e,he,hs⟩ := bind_eq_some_iff.mp hs
  split_ifs at hs with hex
  exact Inv.beginRibUpdate hs h.waiting (h.timed.expire rfl (h.expired he hsafe hex.1))

private theorem Inv.step (h : s.Inv) {event : Event} (hsafe : s.Safe event)
    (hs : s.step nth event = some s') : s'.Inv := by
  cases event with
  | registerEntry incomingFaceId parameters =>
    rw [RibManager.step,registerEntry] at hs
    split_ifs at hs
    · cases hs
      exact h
    · exact h.beginAddRoute hs rfl nofun fun _ => rfl
  | unregisterEntry incomingFaceId parameters =>
    exact Inv.beginRibUpdate hs h.waiting (h.timed.enqueue fun ha => absurd ha (by simp))
  | slAnnounce pa faceId maxLifetime wallClock =>
    rw [RibManager.step,slAnnounce] at hs
    have hann : Fits (computeExpiration pa s.now wallClock) := fits_addDuration _ _
    exact h.beginAddRoute hs hann (fits_expires hann maxLifetime) nofun
  | slRenew name faceId maxLifetime =>
    rw [RibManager.step,slRenew] at hs
    split at hs
    · cases hs
      exact h
    · next oldRoute hfound =>
      split at hs
      · cases hs
        exact h
      · have hann := h.fits_found hfound
        exact h.beginAddRoute hs hann (fits_expires hann maxLifetime) nofun
  | execute id => exact h.execute hsafe hs
  | respond i response =>
    refine h.queueStep hs hsafe fun updates hu u hm => ?_
    obtain rfl : updates = [] := hu
    exact absurd hm not_mem_nil
  | elapse d =>
    refine h.queueStep hs trivial fun updates hu u hm => ?_
    obtain rfl : updates = [] := hu
    exact absurd hm not_mem_nil
  | _ =>
    exact h.queueStep hs trivial fun _ hu u hm => by simp [hu u hm]

private theorem Inv.removals (h : s.Inv) : ∀ p ∈ s.removals, p.1.ExpiredAt p.2 := by
  intro p hp
  obtain ⟨d,hd,hp⟩ := mem_filterMap.mp hp
  obtain ⟨hd,hid⟩ := mem_filter.mp hd
  split at hp
  · obtain ⟨r,hr,rfl⟩ := map_eq_some_iff.mp hp
    exact h.timed.timely d hd (of_decide_eq_true hid) r hr
  · exact absurd hp (by simp)

/-- Expiration events remove expired routes only, in every state of a run in which each event that
is executed belongs to the routes under its key. -/
theorem run_removals_expired (nth : NthElement) (events : List Event)
    (hsafe : ∀ past event future s, events = past ++ event :: future → run nth past = some s →
      s.Safe event) {s : RibManager} (hr : run nth events = some s) :
    ∀ p ∈ s.removals, p.1.ExpiredAt p.2 :=
  (foldlM_invariant_of_some (step nth) Inv Safe (fun _ _ _ h hc hs => h.step hc hs) empty inv_empty
    events hsafe hr).removals

theorem run_removals_expired_renewed :
    let name : Name := [Component.generic [97]]
    let events : List Event := [.slAnnounce ⟨name,1000,none⟩ 1 500 0,.respond 0 .success,
      .elapse 400000000,.slRenew (name ++ name) 1 500,.elapse 500000000,.execute 1,
      .respond 0 .success]
    ∃ s, run NthElement.stable events = some s ∧
      s.removals.map (fun p => (p.1.expires,p.2)) = [(some 900000000,900000000)] ∧
      ∀ p ∈ s.removals, p.1.ExpiredAt p.2 := by
  intro name events
  refine ⟨(run NthElement.stable events).get (by decide +kernel),by simp,by decide +kernel,?_⟩
  refine run_removals_expired NthElement.stable events (fun past event future t hs hr => ?_) (by simp)
  have hall := forall_split (P := fun past event =>
    ((run NthElement.stable past).all fun t => decide (t.Safe event)) = true) events
    (by decide +kernel) past event future hs
  rw [hr] at hall
  exact of_decide_eq_true hall

/-- A registration with a lifetime fails and leaves its event behind, which later removes the stored
route that never expires. A registration that renews a route waits for its response while the old
event is executed, which removes the renewed route before its time. -/
theorem stale_event_removes :
    let parameters : Nat → Option Nat → ControlParameters :=
      fun cost period => ⟨[Component.generic [97]],0,0,cost,0,period⟩
    (run NthElement.stable [.registerEntry 1 (parameters 10 none),.respond 0 .success,
        .registerEntry 1 (parameters 20 (some 500)),.respond 0 (.error errorFaceNotFound),
        .elapse 500000000,.execute 0,.respond 0 .success]).map
        (fun s => s.removals.map fun p => (p.1.cost,p.1.expires,p.2)) =
      some [(10,none,500000000)] ∧
    (run NthElement.stable [.registerEntry 1 (parameters 10 (some 500)),.respond 0 .success,
        .elapse 400000000,.registerEntry 1 (parameters 20 (some 500)),.elapse 100000000,.execute 0,
        .respond 0 .success,.respond 0 .success]).map
        (fun s => s.removals.map fun p => (p.1.cost,p.1.expires,p.2)) =
      some [(20,some 900000000,500000000)] := by
  decide +kernel

end RibManager

end KiteNdn.Routing
