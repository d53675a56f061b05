import KiteNdn.Rib.RouteTable

/-!
# What a computation of the updater can touch

Expiration events are cancelled only by the unregistration of a route that is there. Inherited
routes are recorded or dropped for the updated entry and for the entries below it, all of which are
in the table once the update has been applied.
-/

namespace KiteNdn.Routing

section Below

open Name List

/-- `cs` are the objects just below the name `n`. -/
def Rib.Below (rib : Rib) (n : Name) (cs : List EntryId) : Prop :=
  ∀ c, c ∈ cs ↔ ∃ m, rib.find m = some c ∧ n ≠ m ∧ Covers rib.Present n m

namespace FibUpdater

variable {rib : Rib} {n : Name} {u : FibUpdater} {a : FaceId → Option Nat}

end FibUpdater

theorem Rib.below_new {rib : Rib} (h : rib.Linked) {n : Name} (hf : rib.find n = none) :
    rib.Below n ((rib.findDescendantsForNonInsertedName n).filter fun c =>
      (rib.heap c).parent = rib.findParent n) := by
  intro c
  simp only [findDescendantsForNonInsertedName,toName_component,mem_filter,mem_map,
    decide_eq_true_eq]
  constructor
  · rintro ⟨⟨⟨m,x⟩,⟨hm,hnm⟩,rfl⟩,hpar⟩
    have hm' := (rib.table.find?_eq_some m x).mpr hm
    refine ⟨m,hm',?_,(h.same_parent_iff_covers hf hm' hnm).mp hpar⟩
    rintro rfl
    exact absurd (hf.symm.trans hm') (by simp)
  · rintro ⟨m,hm,_,hcov⟩
    exact ⟨⟨(m,c),⟨(rib.table.find?_eq_some m c).mp hm,hcov.1⟩,rfl⟩,
      (h.same_parent_iff_covers hf hm hcov.1).mpr hcov⟩

end Below

namespace FibUpdater

/-- The same batch face and cancelled events, and changes of inherited routes only at names in
`Q`. -/
structure Extends (Q : Name → Prop) (u u' : FibUpdater) : Prop where
  face : u'.batchFaceId = u.batchFaceId
  events : u'.cancelledEvents = u.cancelledEvents
  names : ∀ x ∈ u'.inheritedRoutes, x ∈ u.inheritedRoutes ∨ Q x.name

variable {Q : Name → Prop} {u u₁ u₂ : FibUpdater} {e : RibEntry} {name : Name}

theorem Extends.refl (u : FibUpdater) : Extends Q u u := ⟨rfl,rfl,fun _ hx => Or.inl hx⟩

theorem Extends.trans (h : Extends Q u u₁) (h' : Extends Q u₁ u₂) : Extends Q u u₂ :=
  ⟨h'.face.trans h.face,h'.events.trans h.events,
    fun x hx => (h'.names x hx).elim (h.names x) Or.inr⟩

theorem Extends.ite {c : Prop} [Decidable c] (h : Extends Q u u₁) (h' : Extends Q u u₂) :
    Extends Q u (if c then u₁ else u₂) := by
  split_ifs
  · exact h
  · exact h'

private theorem foldl_extends {α : Type} {step : FibUpdater → α → FibUpdater} {P : α → Prop}
    (h : ∀ u x, P x → Extends Q u (step u x)) (l : List α) (hl : ∀ x ∈ l, P x)
    (u : FibUpdater) : Extends Q u (l.foldl step u) := by
  induction l generalizing u with
  | nil => exact .refl u
  | cons x l ih =>
    exact (h u x (hl x List.mem_cons_self)).trans
      (ih (fun y hy => hl y (List.mem_cons_of_mem x hy)) (step u x))

theorem extends_addFibUpdate (u : FibUpdater) (x : FibUpdate) :
    Extends Q u (u.addFibUpdate x) := by
  unfold addFibUpdate
  split_ifs <;> exact ⟨rfl,rfl,fun _ hx => Or.inl hx⟩

private theorem extends_append {xs : List RibUpdate} {y : RibUpdate} (hy : Q y.name) :
    ∀ x ∈ xs ++ [y], x ∈ xs ∨ Q x.name := by
  intro x hx
  rcases List.mem_append.mp hx with hx | hx
  · exact Or.inl hx
  · exact Or.inr (List.mem_singleton.mp hx ▸ hy)

theorem extends_inheritRoute (u : FibUpdater) (hq : Q name) (r : Route) :
    Extends Q u (u.inheritRoute name r) := by
  have hadd : Extends Q u (u.addInheritedRoute name r) := ⟨rfl,rfl,extends_append hq⟩
  exact hadd.trans (extends_addFibUpdate _ _)

theorem extends_disinheritRoute (u : FibUpdater) (hq : Q e.name) (r : Route) :
    Extends Q u (u.disinheritRoute e r) := by
  have hremove : Extends Q u (u.removeInheritedRoute e.name r) := ⟨rfl,rfl,extends_append hq⟩
  exact (hremove.trans (extends_addFibUpdate _ _)).ite (.refl u)

theorem extends_addInheritedRoutes (u : FibUpdater) (hq : Q e.name) (s : RouteSet) :
    Extends Q u (u.addInheritedRoutes e s) :=
  foldl_extends (P := fun _ => True)
    (fun u r _ => (Extends.refl u).ite (extends_inheritRoute u hq r)) s.items
    (fun _ _ => trivial) u

theorem extends_addInheritedRoutesIgnoring (u : FibUpdater) (hq : Q name) (s : RouteSet)
    (ignore : Route) : Extends Q u (u.addInheritedRoutesIgnoring name s ignore) :=
  foldl_extends (P := fun _ => True)
    (fun u r _ => (extends_inheritRoute u hq r).ite (.refl u)) s.items (fun _ _ => trivial) u

theorem extends_removeInheritedRoutes (u : FibUpdater) (hq : Q e.name) (s : RouteSet) :
    Extends Q u (u.removeInheritedRoutes e s) :=
  foldl_extends (P := fun _ => True) (fun u r _ => extends_disinheritRoute u hq r) s.items
    (fun _ _ => trivial) u

/-- A set of entries with names in `Q` that holds the children of its members. -/
def Visitable (rib : Rib) (Q : Name → Prop) (V : EntryId → Prop) : Prop :=
  ∀ p, V p → Q (rib.heap p).name ∧ ∀ c ∈ (rib.heap p).children, V c

variable {rib : Rib} {update : RibUpdate} {V : EntryId → Prop}

private theorem extends_traverseSubTree (hV : Visitable rib Q V) (fuel : Nat) :
    ∀ (A D : RouteSet) (u : FibUpdater) (p : EntryId), V p →
      Extends Q u (traverseSubTree rib fuel A D u p) := by
  induction fuel with
  | zero => exact fun _ _ u _ _ => .refl u
  | succ fuel ih =>
    intro A D u p hp
    obtain ⟨hq,hchildren⟩ := hV p hp
    unfold traverseSubTree
    dsimp only
    split_ifs
    · exact .refl u
    · exact ((extends_removeInheritedRoutes u hq _).trans
        (extends_addInheritedRoutes _ hq _)).trans (foldl_extends (ih _ _) _ hchildren _)

theorem extends_modify (hV : Visitable rib Q V) {cs : List EntryId} (hcs : ∀ c ∈ cs, V c)
    (u : FibUpdater) (A D : RouteSet) :
    Extends Q u (u.modifyChildrensInheritedRoutes rib cs A D) :=
  foldl_extends (extends_traverseSubTree hV _ A D) cs hcs u

theorem extends_newRibEntry (hV : Visitable rib Q V) (hq : Q name) {cs : List EntryId}
    (hcs : ∀ c ∈ cs, V c) (u : FibUpdater) (route : Route) :
    Extends Q u (u.createFibUpdatesForNewRibEntry rib name route cs) := by
  have hadd := extends_addFibUpdate (Q := Q) u (.createAddUpdate name route.faceId route.cost)
  have hmod := extends_modify hV hcs
  unfold createFibUpdatesForNewRibEntry
  dsimp only
  split_ifs
  · exact hadd.trans (extends_addInheritedRoutesIgnoring _ hq _ _)
  · exact hadd.trans (hmod _ _ _)
  · exact (hadd.trans (extends_addInheritedRoutesIgnoring _ hq _ _)).trans (hmod _ _ _)
  · exact hadd.trans (hmod _ _ _)

section Entry

variable {e : RibEntry} (hV : Visitable rib Q V) (hcs : ∀ c ∈ e.children, V c)

include hV hcs

theorem extends_newRoute (u : FibUpdater) (route : Route) (on : Bool)
    (hq : on = true → Q e.name) :
    Extends Q u (u.createFibUpdatesForNewRoute rib e route on) := by
  have hself : ∀ s, Extends Q u (if on then u.removeInheritedRoutes e s else u) := by
    intro s
    split_ifs with h
    · exact extends_removeInheritedRoutes u (hq h) s
    · exact .refl u
  have hmod : ∀ s A D, Extends Q u ((if on then u.removeInheritedRoutes e s
      else u).modifyChildrensInheritedRoutes rib e.children A D) := fun s A D =>
    (hself s).trans (extends_modify hV hcs _ A D)
  exact ((hmod _ _ _).trans (extends_addFibUpdate _ _)).ite (hmod _ _ _)

private theorem extends_updateChildInherit (u : FibUpdater) (route old : Route) :
    Extends Q u (u.updateChildInherit rib e route old) := by
  have hmod := extends_modify hV hcs u
  exact ((hmod _ _).ite (.refl u)).ite ((hmod _ _).ite (.refl u))

private theorem extends_updateCapture (hq : Q e.name) (u : FibUpdater) (route old : Route) :
    Extends Q u (u.updateCapture rib e route old) := by
  refine Extends.ite ?_ (Extends.ite ?_ (.refl u))
  · exact (extends_removeInheritedRoutes u hq _).trans (extends_modify hV hcs _ _ _)
  · exact (extends_addInheritedRoutes u hq _).trans (extends_modify hV hcs _ _ _)

omit hV hcs in
private theorem extends_updateOwnNexthop {route old : Route}
    (h : u.updateOwnNexthop e route old = some u₁) : Extends Q u u₁ := by
  unfold updateOwnNexthop at h
  dsimp only at h
  split_ifs at h
  · cases h
    exact extends_addFibUpdate u _
  · obtain ⟨_,_,rfl⟩ := Option.map_eq_some_iff.mp h
    exact extends_addFibUpdate u _
  · cases h
    exact .refl u

theorem extends_updatedRoute (hq : Q e.name) {route old : Route}
    (h : u.createFibUpdatesForUpdatedRoute rib e route old = some u₁) : Extends Q u u₁ := by
  unfold createFibUpdatesForUpdatedRoute at h
  dsimp only at h
  by_cases hsame : route.flags = old.flags ∧ route.cost = old.cost
  · rw [if_pos hsame] at h
    cases h
    exact .refl u
  rw [if_neg hsame] at h
  obtain ⟨u₂,hu₂,rfl⟩ := Option.map_eq_some_iff.mp h
  have hown : Extends Q u u₂ := by
    split_ifs at hu₂
    · exact extends_updateOwnNexthop hu₂
    · cases hu₂
      exact .refl u
  exact hown.trans ((extends_modify hV hcs _ _ _).ite
    ((extends_updateChildInherit hV hcs _ _ _).trans (extends_updateCapture hV hcs hq _ _ _)))

def unblock (rib : Rib) (e : RibEntry) (face : FaceId) (u : FibUpdater) : FibUpdater :=
  if !e.hasCapture && !e.routes.isEmpty then
    match (rib.getAncestorRoutes e).find? face with
    | some ancestor => u.inheritRoute e.name ancestor
    | none => u
  else u

theorem extends_erasedRoute (hq : e.routes ≠ [] → Q e.name) (u : FibUpdater) (route : Route)
    (off : Bool) : Extends Q u (u.createFibUpdatesForErasedRoute rib e route off) := by
  have hadd := extends_addFibUpdate (Q := Q) u (.createRemoveUpdate e.name route.faceId)
  have hmod := fun u : FibUpdater => extends_modify hV hcs u
  have hrestore : ∀ u : FibUpdater, Extends Q u (u.restoreAncestorRoutes rib e off).1 := by
    intro u
    unfold restoreAncestorRoutes
    split_ifs with h
    · rw [Bool.and_eq_true] at h
      exact extends_addInheritedRoutes u (hq (by simpa using h.2)) _
    · exact .refl u
  have hunblock : ∀ u : FibUpdater, Extends Q u (u.unblock rib e route.faceId) := by
    intro u
    unfold unblock
    split_ifs with h
    · rw [Bool.and_eq_true] at h
      cases (rib.getAncestorRoutes e).find? route.faceId with
      | none => exact .refl u
      | some ancestor => exact extends_inheritRoute u (hq (by simpa using h.2)) _
    · exact .refl u
  unfold createFibUpdatesForErasedRoute
  dsimp only
  refine Extends.trans (hadd.trans (Extends.ite ?_ (Extends.ite ?_
    (Extends.ite ?_ (.refl _))))) (hunblock _)
  · exact (hrestore _).trans (hmod _ _ _)
  · exact hmod _ _ _
  · exact (hrestore _).trans (hmod _ _ _)

end Entry

theorem extends_erasedRibEntry (u : FibUpdater) (e : RibEntry) :
    Extends Q u (u.createFibUpdatesForErasedRibEntry e) :=
  foldl_extends (P := fun _ => True) (fun u _ _ => extends_addFibUpdate u _) e.inheritedRoutes
    (fun _ _ => trivial) u

/-- The events that the computation for an update cancels: that of the stored route, if the update
erases one. -/
def eventsCancelledFor (rib : Rib) (update : RibUpdate) : List EventId :=
  match update.action,rib.findRoute update.name update.route with
  | .register,_ => []
  | _,some existing => existing.expirationEvent.toList
  | _,none => []

/-- The entries that the computation for an update may visit, and the names it may write. -/
structure Reaches (rib : Rib) (update : RibUpdate) (Q : Name → Prop) (V : EntryId → Prop) :
    Prop where
  visitable : Visitable rib Q V
  new : rib.find update.name = none → ∀ c ∈ (rib.findDescendantsForNonInsertedName
    update.name).filter (fun c => (rib.heap c).parent = rib.findParent update.name), V c
  children : ∀ p, rib.find update.name = some p → ∀ c ∈ (rib.heap p).children, V c
  own : update.action = .register → Q update.name
  kept : ∀ p, rib.find update.name = some p →
    ((rib.heap p).eraseRoute update.route).1.routes ≠ [] → Q update.name

private theorem unregistration_extends (hr : Reaches rib update Q V)
    (hnamed : ∀ p, rib.find update.name = some p → (rib.heap p).name = update.name)
    (nth : NthElement) (u : FibUpdater) (ha : update.action ≠ .register) :
    Extends Q { u with cancelledEvents := eventsCancelledFor rib update ++ u.cancelledEvents }
      (u.computeUpdatesForUnregistration nth rib update) := by
  have hev : eventsCancelledFor rib update = (rib.findRoute update.name update.route).elim []
      fun existing => existing.expirationEvent.toList := by
    unfold eventsCancelledFor
    cases hact : update.action with
    | register => exact absurd hact ha
    | _ => cases rib.findRoute update.name update.route <;> rfl
  rw [hev]
  unfold computeUpdatesForUnregistration Rib.findRoute Rib.entryAt
  cases hp : rib.find update.name with
  | none => exact .refl _
  | some p =>
    dsimp only [Option.map_some,Option.bind_some]
    cases hf : (rib.heap p).findRoute update.route with
    | none => exact .refl _
    | some existing =>
      dsimp only [Option.elim]
      have hcancel : ((rib.heap p).eraseRoute update.route).2 =
          existing.expirationEvent.toList := by
        rw [RibEntry.eraseRoute,hf]
      have hcopy : ((rib.heap p).eraseRoute update.route).1.name = (rib.heap p).name ∧
          ((rib.heap p).eraseRoute update.route).1.children = (rib.heap p).children := by
        rw [RibEntry.eraseRoute,hf]
        exact ⟨rfl,rfl⟩
      have hcs : ∀ c ∈ ((rib.heap p).eraseRoute update.route).1.children, V c := by
        rw [hcopy.2]
        exact hr.children p hp
      have hq : ((rib.heap p).eraseRoute update.route).1.routes ≠ [] →
          Q ((rib.heap p).eraseRoute update.route).1.name := by
        rw [hcopy.1,hnamed p hp]
        exact hr.kept p hp
      rw [← hcancel]
      have herased := extends_erasedRoute hr.visitable hcs hq { u with
        cancelledEvents := ((rib.heap p).eraseRoute update.route).2 ++ u.cancelledEvents }
        existing ((rib.heap p).hasCapture &&
          !((rib.heap p).eraseRoute update.route).1.hasCapture)
      cases (rib.heap p).getRouteWithSecondLowestCostByFaceId nth update.route.faceId with
      | none => exact (herased.trans (extends_erasedRibEntry _ _)).ite herased
      | some next =>
        have hnext := herased.trans (extends_newRoute hr.visitable hcs _ next false
          (by simp))
        exact (hnext.trans (extends_erasedRibEntry _ _)).ite hnext

/-- The batch face is the one the computation was started with, the only event it cancels is that
of the route to erase, and inherited routes change only at names it reaches. -/
theorem computeUpdates_extends (hr : Reaches rib update Q V)
    (hnamed : ∀ p, rib.find update.name = some p → (rib.heap p).name = update.name)
    {nth : NthElement} (h : u.computeUpdates nth rib update = some u₁) :
    Extends Q { u with cancelledEvents := eventsCancelledFor rib update ++ u.cancelledEvents }
      u₁ := by
  unfold computeUpdates at h
  cases ha : update.action with
  | register =>
    have hev : eventsCancelledFor rib update = [] := by
      rw [eventsCancelledFor,ha]
    rw [ha] at h
    dsimp only [computeUpdatesForRegistration] at h
    rw [hev]
    suffices hs : Extends Q u u₁ from ⟨hs.face,hs.events,hs.names⟩
    cases hp : rib.find update.name with
    | none =>
      rw [hp] at h
      cases h
      exact extends_newRibEntry hr.visitable (hr.own ha) (hr.new hp) _ _
    | some p =>
      rw [hp] at h
      dsimp only at h
      cases hf : (rib.heap p).findRoute update.route with
      | none =>
        rw [hf] at h
        cases h
        exact extends_newRoute hr.visitable (hr.children p hp) _ _ _
          fun _ => (hnamed p hp).symm ▸ hr.own ha
      | some existing =>
        rw [hf] at h
        refine extends_updatedRoute hr.visitable ?_ ?_ h
        · exact hr.children p hp
        · exact (hnamed p hp).symm ▸ hr.own ha
  | unregister =>
    rw [ha] at h
    cases h
    exact unregistration_extends hr hnamed nth u (by simp [ha])
  | removeFace =>
    rw [ha] at h
    cases h
    have hext := unregistration_extends hr hnamed nth u (by simp [ha])
    exact ⟨hext.face,hext.events,hext.names⟩

theorem computeUpdates_present (hl : rib.Linked) {nth : NthElement}
    (h : u.computeUpdates nth rib update = some u₁) :
    ∀ x ∈ u₁.inheritedRoutes, x ∈ u.inheritedRoutes ∨ (rib.applyBatch update).Present x.name := by
  have hkeep : ∀ m, m ≠ update.name → rib.Present m → (rib.applyBatch update).Present m := by
    intro m hm hpm
    rw [Rib.present_iff_routesAt] at hpm ⊢
    rwa [Rib.routesAt_applyBatch_of_ne hl update hm]
  have hinsert : (rib.insert update.name update.route).Present update.name := by
    obtain ⟨routes,hroutes⟩ := Rib.routesAt_insert hl update.name update.route
    rw [Rib.present_iff_routesAt,hroutes,Function.update_self]
    simp
  have hbelow : ∀ m c, rib.find m = some c → update.name ≠ m → update.name <+: m →
      ∃ m, rib.find m = some c ∧ update.name <+: m ∧ m ≠ update.name :=
    fun m _ hm hne hpre => ⟨m,hm,hpre,Ne.symm hne⟩
  have hreach : Reaches rib update (fun m => (rib.applyBatch update).Present m)
      fun p => ∃ m, rib.find m = some p ∧ update.name <+: m ∧ m ≠ update.name := by
    refine ⟨?_,?_,?_,?_,?_⟩
    · rintro p ⟨m,hm,hpre,hne⟩
      refine ⟨?_,fun c hc => ?_⟩
      · rw [hl.named m p hm]
        exact hkeep m hne (Rib.present_of_find hm)
      · obtain ⟨k,hk,hkm,hcov⟩ := (hl.mem_children_iff hm c).mp hc
        refine hbelow k c hk ?_ (hpre.trans hcov.1)
        rintro rfl
        exact hkm (hcov.1.eq_of_length_le hpre.length_le)
    · intro hp c hc
      obtain ⟨k,hk,hne,hcov⟩ := (Rib.below_new hl hp c).mp hc
      exact hbelow k c hk hne hcov.1
    · intro p hp c hc
      obtain ⟨k,hk,hne,hcov⟩ := (hl.mem_children_iff hp c).mp hc
      exact hbelow k c hk hne hcov.1
    · intro ha
      rw [Rib.applyBatch,ha]
      exact hinsert
    · intro p hp hne
      have herase : (rib.erase update.name update.route).Present update.name := by
        cases hr : (rib.heap p).findRoute update.route with
        | none =>
          have hex : rib.findRoute update.name update.route = none := by
            simp [Rib.findRoute,Rib.entryAt,hp,hr]
          rw [Rib.erase_absent hex]
          exact Rib.present_of_find hp
        | some r =>
          rw [Rib.present_iff_routesAt,Rib.routesAt_erase hl hp hr,Function.update_self,
            if_neg (by simpa using hne)]
          simp
      unfold Rib.applyBatch
      cases update.action with
      | register => exact hinsert
      | _ => exact herase
  exact (computeUpdates_extends hreach (fun p hp => hl.named _ p hp) h).names

end FibUpdater

end KiteNdn.Routing
