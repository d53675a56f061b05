import KiteNdn.Rib.FibUpdater
import KiteNdn.Framework.Run
import KiteNdn.Rib.Structure

/-!
# The route table and what the FIB owes to it

An entry inherits from the nearest ancestor with a child-inherit route on the face, up to the first
ancestor that captures. `Rib::getAncestorRoutes` walks the same ancestors but keeps the first listed
route of each face, which need not be the cheapest one. The capture counter does not follow routes
that are overwritten in place.

The invariant that carries the contract of the FIB: what the entries have recorded as inherited
covers what the FIB holds. A computation of the updater establishes it if it does so cell by cell.
-/

namespace KiteNdn.Routing

open Framework List Function RibEntry

namespace Rib

/-- The counter of every entry is the number of its routes with the capture flag. -/
def CaptureExact (rib : Rib) : Prop :=
  ∀ n p, rib.find n = some p →
    (rib.heap p).nRoutesWithCaptureSet = (rib.heap p).routes.countP Route.isRibCapture

/-- An insertion over an existing route keeps the route's capture flag. -/
def KeepsCapture (rib : Rib) : RibOp → Prop
  | .insert pfx route =>
    ∀ r, rib.findRoute pfx route = some r → r.isRibCapture = route.isRibCapture
  | .erase _ _ => True

variable {rib : Rib}

private theorem inserted_exact_iff (h : rib.CaptureExact) (pfx : Name) (route : Route) :
    (rib.insertedEntry pfx route).nRoutesWithCaptureSet =
        (rib.insertedEntry pfx route).routes.countP Route.isRibCapture ↔
      rib.KeepsCapture (.insert pfx route) := by
  dsimp only [insertedEntry,KeepsCapture,findRoute,entryAt]
  cases hp : rib.find pfx with
  | none => simp [RibEntry.insertRoute,RibEntry.new,RibEntry.findRoute,countP_cons]
  | some p =>
    have hc := h pfx p hp
    cases hr : (rib.heap p).findRoute route with
    | none => simp [RibEntry.insertRoute,hr,hc,countP_cons]
    | some r =>
      obtain ⟨l₁,l₂,hs,hroutes,_⟩ := findRoute_split hr
      have hcount : ((rib.heap p).assignRoute route).nRoutesWithCaptureSet =
          (l₁ ++ r :: l₂).countP Route.isRibCapture := by rw [← hs,← hc]; rfl
      simp only [hr,hroutes,hcount,countP_append,countP_cons,Option.map_some,
        Option.bind_some,Option.some.injEq,forall_eq']
      cases r.isRibCapture <;> cases route.isRibCapture <;> simp

theorem erased_exact {e : RibEntry} {route r : Route} (hr : e.findRoute route = some r)
    (hc : e.nRoutesWithCaptureSet = e.routes.countP Route.isRibCapture) :
    (e.eraseRoute route).1.nRoutesWithCaptureSet =
      (e.eraseRoute route).1.routes.countP Route.isRibCapture := by
  obtain ⟨l₁,l₂,hs,_,herase,_⟩ := findRoute_split hr
  rw [herase]
  simp only [RibEntry.eraseRoute,hr,hc,hs,countP_append,countP_cons]
  cases hb : r.isRibCapture with
  | false => simp
  | true => simp [decrement64]

theorem captureExact_apply_iff (hw : rib.WellFormed) (h : rib.CaptureExact) (op : RibOp) :
    (rib.apply op).CaptureExact ↔ rib.KeepsCapture op := by
  have ha : rib.EachEntry fun routes count => count = routes.countP Route.isRibCapture := h
  cases op with
  | insert pfx route =>
    exact (eachEntry_insert_iff hw.toLinked ha pfx route).trans
      (inserted_exact_iff h pfx route)
  | erase pfx route =>
    refine iff_of_true ?_ trivial
    cases hex : rib.findRoute pfx route with
    | none =>
      rw [apply,erase_absent hex]
      exact h
    | some r =>
      obtain ⟨p,hp,hr⟩ := findRoute_eq_some.mp hex
      exact ha.erase hw.toLinked hp hr fun _ => erased_exact hr (h pfx p hp)

private theorem captureExact_empty : Rib.empty.CaptureExact := by
  intro n p hn
  exact absurd hn (by simp [Rib.empty,find])

/-- Over a whole run the counters stay exact exactly when no insertion changes the capture flag of
a route that is already there. -/
theorem run_captureExact_iff (ops : List RibOp) :
    (∀ past future, ops = past ++ future → (Rib.empty.run past).CaptureExact) ↔
      ∀ past op future, ops = past ++ op :: future → (Rib.empty.run past).KeepsCapture op :=
  foldl_good_iff Rib.apply WellFormed CaptureExact KeepsCapture (fun _ op h => h.apply op)
    (fun _ op hw h => captureExact_apply_iff hw h op) Rib.empty WellFormed.empty
    captureExact_empty ops

/-- Registering a route again with the capture flag leaves the counter at zero, and erasing it
then wraps the counter below zero. -/
theorem recapture_miscounts :
    let pfx : Name := [Component.generic [97]]
    let plain : Route := { faceId := 1 }
    let other : Route := { faceId := 2 }
    let capture : Route := { faceId := 1, flags := routeFlagCapture }
    ((Rib.empty.run [.insert pfx plain,.insert pfx other,.insert pfx capture]).entryAt pfx).map
        (fun e => (e.nRoutesWithCaptureSet,e.routes.countP Route.isRibCapture)) = some (0,1) ∧
      ((Rib.empty.run [.insert pfx plain,.insert pfx other,.insert pfx capture,
          .erase pfx capture]).entryAt pfx).map
        (fun e => (e.nRoutesWithCaptureSet,e.routes.countP Route.isRibCapture)) =
        some (2^64-1,0) := by
  decide

end Rib

open List

abbrev RouteTable := Name → Option (List Route)

def Rib.routesAt (rib : Rib) : RouteTable := fun n => (rib.entryAt n).map RibEntry.routes

section Costs

variable {f : FaceId} {routes : List Route}

end Costs

namespace Rib

variable {rib : Rib} {n : Name} {p : EntryId}

theorem routesAt_of_find (hp : rib.find n = some p) :
    rib.routesAt n = some (rib.heap p).routes := by
  simp [routesAt,entryAt,hp]

theorem routesAt_eq_none : rib.routesAt n = none ↔ rib.find n = none := by
  simp [routesAt,entryAt]

end Rib

/-- What a visit does to the cell of an entry: `added` and `removed` are the costs that the two
sets hold for the face. -/
def RibEntry.visit (e : RibEntry) (f : FaceId) (added removed : Option Nat) (c : Cell) : Cell :=
  let c := c.drop (removed.isSome && e.recorded f)
  if e.hasFaceId f then c else c.inherit added

namespace Rib

end Rib

namespace RouteSet

end RouteSet

namespace FibUpdater

variable {rib : Rib} {base : Cells} {n : Name} {f : FaceId}

end FibUpdater

namespace Rib

variable {rib : Rib} {n : Name} {f : FaceId}

end Rib

def Rib.recordedAt (rib : Rib) (n : Name) (f : FaceId) : Bool :=
  (rib.entryAt n).any fun e => e.recorded f

section Commands

end Commands

section Records

/-- Two RIBs that differ in the recorded inherited routes only. -/
structure Rib.SameRoutes (rib rib' : Rib) : Prop where
  table : rib'.table = rib.table
  nextId : rib'.nextId = rib.nextId
  nItems : rib'.nItems = rib.nItems
  heap : ∀ x, rib'.heap x =
    { rib.heap x with inheritedRoutes := (rib'.heap x).inheritedRoutes }

namespace Rib

variable {rib rib' : Rib} {n : Name} {p : EntryId}

theorem recordedAt_of_find (hp : rib.find n = some p) (f : FaceId) :
    rib.recordedAt n f = (rib.heap p).recorded f := by
  simp [recordedAt,entryAt,hp]

namespace SameRoutes

theorem refl (rib : Rib) : rib.SameRoutes rib := ⟨rfl,rfl,rfl,fun _ => rfl⟩

theorem trans {rib'' : Rib} (h : rib.SameRoutes rib') (h' : rib'.SameRoutes rib'') :
    rib.SameRoutes rib'' := by
  refine ⟨h'.table.trans h.table,h'.nextId.trans h.nextId,h'.nItems.trans h.nItems,fun x => ?_⟩
  rw [h'.heap x,h.heap x]

theorem routes (h : rib.SameRoutes rib') (x : EntryId) :
    (rib'.heap x).routes = (rib.heap x).routes := by rw [h.heap x]

theorem find (h : rib.SameRoutes rib') (n : Name) : rib'.find n = rib.find n := by
  rw [Rib.find,Rib.find,h.table]

theorem linked (h : rib.SameRoutes rib') (hl : rib.Linked) : rib'.Linked :=
  hl.congr h.table h.nextId fun x => by rw [h.heap x]; exact ⟨rfl,rfl,rfl⟩

theorem wellFormed (h : rib.SameRoutes rib') (hw : rib.WellFormed) : rib'.WellFormed := by
  refine ⟨h.linked hw.toLinked,?_,?_,?_⟩
  · intro n p hn
    rw [h.routes]
    exact hw.nonempty n p (h.find n ▸ hn)
  · intro n p hn
    rw [h.routes]
    exact hw.distinct n p (h.find n ▸ hn)
  · have := hw.counted
    simp only [size,totalRoutes,h.nItems,h.table,h.routes] at this ⊢
    exact this

theorem routesAt (h : rib.SameRoutes rib') : rib'.routesAt = rib.routesAt := by
  funext n
  unfold Rib.routesAt entryAt
  rw [h.find n]
  cases rib.find n with
  | none => rfl
  | some p => exact congrArg some (h.routes p)

end SameRoutes

end Rib

private theorem recorded_modifyInherited (e : RibEntry) (x : RibUpdate) (f : FaceId)
    (hx : x.action ≠ .removeFace) :
    (e.modifyInherited x).recorded f =
      if x.route.faceId = f then decide (x.action = .register) else e.recorded f := by
  unfold RibEntry.modifyInherited RibEntry.recorded
  cases ha : x.action with
  | register =>
    simp only [RibEntry.addInheritedRoute,List.any_append,any_cons,List.any_nil]
    by_cases hf : x.route.faceId = f <;> simp [hf]
  | unregister =>
    simp only [RibEntry.removeInheritedRoute,List.any_filter]
    by_cases hf : x.route.faceId = f
    · subst f
      rw [if_pos rfl]
      simp
    · rw [if_neg hf]
      congr 1
      funext r
      by_cases hr : r.faceId = f
      · have : r.faceId ≠ x.route.faceId := fun e => hf (e.symm.trans hr)
        simp [hr,hr ▸ this]
      · simp [hr]
  | removeFace => exact absurd ha hx

private theorem recordedAt_modify {rib rib' : Rib} (h : rib.Linked) {m : Name} {p : EntryId}
    (hp : rib.find m = some p) (x : RibUpdate) (hm : x.name = m) (hx : x.action ≠ .removeFace)
    (hr : rib' = { rib with heap := rib.heap.modify p fun e => e.modifyInherited x })
    {n : Name} (hn : rib.Present n) (f : FaceId) :
    rib'.recordedAt n f = if x.name = n ∧ x.route.faceId = f then decide (x.action = .register)
      else rib.recordedAt n f := by
  obtain ⟨q,hq⟩ := Option.isSome_iff_exists.mp hn
  have hq' : rib'.find n = some q := by rw [hr]; exact hq
  rw [Rib.recordedAt_of_find hq,Rib.recordedAt_of_find hq',hr]
  simp only [Heap.modify]
  by_cases hnm : m = n
  · subst n
    obtain rfl := Option.some.inj (hp.symm.trans hq)
    rw [update_self,recorded_modifyInherited _ x f hx]
    simp [hm]
  · have hqp : q ≠ p := fun e => hnm (h.find_inj hp (e ▸ hq))
    have hno : ¬ (x.name = n ∧ x.route.faceId = f) := fun e => hnm (hm.symm.trans e.1)
    rw [update_of_ne hqp,if_neg hno]

private theorem sameRoutes_modify (rib : Rib) (p : EntryId) (x : RibUpdate) :
    rib.SameRoutes { rib with heap := rib.heap.modify p fun e => e.modifyInherited x } := by
  refine ⟨rfl,rfl,rfl,fun q => ?_⟩
  by_cases hq : q = p
  · subst q
    simp only [Heap.modify,update_self]
    unfold RibEntry.modifyInherited
    cases x.action <;> rfl
  · simp only [Heap.modify,update_of_ne hq]

theorem modifyInheritedRoutes_sameRoutes (xs : List RibUpdate) :
    ∀ {rib rib' : Rib}, rib.modifyInheritedRoutes xs = some rib' → rib.SameRoutes rib' := by
  induction xs with
  | nil =>
    intro rib rib' h
    cases h
    exact Rib.SameRoutes.refl rib
  | cons x xs ih =>
    intro rib rib' h
    rw [Rib.modifyInheritedRoutes] at h
    cases hp : rib.find x.name with
    | none => simp [hp] at h
    | some p =>
      rw [hp] at h
      exact (sameRoutes_modify rib p x).trans (ih h)

/-- The records after `modifyInheritedRoutes`, which meets present names only. -/
theorem modifyInheritedRoutes_spec (xs : List RibUpdate) :
    ∀ rib : Rib, rib.Linked → (∀ x ∈ xs, rib.Present x.name ∧ x.action ≠ .removeFace) →
      ∃ rib', rib.modifyInheritedRoutes xs = some rib' ∧ rib.SameRoutes rib' ∧
        ∀ n f, rib.Present n → rib'.recordedAt n f = recordAfter xs n f (rib.recordedAt n f) := by
  induction xs with
  | nil =>
    intro rib _ _
    exact ⟨rib,rfl,Rib.SameRoutes.refl rib,fun _ _ _ => rfl⟩
  | cons x xs ih =>
    intro rib h hxs
    obtain ⟨hpres,hact⟩ := hxs x mem_cons_self
    obtain ⟨p,hp⟩ := Option.isSome_iff_exists.mp hpres
    have hsame := sameRoutes_modify rib p x
    obtain ⟨rib',hr,hs,hrec⟩ := ih _ (hsame.linked h) fun y hy =>
      hxs y (mem_cons_of_mem x hy)
    refine ⟨rib',?_,hsame.trans hs,?_⟩
    · rw [Rib.modifyInheritedRoutes,hp]
      exact hr
    · intro n f hn
      rw [hrec n f hn,recordedAt_modify h hp x rfl hact rfl hn f]
      rfl

end Records

open List Function

namespace Rib

variable {rib : Rib} {pfx n : Name} {route r : Route} {p : EntryId}

private theorem routesAt_update {rib' : Rib} {e : RibEntry} (h : rib.Linked)
    (hp : rib.find pfx = some p) (hh : rib'.heap = update rib.heap p e)
    (ht : rib'.table = rib.table) :
    rib'.routesAt = update rib.routesAt pfx (some e.routes) := by
  have hf : ∀ n, rib'.find n = rib.find n := fun n => by rw [find,find,ht]
  funext n
  by_cases hn : n = pfx
  · subst n
    rw [update_self,routesAt_of_find ((hf pfx).trans hp),hh,update_self]
  · rw [update_of_ne hn]
    cases hq : rib.find n with
    | none => rw [routesAt_eq_none.mpr hq,routesAt_eq_none.mpr ((hf n).trans hq)]
    | some q =>
      have hqp : q ≠ p := fun e => hn (h.find_inj hq (e ▸ hp))
      rw [routesAt_of_find hq,routesAt_of_find ((hf n).trans hq),hh,update_of_ne hqp]

theorem routesAt_insert_new (h : rib.Linked) (hf : rib.find pfx = none) (route : Route) :
    (rib.insert pfx route).routesAt = update rib.routesAt pfx (some [route]) := by
  have hc := (insert_new_content hf route).routes
  funext n
  by_cases hn : n = pfx
  · subst n
    have hp : (rib.insert pfx route).find pfx = some rib.nextId := by
      rw [find_insert_new hf,if_pos rfl]
    rw [update_self,routesAt_of_find hp,hc,update_self]
    rfl
  · have hfn : (rib.insert pfx route).find n = rib.find n := by
      rw [find_insert_new hf,if_neg hn]
    rw [update_of_ne hn]
    cases hq : rib.find n with
    | none => rw [routesAt_eq_none.mpr hq,routesAt_eq_none.mpr (hfn.trans hq)]
    | some q =>
      rw [routesAt_of_find hq,routesAt_of_find (hfn.trans hq),hc,
        update_of_ne (h.allocated n q hq).ne]

theorem routesAt_insert_append (h : rib.Linked) (hp : rib.find pfx = some p)
    (hr : (rib.heap p).findRoute route = none) :
    (rib.insert pfx route).routesAt =
      update rib.routesAt pfx (some ((rib.heap p).routes ++ [route])) := by
  rw [routesAt_update h hp (congrArg heap (insert_append hp hr)) (by rw [insert_append hp hr])]
  simp [RibEntry.insertRoute,hr]

theorem routesAt_insert_assign (h : rib.Linked) (hp : rib.find pfx = some p)
    (hr : (rib.heap p).findRoute route = some r) :
    (rib.insert pfx route).routesAt =
      update rib.routesAt pfx (some ((rib.heap p).assignRoute route).routes) :=
  routesAt_update h hp (congrArg heap (insert_assign hp hr)) (by rw [insert_assign hp hr])

theorem routesAt_erase (h : rib.Linked) (hp : rib.find pfx = some p)
    (hr : (rib.heap p).findRoute route = some r) :
    (rib.erase pfx route).routesAt = update rib.routesAt pfx
      (if ((rib.heap p).eraseRoute route).1.routes.isEmpty then none
        else some ((rib.heap p).eraseRoute route).1.routes) := by
  have hd : (rib.dropRoute p route).routesAt = _ :=
    routesAt_update (e := ((rib.heap p).eraseRoute route).1) h hp rfl rfl
  rw [erase_present hp hr]
  split_ifs with he
  · funext n
    by_cases hn : n = pfx
    · subst n
      rw [update_self,routesAt_eq_none,find_eraseEntry,if_pos rfl]
    · have hfn : ((rib.dropRoute p route).eraseEntry pfx p).find n =
          (rib.dropRoute p route).find n := by rw [find_eraseEntry,if_neg hn]
      rw [update_of_ne hn]
      have hdn : (rib.dropRoute p route).routesAt n = rib.routesAt n := by
        rw [hd,update_of_ne hn]
      rw [← hdn]
      cases hq : (rib.dropRoute p route).find n with
      | none => rw [routesAt_eq_none.mpr hq,routesAt_eq_none.mpr (hfn.trans hq)]
      | some q =>
        rw [routesAt_of_find hq,routesAt_of_find (hfn.trans hq),eraseEntry_sameContent.routes]
  · exact hd

theorem routesAt_insert (h : rib.Linked) (pfx : Name) (route : Route) :
    ∃ routes, (rib.insert pfx route).routesAt = update rib.routesAt pfx (some routes) := by
  cases hp : rib.find pfx with
  | none => exact ⟨_,routesAt_insert_new h hp route⟩
  | some p =>
    cases hr : (rib.heap p).findRoute route with
    | none => exact ⟨_,routesAt_insert_append h hp hr⟩
    | some r => exact ⟨_,routesAt_insert_assign h hp hr⟩

theorem routesAt_applyBatch_of_ne (h : rib.Linked) (update : RibUpdate) (hn : n ≠ update.name) :
    (rib.applyBatch update).routesAt n = rib.routesAt n := by
  have herase : (rib.erase update.name update.route).routesAt n = rib.routesAt n := by
    cases hex : rib.findRoute update.name update.route with
    | none => rw [erase_absent hex]
    | some r =>
      obtain ⟨p,hp,hr⟩ := findRoute_eq_some.mp hex
      rw [routesAt_erase h hp hr,update_of_ne hn]
  unfold applyBatch
  cases update.action with
  | register =>
    obtain ⟨routes,hroutes⟩ := routesAt_insert h update.name update.route
    dsimp only
    rw [hroutes,update_of_ne hn]
  | _ => exact herase

theorem present_iff_routesAt : rib.Present n ↔ rib.routesAt n ≠ none := by
  rw [ne_eq,routesAt_eq_none,Present,← ne_eq,Option.isSome_iff_ne_none]

def Stores (rib : Rib) (n : Name) (r : Route) : Prop :=
  ∃ routes, rib.routesAt n = some routes ∧ r ∈ routes

theorem stores_of_findRoute (h : rib.findRoute pfx route = some r) :
    rib.Stores pfx r ∧ r.key = route.key := by
  obtain ⟨p,hp,hr⟩ := findRoute_eq_some.mp h
  obtain ⟨hm,hk⟩ := findRoute_some hr
  exact ⟨⟨_,routesAt_of_find hp,hm⟩,hk⟩

private theorem stores_iff (hp : rib.find n = some p) :
    rib.Stores n r ↔ r ∈ (rib.heap p).routes := by
  constructor
  · rintro ⟨routes,hr,hm⟩
    rw [routesAt_of_find hp] at hr
    cases hr
    exact hm
  · exact fun hm => ⟨_,routesAt_of_find hp,hm⟩

private theorem stores_update {routes : List Route} {rib' : Rib}
    (h : rib'.routesAt = update rib.routesAt pfx (some routes)) (hs : rib'.Stores n r) :
    n = pfx ∧ r ∈ routes ∨ rib.Stores n r := by
  obtain ⟨rs,hr,hm⟩ := hs
  rw [h] at hr
  by_cases hn : n = pfx
  · subst n
    rw [update_self] at hr
    cases hr
    exact Or.inl ⟨rfl,hm⟩
  · rw [update_of_ne hn] at hr
    exact Or.inr ⟨rs,hr,hm⟩

theorem Stores.of_insert (h : rib.Linked) (hs : (rib.insert pfx route).Stores n r) :
    n = pfx ∧ r = route ∨ rib.Stores n r := by
  cases hp : rib.find pfx with
  | none =>
    refine (stores_update (routesAt_insert_new h hp route) hs).imp_left fun hm => ⟨hm.1,?_⟩
    exact mem_singleton.mp hm.2
  | some p =>
    cases hr : (rib.heap p).findRoute route with
    | none =>
      rcases stores_update (routesAt_insert_append h hp hr) hs with ⟨rfl,hm⟩ | hold
      · rcases mem_append.mp hm with hm | hm
        · exact Or.inr ((stores_iff hp).mpr hm)
        · exact Or.inl ⟨rfl,mem_singleton.mp hm⟩
      · exact Or.inr hold
    | some r' =>
      rcases stores_update (routesAt_insert_assign h hp hr) hs with ⟨rfl,hm⟩ | hold
      · obtain ⟨l₁,l₂,hsplit,hassign,_⟩ := findRoute_split hr
        rw [hassign] at hm
        rcases mem_append.mp hm with hm | hm
        · exact Or.inr ((stores_iff hp).mpr (hsplit ▸ mem_append_left _ hm))
        · rcases mem_cons.mp hm with hm | hm
          · exact Or.inl ⟨rfl,hm⟩
          · exact Or.inr ((stores_iff hp).mpr
              (hsplit ▸ mem_append_right _ (mem_cons_of_mem _ hm)))
      · exact Or.inr hold

theorem Stores.of_erase (h : rib.Linked) (hs : (rib.erase pfx route).Stores n r) :
    rib.Stores n r := by
  cases hex : rib.findRoute pfx route with
  | none => rwa [erase_absent hex] at hs
  | some r' =>
    obtain ⟨p,hp,hr⟩ := findRoute_eq_some.mp hex
    obtain ⟨l₁,l₂,hsplit,_,herase,_⟩ := findRoute_split hr
    have ha := routesAt_erase h hp hr
    rw [herase] at ha
    obtain ⟨routes,hroutes,hm⟩ := hs
    rw [ha] at hroutes
    by_cases hn : n = pfx
    · subst n
      rw [update_self] at hroutes
      split_ifs at hroutes
      cases hroutes
      rw [stores_iff hp,hsplit]
      rcases mem_append.mp hm with hm | hm
      · exact mem_append_left _ hm
      · exact mem_append_right _ (mem_cons_of_mem _ hm)
    · rw [update_of_ne hn] at hroutes
      exact ⟨routes,hroutes,hm⟩

theorem Stores.of_applyBatch (h : rib.Linked) {update : RibUpdate}
    (hs : (rib.applyBatch update).Stores n r) :
    update.action = .register ∧ n = update.name ∧ r = update.route ∨ rib.Stores n r := by
  unfold applyBatch at hs
  cases ha : update.action with
  | register =>
    rw [ha] at hs
    exact (hs.of_insert h).imp_left fun hm => ⟨rfl,hm⟩
  | _ =>
    rw [ha] at hs
    exact Or.inr (hs.of_erase h)

theorem Stores.findRoute (h : rib.WellFormed) (hs : rib.Stores n r) (hk : r.key = route.key) :
    rib.findRoute n route = some r := by
  obtain ⟨routes,hr,hm⟩ := hs
  have hne : rib.find n ≠ none := fun hx => by simp [routesAt_eq_none.mpr hx] at hr
  obtain ⟨p,hp⟩ := Option.ne_none_iff_exists'.mp hne
  rw [routesAt_of_find hp] at hr
  cases hr
  refine findRoute_eq_some.mpr ⟨p,hp,?_⟩
  cases hf : (rib.heap p).findRoute route with
  | none => exact absurd (mem_map.mpr ⟨r,hm,hk⟩) (findRoute_eq_none.mp hf)
  | some r' =>
    obtain ⟨hm',hk'⟩ := findRoute_some hf
    rw [inj_on_of_nodup_map (h.distinct n p hp) hm' hm (hk'.trans hk.symm)]

section Lookup

/-- What an operation makes of the route that is found under a name and a key. -/
def routeAfter (n : Name) (r : Route) (found : Option Route) : RibOp → Option Route
  | .insert pfx route => if n = pfx ∧ route.key = r.key then some route else found
  | .erase pfx route => if n = pfx ∧ route.key = r.key then none else found

private theorem findRoute_eq :
    rib.findRoute n r = (rib.routesAt n).bind (find? fun x => x.sameKey r) := by
  rw [findRoute,routesAt]
  cases rib.entryAt n <;> rfl

theorem WellFormed.findRoute_apply (h : rib.WellFormed) (op : RibOp) :
    (rib.apply op).findRoute n r = routeAfter n r (rib.findRoute n r) op := by
  cases op with
  | insert pfx route =>
    rw [Rib.apply,routeAfter,findRoute_eq,findRoute_eq]
    cases hp : rib.find pfx with
    | none =>
      have hnone := routesAt_eq_none.mpr hp
      rw [routesAt_insert_new h.toLinked hp,update_apply]
      grind [Route.sameKey_iff]
    | some p =>
      have hroutes := routesAt_of_find hp
      cases hr : (rib.heap p).findRoute route with
      | none =>
        rw [routesAt_insert_append h.toLinked hp hr,update_apply]
        grind [Route.sameKey_iff,RibEntry.findRoute]
      | some old =>
        obtain ⟨l₁,l₂,hs,hassign,_,hl⟩ := findRoute_split hr
        have hold := (findRoute_some hr).2
        rw [routesAt_insert_assign h.toLinked hp hr,update_apply,hassign]
        grind [Route.sameKey_iff]
  | erase pfx route =>
    rw [Rib.apply,routeAfter]
    cases hex : rib.findRoute pfx route with
    | none =>
      rw [erase_absent hex]
      rw [findRoute_eq] at hex ⊢
      grind [Route.sameKey_iff]
    | some old =>
      obtain ⟨p,hp,hr⟩ := findRoute_eq_some.mp hex
      obtain ⟨l₁,l₂,hs,_,herase,hl⟩ := findRoute_split hr
      have hold := (findRoute_some hr).2
      have hroutes := routesAt_of_find hp
      have hkeys := h.distinct pfx p hp
      rw [hs,map_append,map_cons,hold,nodup_middle,nodup_cons,← map_append] at hkeys
      rw [findRoute_eq,findRoute_eq,routesAt_erase h.toLinked hp hr,update_apply,herase]
      grind [Route.sameKey_iff]

/-- After any sequence of operations, a lookup finds the route that was inserted last under the name
and the key, unless it has been erased since. -/
theorem run_findRoute (ops : List RibOp) (n : Name) (route : Route) :
    (Rib.empty.run ops).findRoute n route = ops.foldl (routeAfter n route) none := by
  suffices hrun : ∀ rib : Rib, rib.WellFormed → (rib.run ops).findRoute n route =
      ops.foldl (routeAfter n route) (rib.findRoute n route) from hrun _ WellFormed.empty
  induction ops with
  | nil => exact fun _ _ => rfl
  | cons op ops ih =>
    intro rib h
    rw [foldl_cons,← h.findRoute_apply]
    exact ih _ (h.apply op)

end Lookup

end Rib

end KiteNdn.Routing
