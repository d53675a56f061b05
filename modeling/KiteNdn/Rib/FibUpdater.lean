import KiteNdn.Framework.KeyedList
import KiteNdn.Rib.Table

/-!
# The FIB updater

`FibUpdater` turns one RIB update into FIB commands and changes of inherited routes. Pointer walks
are bounded by the lengths of the names in the table. `RibFib` applies updates one at a time: the
commands are carried out on the FIB, and then `Rib::onFibUpdateSuccess` changes the RIB. When a face
is destroyed, the forwarder has dropped its nexthops and rejects commands for it.

For a name and a face, the lists of the updater amount to a new state of one cell: the cost of the
nexthop in the FIB, and whether the RIB entry has recorded it as inherited.
-/

namespace KiteNdn.Routing

open Framework List

inductive FibAction where
  | addNexthop
  | removeNexthop
  deriving DecidableEq, Repr

structure FibUpdate where
  name : Name
  faceId : FaceId
  cost : Nat
  action : FibAction
  deriving DecidableEq, Repr

namespace FibUpdate

def createAddUpdate (name : Name) (faceId : FaceId) (cost : Nat) : FibUpdate :=
  ⟨name,faceId,cost,.addNexthop⟩

def createRemoveUpdate (name : Name) (faceId : FaceId) : FibUpdate :=
  ⟨name,faceId,0,.removeNexthop⟩

def key (u : FibUpdate) : Name × FaceId := (u.name,u.faceId)

def outcome (u : FibUpdate) : Option Nat :=
  match u.action with
  | .addNexthop => some u.cost
  | .removeNexthop => none

end FibUpdate

inductive RibAction where
  | register
  | unregister
  | removeFace
  deriving DecidableEq, Repr

structure RibUpdate where
  action : RibAction
  name : Name
  route : Route
  deriving DecidableEq, Repr

/-- `std::set<Route>` ordered by face: at most one route per face. -/
abbrev RouteSet := KeyedList Route.faceId

abbrev FibUpdateList := KeyedList FibUpdate.key

/-- `std::nth_element` at position 1: some route with at most one cheaper route, among several
equally cheap ones whichever the library leaves there. -/
structure NthElement where
  second : List Route → Option Route
  second_none : ∀ l, l.length < 2 → second l = none
  second_some : ∀ l, 2 ≤ l.length → ∃ r ∈ l, second l = some r ∧
    l.countP (fun x => x.cost < r.cost) ≤ 1 ∧ 2 ≤ l.countP fun x => x.cost ≤ r.cost

def NthElement.stable : NthElement where
  second l := (l.insertionSort fun a b => a.cost ≤ b.cost)[1]?
  second_none l hl := by
    rw [List.getElem?_eq_none]
    rw [List.length_insertionSort]
    omega
  second_some l hl := by
    have hperm := List.perm_insertionSort (fun a b : Route => a.cost ≤ b.cost) l
    have : Std.Total fun a b : Route => a.cost ≤ b.cost := ⟨fun a b => le_total a.cost b.cost⟩
    have : IsTrans Route fun a b => a.cost ≤ b.cost := ⟨fun _ _ _ => le_trans⟩
    have hsort := List.pairwise_insertionSort (fun a b : Route => a.cost ≤ b.cost) l
    rw [← hperm.length_eq] at hl
    match hs : l.insertionSort fun a b => a.cost ≤ b.cost with
    | [] => simp [hs] at hl
    | [_] => simp [hs] at hl
    | a :: b :: rest =>
      rw [hs] at hperm hsort
      rw [pairwise_cons,pairwise_cons] at hsort
      have hab := hsort.1 b mem_cons_self
      have hrest : rest.countP (fun x => decide (x.cost < b.cost)) = 0 :=
        List.countP_eq_zero.mpr fun x hx => by simpa using hsort.2.1 x hx
      refine ⟨b,hperm.mem_iff.mp (by simp),by rw [hs]; rfl,?_,?_⟩
      · rw [← hperm.countP_eq,countP_cons,countP_cons,hrest]
        split_ifs with h₁ h₂ h₂
        · exact absurd h₁ (by simp)
        · exact absurd h₁ (by simp)
        · exact le_rfl
        · exact Nat.zero_le 1
      · rw [← hperm.countP_eq,List.countP_cons_of_pos (by simpa using hab),
          List.countP_cons_of_pos (by simp)]
        omega

def RibEntry.getRouteWithSecondLowestCostByFaceId (e : RibEntry) (nth : NthElement)
    (faceId : FaceId) : Option Route :=
  nth.second (e.routes.filter fun r => r.faceId = faceId)

namespace Rib

def maxNameLength (rib : Rib) : Nat := rib.table.entries.foldl (fun l e => max l e.1.length) 0

/-- The inner loop of `getAncestorRoutes`: a face already in the set keeps its route. -/
def collectInherited (s : RouteSet) (e : RibEntry) : RouteSet :=
  e.routes.foldl (fun s r => if r.isChildInherit then s.insertNew r else s) s

def collectAncestorRoutes (rib : Rib) : Nat → Option EntryId → RouteSet → RouteSet
  | 0, _, s => s
  | _ + 1, none, s => s
  | fuel + 1, some p, s =>
    let s := collectInherited s (rib.heap p)
    if (rib.heap p).hasCapture then s
    else rib.collectAncestorRoutes fuel (rib.heap p).parent s

def getAncestorRoutes (rib : Rib) (e : RibEntry) : RouteSet :=
  rib.collectAncestorRoutes e.name.length e.parent KeyedList.empty

def getAncestorRoutesByName (rib : Rib) (name : Name) : RouteSet :=
  rib.collectAncestorRoutes name.length (rib.findParent name) KeyedList.empty

end Rib

/-- The batch face and the lists of one computation. `cancelledEvents` holds the expiration events
that erasing a route from a copied entry cancels on the way. -/
structure FibUpdater where
  batchFaceId : FaceId
  updatesForBatchFaceId : FibUpdateList
  updatesForNonBatchFaceId : FibUpdateList
  inheritedRoutes : List RibUpdate
  cancelledEvents : List EventId
  batch_face : ∀ x ∈ updatesForBatchFaceId.items, x.faceId = batchFaceId
  nonBatch_face : ∀ x ∈ updatesForNonBatchFaceId.items, x.faceId ≠ batchFaceId
  inherited_action : ∀ x ∈ inheritedRoutes, x.action ≠ .removeFace

namespace FibUpdater

def init (batchFaceId : FaceId) : FibUpdater :=
  ⟨batchFaceId,KeyedList.empty,KeyedList.empty,[],[],
    fun _ h => absurd h not_mem_nil,fun _ h => absurd h not_mem_nil,
    fun _ h => absurd h not_mem_nil⟩

def addFibUpdate (u : FibUpdater) (x : FibUpdate) : FibUpdater :=
  if h : x.faceId = u.batchFaceId then
    { u with
      updatesForBatchFaceId := u.updatesForBatchFaceId.put x
      batch_face := fun _ hy => (KeyedList.mem_put _ hy).elim (fun e => e ▸ h) (u.batch_face _) }
  else
    { u with
      updatesForNonBatchFaceId := u.updatesForNonBatchFaceId.put x
      nonBatch_face := fun _ hy =>
        (KeyedList.mem_put _ hy).elim (fun e => e ▸ h) (u.nonBatch_face _) }

private theorem action_append {xs : List RibUpdate} {y : RibUpdate}
    (h : ∀ x ∈ xs, x.action ≠ .removeFace) (hy : y.action ≠ .removeFace) :
    ∀ x ∈ xs ++ [y], x.action ≠ .removeFace := by
  intro x hx
  rcases mem_append.mp hx with hx | hx
  · exact h x hx
  · exact mem_singleton.mp hx ▸ hy

def addInheritedRoute (u : FibUpdater) (name : Name) (route : Route) : FibUpdater :=
  { u with
    inheritedRoutes := u.inheritedRoutes ++ [⟨.register,name,route⟩]
    inherited_action := action_append u.inherited_action (by simp) }

def removeInheritedRoute (u : FibUpdater) (name : Name) (route : Route) : FibUpdater :=
  { u with
    inheritedRoutes := u.inheritedRoutes ++ [⟨.unregister,name,route⟩]
    inherited_action := action_append u.inherited_action (by simp) }

def inheritRoute (name : Name) (u : FibUpdater) (route : Route) : FibUpdater :=
  (u.addInheritedRoute name route).addFibUpdate
    (.createAddUpdate name route.faceId route.cost)

def disinheritRoute (e : RibEntry) (u : FibUpdater) (route : Route) : FibUpdater :=
  if e.hasInheritedRoute route then
    (u.removeInheritedRoute e.name route).addFibUpdate (.createRemoveUpdate e.name route.faceId)
  else u

def addInheritedRoutes (u : FibUpdater) (e : RibEntry) (routesToAdd : RouteSet) : FibUpdater :=
  routesToAdd.items.foldl
    (fun u r => if e.hasFaceId r.faceId then u else u.inheritRoute e.name r) u

def addInheritedRoutesIgnoring (u : FibUpdater) (name : Name) (routesToAdd : RouteSet)
    (ignore : Route) : FibUpdater :=
  routesToAdd.items.foldl
    (fun u r => if r.faceId ≠ ignore.faceId then u.inheritRoute name r else u) u

def removeInheritedRoutes (u : FibUpdater) (e : RibEntry) (routesToRemove : RouteSet) :
    FibUpdater :=
  routesToRemove.items.foldl (disinheritRoute e) u

/-- Visits an entry and, with what is left of the two sets, its children. A capturing entry stops
the visit, and a face on which the entry itself lets children inherit leaves the sets. -/
def traverseSubTree (rib : Rib) : Nat → RouteSet → RouteSet → FibUpdater → EntryId → FibUpdater
  | 0, _, _, u, _ => u
  | fuel + 1, routesToAdd, routesToRemove, u, p =>
    let e := rib.heap p
    if e.hasCapture then u
    else
      let routesToRemove := routesToRemove.filter fun r => !e.hasChildInheritOnFaceId r.faceId
      let u := u.removeInheritedRoutes e routesToRemove
      let routesToAdd := routesToAdd.filter fun r => !e.hasChildInheritOnFaceId r.faceId
      let u := u.addInheritedRoutes e routesToAdd
      e.children.foldl (traverseSubTree rib fuel routesToAdd routesToRemove) u

def modifyChildrensInheritedRoutes (u : FibUpdater) (rib : Rib) (children : List EntryId)
    (routesToAdd routesToRemove : RouteSet) : FibUpdater :=
  children.foldl (traverseSubTree rib rib.maxNameLength routesToAdd routesToRemove) u

def single (route : Route) : RouteSet := KeyedList.empty.insertNew route

def createFibUpdatesForNewRibEntry (u : FibUpdater) (rib : Rib) (name : Name) (route : Route)
    (children : List EntryId) : FibUpdater :=
  let u := u.addFibUpdate (.createAddUpdate name route.faceId route.cost)
  if !route.isChildInherit && !route.isRibCapture then
    u.addInheritedRoutesIgnoring name (rib.getAncestorRoutesByName name) route
  else if route.isChildInherit && route.isRibCapture then
    u.modifyChildrensInheritedRoutes rib children (single route) (rib.getAncestorRoutesByName name)
  else if route.isChildInherit then
    let ancestorRoutes := rib.getAncestorRoutesByName name
    let u := u.addInheritedRoutesIgnoring name ancestorRoutes route
    let ancestorRoutes :=
      (ancestorRoutes.filter fun r => r.faceId ≠ route.faceId).insertNew route
    u.modifyChildrensInheritedRoutes rib children ancestorRoutes KeyedList.empty
  else
    u.modifyChildrensInheritedRoutes rib children KeyedList.empty
      (rib.getAncestorRoutesByName name)

def notCheaper (prevRoute : Option Route) (route : Route) : Bool :=
  prevRoute.all fun prev => route.cost ≤ prev.cost

def createFibUpdatesForNewRoute (u : FibUpdater) (rib : Rib) (e : RibEntry) (route : Route)
    (captureWasTurnedOn : Bool) : FibUpdater :=
  let prevRoute := e.getRouteWithLowestCostAndChildInheritByFaceId route.faceId
  let routesToAdd := if route.isChildInherit && notCheaper prevRoute route then single route
    else KeyedList.empty
  let routesToRemove := if captureWasTurnedOn then rib.getAncestorRoutes e else KeyedList.empty
  let u := if captureWasTurnedOn then u.removeInheritedRoutes e routesToRemove else u
  let u := u.modifyChildrensInheritedRoutes rib e.children routesToAdd routesToRemove
  if notCheaper (e.getRouteWithLowestCostByFaceId route.faceId) route then
    u.addFibUpdate (.createAddUpdate e.name route.faceId route.cost)
  else u

/-- The nexthop of the updated entry itself. Fails where the source dereferences a null
`prevRoute`. -/
def updateOwnNexthop (u : FibUpdater) (e : RibEntry) (route existingRoute : Route) :
    Option FibUpdater :=
  let lowest := e.getRouteWithLowestCostByFaceId route.faceId
  if notCheaper lowest route then
    some (u.addFibUpdate (.createAddUpdate e.name route.faceId route.cost))
  else if lowest.any fun l => existingRoute.cost < l.cost then
    (e.getRouteWithLowestCostAndChildInheritByFaceId route.faceId).map fun prev =>
      u.addFibUpdate (.createAddUpdate e.name prev.faceId prev.cost)
  else some u

def replacementRoutes (rib : Rib) (e : RibEntry) (route : Route) : RouteSet :=
  match e.getRouteWithLowestCostAndChildInheritByFaceId route.faceId with
  | some prev => single prev
  | none =>
    match (rib.getAncestorRoutes e).find? route.faceId with
    | some ancestor => single ancestor
    | none => KeyedList.empty

def updateChildInherit (u : FibUpdater) (rib : Rib) (e : RibEntry) (route existingRoute : Route) :
    FibUpdater :=
  let prevRoute := e.getRouteWithLowestCostAndChildInheritByFaceId route.faceId
  if !existingRoute.isChildInherit && route.isChildInherit then
    if notCheaper prevRoute route then
      u.modifyChildrensInheritedRoutes rib e.children (single route) KeyedList.empty
    else u
  else if existingRoute.isChildInherit && !route.isChildInherit then
    u.modifyChildrensInheritedRoutes rib e.children (replacementRoutes rib e route) (single route)
  else u

def updateCapture (u : FibUpdater) (rib : Rib) (e : RibEntry) (route existingRoute : Route) :
    FibUpdater :=
  if !existingRoute.isRibCapture && route.isRibCapture then
    let ancestorRoutes := rib.getAncestorRoutes e
    let u := u.removeInheritedRoutes e ancestorRoutes
    u.modifyChildrensInheritedRoutes rib e.children KeyedList.empty ancestorRoutes
  else if existingRoute.isRibCapture && !route.isRibCapture then
    let ancestorRoutes := rib.getAncestorRoutes e
    let u := u.addInheritedRoutes e ancestorRoutes
    u.modifyChildrensInheritedRoutes rib e.children ancestorRoutes KeyedList.empty
  else u

def createFibUpdatesForUpdatedRoute (u : FibUpdater) (rib : Rib) (e : RibEntry)
    (route existingRoute : Route) : Option FibUpdater :=
  let prevRoute := e.getRouteWithLowestCostAndChildInheritByFaceId route.faceId
  if route.flags = existingRoute.flags ∧ route.cost = existingRoute.cost then some u
  else
    let own := if route.cost ≠ existingRoute.cost then u.updateOwnNexthop e route existingRoute
      else some u
    own.map fun u =>
      if route.cost ≠ existingRoute.cost ∧ notCheaper prevRoute route ∧
          route.flags = existingRoute.flags ∧ route.isChildInherit then
        u.modifyChildrensInheritedRoutes rib e.children (single route) KeyedList.empty
      else
        (u.updateChildInherit rib e route existingRoute).updateCapture rib e route existingRoute

/-- Ancestor routes that the erased route's capture flag was blocking come back to the entry. -/
def restoreAncestorRoutes (u : FibUpdater) (rib : Rib) (e : RibEntry)
    (captureWasTurnedOff : Bool) : FibUpdater × RouteSet :=
  if captureWasTurnedOff && !e.routes.isEmpty then
    let routesToAdd := rib.getAncestorRoutes e
    (u.addInheritedRoutes e routesToAdd,routesToAdd)
  else (u,KeyedList.empty)

def createFibUpdatesForErasedRoute (u : FibUpdater) (rib : Rib) (e : RibEntry) (route : Route)
    (captureWasTurnedOff : Bool) : FibUpdater :=
  let u := u.addFibUpdate (.createRemoveUpdate e.name route.faceId)
  let u :=
    if route.isChildInherit && route.isRibCapture then
      let (u,routesToAdd) := u.restoreAncestorRoutes rib e captureWasTurnedOff
      u.modifyChildrensInheritedRoutes rib e.children routesToAdd (single route)
    else if route.isChildInherit then
      let routesToAdd := if !e.hasCapture then rib.getAncestorRoutes e else KeyedList.empty
      u.modifyChildrensInheritedRoutes rib e.children routesToAdd (single route)
    else if route.isRibCapture then
      let (u,routesToAdd) := u.restoreAncestorRoutes rib e captureWasTurnedOff
      u.modifyChildrensInheritedRoutes rib e.children routesToAdd KeyedList.empty
    else u
  if !e.hasCapture && !e.routes.isEmpty then
    match (rib.getAncestorRoutes e).find? route.faceId with
    | some ancestor => u.inheritRoute e.name ancestor
    | none => u
  else u

def createFibUpdatesForErasedRibEntry (u : FibUpdater) (e : RibEntry) : FibUpdater :=
  e.inheritedRoutes.foldl
    (fun u r => u.addFibUpdate (.createRemoveUpdate e.name r.faceId)) u

def computeUpdatesForRegistration (u : FibUpdater) (rib : Rib) (update : RibUpdate) :
    Option FibUpdater :=
  match rib.find update.name with
  | some p =>
    let e := rib.heap p
    match e.findRoute update.route with
    | none =>
      let willCaptureBeTurnedOn := !e.hasCapture && update.route.isRibCapture
      some (u.createFibUpdatesForNewRoute rib e update.route willCaptureBeTurnedOn)
    | some existingRoute =>
      let routeToUpdate := { existingRoute with
        flags := update.route.flags
        cost := update.route.cost
        expires := update.route.expires }
      u.createFibUpdatesForUpdatedRoute rib (e.assignRoute routeToUpdate) update.route
        existingRoute
  | none =>
    let parent := rib.findParent update.name
    let children := (rib.findDescendantsForNonInsertedName update.name).filter fun c =>
      (rib.heap c).parent = parent
    some (u.createFibUpdatesForNewRibEntry rib update.name update.route children)

def computeUpdatesForUnregistration (u : FibUpdater) (nth : NthElement) (rib : Rib)
    (update : RibUpdate) : FibUpdater :=
  match rib.find update.name with
  | none => u
  | some p =>
    let e := rib.heap p
    match e.findRoute update.route with
    | none => u
    | some existing =>
      let (temp,cancelled) := e.eraseRoute update.route
      let u := { u with cancelledEvents := cancelled ++ u.cancelledEvents }
      let captureWasTurnedOff := e.hasCapture && !temp.hasCapture
      let u := u.createFibUpdatesForErasedRoute rib temp existing captureWasTurnedOff
      let u :=
        match e.getRouteWithSecondLowestCostByFaceId nth update.route.faceId with
        | some next => u.createFibUpdatesForNewRoute rib temp next false
        | none => u
      if e.routes.length = 1 then u.createFibUpdatesForErasedRibEntry e else u

def clearBatchUpdates (u : FibUpdater) : FibUpdater :=
  { u with
    updatesForBatchFaceId := KeyedList.empty
    batch_face := fun _ h => absurd h not_mem_nil }

def computeUpdates (u : FibUpdater) (nth : NthElement) (rib : Rib) (update : RibUpdate) :
    Option FibUpdater :=
  match update.action with
  | .register => u.computeUpdatesForRegistration rib update
  | .unregister => some (u.computeUpdatesForUnregistration nth rib update)
  | .removeFace => some (u.computeUpdatesForUnregistration nth rib update).clearBatchUpdates

end FibUpdater

/-- The cost of the nexthop of each name and face. -/
abbrev Fib := Name → FaceId → Option Nat

namespace Fib

def execute (destroyed : List FaceId) (fib : Fib) (x : FibUpdate) : Fib := fun n f =>
  if n = x.name ∧ f = x.faceId ∧ x.faceId ∉ destroyed then x.outcome else fib n f

def dropFace (fib : Fib) (faceId : FaceId) : Fib := fun n f =>
  if f = faceId then none else fib n f

end Fib

def RibEntry.modifyInherited (e : RibEntry) (x : RibUpdate) : RibEntry :=
  match x.action with
  | .register => e.addInheritedRoute x.route
  | .unregister => e.removeInheritedRoute x.route
  | .removeFace => e

namespace Rib

/-- Fails where the source looks up a name that is not in the table. -/
def modifyInheritedRoutes (rib : Rib) : List RibUpdate → Option Rib
  | [] => some rib
  | x :: xs =>
    match rib.find x.name with
    | none => none
    | some p =>
      { rib with heap := rib.heap.modify p fun e => e.modifyInherited x }.modifyInheritedRoutes
        xs

def applyBatch (rib : Rib) (update : RibUpdate) : Rib :=
  match update.action with
  | .register => rib.insert update.name update.route
  | .unregister => rib.erase update.name update.route
  | .removeFace => rib.erase update.name update.route

def onFibUpdateSuccess (rib : Rib) (update : RibUpdate) (inheritedRoutes : List RibUpdate) :
    Option Rib :=
  (rib.applyBatch update).modifyInheritedRoutes inheritedRoutes

end Rib

def FibUpdater.updates (u : FibUpdater) : List FibUpdate :=
  u.updatesForBatchFaceId.items ++ u.updatesForNonBatchFaceId.items

structure RibFib where
  rib : Rib
  fib : Fib
  destroyed : List FaceId

namespace RibFib

def empty : RibFib := ⟨Rib.empty,fun _ _ => none,[]⟩

def destroyedBy (s : RibFib) (update : RibUpdate) : List FaceId :=
  match update.action with
  | .removeFace => update.route.faceId :: s.destroyed
  | _ => s.destroyed

/-- The FIB when the updater starts: without the nexthops of a face that is gone. -/
def fibBefore (s : RibFib) (update : RibUpdate) : Fib :=
  match update.action with
  | .removeFace => s.fib.dropFace update.route.faceId
  | _ => s.fib

def applyUpdate (nth : NthElement) (s : RibFib) (update : RibUpdate) : Option RibFib := do
  let u ← (FibUpdater.init update.route.faceId).computeUpdates nth s.rib update
  let rib ← s.rib.onFibUpdateSuccess update u.inheritedRoutes
  some ⟨rib,u.updates.foldl (Fib.execute (s.destroyedBy update)) (s.fibBefore update),
    s.destroyedBy update⟩

def run (nth : NthElement) (updates : List RibUpdate) : Option RibFib :=
  updates.foldlM (applyUpdate nth) empty

end RibFib

structure Cell where
  cost : Option Nat
  recorded : Bool
  deriving DecidableEq, Repr

abbrev Cells := Name → FaceId → Cell

namespace Cell

def inherit (c : Cell) : Option Nat → Cell
  | some k => ⟨some k,true⟩
  | none => c

def drop (c : Cell) (b : Bool) : Cell := if b then ⟨none,false⟩ else c

end Cell

def RouteSet.cost (s : RouteSet) (f : FaceId) : Option Nat := (s.find? f).map Route.cost

def RibEntry.recorded (e : RibEntry) (f : FaceId) : Bool :=
  e.inheritedRoutes.any fun r => r.faceId = f

def recordAfter (xs : List RibUpdate) (n : Name) (f : FaceId) (recorded : Bool) : Bool :=
  xs.foldl (fun b x => if x.name = n ∧ x.route.faceId = f then x.action = .register else b)
    recorded

namespace FibUpdater

def updatesFor (u : FibUpdater) (f : FaceId) : FibUpdateList :=
  if f = u.batchFaceId then u.updatesForBatchFaceId else u.updatesForNonBatchFaceId

def costAfter (u : FibUpdater) (n : Name) (f : FaceId) (cost : Option Nat) : Option Nat :=
  match (u.updatesFor f).find? (n,f) with
  | some x => x.outcome
  | none => cost

def cells (u : FibUpdater) (base : Cells) : Cells := fun n f =>
  ⟨u.costAfter n f (base n f).cost,recordAfter u.inheritedRoutes n f (base n f).recorded⟩

variable {u : FibUpdater} {base : Cells} {n : Name} {f : FaceId}

end FibUpdater

end KiteNdn.Routing
