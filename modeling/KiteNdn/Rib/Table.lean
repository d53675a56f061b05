import KiteNdn.Framework.OrderedMap
import KiteNdn.Fw.Packet

/-!
# RIB entries and the table

`Rib` owns a map from names to entries, the parent and child pointers between those entries, and an
index from faces to entries. Entries live on a heap, and `EntryId` is an address: an erased entry
leaves the map, but the index may still hold a pointer to it.
-/

namespace KiteNdn.Routing

open Framework List Function

abbrev RouteOrigin := Nat

def routeOriginApp : RouteOrigin := 0
def routeOriginPrefixAnn : RouteOrigin := 129

def routeFlagChildInherit : Nat := 1
def routeFlagCapture : Nat := 2

structure Route where
  faceId : FaceId := 0
  origin : RouteOrigin := routeOriginApp
  cost : Nat := 0
  flags : Nat := 0
  expires : Option Time := none
  announcement : Option PrefixAnnouncement := none
  annExpires : Time := 0
  expirationEvent : Option EventId := none
  deriving DecidableEq, Repr

namespace Route

def isChildInherit (r : Route) : Bool := r.flags &&& routeFlagChildInherit != 0

def isRibCapture (r : Route) : Bool := r.flags &&& routeFlagCapture != 0

def sameKey (lhs rhs : Route) : Bool := lhs.faceId = rhs.faceId && lhs.origin = rhs.origin

def key (r : Route) : FaceId × RouteOrigin := (r.faceId,r.origin)

theorem sameKey_iff (lhs rhs : Route) : sameKey lhs rhs = true ↔ lhs.key = rhs.key := by
  simp [sameKey,key]

end Route

abbrev EntryId := Nat

structure RibEntry (κ : Type := Component) where
  name : List κ
  children : List EntryId
  parent : Option EntryId
  routes : List Route
  inheritedRoutes : List Route
  nRoutesWithCaptureSet : Nat
  deriving DecidableEq, Repr

/-- Decrement of a 64-bit counter. Increments are exact: a list of `2^64` elements does not fit
in memory. -/
def decrement64 (n : Nat) : Nat := if n = 0 then 2^64-1 else n-1

variable {κ : Type}

namespace RibEntry

def new (name : List κ) : RibEntry κ := ⟨name,[],none,[],[],0⟩

def findRoute (e : RibEntry κ) (route : Route) : Option Route :=
  e.routes.find? fun r => r.sameKey route

def insertRoute (e : RibEntry κ) (route : Route) : RibEntry κ × Bool :=
  match e.findRoute route with
  | none =>
    ({ e with
        nRoutesWithCaptureSet := e.nRoutesWithCaptureSet + (if route.isRibCapture then 1 else 0)
        routes := e.routes ++ [route] },true)
  | some _ => (e,false)

/-- The assignment `*it = route` through the iterator that `insertRoute` returned. -/
def assignRoute (e : RibEntry κ) (route : Route) : RibEntry κ :=
  { e with routes := e.routes.replaceF fun r => if r.sameKey route then some route else none }

def eraseRoute (e : RibEntry κ) (route : Route) : RibEntry κ × List EventId :=
  match e.findRoute route with
  | none => (e,[])
  | some r =>
    ({ e with
        nRoutesWithCaptureSet :=
          if r.isRibCapture then decrement64 e.nRoutesWithCaptureSet else e.nRoutesWithCaptureSet
        routes := e.routes.eraseP fun r => r.sameKey route },r.expirationEvent.toList)

def hasFaceId (e : RibEntry κ) (faceId : FaceId) : Bool := e.routes.any fun r => r.faceId = faceId

def addInheritedRoute (e : RibEntry κ) (route : Route) : RibEntry κ :=
  { e with inheritedRoutes := e.inheritedRoutes ++ [route] }

def removeInheritedRoute (e : RibEntry κ) (route : Route) : RibEntry κ :=
  { e with inheritedRoutes := e.inheritedRoutes.filter fun r => r.faceId ≠ route.faceId }

def hasInheritedRoute (e : RibEntry κ) (route : Route) : Bool :=
  e.inheritedRoutes.any fun r => r.faceId = route.faceId

def hasCapture (e : RibEntry κ) : Bool := e.nRoutesWithCaptureSet > 0

def hasChildInheritOnFaceId (e : RibEntry κ) (faceId : FaceId) : Bool :=
  e.routes.any fun r => r.faceId = faceId && r.isChildInherit

/-- Keeps the earliest of the cheapest routes, as the scans over `m_routes` do. -/
def cheapest : List Route → Option Route
  | [] => none
  | r :: rs => some (rs.foldl (fun candidate r => if r.cost < candidate.cost then r else candidate) r)

def getRouteWithLowestCostByFaceId (e : RibEntry κ) (faceId : FaceId) : Option Route :=
  cheapest (e.routes.filter fun r => r.faceId = faceId)

def getRouteWithLowestCostAndChildInheritByFaceId (e : RibEntry κ) (faceId : FaceId) : Option Route :=
  cheapest (e.routes.filter fun r => r.faceId = faceId && r.isChildInherit)

end RibEntry

abbrev Heap (κ : Type := Component) := EntryId → RibEntry κ

namespace Heap

def modify (h : Heap κ) (p : EntryId) (f : RibEntry κ → RibEntry κ) : Heap κ :=
  update h p (f (h p))

def addChild (h : Heap κ) (parent child : EntryId) : Heap κ :=
  (h.modify child fun e => { e with parent := some parent }).modify parent fun e =>
    { e with children := e.children ++ [child] }

def removeChild (h : Heap κ) (parent child : EntryId) : Heap κ :=
  (h.modify child fun e => { e with parent := none }).modify parent fun e =>
    { e with children := e.children.filter fun c => c ≠ child }

end Heap

structure Rib (κ : Type := Component) [NameComponent κ] where
  heap : Heap κ
  nextId : EntryId
  table : OrderedMap (List κ) EntryId
  faceEntries : List (FaceId × EntryId)
  nItems : Nat
  cancelledEvents : List EventId

section Operations

variable [NameComponent κ]

namespace Rib

def empty : Rib κ := ⟨fun _ => RibEntry.new [],0,OrderedMap.empty,[],0,[]⟩

def find (rib : Rib κ) (pfx : List κ) : Option EntryId := rib.table.find? pfx

def entryAt (rib : Rib κ) (pfx : List κ) : Option (RibEntry κ) := (rib.find pfx).map rib.heap

def findRoute (rib : Rib κ) (pfx : List κ) (route : Route) : Option Route :=
  (rib.entryAt pfx).bind fun e => e.findRoute route

def size (rib : Rib κ) : Nat := rib.nItems

def findParent (rib : Rib κ) (pfx : List κ) : Option EntryId :=
  (Name.properPrefixes pfx).findSome? rib.find

def findDescendants (rib : Rib κ) (pfx : List κ) : List EntryId :=
  match rib.find pfx with
  | none => []
  | some _ => ((rib.table.after pfx).takeWhile fun e => toName pfx <+: toName e.1).map Prod.snd

def findDescendantsForNonInsertedName (rib : Rib κ) (pfx : List κ) : List EntryId :=
  (rib.table.entries.filter fun e => toName pfx <+: toName e.1).map Prod.snd

/-- `std::multimap::emplace`: behind the pairs of the same face. -/
def emplaceFaceEntry (index : List (FaceId × EntryId)) (faceId : FaceId) (entry : EntryId) :
    List (FaceId × EntryId) :=
  index.takeWhile (fun e => e.1 ≤ faceId) ++ (faceId,entry) ::
    index.dropWhile (fun e => e.1 ≤ faceId)

/-- Moves `child` below the new entry when it still hangs off the new entry's parent. -/
def adoptChild (parent : Option EntryId) (entry : EntryId) (h : Heap κ) (child : EntryId) : Heap κ :=
  if (h child).parent = parent then
    match parent with
    | some q => (h.removeChild q child).addChild entry child
    | none => h.addChild entry child
  else h

def insert (rib : Rib κ) (pfx : List κ) (route : Route) : Rib κ :=
  match rib.find pfx with
  | some p =>
    let entry := rib.heap p
    match entry.insertRoute route with
    | (entry',true) =>
      { rib with
        heap := update rib.heap p entry'
        nItems := rib.nItems + 1
        faceEntries := emplaceFaceEntry rib.faceEntries route.faceId p }
    | (_,false) =>
      { rib with
        heap := update rib.heap p (entry.assignRoute route)
        cancelledEvents :=
          ((entry.findRoute route).bind Route.expirationEvent).toList ++ rib.cancelledEvents }
  | none =>
    let p := rib.nextId
    let entry := ((RibEntry.new pfx).insertRoute route).1
    let rib := { rib with
      heap := update rib.heap p entry
      nextId := p + 1
      table := rib.table.insert pfx p
      nItems := rib.nItems + 1 }
    let parent := rib.findParent pfx
    let heap := match parent with
      | some q => rib.heap.addChild q p
      | none => rib.heap
    { rib with
      heap := (rib.findDescendants pfx).foldl (adoptChild parent p) heap
      faceEntries := emplaceFaceEntry rib.faceEntries route.faceId p }

def releaseChild (parent : Option EntryId) (entry : EntryId) (h : Heap κ) (child : EntryId) : Heap κ :=
  match parent with
  | some q => (h.removeChild entry child).addChild q child
  | none => h.removeChild entry child

def eraseEntry (rib : Rib κ) (pfx : List κ) (p : EntryId) : Rib κ :=
  let parent := (rib.heap p).parent
  let heap := match parent with
    | some q => rib.heap.removeChild q p
    | none => rib.heap
  { rib with
    heap := (heap p).children.foldl (releaseChild parent p) heap
    table := rib.table.erase pfx }

def erase (rib : Rib κ) (pfx : List κ) (route : Route) : Rib κ :=
  match rib.find pfx with
  | none => rib
  | some p =>
    match (rib.heap p).findRoute route with
    | none => rib
    | some _ =>
      let erased := (rib.heap p).eraseRoute route
      let rib := { rib with
        heap := update rib.heap p erased.1
        nItems := decrement64 rib.nItems
        cancelledEvents := erased.2 ++ rib.cancelledEvents
        faceEntries :=
          if erased.1.hasFaceId route.faceId then rib.faceEntries
          else rib.faceEntries.erase (route.faceId,p) }
      if erased.1.routes.isEmpty then rib.eraseEntry pfx p else rib

end Rib

inductive RibOp (κ : Type := Component) where
  | insert (pfx : List κ) (route : Route)
  | erase (pfx : List κ) (route : Route)
  deriving DecidableEq, Repr

def Rib.apply (rib : Rib κ) : RibOp κ → Rib κ
  | .insert pfx route => rib.insert pfx route
  | .erase pfx route => rib.erase pfx route

def Rib.run (rib : Rib κ) (ops : List (RibOp κ)) : Rib κ := ops.foldl Rib.apply rib

end Operations

namespace Heap

/-- Two heaps whose objects differ in their parent and child pointers only. -/
structure SameContent (h h' : Heap κ) : Prop where
  name : ∀ x, (h' x).name = (h x).name
  routes : ∀ x, (h' x).routes = (h x).routes
  inheritedRoutes : ∀ x, (h' x).inheritedRoutes = (h x).inheritedRoutes
  captures : ∀ x, (h' x).nRoutesWithCaptureSet = (h x).nRoutesWithCaptureSet

theorem SameContent.refl (h : Heap κ) : SameContent h h :=
  ⟨fun _ => rfl,fun _ => rfl,fun _ => rfl,fun _ => rfl⟩

theorem SameContent.trans {h h' h'' : Heap κ} (a : SameContent h h') (b : SameContent h' h'') :
    SameContent h h'' :=
  ⟨fun x => (b.name x).trans (a.name x),fun x => (b.routes x).trans (a.routes x),
    fun x => (b.inheritedRoutes x).trans (a.inheritedRoutes x),
    fun x => (b.captures x).trans (a.captures x)⟩

private theorem modify_sameContent (h : Heap κ) (p : EntryId) (f : RibEntry κ → RibEntry κ)
    (hf : ∀ e, (f e).name = e.name ∧ (f e).routes = e.routes ∧
      (f e).inheritedRoutes = e.inheritedRoutes ∧
      (f e).nRoutesWithCaptureSet = e.nRoutesWithCaptureSet) :
    SameContent h (h.modify p f) := by
  constructor <;> intro x <;> by_cases hx : x = p
  all_goals first
    | (subst x; simp [modify,hf])
    | simp [modify,hx]

theorem addChild_sameContent (h : Heap κ) (parent child : EntryId) :
    SameContent h (h.addChild parent child) := by
  refine SameContent.trans (modify_sameContent h child
    (fun e => { e with parent := some parent }) fun _ => ⟨rfl,rfl,rfl,rfl⟩) ?_
  exact modify_sameContent _ parent _ fun _ => ⟨rfl,rfl,rfl,rfl⟩

theorem removeChild_sameContent (h : Heap κ) (parent child : EntryId) :
    SameContent h (h.removeChild parent child) := by
  refine SameContent.trans (modify_sameContent h child
    (fun e => { e with parent := none }) fun _ => ⟨rfl,rfl,rfl,rfl⟩) ?_
  exact modify_sameContent _ parent _ fun _ => ⟨rfl,rfl,rfl,rfl⟩

theorem foldl_sameContent (step : Heap κ → EntryId → Heap κ)
    (hstep : ∀ h c, SameContent h (step h c)) (cs : List EntryId) (h : Heap κ) :
    SameContent h (cs.foldl step h) := by
  induction cs generalizing h with
  | nil => exact SameContent.refl h
  | cons c cs ih => exact (hstep h c).trans (ih (step h c))

private theorem modify_modify (h : Heap κ) {parent child : EntryId} (hne : parent ≠ child)
    (f g : RibEntry κ → RibEntry κ) (x : EntryId) : (h.modify child f).modify parent g x =
      if x = child then f (h x) else if x = parent then g (h x) else h x := by
  by_cases hx : x = child
  · subst x
    simp [modify,hne.symm]
  · by_cases hp : x = parent
    · subst x
      simp [modify,hne]
    · simp [modify,hx,hp]

theorem addChild_parent (h : Heap κ) (parent child x : EntryId) (hne : parent ≠ child) :
    (h.addChild parent child x).parent = if x = child then some parent else (h x).parent := by
  rw [addChild,modify_modify h hne]
  split_ifs <;> rfl

theorem addChild_children (h : Heap κ) (parent child x : EntryId) (hne : parent ≠ child) :
    (h.addChild parent child x).children =
      if x = parent then (h x).children ++ [child] else (h x).children := by
  rw [addChild,modify_modify h hne]
  split_ifs <;> simp_all

theorem removeChild_parent (h : Heap κ) (parent child x : EntryId) (hne : parent ≠ child) :
    (h.removeChild parent child x).parent = if x = child then none else (h x).parent := by
  rw [removeChild,modify_modify h hne]
  split_ifs <;> rfl

theorem removeChild_children (h : Heap κ) (parent child x : EntryId) (hne : parent ≠ child) :
    (h.removeChild parent child x).children =
      if x = parent then (h x).children.filter (fun c => c ≠ child) else (h x).children := by
  rw [removeChild,modify_modify h hne]
  split_ifs <;> simp_all

/-- Takes a child away from one entry and gives it to another, as far as there are such entries. -/
def moveChild (src dst : Option EntryId) (h : Heap κ) (child : EntryId) : Heap κ :=
  match src, dst with
  | some q, some r => (h.removeChild q child).addChild r child
  | some q, none => h.removeChild q child
  | none, some r => h.addChild r child
  | none, none => h

section Moving

variable {src dst : Option EntryId} {c : EntryId}

theorem moveChild_sameContent (h : Heap κ) (c : EntryId) :
    SameContent h (h.moveChild src dst c) := by
  unfold moveChild
  split
  · exact (h.removeChild_sameContent _ c).trans (addChild_sameContent _ _ c)
  · exact h.removeChild_sameContent _ c
  · exact h.addChild_sameContent _ c
  · exact SameContent.refl h

theorem moveChild_parent (h : Heap κ) (hsrc : src ≠ some c) (hdst : dst ≠ some c) (x : EntryId) :
    (h.moveChild src dst c x).parent =
      if x = c ∧ (src ≠ none ∨ dst ≠ none) then dst else (h x).parent := by
  unfold moveChild
  split
  · next q r =>
    rw [addChild_parent _ _ _ _ (by simpa using hdst),removeChild_parent _ _ _ _ (by simpa using hsrc)]
    by_cases hx : x = c <;> simp [hx]
  · rw [removeChild_parent _ _ _ _ (by simpa using hsrc)]
    simp
  · rw [addChild_parent _ _ _ _ (by simpa using hdst)]
    simp
  · simp

theorem moveChild_children (h : Heap κ) (hsrc : src ≠ some c) (hdst : dst ≠ some c)
    (hne : src = none ∨ src ≠ dst) (x : EntryId) : (h.moveChild src dst c x).children =
      if src = some x then (h x).children.filter (fun d => d ≠ c)
      else if dst = some x then (h x).children ++ [c] else (h x).children := by
  unfold moveChild
  split
  · next q r =>
    rw [addChild_children _ _ _ _ (by simpa using hdst),
      removeChild_children _ _ _ _ (by simpa using hsrc)]
    have hqr : q ≠ r := by simpa using hne
    by_cases hx : x = q
    · simp [hx,hqr]
    · simp [hx,eq_comm]
  · rw [removeChild_children _ _ _ _ (by simpa using hsrc)]
    simp [eq_comm]
  · rw [addChild_children _ _ _ _ (by simpa using hdst)]
    simp [eq_comm]
  · simp

theorem foldl_moveChild_parent {cs : List EntryId} (hsrc : ∀ c ∈ cs, src ≠ some c)
    (hdst : ∀ c ∈ cs, dst ≠ some c) (hsome : src ≠ none ∨ dst ≠ none) (h : Heap κ) (x : EntryId) :
    (cs.foldl (moveChild src dst) h x).parent = if x ∈ cs then dst else (h x).parent := by
  induction cs generalizing h with
  | nil => simp
  | cons c cs ih =>
    obtain ⟨hc,hcs⟩ := forall_mem_cons.mp hsrc
    obtain ⟨hc',hcs'⟩ := forall_mem_cons.mp hdst
    rw [foldl_cons,ih hcs hcs',moveChild_parent h hc hc']
    by_cases h₁ : x ∈ cs <;> by_cases h₂ : x = c <;> simp [h₁,h₂,hsome]

theorem foldl_moveChild_children {cs : List EntryId} (hsrc : ∀ c ∈ cs, src ≠ some c)
    (hdst : ∀ c ∈ cs, dst ≠ some c) (hne : src = none ∨ src ≠ dst) (h : Heap κ) (x : EntryId) :
    (cs.foldl (moveChild src dst) h x).children =
      if src = some x then (h x).children.filter (fun d => d ∉ cs)
      else if dst = some x then (h x).children ++ cs else (h x).children := by
  induction cs generalizing h with
  | nil => simp
  | cons c cs ih =>
    obtain ⟨hc,hcs⟩ := forall_mem_cons.mp hsrc
    obtain ⟨hc',hcs'⟩ := forall_mem_cons.mp hdst
    rw [foldl_cons,ih hcs hcs',moveChild_children h hc hc' hne]
    split_ifs
    · rw [filter_filter]
      apply filter_congr
      intro d _
      simp [Bool.and_comm]
    · rw [append_assoc,List.singleton_append]
    · rfl

end Moving

end Heap

namespace Rib

theorem adoptChild_eq (parent : Option EntryId) (p : EntryId) (h : Heap κ) (c : EntryId) :
    adoptChild parent p h c =
      if (h c).parent = parent then h.moveChild parent (some p) c else h := by
  cases parent <;> rfl

theorem releaseChild_eq (parent : Option EntryId) (p : EntryId) :
    releaseChild (κ := κ) parent p = Heap.moveChild (some p) parent := by
  cases parent <;> rfl

theorem adoptChild_sameContent (parent : Option EntryId) (p : EntryId) (h : Heap κ) (c : EntryId) :
    h.SameContent (adoptChild parent p h c) := by
  rw [adoptChild_eq]
  split_ifs
  · exact h.moveChild_sameContent c
  · exact Heap.SameContent.refl h

def adopted (h : Heap κ) (parent : Option EntryId) (ds : List EntryId) : List EntryId :=
  ds.filter fun c => (h c).parent = parent

theorem foldl_adoptChild {parent : Option EntryId} {p : EntryId} {ds : List EntryId} (hd : ds.Nodup)
    (hq : ∀ c ∈ ds, parent ≠ some c) (hp : ∀ c ∈ ds, some p ≠ some c) (h : Heap κ) :
    ds.foldl (adoptChild parent p) h =
      (adopted h parent ds).foldl (Heap.moveChild parent (some p)) h := by
  induction ds generalizing h with
  | nil => rfl
  | cons c ds ih =>
    obtain ⟨hc,hds⟩ := nodup_cons.mp hd
    obtain ⟨hqc,hqds⟩ := forall_mem_cons.mp hq
    obtain ⟨hpc,hpds⟩ := forall_mem_cons.mp hp
    rw [foldl_cons,adoptChild_eq,adopted,filter_cons]
    split_ifs with ha hb hb
    · -- Moving a child does not change who the parent of a later one is.
      have hlater : adopted (h.moveChild parent (some p) c) parent ds = adopted h parent ds := by
        apply filter_congr
        intro d hmem
        have hne : d ≠ c := fun heq => hc (heq ▸ hmem)
        rw [h.moveChild_parent hqc hpc,if_neg fun hand => hne hand.1]
      rw [ih hds hqds hpds,hlater]
      rfl
    · exact absurd (decide_eq_true ha) hb
    · exact absurd (of_decide_eq_true hb) ha
    · exact ih hds hqds hpds h

end Rib

end KiteNdn.Routing
