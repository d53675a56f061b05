import KiteNdn.Name.Wire
import KiteNdn.Rib.Tree

/-!
# The routes of an entry

No entry is empty, the routes of an entry have different keys, and `size` counts them all. Every
sequence of insertions and erasures keeps this and the tree of entries.
-/

namespace KiteNdn.Routing

open List Function

variable {κ : Type}

namespace RibEntry

variable {e : RibEntry κ} {route r : Route}

theorem findRoute_eq_none : e.findRoute route = none ↔ route.key ∉ e.routes.map Route.key := by
  simp only [findRoute,find?_eq_none,Route.sameKey_iff,mem_map,not_exists,not_and]

theorem findRoute_some (h : e.findRoute route = some r) : r ∈ e.routes ∧ r.key = route.key := by
  obtain ⟨hk,_⟩ := find?_eq_some_iff_append.mp h
  exact ⟨mem_of_find?_eq_some h,(Route.sameKey_iff r route).mp hk⟩

theorem hasFaceId_iff {f : FaceId} : e.hasFaceId f = true ↔ ∃ r ∈ e.routes, r.faceId = f := by
  simp [hasFaceId]

theorem assignRoute_routes {l₁ l₂ : List Route} (hs : e.routes = l₁ ++ r :: l₂)
    (hl : route.key ∉ l₁.map Route.key) (hk : r.key = route.key) :
    (e.assignRoute route).routes = l₁ ++ route :: l₂ := by
  simp only [assignRoute,hs]
  clear hs
  induction l₁ with
  | nil =>
    have : r.sameKey route = true := (Route.sameKey_iff r route).mpr hk
    simp [List.replaceF,this]
  | cons a l₁ ih =>
    simp only [map_cons,mem_cons,not_or] at hl
    have : ¬ a.sameKey route = true := fun h => hl.1 ((Route.sameKey_iff a route).mp h).symm
    simp [List.replaceF,this,ih hl.2]

theorem findRoute_split (h : e.findRoute route = some r) :
    ∃ l₁ l₂, e.routes = l₁ ++ r :: l₂ ∧ (e.assignRoute route).routes = l₁ ++ route :: l₂ ∧
      (e.eraseRoute route).1.routes = l₁ ++ l₂ ∧ route.key ∉ l₁.map Route.key := by
  obtain ⟨hr,l₁,l₂,hs,hl⟩ := find?_eq_some_iff_append.mp h
  have hno : ∀ x ∈ l₁, ¬x.sameKey route = true := by simpa using hl
  have hkey : route.key ∉ l₁.map Route.key := by
    intro hmem
    obtain ⟨x,hx,hk⟩ := mem_map.mp hmem
    exact hno x hx ((Route.sameKey_iff x route).mpr hk)
  refine ⟨l₁,l₂,hs,assignRoute_routes hs hkey ((Route.sameKey_iff r route).mp hr),?_,hkey⟩
  simp only [eraseRoute,h,hs]
  rw [eraseP_append_right _ hno,eraseP_cons,hr,cond_true]

end RibEntry

namespace Rib

theorem insertRoute_pointers (e : RibEntry κ) (route : Route) :
    (e.insertRoute route).1.name = e.name ∧ (e.insertRoute route).1.parent = e.parent ∧
      (e.insertRoute route).1.children = e.children := by
  unfold RibEntry.insertRoute
  cases e.findRoute route <;> exact ⟨rfl,rfl,rfl⟩

theorem eraseRoute_pointers (e : RibEntry κ) (route : Route) :
    (e.eraseRoute route).1.name = e.name ∧ (e.eraseRoute route).1.parent = e.parent ∧
      (e.eraseRoute route).1.children = e.children := by
  unfold RibEntry.eraseRoute
  cases e.findRoute route <;> exact ⟨rfl,rfl,rfl⟩

section Outcomes

variable [NameComponent κ] {rib : Rib κ} {pfx : List κ} {route r : Route} {p : EntryId}

theorem insert_append (hp : rib.find pfx = some p) (hr : (rib.heap p).findRoute route = none) :
    rib.insert pfx route = { rib with
      heap := update rib.heap p ((rib.heap p).insertRoute route).1
      nItems := rib.nItems + 1
      faceEntries := emplaceFaceEntry rib.faceEntries route.faceId p } := by
  simp only [insert,hp,RibEntry.insertRoute,hr]

theorem insert_assign (hp : rib.find pfx = some p) (hr : (rib.heap p).findRoute route = some r) :
    rib.insert pfx route = { rib with
      heap := update rib.heap p ((rib.heap p).assignRoute route)
      cancelledEvents := r.expirationEvent.toList ++ rib.cancelledEvents } := by
  simp only [insert,hp,RibEntry.insertRoute,hr,Option.bind_some]

theorem findRoute_eq_some : rib.findRoute pfx route = some r ↔
    ∃ p, rib.find pfx = some p ∧ (rib.heap p).findRoute route = some r := by
  cases hp : rib.find pfx with
  | _ => simp [findRoute,entryAt,hp]

theorem erase_absent (h : rib.findRoute pfx route = none) : rib.erase pfx route = rib := by
  unfold erase
  cases hp : rib.find pfx with
  | none => rfl
  | some p =>
    have hr : (rib.heap p).findRoute route = none := by
      simpa [findRoute,entryAt,hp] using h
    simp only [hr]

def dropRoute (rib : Rib κ) (p : EntryId) (route : Route) : Rib κ :=
  { rib with
    heap := update rib.heap p ((rib.heap p).eraseRoute route).1
    nItems := decrement64 rib.nItems
    cancelledEvents := ((rib.heap p).eraseRoute route).2 ++ rib.cancelledEvents
    faceEntries :=
      if ((rib.heap p).eraseRoute route).1.hasFaceId route.faceId then rib.faceEntries
      else rib.faceEntries.erase (route.faceId,p) }

theorem erase_present (hp : rib.find pfx = some p) (hr : (rib.heap p).findRoute route = some r) :
    rib.erase pfx route =
      if ((rib.heap p).eraseRoute route).1.routes.isEmpty then
        (rib.dropRoute p route).eraseEntry pfx p
      else rib.dropRoute p route := by
  simp only [erase,hp,hr,dropRoute]

theorem Linked.update {rib' : Rib κ} (h : rib.Linked) (ht : rib'.table = rib.table)
    (hn : rib'.nextId = rib.nextId) {e : RibEntry κ}
    (hh : rib'.heap = update rib.heap p e)
    (he : e.name = (rib.heap p).name ∧ e.parent = (rib.heap p).parent ∧
      e.children = (rib.heap p).children) : rib'.Linked := by
  refine h.congr ht hn fun x => ?_
  rw [hh]
  by_cases hx : x = p
  · subst x
    simpa using he
  · simp [hx]

/-- A property of the routes and the capture counter of every entry in the table. -/
def EachEntry (rib : Rib κ) (φ : List Route → Nat → Prop) : Prop :=
  ∀ n p, rib.find n = some p → φ (rib.heap p).routes (rib.heap p).nRoutesWithCaptureSet

def insertedEntry (rib : Rib κ) (pfx : List κ) (route : Route) : RibEntry κ :=
  match rib.find pfx with
  | none => ((RibEntry.new pfx).insertRoute route).1
  | some p =>
    match (rib.heap p).findRoute route with
    | none => ((rib.heap p).insertRoute route).1
    | some _ => (rib.heap p).assignRoute route

def totalRoutes (rib : Rib κ) : Nat :=
  (rib.table.entries.map fun e => (rib.heap e.2).routes.length).sum

structure WellFormed (rib : Rib κ) : Prop extends Linked rib where
  nonempty : ∀ n p, rib.find n = some p → (rib.heap p).routes ≠ []
  distinct : ∀ n p, rib.find n = some p → ((rib.heap p).routes.map Route.key).Nodup
  counted : rib.size = rib.totalRoutes

end Outcomes

variable [CanonicalComponent κ] {rib : Rib κ} {pfx : List κ} {route r : Route} {p : EntryId}

theorem Linked.insert (h : rib.Linked) (pfx : List κ) (route : Route) :
    (rib.insert pfx route).Linked := by
  cases hp : rib.find pfx with
  | none => exact Linked.insert_new hp route h
  | some p =>
    cases hr : (rib.heap p).findRoute route with
    | none =>
      rw [insert_append hp hr]
      exact h.update rfl rfl rfl (insertRoute_pointers _ _)
    | some r =>
      rw [insert_assign hp hr]
      exact h.update rfl rfl rfl ⟨rfl,rfl,rfl⟩

theorem Linked.dropRoute (h : rib.Linked) (p : EntryId) (route : Route) :
    (rib.dropRoute p route).Linked :=
  h.update rfl rfl rfl (eraseRoute_pointers _ _)

theorem Linked.erase (h : rib.Linked) (pfx : List κ) (route : Route) :
    (rib.erase pfx route).Linked := by
  cases hex : rib.findRoute pfx route with
  | none =>
    rw [erase_absent hex]
    exact h
  | some r =>
    obtain ⟨p,hp,hr⟩ := findRoute_eq_some.mp hex
    rw [erase_present hp hr]
    split_ifs
    · exact (h.dropRoute p route).eraseEntry hp
    · exact h.dropRoute p route

section EachEntry

variable {φ : List Route → Nat → Prop}

private theorem eachEntry_update_iff {rib' : Rib κ} {e : RibEntry κ} (ha : rib.EachEntry φ)
    (hp : rib.find pfx = some p) (hh : rib'.heap = update rib.heap p e)
    (ht : rib'.table = rib.table) :
    rib'.EachEntry φ ↔ φ e.routes e.nRoutesWithCaptureSet := by
  have hpe : rib'.heap p = e := by rw [hh,update_self]
  have hf : ∀ n, rib'.find n = rib.find n := fun n => by rw [find,find,ht]
  constructor
  · intro h'
    have := h' pfx p (by rw [hf,hp])
    rwa [hpe] at this
  · intro he n x hn
    rw [hf] at hn
    by_cases hx : x = p
    · rw [hx,hpe]
      exact he
    · rw [hh,update_of_ne hx]
      exact ha n x hn

private theorem eachEntry_insert_new_iff (h : rib.Linked) (ha : rib.EachEntry φ)
    (hf : rib.find pfx = none) (route : Route) :
    (rib.insert pfx route).EachEntry φ ↔ φ ((RibEntry.new pfx).insertRoute route).1.routes
        ((RibEntry.new pfx).insertRoute route).1.nRoutesWithCaptureSet := by
  have hc := insert_new_content hf route
  constructor
  · intro h'
    have := h' pfx rib.nextId (by rw [find_insert_new hf,if_pos rfl])
    rwa [hc.routes,hc.captures,update_self] at this
  · intro he n x hn
    rw [hc.routes,hc.captures]
    rw [find_insert_new hf] at hn
    split_ifs at hn with hnp
    · cases hn
      rwa [update_self]
    · rw [update_of_ne (h.allocated n x hn).ne]
      exact ha n x hn

theorem eachEntry_insert_iff (h : rib.Linked) (ha : rib.EachEntry φ) (pfx : List κ)
    (route : Route) :
    (rib.insert pfx route).EachEntry φ ↔ φ (rib.insertedEntry pfx route).routes
        (rib.insertedEntry pfx route).nRoutesWithCaptureSet := by
  unfold insertedEntry
  cases hp : rib.find pfx with
  | none => exact eachEntry_insert_new_iff h ha hp route
  | some p =>
    cases hr : (rib.heap p).findRoute route with
    | none =>
      rw [insert_append hp hr]
      simp only [hr]
      exact eachEntry_update_iff ha hp rfl rfl
    | some r =>
      rw [insert_assign hp hr]
      simp only [hr]
      exact eachEntry_update_iff ha hp rfl rfl

theorem EachEntry.erase (h : rib.Linked) (ha : rib.EachEntry φ) (hp : rib.find pfx = some p)
    (hr : (rib.heap p).findRoute route = some r)
    (he : ((rib.heap p).eraseRoute route).1.routes ≠ [] → φ ((rib.heap p).eraseRoute route).1.routes
        ((rib.heap p).eraseRoute route).1.nRoutesWithCaptureSet) :
    (rib.erase pfx route).EachEntry φ := by
  rw [erase_present hp hr]
  split_ifs with hempty
  · intro n x hn
    rw [find_eraseEntry] at hn
    split_ifs at hn with hnp
    have hxp : x ≠ p := fun e => hnp (h.find_inj (e ▸ hn) hp)
    rw [eraseEntry_sameContent.routes,eraseEntry_sameContent.captures]
    simp only [Rib.dropRoute]
    rw [update_of_ne hxp]
    exact ha n x hn
  · have hu : (rib.dropRoute p route).EachEntry φ ↔ _ := eachEntry_update_iff ha hp rfl rfl
    exact hu.mpr (he fun e => hempty (isEmpty_iff.mpr e))

end EachEntry

section Count

variable {rib : Rib κ} {pfx : List κ} {p : EntryId}

private theorem sum_split (g : EntryId → Nat) (hp : rib.find pfx = some p) :
    (rib.table.entries.map fun e => g e.2).sum =
      g p + ((rib.table.erase pfx).entries.map fun e => g e.2).sum := by
  rw [((rib.table.erase_perm hp).map fun e => g e.2).sum_nat,map_cons,sum_cons]

private theorem sum_elsewhere (h : rib.Linked) (hp : rib.find pfx = some p) (g g' : EntryId → Nat)
    (hg : ∀ x, x ≠ p → g x = g' x) :
    ((rib.table.erase pfx).entries.map fun e => g e.2).sum =
      ((rib.table.erase pfx).entries.map fun e => g' e.2).sum := by
  congr 1
  apply map_congr_left
  rintro ⟨n,x⟩ hm
  obtain ⟨hm',hne⟩ := (rib.table.mem_erase pfx _).mp hm
  apply hg
  rintro rfl
  exact hne (h.find_inj ((rib.table.find?_eq_some n x).mpr hm') hp)

private theorem total_update {rib' : Rib κ} {e : RibEntry κ} (h : rib.Linked)
    (hp : rib.find pfx = some p) (hh : rib'.heap = update rib.heap p e)
    (ht : rib'.table = rib.table) :
    rib'.totalRoutes + (rib.heap p).routes.length = rib.totalRoutes + e.routes.length := by
  have hs := sum_split (fun x => (rib.heap x).routes.length) hp
  have hs' := sum_split (fun x => (rib'.heap x).routes.length) hp
  have he : ((rib.table.erase pfx).entries.map fun e => (rib'.heap e.2).routes.length).sum =
      ((rib.table.erase pfx).entries.map fun e => (rib.heap e.2).routes.length).sum :=
    sum_elsewhere h hp (fun x => (rib'.heap x).routes.length)
      (fun x => (rib.heap x).routes.length) fun x hx => by rw [hh,update_of_ne hx]
  have hpe : (rib'.heap p).routes.length = e.routes.length := by rw [hh,update_self]
  simp only [totalRoutes,ht]
  omega

private theorem total_eraseEntry (hp : rib.find pfx = some p) (he : (rib.heap p).routes = []) :
    (rib.eraseEntry pfx p).totalRoutes = rib.totalRoutes := by
  have hs := sum_split (fun x => (rib.heap x).routes.length) hp
  rw [he,length_nil,Nat.zero_add] at hs
  have hc : ∀ x, ((rib.eraseEntry pfx p).heap x).routes = (rib.heap x).routes :=
    eraseEntry_sameContent.routes
  simp only [totalRoutes,hc]
  exact hs.symm

private theorem total_insert_new {route : Route} (h : rib.Linked) (hf : rib.find pfx = none) :
    (rib.insert pfx route).totalRoutes = rib.totalRoutes + 1 := by
  have hc := (insert_new_content hf route).routes
  simp only [totalRoutes,insert_new_table hf,hc]
  rw [((rib.table.insert_perm rib.nextId hf).map _).sum_nat,map_cons,sum_cons,
    update_self,Nat.add_comm]
  congr 2
  apply map_congr_left
  rintro ⟨n,x⟩ hm
  have hx := (h.allocated n x ((rib.table.find?_eq_some n x).mpr hm)).ne
  dsimp only
  rw [update_of_ne hx]

end Count

section Steps

variable {rib : Rib κ} {pfx : List κ} {p : EntryId}

private theorem insertedEntry_routes (h : rib.WellFormed) (pfx : List κ) (route : Route) :
    (rib.insertedEntry pfx route).routes ≠ [] ∧
      ((rib.insertedEntry pfx route).routes.map Route.key).Nodup := by
  unfold insertedEntry
  cases hp : rib.find pfx with
  | none => simp [RibEntry.insertRoute,RibEntry.new,RibEntry.findRoute]
  | some p =>
    have hd := h.distinct pfx p hp
    cases hr : (rib.heap p).findRoute route with
    | none =>
      have hk := RibEntry.findRoute_eq_none.mp hr
      simp only [RibEntry.insertRoute,hr,map_append]
      refine ⟨by simp,nodup_append.mpr ⟨hd,nodup_singleton _,?_⟩⟩
      rintro a ha b hb rfl
      exact hk (mem_singleton.mp hb ▸ ha)
    | some r =>
      obtain ⟨l₁,l₂,hs,hassign,_⟩ := RibEntry.findRoute_split hr
      rw [hs] at hd
      simp only [hr,hassign]
      exact ⟨by simp,by simpa [(RibEntry.findRoute_some hr).2] using hd⟩

private theorem insert_counted (h : rib.WellFormed) (pfx : List κ) (route : Route) :
    (rib.insert pfx route).size = (rib.insert pfx route).totalRoutes := by
  have hc : rib.nItems = rib.totalRoutes := h.counted
  cases hp : rib.find pfx with
  | none => rw [size,(insert_new_fields hp route).2.1,total_insert_new h.toLinked hp,hc]
  | some p =>
    cases hr : (rib.heap p).findRoute route with
    | none =>
      have ht := total_update (e := ((rib.heap p).insertRoute route).1) h.toLinked hp
        (congrArg heap (insert_append hp hr)) (by rw [insert_append hp hr])
      have hn : (rib.insert pfx route).nItems = rib.nItems + 1 := by
        rw [insert_append hp hr]
      simp only [RibEntry.insertRoute,hr,length_append,length_singleton] at ht
      rw [size]
      omega
    | some r =>
      obtain ⟨l₁,l₂,hs,hassign,_⟩ := RibEntry.findRoute_split hr
      have ht := total_update h.toLinked hp (congrArg heap (insert_assign hp hr))
        (by rw [insert_assign hp hr])
      have hn : (rib.insert pfx route).nItems = rib.nItems := by
        rw [insert_assign hp hr]
      simp only [hs,hassign,length_append,length_cons] at ht
      rw [size]
      omega

theorem WellFormed.insert (h : rib.WellFormed) (pfx : List κ) (route : Route) :
    (rib.insert pfx route).WellFormed := by
  have hr := insertedEntry_routes h pfx route
  refine ⟨h.toLinked.insert pfx route,?_,?_,insert_counted h pfx route⟩
  · have hn : rib.EachEntry fun routes _ => routes ≠ [] := h.nonempty
    exact (eachEntry_insert_iff h.toLinked hn pfx route).mpr hr.1
  · have hd : rib.EachEntry fun routes _ => (routes.map Route.key).Nodup := h.distinct
    exact (eachEntry_insert_iff h.toLinked hd pfx route).mpr hr.2

private theorem dropRoute_counted {route r : Route} {l₁ l₂ : List Route} (h : rib.WellFormed)
    (hp : rib.find pfx = some p) (hs : (rib.heap p).routes = l₁ ++ r :: l₂)
    (hr : ((rib.heap p).eraseRoute route).1.routes = l₁ ++ l₂) :
    (rib.dropRoute p route).size = (rib.dropRoute p route).totalRoutes := by
  have ht : (rib.dropRoute p route).totalRoutes + (rib.heap p).routes.length =
      rib.totalRoutes + ((rib.heap p).eraseRoute route).1.routes.length :=
    total_update h.toLinked hp rfl rfl
  have hle := sum_split (fun x => (rib.heap x).routes.length) hp
  have hc := h.counted
  simp only [hs,hr,length_append,length_cons,size,totalRoutes] at ht hle hc ⊢
  have hpos : rib.nItems ≠ 0 := by omega
  simp only [dropRoute,decrement64,if_neg hpos] at ht ⊢
  omega

private theorem erase_counted {route r : Route} (h : rib.WellFormed) (hp : rib.find pfx = some p)
    (hr : (rib.heap p).findRoute route = some r) :
    (rib.erase pfx route).size = (rib.erase pfx route).totalRoutes := by
  obtain ⟨l₁,l₂,hs,_,herase,_⟩ := RibEntry.findRoute_split hr
  have hc := dropRoute_counted h hp hs herase
  rw [erase_present hp hr]
  split_ifs with he
  · have hempty : ((rib.dropRoute p route).heap p).routes = [] := by
      simpa [dropRoute] using he
    have hp' : (rib.dropRoute p route).find pfx = some p := hp
    rw [total_eraseEntry hp' hempty,← hc]
    rfl
  · exact hc

theorem WellFormed.erase (h : rib.WellFormed) (pfx : List κ) (route : Route) :
    (rib.erase pfx route).WellFormed := by
  cases hex : rib.findRoute pfx route with
  | none =>
    rw [erase_absent hex]
    exact h
  | some r =>
    obtain ⟨p,hp,hr⟩ := findRoute_eq_some.mp hex
    refine ⟨h.toLinked.erase pfx route,?_,?_,erase_counted h hp hr⟩
    · have hn : rib.EachEntry fun routes _ => routes ≠ [] := h.nonempty
      exact hn.erase h.toLinked hp hr id
    · have hd : rib.EachEntry fun routes _ => (routes.map Route.key).Nodup := h.distinct
      refine hd.erase h.toLinked hp hr fun _ => ?_
      obtain ⟨l₁,l₂,hs,_,herase,_⟩ := RibEntry.findRoute_split hr
      have hpd := h.distinct pfx p hp
      rw [herase]
      rw [hs] at hpd
      exact hpd.sublist (((sublist_cons_self r l₂).append_left l₁).map Route.key)

end Steps

theorem WellFormed.empty : (Rib.empty : Rib κ).WellFormed := by
  constructor
  · constructor <;> intro n p hn <;> exact absurd hn (by simp [Rib.empty,find])
  · intro n p hn
    exact absurd hn (by simp [Rib.empty,find])
  · intro n p hn
    exact absurd hn (by simp [Rib.empty,find])
  · rfl

theorem WellFormed.apply {rib : Rib κ} (h : rib.WellFormed) (op : RibOp κ) :
    (rib.apply op).WellFormed := by
  cases op with
  | insert pfx route => exact h.insert pfx route
  | erase pfx route => exact h.erase pfx route

theorem WellFormed.run {rib : Rib κ} (h : rib.WellFormed) (ops : List (RibOp κ)) :
    (rib.run ops).WellFormed := by
  induction ops generalizing rib with
  | nil => exact h
  | cons op ops ih => exact ih (h.apply op)

/-- With names in the shortest form, the RIB is well formed after any sequence of insertions and
erasures. -/
theorem run_wellFormed (ops : List (RibOp ShortestComponent)) : (Rib.empty.run ops).WellFormed :=
  WellFormed.empty.run ops

section LongForms

private def wireB : WireComponent := .ofComponent (.generic [0x42]) (by decide)

private def insertAll (names : List (List WireComponent)) : Rib WireComponent :=
  Rib.empty.run (names.map fun name => .insert name {})

/-- In the order of octets, `A` in the long form is behind `B`. The name below it hangs off `A` in the
short form although its own prefix is present; with `B` in between, it has no parent at all. -/
theorem parent_of_long_form :
    ¬(insertAll [[longFormA,wireB],[shortFormA],[longFormA]]).WellFormed ∧
      (insertAll [[wireB],[longFormA,wireB],[shortFormA]]).find [shortFormA] = some 2 ∧
      toName [shortFormA] <+: toName [longFormA,wireB] ∧
      ((insertAll [[wireB],[longFormA,wireB],[shortFormA]]).entryAt [longFormA,wireB]).map
        RibEntry.parent = some none := by
  refine ⟨fun h => ?_,by decide +kernel⟩
  have hfind :
      (insertAll [[longFormA,wireB],[shortFormA],[longFormA]]).find [longFormA,wireB] = some 0 ∧
      (insertAll [[longFormA,wireB],[shortFormA],[longFormA]]).find [shortFormA] = some 1 ∧
      ((insertAll [[longFormA,wireB],[shortFormA],[longFormA]]).heap 0).parent = some 1 ∧
      ¬[shortFormA] <+: [longFormA,wireB] := by
    decide +kernel
  obtain ⟨m,hm,hlongest⟩ := (h.parent _ 0 hfind.1 1).mp hfind.2.2.1
  rw [h.find_inj hm hfind.2.1] at hlongest
  exact hfind.2.2.2 hlongest.2.1

end LongForms

end Rib

end KiteNdn.Routing
