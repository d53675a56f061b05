import KiteNdn.Framework.Run
import KiteNdn.Rib.Structure

/-!
# The face index

`m_faceEntries` gets one pair for each inserted route and loses one pair when the last route on a
face goes. It lists each entry once per face as long as no entry gets a second route on a face.
-/

namespace KiteNdn.Routing.Rib

open Framework List Function Option

def HasRouteOn (rib : Rib) (f : FaceId) (p : EntryId) : Prop :=
  ∃ n, rib.find n = some p ∧ (rib.heap p).hasFaceId f = true

/-- Each entry of the table is listed exactly once under each face it has a route on, and nothing
else is listed. -/
structure IndexExact (rib : Rib) : Prop where
  once : ∀ f p, rib.HasRouteOn f p → rib.faceEntries.count (f,p) = 1
  only : ∀ f p, (f,p) ∈ rib.faceEntries → rib.HasRouteOn f p

/-- A new route of an existing entry is on a face that the entry has no route on. -/
def NewFace (rib : Rib) : RibOp → Prop
  | .insert pfx route => ∀ e, rib.entryAt pfx = some e → e.findRoute route = none →
      e.hasFaceId route.faceId = false
  | .erase _ _ => True

theorem emplaceFaceEntry_perm (index : List (FaceId × EntryId)) (f : FaceId) (p : EntryId) :
    (emplaceFaceEntry index f p).Perm ((f,p) :: index) := by
  unfold emplaceFaceEntry
  refine perm_middle.trans ?_
  rw [takeWhile_append_dropWhile]

variable {rib rib' : Rib} {pfx : Name} {route r : Route} {p : EntryId}

private theorem count_emplace (f g : FaceId) (p q : EntryId) :
    (emplaceFaceEntry rib.faceEntries f p).count (g,q) =
      rib.faceEntries.count (g,q) + if f = g ∧ p = q then 1 else 0 := by
  rw [(emplaceFaceEntry_perm rib.faceEntries f p).count_eq,count_cons]
  simp

private theorem indexExact_congr (h : rib.IndexExact) (hi : rib'.faceEntries = rib.faceEntries)
    (hr : ∀ g q, rib'.HasRouteOn g q ↔ rib.HasRouteOn g q) : rib'.IndexExact := by
  constructor
  · intro g q hq
    rw [hi]
    exact h.once g q ((hr g q).mp hq)
  · intro g q hm
    rw [hi] at hm
    exact (hr g q).mpr (h.only g q hm)

private theorem indexExact_emplace_iff {f : FaceId} (h : rib.IndexExact)
    (hi : rib'.faceEntries = emplaceFaceEntry rib.faceEntries f p)
    (hr : ∀ g q, rib'.HasRouteOn g q ↔ (f = g ∧ p = q) ∨ rib.HasRouteOn g q) :
    rib'.IndexExact ↔ ¬ rib.HasRouteOn f p := by
  constructor
  · intro h' hon
    have := h'.once f p ((hr f p).mpr (Or.inl ⟨rfl,rfl⟩))
    rw [hi,count_emplace,if_pos ⟨rfl,rfl⟩,h.once f p hon] at this
    exact absurd this (by decide)
  · intro hno
    constructor
    · intro g q hq
      rw [hi,count_emplace]
      by_cases hgq : f = g ∧ p = q
      · obtain ⟨rfl,rfl⟩ := hgq
        have hz : rib.faceEntries.count (f,p) = 0 :=
          count_eq_zero.mpr fun hm => hno (h.only f p hm)
        simp [hz]
      · rw [if_neg hgq,h.once g q (((hr g q).mp hq).resolve_left hgq)]
    · intro g q hm
      rw [hi,(emplaceFaceEntry_perm _ _ _).mem_iff,mem_cons] at hm
      rcases hm with he | hm
      · obtain ⟨rfl,rfl⟩ := Prod.mk.inj he
        exact (hr g q).mpr (Or.inl ⟨rfl,rfl⟩)
      · exact (hr g q).mpr (Or.inr (h.only g q hm))

private theorem hasRouteOn_insert_new (h : rib.Linked) (hf : rib.find pfx = none) (g : FaceId)
    (q : EntryId) : (rib.insert pfx route).HasRouteOn g q ↔
      (route.faceId = g ∧ rib.nextId = q) ∨ rib.HasRouteOn g q := by
  have hc := (insert_new_content hf route).routes
  have hon : ∀ x, ((rib.insert pfx route).heap x).hasFaceId g =
      (update rib.heap rib.nextId ((RibEntry.new pfx).insertRoute route).1 x).hasFaceId
        g := fun x => by rw [RibEntry.hasFaceId,RibEntry.hasFaceId,hc]
  simp only [HasRouteOn,find_insert_new hf,hon]
  constructor
  · rintro ⟨n,hn,hg⟩
    split_ifs at hn with hnp
    · cases hn
      rw [update_self] at hg
      left
      simpa [RibEntry.hasFaceId,RibEntry.insertRoute,RibEntry.findRoute,RibEntry.new] using hg
    · rw [update_of_ne (h.allocated n q hn).ne] at hg
      exact Or.inr ⟨n,hn,hg⟩
  · rintro (⟨rfl,rfl⟩ | ⟨n,hn,hg⟩)
    · refine ⟨pfx,if_pos rfl,?_⟩
      rw [update_self]
      simp [RibEntry.hasFaceId,RibEntry.insertRoute,RibEntry.findRoute,RibEntry.new]
    · have hnp : n ≠ pfx := fun e => by simp [e,hf] at hn
      refine ⟨n,by rw [if_neg hnp,hn],?_⟩
      rwa [update_of_ne (h.allocated n q hn).ne]

private theorem hasRouteOn_update {e : RibEntry} (hp : rib.find pfx = some p)
    (hh : rib'.heap = update rib.heap p e) (ht : rib'.table = rib.table) (g : FaceId)
    (q : EntryId) :
    rib'.HasRouteOn g q ↔ if q = p then e.hasFaceId g = true else rib.HasRouteOn g q := by
  have hf : ∀ n, rib'.find n = rib.find n := fun n => by rw [find,find,ht]
  simp only [HasRouteOn,hf,hh]
  by_cases hq : q = p
  · subst q
    rw [if_pos rfl,update_self]
    constructor
    · rintro ⟨_,_,hg⟩
      exact hg
    · exact fun hg => ⟨pfx,hp,hg⟩
  · rw [if_neg hq,update_of_ne hq]

private theorem hasRouteOn_self (hp : rib.find pfx = some p) (g : FaceId) :
    rib.HasRouteOn g p ↔ (rib.heap p).hasFaceId g = true :=
  ⟨fun ⟨_,_,hg⟩ => hg,fun hg => ⟨pfx,hp,hg⟩⟩

private theorem indexExact_insert_iff (hl : rib.Linked) (h : rib.IndexExact) (pfx : Name)
    (route : Route) :
    (rib.insert pfx route).IndexExact ↔ rib.NewFace (.insert pfx route) := by
  dsimp only [NewFace,entryAt]
  cases hp : rib.find pfx with
  | none =>
    have hno : ¬ rib.HasRouteOn route.faceId rib.nextId := fun ⟨n,hn,_⟩ =>
      (hl.allocated n _ hn).ne rfl
    simpa [hno] using indexExact_emplace_iff h (insert_new_fields hp route).2.2.1
      (hasRouteOn_insert_new hl hp)
  | some p =>
    simp only [map_some,some.injEq,forall_eq']
    cases hr : (rib.heap p).findRoute route with
    | none =>
      have hon := hasRouteOn_update (e := ((rib.heap p).insertRoute route).1) hp
        (congrArg heap (insert_append hp hr)) (by rw [insert_append hp hr])
      rw [indexExact_emplace_iff h (congrArg faceEntries (insert_append hp hr)),hasRouteOn_self hp]
      · simp
      · intro g q
        rw [hon]
        by_cases hq : q = p
        · subst q
          rw [if_pos rfl,hasRouteOn_self hp]
          simp only [RibEntry.insertRoute,hr,RibEntry.hasFaceId,any_append,
            any_cons,any_nil,Bool.or_false,Bool.or_eq_true,decide_eq_true_eq,
            and_true]
          exact or_comm
        · simp [hq,Ne.symm hq]
    | some r =>
      obtain ⟨l₁,l₂,hs,hroutes,_⟩ := RibEntry.findRoute_split hr
      have hface : r.faceId = route.faceId := congrArg Prod.fst (RibEntry.findRoute_some hr).2
      have hon : ∀ g q, (rib.insert pfx route).HasRouteOn g q ↔ rib.HasRouteOn g q := by
        intro g q
        rw [hasRouteOn_update hp (congrArg heap (insert_assign hp hr))
          (by rw [insert_assign hp hr])]
        by_cases hq : q = p
        · subst q
          rw [if_pos rfl,hasRouteOn_self hp]
          simp [RibEntry.hasFaceId,hroutes,hs,hface]
        · rw [if_neg hq]
      have hi : (rib.insert pfx route).faceEntries = rib.faceEntries := by
        rw [insert_assign hp hr]
      exact iff_of_true (indexExact_congr h hi hon) (fun hn => by simp at hn)

private theorem indexExact_drop {f : FaceId} (h : rib.IndexExact)
    (hi : rib'.faceEntries = rib.faceEntries.erase (f,p))
    (hr : ∀ g q, rib'.HasRouteOn g q ↔ rib.HasRouteOn g q ∧ (g,q) ≠ (f,p)) : rib'.IndexExact := by
  constructor
  · intro g q hq
    obtain ⟨hon,hne⟩ := (hr g q).mp hq
    rw [hi,count_erase_of_ne hne]
    exact h.once g q hon
  · intro g q hm
    rw [hi] at hm
    have hon := h.only g q (mem_of_mem_erase hm)
    refine (hr g q).mpr ⟨hon,fun he => ?_⟩
    have hone := h.once g q hon
    rw [← he] at hm
    have : 0 < (rib.faceEntries.erase (g,q)).count (g,q) := count_pos_iff.mpr hm
    rw [count_erase_self,hone] at this
    exact absurd this (by decide)

private theorem faces_before_erase (hr : (rib.heap p).findRoute route = some r) (g : FaceId) :
    (rib.heap p).hasFaceId g = true ↔
      g = route.faceId ∨ ((rib.heap p).eraseRoute route).1.hasFaceId g = true := by
  obtain ⟨l₁,l₂,hs,_,herase,_⟩ := RibEntry.findRoute_split hr
  have hf : r.faceId = route.faceId := congrArg Prod.fst (RibEntry.findRoute_some hr).2
  simp only [RibEntry.hasFaceId_iff,hs,herase,mem_append,mem_cons]
  constructor
  · rintro ⟨x,hx | rfl | hx,rfl⟩
    · exact Or.inr ⟨x,Or.inl hx,rfl⟩
    · exact Or.inl hf
    · exact Or.inr ⟨x,Or.inr hx,rfl⟩
  · rintro (rfl | ⟨x,hx | hx,rfl⟩)
    · exact ⟨r,Or.inr (Or.inl rfl),hf⟩
    · exact ⟨x,Or.inl hx,rfl⟩
    · exact ⟨x,Or.inr (Or.inr hx),rfl⟩

private theorem indexExact_dropRoute (hp : rib.find pfx = some p)
    (hr : (rib.heap p).findRoute route = some r) (h : rib.IndexExact) :
    (rib.dropRoute p route).IndexExact := by
  have hon : ∀ g q, (rib.dropRoute p route).HasRouteOn g q ↔ _ :=
    hasRouteOn_update (e := ((rib.heap p).eraseRoute route).1) hp rfl rfl
  have hold := faces_before_erase hr
  cases hg : ((rib.heap p).eraseRoute route).1.hasFaceId route.faceId with
  | false =>
    have hi : (rib.dropRoute p route).faceEntries = rib.faceEntries.erase (route.faceId,p) := by
      simp [dropRoute,hg]
    refine indexExact_drop h hi fun g q => ?_
    rw [hon]
    by_cases hq : q = p
    · subst q
      rw [if_pos rfl,hasRouteOn_self hp,hold]
      constructor
      · intro hg'
        refine ⟨Or.inr hg',fun he => ?_⟩
        rw [(Prod.mk.inj he).1,hg] at hg'
        exact absurd hg' (by simp)
      · rintro ⟨rfl | hg',hne⟩
        · exact absurd rfl hne
        · exact hg'
    · simp [hq]
  | true =>
    have hi : (rib.dropRoute p route).faceEntries = rib.faceEntries := by simp [dropRoute,hg]
    have hsame : ∀ g q, (rib.dropRoute p route).HasRouteOn g q ↔ rib.HasRouteOn g q := by
      intro g q
      rw [hon]
      by_cases hq : q = p
      · subst q
        rw [if_pos rfl,hasRouteOn_self hp,hold]
        refine ⟨Or.inr,?_⟩
        rintro (rfl | hg')
        · exact hg
        · exact hg'
      · rw [if_neg hq]
    exact indexExact_congr h hi hsame

private theorem indexExact_erase (h : rib.IndexExact) (pfx : Name)
    (route : Route) : (rib.erase pfx route).IndexExact := by
  cases hex : rib.findRoute pfx route with
  | none =>
    rw [erase_absent hex]
    exact h
  | some r =>
    obtain ⟨p,hp,hr⟩ := findRoute_eq_some.mp hex
    have hd := indexExact_dropRoute hp hr h
    rw [erase_present hp hr]
    split_ifs with he
    · have hempty : ∀ g, ¬ (rib.dropRoute p route).HasRouteOn g p := by
        rintro g ⟨_,_,hg⟩
        obtain ⟨x,hx,_⟩ := RibEntry.hasFaceId_iff.mp hg
        simp only [dropRoute,update_self] at hx
        rw [isEmpty_iff.mp he] at hx
        exact absurd hx (by simp)
      refine indexExact_congr hd rfl fun g q => ?_
      have hc : (((rib.dropRoute p route).eraseEntry pfx p).heap q).hasFaceId g =
          ((rib.dropRoute p route).heap q).hasFaceId g := by
        rw [RibEntry.hasFaceId,RibEntry.hasFaceId,eraseEntry_sameContent.routes]
      constructor
      · rintro ⟨n,hn,hg⟩
        rw [find_eraseEntry] at hn
        split_ifs at hn
        exact ⟨n,hn,hc ▸ hg⟩
      · rintro ⟨n,hn,hg⟩
        have hnp : n ≠ pfx := by
          rintro rfl
          obtain rfl := some.inj (hp.symm.trans hn)
          exact hempty g ⟨n,hn,hg⟩
        exact ⟨n,by rw [find_eraseEntry,if_neg hnp,hn],by rw [hc,hg]⟩
    · exact hd

theorem indexExact_apply_iff (hw : rib.WellFormed) (h : rib.IndexExact) (op : RibOp) :
    (rib.apply op).IndexExact ↔ rib.NewFace op := by
  cases op with
  | insert pfx route => exact indexExact_insert_iff hw.toLinked h pfx route
  | erase pfx route => exact iff_of_true (indexExact_erase h pfx route) trivial

private theorem indexExact_empty : Rib.empty.IndexExact :=
  ⟨fun _ _ ⟨_,hn,_⟩ => absurd hn (by simp [Rib.empty,find]),
    fun _ _ hm => absurd hm (by simp [Rib.empty])⟩

/-- Over a whole run the index stays exact exactly when no entry is given a second route on a
face. -/
theorem run_indexExact_iff (ops : List RibOp) :
    (∀ past future, ops = past ++ future → (Rib.empty.run past).IndexExact) ↔
      ∀ past op future, ops = past ++ op :: future → (Rib.empty.run past).NewFace op :=
  foldl_good_iff Rib.apply WellFormed IndexExact NewFace (fun _ op h => h.apply op)
    (fun _ op hw h => indexExact_apply_iff hw h op) Rib.empty WellFormed.empty
    indexExact_empty ops

/-- Two origins on one face list the entry twice, and one pair outlives the entry. -/
theorem second_origin_duplicates :
    let pfx : Name := [Component.generic [97]]
    let app : Route := { faceId := 1 }
    let ann : Route := { faceId := 1, origin := routeOriginPrefixAnn }
    let both := Rib.empty.run [.insert pfx app,.insert pfx ann]
    let gone := both.run [.erase pfx app,.erase pfx ann]
    both.faceEntries = [(1,0),(1,0)] ∧ gone.find pfx = none ∧ gone.faceEntries = [(1,0)] := by
  decide

end KiteNdn.Routing.Rib
