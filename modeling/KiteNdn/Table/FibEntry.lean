import KiteNdn.Framework.KeyedList
import KiteNdn.Fw.Packet

/-!
# FIB entries

An entry keeps its nexthops ordered by cost. A nexthop is added at the end of the list, which is
then sorted; the place where it was added is what the FIB hands to the subscribers of its signal.
-/

namespace KiteNdn.Table

open List

structure NextHop where
  face : FaceId
  cost : Nat := 0
  deriving DecidableEq, Repr

def NextHop.setCost (h : NextHop) (cost : Nat) : NextHop := { h with cost := cost }

/-- `std::sort` by cost. It is not stable, so nothing is said about nexthops of equal cost. -/
structure CostSort where
  sort : List NextHop → List NextHop
  perm : ∀ hops, (sort hops).Perm hops
  sorted : ∀ hops, (sort hops).Pairwise fun a b => a.cost ≤ b.cost

def findNextHop (hops : List NextHop) (face : FaceId) : Nat :=
  hops.findIdx fun h => h.face = face

def setNextHop (hops : List NextHop) (face : FaceId) (cost : Nat) : List NextHop :=
  let it := findNextHop hops face
  let hops := if it = hops.length then hops ++ [{ face := face }] else hops
  hops.modify it fun h => h.setCost cost

section NextHops

variable {hops : List NextHop} {face : FaceId} {cost : Nat}

theorem findNextHop_eq_length :
    findNextHop hops face = hops.length ↔ face ∉ hops.map NextHop.face := by
  simp [findNextHop,findIdx_eq_length]

theorem setNextHop_of_new (h : face ∉ hops.map NextHop.face) :
    setNextHop hops face cost = hops ++ [⟨face,cost⟩] := by
  have hit := findNextHop_eq_length.mpr h
  unfold setNextHop
  simp only [hit,if_true]
  apply ext_getElem?
  intro i
  rw [getElem?_modify]
  rcases lt_trichotomy i hops.length with hi | rfl | hi
  · simp [getElem?_append_left hi,hi.ne']
  · simp [NextHop.setCost]
  · have hnone : ∀ hop : NextHop, (hops ++ [hop])[i]? = none := fun hop =>
      getElem?_eq_none (by rw [length_append]; exact hi)
    rw [hnone,hnone]
    rfl

private theorem map_face_setNextHop_of_old (h : face ∈ hops.map NextHop.face) :
    (setNextHop hops face cost).map NextHop.face = hops.map NextHop.face := by
  have hit : findNextHop hops face ≠ hops.length := fun h' => findNextHop_eq_length.mp h' h
  unfold setNextHop
  simp only [hit,if_false]
  apply ext_getElem?
  intro i
  rw [getElem?_map,getElem?_modify,getElem?_map]
  cases hops[i]? with
  | none => rfl
  | some x =>
    simp only [Option.map_eq_map,Option.map_some]
    split <;> rfl

theorem nodup_setNextHop (h : (hops.map NextHop.face).Nodup) :
    ((setNextHop hops face cost).map NextHop.face).Nodup := by
  by_cases hold : face ∈ hops.map NextHop.face
  · rw [map_face_setNextHop_of_old hold]
    exact h
  · rw [setNextHop_of_new hold,map_append]
    rw [nodup_append]
    refine ⟨h,by simp,?_⟩
    intro a ha b hb hab
    apply hold
    rw [map_singleton,mem_singleton] at hb
    rwa [hab,hb] at ha

end NextHops

structure FibEntry where
  getPrefix : Name
  nextHops : List NextHop
  sorted : nextHops.Pairwise fun a b => a.cost ≤ b.cost
  unique : (nextHops.map NextHop.face).Nodup
  deriving DecidableEq, Repr

namespace FibEntry

def hasNextHop (e : FibEntry) (face : FaceId) : Bool :=
  findNextHop e.nextHops face ≠ e.nextHops.length

/-- The entry, the iterator to the nexthop that was set and whether it was added. The iterator is
taken before the list is sorted. -/
def addOrUpdateNextHop (s : CostSort) (e : FibEntry) (face : FaceId) (cost : Nat) :
    FibEntry × Nat × Bool :=
  let it := findNextHop e.nextHops face
  let nextHops := setNextHop e.nextHops face cost
  ({ getPrefix := e.getPrefix
     nextHops := s.sort nextHops
     sorted := s.sorted nextHops
     unique := (((s.perm nextHops).map NextHop.face).nodup_iff).mpr (nodup_setNextHop e.unique) },
    it, it = e.nextHops.length)

variable {e : FibEntry} {face : FaceId}

theorem hasNextHop_eq_false : e.hasNextHop face = false ↔ face ∉ e.nextHops.map NextHop.face := by
  rw [hasNextHop,decide_eq_false_iff_not,not_not,findNextHop_eq_length]

theorem nextHops_addOrUpdateNextHop (s : CostSort) (cost : Nat) (h : e.hasNextHop face = false) :
    (addOrUpdateNextHop s e face cost).1.nextHops = s.sort (e.nextHops ++ [⟨face,cost⟩]) := by
  rw [← setNextHop_of_new (hasNextHop_eq_false.mp h)]
  rfl

end FibEntry

/-- The signal carries the prefix and what the iterator designates in the sorted list. -/
def Fib.addOrUpdateNextHop (s : CostSort) (entry : FibEntry) (face : FaceId) (cost : Nat) :
    FibEntry × List (Name × NextHop) :=
  let (entry,it,isNew) := entry.addOrUpdateNextHop s face cost
  (entry, if isNew then (entry.nextHops[it]?.map fun h => (entry.getPrefix,h)).toList else [])

namespace Fib

variable {s : CostSort} {e : FibEntry} {face : FaceId} {cost : Nat}

private theorem getElem?_sort (hops : List NextHop) (new : NextHop) :
    (s.sort (hops ++ [new]))[hops.length]? = (s.sort (hops ++ [new])).getLast? := by
  have hlen := (s.perm (hops ++ [new])).length_eq
  rw [length_append,length_singleton] at hlen
  rw [getLast?_eq_getElem?,hlen]
  rfl

private theorem exists_getLast (s : CostSort) (hops : List NextHop) (new : NextHop) :
    ∃ h, (s.sort (hops ++ [new])).getLast? = some h ∧ h ∈ hops ++ [new] := by
  have hne : s.sort (hops ++ [new]) ≠ [] := by
    intro h
    have := (s.perm (hops ++ [new])).length_eq
    simp [h] at this
  refine ⟨_,getLast?_eq_getLast_of_ne_nil hne,?_⟩
  exact (s.perm _).subset (getLast_mem hne)

private theorem notification (h : e.hasNextHop face = false) :
    (addOrUpdateNextHop s e face cost).2 =
      ((s.sort (e.nextHops ++ [⟨face,cost⟩])).getLast?.map fun h => (e.getPrefix,h)).toList := by
  have hit : findNextHop e.nextHops face = e.nextHops.length :=
    findNextHop_eq_length.mpr (FibEntry.hasNextHop_eq_false.mp h)
  have hhops := FibEntry.nextHops_addOrUpdateNextHop s cost h
  unfold addOrUpdateNextHop
  rw [← getElem?_sort]
  simp only [hhops]
  simp [FibEntry.addOrUpdateNextHop,hit]

variable {hops : List NextHop}

private theorem cost_le_getLast {h x : NextHop}
    (hlast : (s.sort hops).getLast? = some h) (hx : x ∈ hops) : x.cost ≤ h.cost := by
  obtain ⟨init,hinit⟩ := getLast?_eq_some_iff.mp hlast
  have hsorted := s.sorted hops
  have hmem := (s.perm hops).symm.subset hx
  rw [hinit] at hsorted hmem
  rcases mem_append.mp hmem with hm | hm
  · exact (pairwise_append.mp hsorted).2.2 x hm h (mem_singleton_self h)
  · rw [mem_singleton.mp hm]

private def before (face : FaceId) (a b : NextHop) : Bool :=
  a.cost < b.cost || (a.cost = b.cost && (a.face = face || b.face ≠ face))

private theorem before_trans (face : FaceId) (a b c : NextHop) (hab : before face a b)
    (hbc : before face b c) : before face a c := by
  simp only [before,Bool.or_eq_true,Bool.and_eq_true,decide_eq_true_eq] at hab hbc ⊢
  grind

private theorem before_total (face : FaceId) (a b : NextHop) : before face a b || before face b a := by
  simp only [before,Bool.or_eq_true,Bool.and_eq_true,decide_eq_true_eq]
  grind

private theorem pairwise_before (face : FaceId) (hops : List NextHop) :
    (hops.mergeSort (before face)).Pairwise fun a b => before face a b :=
  pairwise_mergeSort (before_trans face) (before_total face) hops

private def sortBefore (face : FaceId) : CostSort where
  sort := fun hops => hops.mergeSort (before face)
  perm := fun hops => mergeSort_perm hops _
  sorted := by
    intro hops
    apply (pairwise_before face hops).imp
    intro a b h
    simp only [before,Bool.or_eq_true,Bool.and_eq_true,decide_eq_true_eq] at h
    omega

private theorem lt_of_sortBefore_last {h x : NextHop}
    (hlast : ((sortBefore h.face).sort hops).getLast? = some h) (hx : x ∈ hops)
    (hface : x.face ≠ h.face) : x.cost < h.cost := by
  obtain ⟨init,hinit⟩ := getLast?_eq_some_iff.mp hlast
  have hsorted := pairwise_before h.face hops
  have hmem := ((sortBefore h.face).perm hops).symm.subset hx
  change hops.mergeSort (before h.face) = init ++ [h] at hinit
  change x ∈ hops.mergeSort (before h.face) at hmem
  rw [hinit] at hsorted hmem
  rcases mem_append.mp hmem with hm | hm
  · have hb := (pairwise_append.mp hsorted).2.2 x hm h (mem_singleton_self h)
    simpa [before,hface] using hb
  · rw [mem_singleton.mp hm] at hface
    exact absurd rfl hface

/-- Adding a nexthop keeps the list sorted with one nexthop for each face and is announced once.
What is announced is the new nexthop, however the list is sorted, exactly when every nexthop that
was there costs less. -/
theorem announces_new_iff (e : FibEntry) (face : FaceId) (cost : Nat)
    (hnew : e.hasNextHop face = false) :
    (∀ s, let (entry,announced) := addOrUpdateNextHop s e face cost
      entry.nextHops.Pairwise (fun a b => a.cost ≤ b.cost) ∧
      (entry.nextHops.map NextHop.face).Nodup ∧
      entry.nextHops.Perm (⟨face,cost⟩ :: e.nextHops) ∧ announced.length = 1) ∧
    ((∀ s, (addOrUpdateNextHop s e face cost).2 = [(e.getPrefix,⟨face,cost⟩)]) ↔
      ∀ h ∈ e.nextHops, h.cost < cost) := by
  refine ⟨?_,?_,?_⟩
  · intro s
    obtain ⟨h,hlast,-⟩ := exists_getLast s e.nextHops ⟨face,cost⟩
    have hhops := FibEntry.nextHops_addOrUpdateNextHop s cost hnew
    have hperm := (s.perm (e.nextHops ++ [⟨face,cost⟩])).trans (perm_append_singleton _ _)
    rw [← hhops] at hperm
    have hone : (addOrUpdateNextHop s e face cost).2.length = 1 := by
      rw [notification hnew,hlast]
      rfl
    exact ⟨FibEntry.sorted _,FibEntry.unique _,hperm,hone⟩
  · intro hall h hh
    have hlast := hall (sortBefore face)
    rw [notification hnew] at hlast
    obtain ⟨x,hx,-⟩ := exists_getLast (sortBefore face) e.nextHops ⟨face,cost⟩
    rw [hx] at hlast
    obtain rfl : x = ⟨face,cost⟩ := by simpa using hlast
    apply lt_of_sortBefore_last (h := ⟨face,cost⟩) hx (mem_append_left _ hh)
    intro heq
    apply FibEntry.hasNextHop_eq_false.mp hnew
    exact mem_map.mpr ⟨h,hh,heq⟩
  · intro hall s
    obtain ⟨x,hx,hmem⟩ := exists_getLast s e.nextHops ⟨face,cost⟩
    have hle := cost_le_getLast hx (mem_append_right _ (mem_singleton_self _))
    rw [notification hnew,hx]
    rcases mem_append.mp hmem with hm | hm
    · exact absurd (hall x hm) (Nat.not_lt.mpr hle)
    · rw [mem_singleton.mp hm]
      rfl

theorem announces_new_third :
    let e : FibEntry := ⟨[],[⟨1,10⟩,⟨2,20⟩],by decide,by decide⟩
    ∀ s, (addOrUpdateNextHop s e 3 30).2 = [([],⟨3,30⟩)] := by
  intro e
  exact (announces_new_iff e 3 30 (by decide)).2.mpr (by decide)

/-- A nexthop that is cheaper than the one of the entry: the old nexthop is announced. -/
theorem announces_old : ∃ (e : FibEntry) (face : FaceId) (cost : Nat), e.hasNextHop face = false ∧
      ∀ s, (addOrUpdateNextHop s e face cost).2 = [(e.getPrefix,⟨1,10⟩)] ∧
        (addOrUpdateNextHop s e face cost).2 ≠ [(e.getPrefix,⟨face,cost⟩)] := by
  refine ⟨⟨[],[⟨1,10⟩],by decide,by decide⟩,2,5,by decide,?_⟩
  intro s
  obtain ⟨x,hx,hmem⟩ := exists_getLast s [⟨1,10⟩] ⟨2,5⟩
  have hle := cost_le_getLast (x := ⟨1,10⟩) hx (by decide)
  rw [notification (by decide),hx]
  rcases mem_append.mp hmem with hm | hm
  · rw [mem_singleton.mp hm]
    exact ⟨rfl,by decide⟩
  · rw [mem_singleton.mp hm] at hle
    exact absurd hle (by decide)

end Fib

end KiteNdn.Table
