import KiteNdn.Framework.OrderedMap
import KiteNdn.Framework.Run
import KiteNdn.Name.Wire

/-!
# In-memory storage

Packets in the order of their full names, with a pool of free entries. The capacity is never set
below its initial value, which may be more than the limit. The entry to evict is the choice of a
derived class.
-/

namespace KiteNdn.Table

open Framework List Option

structure InMemoryStorageEntry (κ : Type := Component) [NameComponent κ] where
  data : Data κ
  isFresh : Bool := true
  digested : data.digest.length = 32
  digest : κ
  encode_eq : NameComponent.encode ⟨Component.implicitSha256Digest,data.digest⟩ = some digest

variable {κ : Type} [NameComponent κ] {e : InMemoryStorageEntry κ} {es : List (InMemoryStorageEntry κ)}

namespace InMemoryStorageEntry

def getFullName (e : InMemoryStorageEntry κ) : List κ := e.data.name ++ [e.digest]

theorem toName_getFullName (e : InMemoryStorageEntry κ) :
    toName e.getFullName = e.data.getFullName := by
  rw [getFullName,toName_concat,NameComponent.toComponent_of_encode e.encode_eq]
  rfl

end InMemoryStorageEntry

structure InMemoryStorage (κ : Type := Component) [NameComponent κ] where
  cache : OrderedMap (List κ) (InMemoryStorageEntry κ) := .empty
  keyed : ∀ x ∈ cache.entries, x.1 = x.2.getFullName := by exact fun _ h => nomatch h
  limit : Nat
  capacity : Nat
  nPackets : Nat := 0
  nFree : Nat

namespace InMemoryStorage

def initCapacity : Nat := 16

def new (limit : Nat) : InMemoryStorage κ :=
  { limit, capacity := min initCapacity limit, nFree := min initCapacity limit }

def isFull (s : InMemoryStorage κ) : Bool := s.nPackets ≥ s.capacity

def freeEntry (s : InMemoryStorage κ) (fullName : List κ) : InMemoryStorage κ :=
  if (s.cache.find? fullName).isSome then { s with
    cache := s.cache.erase fullName
    keyed := fun x hx => s.keyed x ((s.cache.mem_erase fullName x).mp hx).1
    nPackets := s.nPackets - 1
    nFree := s.nFree + 1 }
  else s

/-- What a derived class evicts from entries with these names. -/
abbrev Pick (κ : Type := Component) := List (List κ) → Nat

def evictItem (pick : Pick κ) (s : InMemoryStorage κ) : InMemoryStorage κ :=
  let names := s.cache.entries.map Prod.fst
  match names[pick names % names.length]? with
  | some name => s.freeEntry name
  | none => s

def resize (oldCapacity : Nat) (s : InMemoryStorage κ) : Option (InMemoryStorage κ) :=
  if oldCapacity ≤ s.capacity then
    let s := { s with nFree := s.nFree + (s.capacity - oldCapacity) }
    if s.nPackets + s.nFree = s.capacity then some s else none
  else if oldCapacity - s.capacity ≤ s.nFree then
    let s := { s with nFree := s.nFree - (oldCapacity - s.capacity) }
    if s.nPackets + s.nFree = s.capacity then some s else none
  else none

/-- With such a policy the loop evicts an entry each time. -/
def setCapacity (pick : Pick κ) (capacity : Nat) (s : InMemoryStorage κ) :
    Option (InMemoryStorage κ) :=
  let newCapacity := max capacity initCapacity
  resize s.capacity
    ((evictItem pick)^[s.nPackets - newCapacity] { s with capacity := newCapacity })

theorem keyed_insert (s : InMemoryStorage κ) (e : InMemoryStorageEntry κ) :
    ∀ x ∈ (s.cache.insert e.getFullName e).entries, x.1 = x.2.getFullName := by
  intro x hx
  rcases (s.cache.mem_insert _ e x).mp hx with rfl | ⟨hx,_⟩
  · rfl
  · exact s.keyed x hx

def store (e : InMemoryStorageEntry κ) (s : InMemoryStorage κ) : Option (InMemoryStorage κ) :=
  if 0 < s.nFree then some { s with
    cache := s.cache.insert e.getFullName e
    keyed := keyed_insert s e
    nPackets := s.nPackets + 1
    nFree := s.nFree - 1 }
  else none

def insert (pick : Pick κ) (e : InMemoryStorageEntry κ) (s : InMemoryStorage κ) :
    Option (InMemoryStorage κ) :=
  if (s.cache.find? e.getFullName).isSome then some s
  else
    let doesReachLimit : Bool := s.limit = s.capacity
    let grown := if s.isFull && !doesReachLimit then
        s.setCapacity pick (min (2 * s.capacity) s.limit) else some s
    grown.bind fun s => store e (if s.isFull && doesReachLimit then s.evictItem pick else s)

def shrink (pick : Pick κ) (s : InMemoryStorage κ) : Option (InMemoryStorage κ) :=
  if s.nFree > 2 * s.nPackets then s.setCapacity pick (s.capacity / 2) else some s

def erase (pick : Pick κ) (pfx : List κ) (isPrefix : Bool) (s : InMemoryStorage κ) :
    Option (InMemoryStorage κ) :=
  if isPrefix then
    let range := (s.cache.entries.drop (s.cache.lowerBound pfx)).takeWhile fun x =>
      (toName pfx).isPrefixOf (toName x.2.data.name)
    shrink pick (range.foldl (fun s x => s.freeEntry x.1) s)
  else if (s.cache.find? pfx).isSome then shrink pick (s.freeEntry pfx)
  else some s

section Capacity

variable {s : InMemoryStorage κ} (pick : Pick κ)

structure Balanced (s : InMemoryStorage κ) : Prop where
  count : s.nPackets = s.cache.entries.length
  free : s.nPackets + s.nFree = s.capacity

/-- The same storage with other entries. -/
structure Keeps (s s' : InMemoryStorage κ) : Prop where
  limit : s'.limit = s.limit
  capacity : s'.capacity = s.capacity

theorem Balanced.freeEntry (h : s.Balanced) (fullName : List κ) :
    (s.freeEntry fullName).Balanced ∧ s.Keeps (s.freeEntry fullName) := by
  unfold InMemoryStorage.freeEntry
  split_ifs with hfound
  · obtain ⟨e,he⟩ := isSome_iff_exists.mp hfound
    have hlen := (s.cache.erase_perm he).length_eq
    have hcount := h.count
    have hfree := h.free
    rw [length_cons] at hlen
    refine ⟨⟨?_,?_⟩,rfl,rfl⟩ <;> dsimp only <;> omega
  · exact ⟨h,rfl,rfl⟩

theorem Balanced.evictItem (h : s.Balanced) (hpos : 0 < s.nPackets) :
    (s.evictItem pick).Balanced ∧ s.Keeps (s.evictItem pick) ∧
      (s.evictItem pick).nPackets < s.nPackets ∧
      ∀ x ∈ (s.evictItem pick).cache.entries, x ∈ s.cache.entries := by
  have hlen : pick (s.cache.entries.map Prod.fst) % (s.cache.entries.map Prod.fst).length <
      (s.cache.entries.map Prod.fst).length := by
    apply Nat.mod_lt
    rw [length_map,← h.count]
    exact hpos
  unfold InMemoryStorage.evictItem
  dsimp only
  rw [getElem?_eq_getElem hlen]
  obtain ⟨x,hx,hkey⟩ := mem_map.mp (getElem_mem hlen)
  rw [← hkey]
  refine ⟨(h.freeEntry _).1,(h.freeEntry _).2,?_,?_⟩
  · have hfound := (s.cache.find?_eq_some x.1 x.2).mpr hx
    simp only [InMemoryStorage.freeEntry,hfound,isSome_some,if_true]
    omega
  · intro y hy
    dsimp only at hy
    unfold InMemoryStorage.freeEntry at hy
    split_ifs at hy
    · exact ((s.cache.mem_erase _ y).mp hy).1
    · exact hy

theorem Balanced.setCapacity (h : s.Balanced) {capacity : Nat}
    (hroom : s.nPackets ≤ max capacity initCapacity) :
    ∃ s', s.setCapacity pick capacity = some s' ∧ s'.Balanced ∧ s'.limit = s.limit ∧
      s'.capacity = max capacity initCapacity ∧ s'.nPackets = s.nPackets ∧ s'.cache = s.cache := by
  have hfree := h.free
  unfold InMemoryStorage.setCapacity
  dsimp only
  rw [Nat.sub_eq_zero_of_le hroom,Function.iterate_zero,id]
  unfold resize
  dsimp only
  split_ifs <;> first | omega | exact ⟨_,rfl,⟨h.count,by assumption⟩,rfl,rfl,rfl,rfl⟩

/-- The capacity is between its initial value and the limit. -/
structure Bounded (s : InMemoryStorage κ) : Prop extends s.Balanced where
  initial : initCapacity ≤ s.capacity
  limited : s.capacity ≤ s.limit

theorem Bounded.store (h : s.Bounded) (hpos : 0 < s.nFree)
    (hnone : s.cache.find? e.getFullName = none) :
    ∃ s', s.store e = some s' ∧ s'.Bounded ∧ s'.limit = s.limit ∧
      s'.cache.find? e.getFullName = some e := by
  have hlen := (s.cache.insert_perm e hnone).length_eq
  have hcount := h.count
  have hfree := h.free
  rw [length_cons] at hlen
  rw [InMemoryStorage.store,if_pos hpos]
  refine ⟨_,rfl,⟨⟨?_,?_⟩,h.initial,h.limited⟩,rfl,by simp [OrderedMap.find?_insert]⟩ <;>
    dsimp only <;> omega

theorem Bounded.exists_room (h : s.Bounded) (hnone : s.cache.find? e.getFullName = none) :
    ∃ t : InMemoryStorage κ, s.insert pick e = t.store e ∧ t.Bounded ∧ 0 < t.nFree ∧ t.limit = s.limit ∧
      t.cache.find? e.getFullName = none := by
  have hfree := h.free
  have hinit := h.initial
  have hlimit := h.limited
  have hpos : 0 < initCapacity := by decide
  unfold InMemoryStorage.insert
  rw [hnone]
  by_cases hfull : s.capacity ≤ s.nPackets
  · by_cases hreach : s.limit = s.capacity
    · obtain ⟨hbalanced,hkeeps,hlt,hsub⟩ := h.evictItem pick (by omega)
      have hroom := hbalanced.free
      rw [hkeeps.capacity] at hroom
      refine ⟨s.evictItem pick,by simp [isFull,hfull,hreach],
        ⟨hbalanced,hkeeps.capacity ▸ hinit,hkeeps.capacity ▸ hkeeps.limit ▸ hlimit⟩,by omega,
        hkeeps.limit,?_⟩
      rw [OrderedMap.find?_eq_none] at hnone ⊢
      exact fun x hx => hnone x (hsub x hx)
    · obtain ⟨t,ht,hb,hl,hc,hn,hcache⟩ :=
        h.setCapacity pick (show s.nPackets ≤ max (min (2 * s.capacity) s.limit) initCapacity by omega)
      have hroom := hb.free
      exact ⟨t,by simp [isFull,hfull,hreach,ht],⟨hb,by omega,by omega⟩,by omega,hl,hcache ▸ hnone⟩
  · exact ⟨s,by simp [isFull,hfull],h,by omega,rfl,hnone⟩

theorem Bounded.insert (h : s.Bounded) (e : InMemoryStorageEntry κ) :
    ∃ s', s.insert pick e = some s' ∧ s'.Bounded ∧ s'.limit = s.limit ∧
      (s'.cache.find? e.getFullName).isSome = true := by
  cases hfound : s.cache.find? e.getFullName with
  | some f => exact ⟨s,by simp [InMemoryStorage.insert,hfound],h,rfl,by simp [hfound]⟩
  | none =>
    obtain ⟨t,ht,hb,hpos,hl,hnone⟩ := h.exists_room pick hfound
    obtain ⟨s',hs',hb',hl',hf⟩ := hb.store hpos hnone
    exact ⟨s',ht.trans hs',hb',hl'.trans hl,by simp [hf]⟩

theorem Bounded.shrink (h : s.Bounded) {t : InMemoryStorage κ} (ht : t.Balanced) (hkeeps : s.Keeps t) :
    ∃ s', t.shrink pick = some s' ∧ s'.Bounded ∧ s'.limit = s.limit := by
  have hsum := ht.free
  have hinit := h.initial
  have hlimit := h.limited
  have hl := hkeeps.limit
  have hc := hkeeps.capacity
  unfold InMemoryStorage.shrink
  split_ifs
  · obtain ⟨s',hs',hb,hl',hc',_⟩ :=
      ht.setCapacity pick (show t.nPackets ≤ max (t.capacity / 2) initCapacity by omega)
    exact ⟨s',hs',⟨hb,by omega,by omega⟩,hl'.trans hl⟩
  · exact ⟨t,rfl,⟨ht,by omega,by omega⟩,hl⟩

theorem Bounded.erase (h : s.Bounded) (pfx : List κ) (isPrefix : Bool) :
    ∃ s', s.erase pick pfx isPrefix = some s' ∧ s'.Bounded ∧ s'.limit = s.limit := by
  have hstep : ∀ t (x : List κ × InMemoryStorageEntry κ), t.Balanced ∧ s.Keeps t →
      (t.freeEntry x.1).Balanced ∧ s.Keeps (t.freeEntry x.1) := by
    rintro t x ⟨ht,hkeeps⟩
    have hfreed := ht.freeEntry x.1
    exact ⟨hfreed.1,hfreed.2.limit.trans hkeeps.limit,hfreed.2.capacity.trans hkeeps.capacity⟩
  unfold InMemoryStorage.erase
  split_ifs
  · have hfreed := foldl_keeps (fun t => t.Balanced ∧ s.Keeps t) hstep
      ((s.cache.entries.drop (s.cache.lowerBound pfx)).takeWhile fun x =>
        (toName pfx).isPrefixOf (toName x.2.data.name)) ⟨h.toBalanced,rfl,rfl⟩
    exact h.shrink pick hfreed.1 hfreed.2
  · exact h.shrink pick (h.freeEntry pfx).1 (h.freeEntry pfx).2
  · exact ⟨s,rfl,h,rfl⟩

inductive Op (κ : Type := Component) [NameComponent κ] where
  | insert (pick : Pick κ) (e : InMemoryStorageEntry κ)
  | erase (pick : Pick κ) (pfx : List κ) (isPrefix : Bool)

def step (s : InMemoryStorage κ) : Op κ → Option (InMemoryStorage κ)
  | .insert pick e => s.insert pick e
  | .erase pick pfx isPrefix => s.erase pick pfx isPrefix

def run (limit : Nat) (ops : List (Op κ)) : Option (InMemoryStorage κ) := ops.foldlM step (new limit)

theorem exists_run {limit : Nat} (hlimit : initCapacity ≤ limit) (ops : List (Op κ)) :
    ∃ s, run limit ops = some s ∧ s.Bounded ∧ s.limit = limit := by
  have hnew : (new limit : InMemoryStorage κ).Bounded := by
    refine ⟨⟨rfl,Nat.zero_add _⟩,?_,?_⟩ <;> simp [new,hlimit]
  refine foldlM_invariant step (fun s => s.Bounded ∧ s.limit = limit) (fun _ _ => True) ?_ _
    ⟨hnew,rfl⟩ ops fun _ _ _ _ _ _ => trivial
  rintro s (⟨pick,e⟩ | ⟨pick,pfx,isPrefix⟩) ⟨h,hl⟩ _
  · obtain ⟨s',hs',hb,hl',_⟩ := h.insert pick e
    exact ⟨s',hs',hb,hl'.trans hl⟩
  · obtain ⟨s',hs',hb,hl'⟩ := h.erase pick pfx isPrefix
    exact ⟨s',hs',hb,hl'.trans hl⟩

private def packetA : InMemoryStorageEntry where
  data := { name := [], digest := replicate 32 0 }
  digested := rfl
  digest := _
  encode_eq := rfl

private def backAndForth : List Op :=
  [.insert (fun _ => 0) packetA,.erase (fun _ => 0) packetA.getFullName false]

private theorem capacity_backAndForth : ∀ limit : Fin 16, 1 ≤ limit.val →
    (run limit backAndForth).map capacity = some 16 := by
  decide +kernel

/-- Every history succeeds within the limit, and each packet is stored, if and only if the limit is
not below the initial capacity. -/
theorem run_bounded_iff (limit : Nat) (hlimit : 1 ≤ limit) :
    (∀ ops : List Op, ∃ s, run limit ops = some s ∧ s.nPackets ≤ limit ∧ s.capacity ≤ limit ∧
      s.nPackets + s.nFree = s.capacity ∧
      ∀ pick e, ∃ s', s.insert pick e = some s' ∧
        (s'.cache.find? e.getFullName).isSome = true) ↔ initCapacity ≤ limit := by
  constructor
  · intro h
    by_contra hlt
    obtain ⟨s,hs,_,hcapacity,_⟩ := h backAndForth
    have hgrown := capacity_backAndForth ⟨limit,not_le.mp hlt⟩ hlimit
    rw [hs] at hgrown
    have := some.inj hgrown
    have hinit : initCapacity = 16 := rfl
    omega
  · intro hle ops
    obtain ⟨s,hs,hb,hl⟩ := exists_run hle ops
    have hfree := hb.free
    have hlimited := hb.limited
    refine ⟨s,hs,by omega,by omega,hfree,fun pick e => ?_⟩
    obtain ⟨s',hs',_,_,hfound⟩ := hb.insert pick e
    exact ⟨s',hs',hfound⟩

theorem run_bounded_iff_sixteen : ∃ s, run 16 backAndForth = some s ∧ s.capacity ≤ 16 := by
  obtain ⟨s,hs,_,hcapacity,_⟩ := (run_bounded_iff 16 (by decide)).mpr le_rfl backAndForth
  exact ⟨s,hs,hcapacity⟩

/-- A packet comes and goes. -/
theorem capacity_exceeds_limit : ∃ s, run 4 backAndForth = some s ∧ s.limit = 4 ∧ s.capacity = 16 :=
  ⟨_,rfl,rfl,rfl⟩

end Capacity

section Lookup

variable (interest : Interest κ)

def scan : List (InMemoryStorageEntry κ) → Option (InMemoryStorageEntry κ)
  | [] => none
  | e :: es =>
    if interest.mustBeFresh && !e.isFresh then scan es
    else if (toName interest.name).isPrefixOf e.data.getFullName then
      if interest.matchesData e.data then some e else scan es
    else none

def findNextFresh (es : List (InMemoryStorageEntry κ)) : List (InMemoryStorageEntry κ) :=
  es.dropWhile fun e => !e.isFresh

/-- An iterator is the list of the entries from it on. -/
def selectChild (startingPoint : List (InMemoryStorageEntry κ)) : Option (InMemoryStorageEntry κ) :=
  match if interest.mustBeFresh then findNextFresh startingPoint else startingPoint with
  | [] => none
  | e :: es => if interest.matchesData e.data then some e else scan interest es

/-- `find(interest)`. An assertion that does not hold makes it fail. -/
def find (s : InMemoryStorage κ) : Option (Option (InMemoryStorageEntry κ)) :=
  match s.cache.find? interest.name with
  | some e => some (some e)
  | none =>
    let it := s.cache.lowerBound interest.name
    if it = s.cache.entries.length then some none
    else
      match s.cache.entries.drop (it - 1) with
      | [] => none
      | x :: rest =>
        if it - 1 ≠ 0 ∧ ¬x.1 < interest.name then none
        else some (selectChild interest ((x :: rest).map Prod.snd))

def Satisfies (e : InMemoryStorageEntry κ) : Prop :=
  interest.matchesData e.data = true ∧ (interest.mustBeFresh = true → e.isFresh = true)

instance (e : InMemoryStorageEntry κ) : Decidable (Satisfies interest e) :=
  inferInstanceAs (Decidable (_ ∧ _))

variable {interest} {s : InMemoryStorage κ} {e : InMemoryStorageEntry κ}

theorem isPrefix_of_matchesData {d : Data κ} (h : interest.matchesData d = true) :
    toName interest.name <+: d.getFullName := by
  unfold Interest.matchesData at h
  have hname := (Bool.and_eq_true_iff.mp h).1
  split_ifs at hname with hlen hprefix
  · rw [of_decide_eq_true (Bool.and_eq_true_iff.mp hname).2]
  · exact (List.isPrefixOf_iff_prefix.mp hname).trans (prefix_append _ _)
  · rw [of_decide_eq_true hname]
    exact prefix_append _ _

def values (s : InMemoryStorage κ) : List (InMemoryStorageEntry κ) := s.cache.entries.map Prod.snd

theorem sorted_values (s : InMemoryStorage κ) :
    s.values.Pairwise fun a b => a.getFullName < b.getFullName := by
  unfold values
  rw [pairwise_map]
  refine s.cache.sorted.imp_of_mem fun ha hb h => ?_
  rw [← s.keyed _ ha,← s.keyed _ hb]
  exact h

theorem satisfies_iff_of_getFullName (hname : interest.name = e.getFullName) : Satisfies interest e ↔
    (interest.mustBeFresh = true → e.isFresh = true ∧ 0 < e.data.freshnessPeriod) := by
  have hfull : toName interest.name = e.data.getFullName := hname ▸ e.toName_getFullName
  have hlength : interest.name.length = e.data.name.length + 1 := by
    rw [hname,InMemoryStorageEntry.getFullName,length_append,length_singleton]
  have hdigest := e.digested
  cases hfresh : interest.mustBeFresh <;>
    simp [Satisfies,Interest.matchesData,hfull,hlength,Data.getFullName,
      Component.isImplicitSha256Digest,hdigest,hfresh,and_comm]

end Lookup

section Completeness

variable {κ : Type} [CanonicalComponent κ] {interest : Interest κ} {s : InMemoryStorage κ}
  {e : InMemoryStorageEntry κ} {es : List (InMemoryStorageEntry κ)}

theorem prefix_getFullName_iff {n : List κ} :
    toName n <+: e.data.getFullName ↔ n <+: e.getFullName := by
  rw [← e.toName_getFullName,toName_prefix_iff]

theorem scan_eq_find? (hsorted : es.Pairwise fun a b => a.getFullName < b.getFullName)
    (hle : ∀ e ∈ es, interest.name ≤ e.getFullName) :
    scan interest es = es.find? fun e => Satisfies interest e := by
  induction es with
  | nil => rfl
  | cons e es ih =>
    obtain ⟨hlt,hsorted⟩ := pairwise_cons.mp hsorted
    obtain ⟨he,hle⟩ := forall_mem_cons.mp hle
    rw [scan,find?_cons,ih hsorted hle]
    split_ifs with hstale hprefix hmatch
    · rw [decide_eq_false (by simp_all [Satisfies])]
    · rw [decide_eq_true ⟨hmatch,by simpa using hstale⟩]
    · rw [decide_eq_false fun h => hmatch h.1]
    · -- behind an entry that is not below the name, none is
      have hnone : ∀ f ∈ e :: es, ¬Satisfies interest f := by
        intro f hf hsatisfies
        rw [List.isPrefixOf_iff_prefix,prefix_getFullName_iff] at hprefix
        refine hprefix (Name.prefix_of_between he ?_
          (prefix_getFullName_iff.mp (isPrefix_of_matchesData hsatisfies.1)))
        rcases mem_cons.mp hf with rfl | hf
        · exact le_rfl
        · exact (hlt f hf).le
      obtain ⟨hhead,htail⟩ := forall_mem_cons.mp hnone
      rw [decide_eq_false hhead,eq_comm,find?_eq_none]
      simpa using htail

theorem selectChild_eq_find?
    (hsorted : es.Pairwise fun a b => a.getFullName < b.getFullName)
    (hle : ∀ f ∈ es, interest.name ≤ f.getFullName) :
    selectChild interest (e :: es) = (e :: es).find? fun e => Satisfies interest e := by
  induction es generalizing e with
  | nil => cases hfresh : interest.mustBeFresh <;> cases he : e.isFresh <;>
      simp [selectChild,findNextFresh,scan,Satisfies,hfresh,he,find?_cons] <;> split <;> simp_all
  | cons f es ih =>
    by_cases hstale : interest.mustBeFresh = true ∧ e.isFresh = false
    · have hskip : selectChild interest (e :: f :: es) = selectChild interest (f :: es) := by
        simp [selectChild,findNextFresh,hstale]
      rw [hskip,ih (pairwise_cons.mp hsorted).2 (forall_mem_cons.mp hle).2,
        find?_cons (a := e),decide_eq_false (by simp [Satisfies,hstale])]
    · have hfirst : selectChild interest (e :: f :: es) =
          if interest.matchesData e.data then some e else scan interest (f :: es) := by
        cases hfresh : interest.mustBeFresh <;> cases he : e.isFresh <;>
          simp_all [selectChild,findNextFresh]
      rw [hfirst,scan_eq_find? hsorted hle,find?_cons (a := e)]
      split_ifs with hmatch
      · rw [decide_eq_true ⟨hmatch,by simpa using hstale⟩]
      · rw [decide_eq_false fun h => hmatch h.1]

theorem find_eq (hnone : s.cache.find? interest.name = none) :
    s.find interest = some (s.values.find? fun e => Satisfies interest e) := by
  have hbefore : ∀ x ∈ s.cache.entries, x.1 < interest.name → ¬Satisfies interest x.2 := by
    intro x hx hlt h
    rw [s.keyed x hx] at hlt
    exact Name.not_lt_of_extends (prefix_getFullName_iff.mp (isPrefix_of_matchesData h.1)) hlt
  unfold find
  rw [hnone]
  dsimp only
  have hlen : s.cache.lowerBound interest.name ≤ s.cache.entries.length := findIdx_le_length
  split_ifs with hend
  · have hall := s.cache.lt_of_getElem?_lowerBound (getElem?_eq_none hend.ge)
    rw [eq_comm,some_inj,find?_eq_none]
    simpa [values] using fun e name he => hbefore (name,e) he (hall _ he)
  · -- the search starts at the last entry before the name, if there is one
    generalize hi : s.cache.lowerBound interest.name - 1 = i
    have hlt : i < s.cache.entries.length := by omega
    have hfirst : i ≠ 0 → s.cache.entries[i].1 < interest.name := by
      intro hne
      apply s.cache.lt_of_mem_take_lowerBound
      exact mem_take_iff_getElem.mpr ⟨i,by omega,rfl⟩
    have hrest : ∀ e ∈ (s.cache.entries.drop (i + 1)).map Prod.snd,
        interest.name ≤ e.getFullName := by
      intro e he
      obtain ⟨x,hx,rfl⟩ := mem_map.mp he
      rw [← s.keyed x (mem_of_mem_drop hx)]
      exact s.cache.le_of_mem_drop_lowerBound (drop_subset_drop_left _ (by omega) hx)
    have hnot : ∀ e ∈ (s.cache.entries.take i).map Prod.snd, ¬Satisfies interest e := by
      intro e he
      obtain ⟨x,hx,rfl⟩ := mem_map.mp he
      exact hbefore x (mem_of_mem_take hx)
        (s.cache.lt_of_mem_take_lowerBound (take_subset_take_left _ (by omega) hx))
    have hvalues : s.values = (s.cache.entries.take i).map Prod.snd ++
        (s.cache.entries.drop i).map Prod.snd := by
      rw [← map_append,take_append_drop]
      rfl
    have hsorted := (pairwise_append.mp (hvalues ▸ s.sorted_values)).2.1
    rw [hvalues,find?_append,find?_eq_none.mpr (by simpa using hnot),Option.none_or]
    rw [drop_eq_getElem_cons hlt,map_cons] at hsorted ⊢
    dsimp only
    rw [if_neg (by tauto),map_cons]
    exact congrArg some (selectChild_eq_find? (pairwise_cons.mp hsorted).2 hrest)

end Completeness

/-- Names in the shortest form. A lookup succeeds, and what it finds satisfies the Interest, and
nothing does if it finds nothing, if and only if no stored packet with the full name of the Interest
is stale against `MustBeFresh`. -/
theorem find_satisfies_iff (s : InMemoryStorage ShortestComponent)
    (interest : Interest ShortestComponent) :
    ∃ r, s.find interest = some r ∧
      ((match r with
        | some e => e ∈ s.values ∧ Satisfies interest e
        | none => ∀ e ∈ s.values, ¬Satisfies interest e) ↔
      ∀ e ∈ s.values, e.data.getFullName = toName interest.name → interest.mustBeFresh = true →
        e.isFresh = true ∧ 0 < e.data.freshnessPeriod) := by
  have hsame : ∀ e : InMemoryStorageEntry ShortestComponent,
      e.data.getFullName = toName interest.name → e.getFullName = interest.name := by
    intro e h
    rw [← e.toName_getFullName] at h
    exact toName_inj.mp h
  cases hfind : s.cache.find? interest.name with
  | some e =>
    have hmem := (s.cache.find?_eq_some _ e).mp hfind
    have hname : interest.name = e.getFullName := s.keyed _ hmem
    refine ⟨some e,by simp [find,hfind],?_⟩
    constructor
    · intro h f hf hfull
      obtain ⟨x,hx,rfl⟩ := mem_map.mp hf
      have hkey : x.1 = interest.name := (s.keyed x hx).trans (hsame _ hfull)
      have heq := s.cache.mem_entries_unique (hkey ▸ hx : (interest.name,x.2) ∈ _) hmem
      exact heq ▸ (satisfies_iff_of_getFullName hname).mp h.2
    · intro h
      have hvalue : e ∈ s.values := mem_map.mpr ⟨_,hmem,rfl⟩
      refine ⟨hvalue,(satisfies_iff_of_getFullName hname).mpr (h e hvalue ?_)⟩
      rw [hname,e.toName_getFullName]
  | none =>
    refine ⟨_,find_eq hfind,iff_of_true ?_ ?_⟩
    · split
      · rename_i e he
        exact ⟨mem_of_find?_eq_some he,by simpa using find?_some he⟩
      · rename_i he
        simpa using find?_eq_none.mp he
    · intro e he hfull
      obtain ⟨x,hx,rfl⟩ := mem_map.mp he
      exact absurd ((s.keyed x hx).trans (hsame _ hfull)) ((s.cache.find?_eq_none _).mp hfind x hx)

private def single (e : InMemoryStorageEntry κ) : InMemoryStorage κ where
  cache := OrderedMap.empty.insert e.getFullName e
  keyed := keyed_insert (new 16) e
  limit := 16
  capacity := 16
  nPackets := 1
  nFree := 15

private def packetShortA : InMemoryStorageEntry WireComponent where
  data := { name := [shortFormA], digest := replicate 32 0 }
  digested := rfl
  digest := _
  encode_eq := rfl

/-- An Interest with the full name of a stale packet, and an Interest with the name of a packet, but
with the type of the component in three octets. -/
theorem find_fails :
    (∃ e, (single { packetA with isFresh := false }).find
      { name := packetA.getFullName, mustBeFresh := true, nonce := [] } = some (some e) ∧
        e.isFresh = false) ∧
    Satisfies { name := [longFormA], nonce := [] } packetShortA ∧
    (single packetShortA).find { name := [longFormA], nonce := [] } = some none := by
  exact ⟨⟨_,rfl,rfl⟩,by decide +kernel,rfl⟩

end InMemoryStorage

end KiteNdn.Table
