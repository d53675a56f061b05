import KiteNdn.Rib.Table

/-!
# The tree of RIB entries

Parent pointers name the entry at the longest proper prefix, and the child lists are the inverse of
that relation. Insertion and erasure of an entry keep both.
-/

namespace KiteNdn.Routing

open Framework Name List Function

variable {κ : Type} {p : EntryId} {n : List κ}

namespace Rib

section Links

variable [NameComponent κ]

def Present (rib : Rib κ) (n : List κ) : Prop := (rib.find n).isSome = true

/-- The parent and child pointers of the entries in the table. -/
structure Linked (rib : Rib κ) : Prop where
  named : ∀ n p, rib.find n = some p → (rib.heap p).name = n
  allocated : ∀ n p, rib.find n = some p → p < rib.nextId
  parent : ∀ n p, rib.find n = some p → ∀ q, (rib.heap p).parent = some q ↔
    ∃ m, rib.find m = some q ∧ IsLongestProperPrefix rib.Present m n
  children : ∀ n p, rib.find n = some p → ∀ c, c ∈ (rib.heap p).children ↔
    ∃ m, rib.find m = some c ∧ (rib.heap c).parent = some p
  nodup : ∀ n p, rib.find n = some p → (rib.heap p).children.Nodup

theorem present_of_find {rib : Rib κ} (h : rib.find n = some p) : rib.Present n := by
  simp [Present,h]

theorem findParent_eq_some (rib : Rib κ) (n : List κ) (q : EntryId) : rib.findParent n = some q ↔
      ∃ m, rib.find m = some q ∧ IsLongestProperPrefix rib.Present m n := by
  have hfind : ∀ l : List (List κ), l.findSome? rib.find =
      (l.find? fun m => (rib.find m).isSome).bind rib.find := by
    intro l
    induction l with
    | nil => rfl
    | cons a l ih =>
      rw [findSome?_cons,find?_cons]
      cases ha : rib.find a with
      | none => simpa [ha] using ih
      | some b => simp [ha]
  rw [findParent,hfind,Option.bind_eq_some_iff]
  constructor
  · rintro ⟨m,hm,hq⟩
    exact ⟨m,hq,(find?_properPrefixes _ m n).mp hm⟩
  · rintro ⟨m,hq,hm⟩
    exact ⟨m,(find?_properPrefixes _ m n).mpr hm,hq⟩

namespace Linked

variable {rib : Rib κ}

theorem find_inj (h : rib.Linked) {m : List κ} (hn : rib.find n = some p) (hm : rib.find m = some p) :
    n = m :=
  (h.named n p hn).symm.trans (h.named m p hm)

theorem parent_eq (h : rib.Linked) (hn : rib.find n = some p) :
    (rib.heap p).parent = rib.findParent n := by
  apply Option.ext
  intro q
  exact (h.parent n p hn q).trans (rib.findParent_eq_some n q).symm

theorem congr {rib' : Rib κ} (h : rib.Linked) (ht : rib'.table = rib.table)
    (hn : rib'.nextId = rib.nextId)
    (hh : ∀ x, (rib'.heap x).name = (rib.heap x).name ∧ (rib'.heap x).parent = (rib.heap x).parent ∧
      (rib'.heap x).children = (rib.heap x).children) : rib'.Linked := by
  have hf : ∀ n, rib'.find n = rib.find n := fun n => by rw [find,find,ht]
  have hp : rib'.Present = rib.Present := by
    funext n
    rw [Present,Present,hf]
  constructor
  · intro n p hm
    rw [hf] at hm
    rw [(hh p).1,h.named n p hm]
  · intro n p hm
    rw [hf] at hm
    rw [hn]
    exact h.allocated n p hm
  · intro n p hm q
    rw [hf] at hm
    rw [(hh p).2.1,hp,h.parent n p hm q]
    simp only [hf]
  · intro n p hm c
    rw [hf] at hm
    rw [(hh p).2.2,h.children n p hm c,(hh c).2.1]
    simp only [hf]
  · intro n p hm
    rw [hf] at hm
    rw [(hh p).2.2]
    exact h.nodup n p hm

end Linked

end Links

variable [CanonicalComponent κ]

theorem mem_findDescendants {rib : Rib κ} {pfx : List κ} (hp : rib.find pfx = some p) (c : EntryId) :
    c ∈ rib.findDescendants pfx ↔ ∃ n, rib.find n = some c ∧ pfx <+: n ∧ n ≠ pfx := by
  have hafter := rib.table.after_eq_filter hp
  have htake : (rib.table.after pfx).takeWhile (fun e => decide (toName pfx <+: toName e.1)) =
      (rib.table.after pfx).filter (fun e => decide (pfx <+: e.1)) := by
    simp only [toName_prefix_iff]
    apply OrderedMap.takeWhile_eq_filter
    rw [hafter]
    refine List.Pairwise.imp_of_mem ?_ (rib.table.sorted.filter _)
    intro a b ha _ hab hb
    have hlt : pfx < a.1 := by simpa using (mem_filter.mp ha).2
    simpa using prefix_of_between hlt.le hab.le (by simpa using hb)
  rw [findDescendants,hp]
  dsimp only
  rw [htake,hafter]
  simp only [mem_map,mem_filter,decide_eq_true_eq]
  constructor
  · rintro ⟨⟨n,x⟩,⟨⟨hm,hlt⟩,hpn⟩,rfl⟩
    exact ⟨n,(rib.table.find?_eq_some n x).mpr hm,hpn,hlt.ne'⟩
  · rintro ⟨n,hn,hpn,hne⟩
    exact ⟨(n,c),⟨⟨(rib.table.find?_eq_some n c).mp hn,lt_of_extends hpn hne.symm⟩,hpn⟩,rfl⟩

theorem findDescendants_nodup {rib : Rib κ} {pfx : List κ}
    (hinj : ∀ n m p, rib.find n = some p → rib.find m = some p → n = m) :
    (rib.findDescendants pfx).Nodup := by
  unfold findDescendants
  cases rib.find pfx with
  | none => exact nodup_nil
  | some _ =>
    have hsub : ((rib.table.after pfx).takeWhile fun e =>
        decide (toName pfx <+: toName e.1)).Sublist
        rib.table.entries :=
      (takeWhile_sublist _).trans
        ((tail_sublist _).trans (dropWhile_sublist _))
    refine List.Nodup.map_on ?_ (rib.table.nodup_entries.sublist hsub)
    rintro ⟨n,p⟩ hn ⟨m,q⟩ hm hpq
    obtain rfl : p = q := hpq
    have hn' := (rib.table.find?_eq_some n p).mpr (hsub.subset hn)
    have hm' := (rib.table.find?_eq_some m p).mpr (hsub.subset hm)
    rw [hinj n m p hn' hm']

section InsertEntry

variable {rib : Rib κ} {pfx : List κ} {entry : RibEntry κ}

private def allocate (rib : Rib κ) (pfx : List κ) (entry : RibEntry κ) : Rib κ :=
  { rib with
    heap := update rib.heap rib.nextId entry
    nextId := rib.nextId + 1
    table := rib.table.insert pfx rib.nextId
    nItems := rib.nItems + 1 }

private def linkParent (rib : Rib κ) (p : EntryId) (parent : Option EntryId) : Heap κ :=
  match parent with
  | some q => rib.heap.addChild q p
  | none => rib.heap

private theorem linkParent_eq (rib : Rib κ) (p : EntryId) (parent : Option EntryId) :
    linkParent rib p parent = rib.heap.moveChild none parent p := by
  cases parent <;> rfl

private def moved (rib : Rib κ) (pfx : List κ) (entry : RibEntry κ) : List EntryId :=
  adopted (linkParent (allocate rib pfx entry) rib.nextId (rib.findParent pfx))
    (rib.findParent pfx) ((allocate rib pfx entry).findDescendants pfx)

private def spliced (rib : Rib κ) (pfx : List κ) (entry : RibEntry κ) : Rib κ :=
  { allocate rib pfx entry with
    heap := ((allocate rib pfx entry).findDescendants pfx).foldl
      (adoptChild (rib.findParent pfx) rib.nextId)
      (linkParent (allocate rib pfx entry) rib.nextId (rib.findParent pfx)) }

private theorem allocate_find (n : List κ) :
    (allocate rib pfx entry).find n = if n = pfx then some rib.nextId else rib.find n := by
  change (rib.table.insert pfx rib.nextId).find? n = _
  rw [rib.table.find?_insert]
  by_cases hn : n = pfx <;> simp [hn,find]

private theorem allocate_present (hf : rib.find pfx = none) :
    (allocate rib pfx entry).Present = fun k => k = pfx ∨ rib.Present k := by
  funext k
  by_cases hk : k = pfx
  · simp [Present,allocate_find,hk,hf]
  · simp [Present,allocate_find,hk]

private theorem allocate_findParent_self (hf : rib.find pfx = none) :
    (allocate rib pfx entry).findParent pfx = rib.findParent pfx := by
  apply Option.ext
  intro q
  rw [findParent_eq_some,findParent_eq_some,allocate_present hf]
  constructor
  · rintro ⟨m,hm,hl⟩
    have hl' := longest_insert_self.mp hl
    rw [allocate_find,if_neg hl'.2.2.1] at hm
    exact ⟨m,hm,hl'⟩
  · rintro ⟨m,hm,hl⟩
    refine ⟨m,?_,longest_insert_self.mpr hl⟩
    rw [allocate_find,if_neg hl.2.2.1]
    exact hm

private theorem spliced_sameContent :
    Heap.SameContent (update rib.heap rib.nextId entry) (spliced rib pfx entry).heap := by
  rw [spliced,linkParent_eq]
  exact (Heap.moveChild_sameContent _ rib.nextId).trans
    (Heap.foldl_sameContent _ (adoptChild_sameContent _ _) _ _)

private theorem spliced_name (hn : entry.name = pfx) (x : EntryId) :
    ((spliced rib pfx entry).heap x).name =
      if x = rib.nextId then pfx else (rib.heap x).name := by
  rw [spliced_sameContent.name x]
  by_cases hx : x = rib.nextId <;> simp [hx,hn]

variable (h : rib.Linked) (hf : rib.find pfx = none)

include h

private theorem find_ne_nextId (hn : rib.find n = some p) :
    p ≠ rib.nextId := (h.allocated n p hn).ne

private theorem findParent_ne_nextId : rib.findParent n ≠ some rib.nextId := by
  intro hq
  obtain ⟨m,hm,_⟩ := (rib.findParent_eq_some n _).mp hq
  exact find_ne_nextId h hm rfl

private theorem linkParent_parent (hp : entry.parent = none) (x : EntryId) :
    (linkParent (allocate rib pfx entry) rib.nextId (rib.findParent pfx) x).parent =
      if x = rib.nextId then rib.findParent pfx else (rib.heap x).parent := by
  rw [linkParent_eq,Heap.moveChild_parent _ (by nofun) (findParent_ne_nextId h)]
  by_cases hx : x = rib.nextId
  · cases rib.findParent pfx <;> simp [allocate,hx,hp]
  · simp [allocate,hx]

private theorem linkParent_children (hc : entry.children = []) (x : EntryId) :
    (linkParent (allocate rib pfx entry) rib.nextId (rib.findParent pfx) x).children =
      if x = rib.nextId then []
      else if rib.findParent pfx = some x then (rib.heap x).children ++ [rib.nextId]
      else (rib.heap x).children := by
  rw [linkParent_eq,Heap.moveChild_children _ (by nofun) (findParent_ne_nextId h) (Or.inl rfl),
    if_neg nofun]
  by_cases hx : x = rib.nextId
  · rw [hx,if_neg (findParent_ne_nextId h)]
    simp [allocate,hc]
  · simp [allocate,hx]

private theorem allocate_inj (n m : List κ) (p : EntryId)
    (hn : (allocate rib pfx entry).find n = some p)
    (hm : (allocate rib pfx entry).find m = some p) : n = m := by
  rw [allocate_find] at hn hm
  split_ifs at hn hm with hn' hm' hm'
  · rw [hn',hm']
  · exact absurd (Option.some.inj hn).symm (find_ne_nextId h hm)
  · exact absurd (Option.some.inj hm).symm (find_ne_nextId h hn)
  · exact h.find_inj hn hm

private theorem spliced_nodup (hn : rib.find n = some p) :
    (if rib.findParent pfx = some p then
        ((rib.heap p).children ++ [rib.nextId]).filter (fun d => d ∉ moved rib pfx entry)
      else (rib.heap p).children).Nodup := by
  have hnew : rib.nextId ∉ (rib.heap p).children := fun hm => by
    obtain ⟨m,hm',_⟩ := (h.children n p hn _).mp hm
    exact find_ne_nextId h hm' rfl
  have hd := h.nodup n p hn
  split_ifs
  · exact (nodup_append.mpr ⟨hd,nodup_singleton _,by
      rintro a ha b hb rfl
      exact hnew (mem_singleton.mp hb ▸ ha)⟩).filter _
  · exact hd

include hf

omit h in
private theorem mem_allocated_descendants (c : EntryId) :
    c ∈ (allocate rib pfx entry).findDescendants pfx ↔
      ∃ n, rib.find n = some c ∧ pfx <+: n := by
  have hp : (allocate rib pfx entry).find pfx = some rib.nextId := by simp [allocate_find]
  rw [mem_findDescendants hp]
  constructor
  · rintro ⟨n,hn,hpn,hne⟩
    rw [allocate_find,if_neg hne] at hn
    exact ⟨n,hn,hpn⟩
  · rintro ⟨n,hn,hpn⟩
    have hne : n ≠ pfx := by
      rintro rfl
      rw [hf] at hn
      exact absurd hn (by simp)
    exact ⟨n,by rw [allocate_find,if_neg hne]; exact hn,hpn,hne⟩

theorem Linked.same_parent_iff_covers {c : EntryId} (hn : rib.find n = some c) (hpn : pfx <+: n) :
    (rib.heap c).parent = rib.findParent pfx ↔ Covers rib.Present pfx n := by
  have hp : ¬ rib.Present pfx := by simp [Present,hf]
  rw [covers_iff_same_parent hp hpn,h.parent_eq hn]
  constructor
  · intro he m
    constructor
    · intro hm
      obtain ⟨q,hq⟩ := Option.isSome_iff_exists.mp hm.1
      have := (rib.findParent_eq_some n q).mpr ⟨m,hq,hm⟩
      rw [he] at this
      obtain ⟨m',hq',hm'⟩ := (rib.findParent_eq_some pfx q).mp this
      rwa [h.find_inj hq hq']
    · intro hm
      obtain ⟨q,hq⟩ := Option.isSome_iff_exists.mp hm.1
      have := (rib.findParent_eq_some pfx q).mpr ⟨m,hq,hm⟩
      rw [← he] at this
      obtain ⟨m',hq',hm'⟩ := (rib.findParent_eq_some n q).mp this
      rwa [h.find_inj hq hq']
  · intro he
    apply Option.ext
    intro q
    rw [findParent_eq_some,findParent_eq_some]
    simp only [he]

private theorem mem_moved (hp : entry.parent = none) (c : EntryId) :
    c ∈ moved rib pfx entry ↔ ∃ n, rib.find n = some c ∧ Covers rib.Present pfx n := by
  simp only [moved,adopted,mem_filter,decide_eq_true_eq,mem_allocated_descendants hf]
  constructor
  · rintro ⟨⟨n,hn,hpn⟩,he⟩
    rw [linkParent_parent h hp,if_neg (find_ne_nextId h hn)] at he
    exact ⟨n,hn,(h.same_parent_iff_covers hf hn hpn).mp he⟩
  · rintro ⟨n,hn,hc⟩
    refine ⟨⟨n,hn,hc.1⟩,?_⟩
    rw [linkParent_parent h hp,if_neg (find_ne_nextId h hn)]
    exact (h.same_parent_iff_covers hf hn hc.1).mpr hc

private theorem moved_parent (hp : entry.parent = none) {c : EntryId}
    (hc : c ∈ moved rib pfx entry) :
    c ≠ rib.nextId ∧ (rib.heap c).parent = rib.findParent pfx := by
  obtain ⟨n,hn,hcov⟩ := (mem_moved h hf hp c).mp hc
  exact ⟨find_ne_nextId h hn,(h.same_parent_iff_covers hf hn hcov.1).mpr hcov⟩

private theorem nextId_not_mem_descendants :
    ∀ c ∈ (allocate rib pfx entry).findDescendants pfx, some rib.nextId ≠ some c := by
  rintro c hc ⟨⟩
  obtain ⟨n,hn,_⟩ := (mem_allocated_descendants hf _).mp hc
  exact find_ne_nextId h hn rfl

private theorem parent_not_mem_descendants :
    ∀ c ∈ (allocate rib pfx entry).findDescendants pfx, rib.findParent pfx ≠ some c := by
  intro c hc hq
  obtain ⟨n,hn,hpn⟩ := (mem_allocated_descendants hf _).mp hc
  obtain ⟨m,hm,hl⟩ := (rib.findParent_eq_some pfx c).mp hq
  obtain rfl := h.find_inj hn hm
  exact hl.2.2.1 (hl.2.1.eq_of_length_le hpn.length_le)

private theorem moved_not_parent : ∀ c ∈ moved rib pfx entry, rib.findParent pfx ≠ some c :=
  fun c hc => parent_not_mem_descendants h hf c (mem_of_mem_filter hc)

private theorem moved_ne_nextId : ∀ c ∈ moved rib pfx entry, some rib.nextId ≠ some c :=
  fun c hc => nextId_not_mem_descendants h hf c (mem_of_mem_filter hc)

private theorem spliced_heap : (spliced rib pfx entry).heap =
    (moved rib pfx entry).foldl (Heap.moveChild (rib.findParent pfx) (some rib.nextId))
      (linkParent (allocate rib pfx entry) rib.nextId (rib.findParent pfx)) :=
  foldl_adoptChild (findDescendants_nodup (allocate_inj h)) (parent_not_mem_descendants h hf)
    (nextId_not_mem_descendants h hf) _

private theorem spliced_parent (hp : entry.parent = none) (x : EntryId) :
    ((spliced rib pfx entry).heap x).parent =
      if x ∈ moved rib pfx entry then some rib.nextId
      else if x = rib.nextId then rib.findParent pfx else (rib.heap x).parent := by
  rw [spliced_heap h hf,Heap.foldl_moveChild_parent
    (moved_not_parent h hf) (moved_ne_nextId h hf) (Or.inr nofun),
    linkParent_parent h hp]

private theorem spliced_children (hc : entry.children = []) (x : EntryId) :
    ((spliced rib pfx entry).heap x).children =
      if x = rib.nextId then moved rib pfx entry
      else if rib.findParent pfx = some x then
        ((rib.heap x).children ++ [rib.nextId]).filter (fun d => d ∉ moved rib pfx entry)
      else (rib.heap x).children := by
  rw [spliced_heap h hf,Heap.foldl_moveChild_children
    (moved_not_parent h hf) (moved_ne_nextId h hf)
    (Or.inr (findParent_ne_nextId h)),linkParent_children h hc]
  by_cases hx : x = rib.nextId
  · simp [hx,findParent_ne_nextId h]
  · by_cases hq : rib.findParent pfx = some x <;> simp [hx,hq,Ne.symm hx]

private theorem spliced_parent_iff (hp : entry.parent = none)
    (hn : (spliced rib pfx entry).find n = some p) (q : EntryId) :
    ((spliced rib pfx entry).heap p).parent = some q ↔ ∃ m, (spliced rib pfx entry).find m = some q ∧
      IsLongestProperPrefix (spliced rib pfx entry).Present m n := by
  change (allocate rib pfx entry).find n = some p at hn
  change _ ↔ ∃ m, (allocate rib pfx entry).find m = some q ∧
    IsLongestProperPrefix (allocate rib pfx entry).Present m n
  rw [← findParent_eq_some,spliced_parent h hf hp]
  by_cases hnp : n = pfx
  · subst n
    obtain rfl : rib.nextId = p := by simpa [allocate_find] using hn
    rw [if_neg fun hm => (moved_parent h hf hp hm).1 rfl,if_pos rfl,allocate_findParent_self hf]
  · rw [allocate_find,if_neg hnp] at hn
    rw [if_neg (find_ne_nextId h hn),findParent_eq_some,allocate_present hf]
    have hmem : p ∈ moved rib pfx entry ↔ Covers rib.Present pfx n := by
      rw [mem_moved h hf hp]
      exact ⟨fun ⟨m,hm,hc⟩ => h.find_inj hm hn ▸ hc,fun hc => ⟨n,hn,hc⟩⟩
    by_cases hc : Covers rib.Present pfx n
    · rw [if_pos (hmem.mpr hc)]
      simp [longest_insert_of_covers (Ne.symm hnp) hc,allocate_find]
    · rw [if_neg fun hm => hc (hmem.mp hm),h.parent n p hn q]
      simp only [longest_insert_of_not_covers hc]
      constructor
      · rintro ⟨m,hm,hl⟩
        have hmp : m ≠ pfx := fun e => by simp [e,hf] at hm
        exact ⟨m,by rw [allocate_find,if_neg hmp]; exact hm,hl⟩
      · rintro ⟨m,hm,hl⟩
        have hmp : m ≠ pfx := fun e => by
          have hpres := hl.1
          simp [e,Present,hf] at hpres
        rw [allocate_find,if_neg hmp] at hm
        exact ⟨m,hm,hl⟩

omit h in
private theorem spliced_find {m : List κ} {x : EntryId} : (spliced rib pfx entry).find m = some x ↔
      (m = pfx ∧ x = rib.nextId) ∨ rib.find m = some x := by
  change (allocate rib pfx entry).find m = some x ↔ _
  rw [allocate_find]
  by_cases hm : m = pfx
  · simp [hm,hf,eq_comm]
  · simp [hm]

private theorem mem_children_new (hp : entry.parent = none) (c : EntryId) :
    c ∈ moved rib pfx entry ↔ ∃ m, (spliced rib pfx entry).find m = some c ∧
      ((spliced rib pfx entry).heap c).parent = some rib.nextId := by
  simp only [spliced_parent h hf hp,spliced_find hf]
  constructor
  · intro hm
    obtain ⟨m,hm',_⟩ := (mem_moved h hf hp c).mp hm
    exact ⟨m,Or.inr hm',if_pos hm⟩
  · rintro ⟨m,hm,hpar⟩
    by_contra hno
    rw [if_neg hno] at hpar
    rcases hm with ⟨_,rfl⟩ | hm
    · rw [if_pos rfl] at hpar
      exact findParent_ne_nextId h hpar
    · rw [if_neg (find_ne_nextId h hm),h.parent_eq hm] at hpar
      exact findParent_ne_nextId h hpar

private theorem mem_children_old (hp : entry.parent = none) (hn : rib.find n = some p)
    (c : EntryId) :
    c ∈ (if rib.findParent pfx = some p then
        ((rib.heap p).children ++ [rib.nextId]).filter (fun d => d ∉ moved rib pfx entry)
      else (rib.heap p).children) ↔
      ∃ m, (spliced rib pfx entry).find m = some c ∧
        ((spliced rib pfx entry).heap c).parent = some p := by
  have hold : (∃ m, (spliced rib pfx entry).find m = some c ∧
      ((spliced rib pfx entry).heap c).parent = some p) ↔
      c ∉ moved rib pfx entry ∧
        (c ∈ (rib.heap p).children ∨ (c = rib.nextId ∧ rib.findParent pfx = some p)) := by
    simp only [spliced_parent h hf hp,spliced_find hf,h.children n p hn c]
    constructor
    · rintro ⟨m,hm,hpar⟩
      have hno : c ∉ moved rib pfx entry := fun hm => by
        rw [if_pos hm] at hpar
        exact find_ne_nextId h hn (Option.some.inj hpar).symm
      rw [if_neg hno] at hpar
      rcases hm with ⟨_,rfl⟩ | hm
      · exact ⟨hno,Or.inr ⟨rfl,by simpa using hpar⟩⟩
      · rw [if_neg (find_ne_nextId h hm)] at hpar
        exact ⟨hno,Or.inl ⟨m,hm,hpar⟩⟩
    · rintro ⟨hno,⟨m,hm,hpar⟩ | ⟨rfl,hq⟩⟩
      · exact ⟨m,Or.inr hm,by rw [if_neg hno,if_neg (find_ne_nextId h hm)]; exact hpar⟩
      · exact ⟨pfx,Or.inl ⟨rfl,rfl⟩,by rw [if_neg hno,if_pos rfl]; exact hq⟩
  rw [hold]
  by_cases hq : rib.findParent pfx = some p
  · simp only [hq,if_true,mem_filter,mem_append,mem_singleton,decide_eq_true_eq,
      and_true]
    exact and_comm
  · have hmv : c ∈ (rib.heap p).children → c ∉ moved rib pfx entry := fun hc hm => by
      obtain ⟨_,_,hpar⟩ := (h.children n p hn c).mp hc
      exact hq ((moved_parent h hf hp hm).2.symm.trans hpar)
    simp only [hq,if_false,and_false,or_false]
    exact ⟨fun hc => ⟨hmv hc,hc⟩,fun hc => hc.2⟩

private theorem spliced_linked (hn : entry.name = pfx) (hp : entry.parent = none)
    (hc : entry.children = []) : (spliced rib pfx entry).Linked := by
  constructor
  · intro n p hf'
    rw [spliced_name hn]
    rcases (spliced_find hf).mp hf' with ⟨rfl,rfl⟩ | hm
    · simp
    · rw [if_neg (find_ne_nextId h hm)]
      exact h.named n p hm
  · intro n p hf'
    change p < rib.nextId + 1
    rcases (spliced_find hf).mp hf' with ⟨rfl,rfl⟩ | hm
    · exact Nat.lt_succ_self _
    · exact (h.allocated n p hm).trans (Nat.lt_succ_self _)
  · intro n p hf' q
    exact spliced_parent_iff h hf hp hf' q
  · intro n p hf' c
    rw [spliced_children h hf hc]
    rcases (spliced_find hf).mp hf' with ⟨rfl,rfl⟩ | hm
    · rw [if_pos rfl]
      exact mem_children_new h hf hp c
    · rw [if_neg (find_ne_nextId h hm)]
      exact mem_children_old h hf hp hm c
  · intro n p hf'
    rw [spliced_children h hf hc]
    rcases (spliced_find hf).mp hf' with ⟨rfl,rfl⟩ | hm
    · rw [if_pos rfl]
      exact (findDescendants_nodup (allocate_inj h)).filter _
    · rw [if_neg (find_ne_nextId h hm)]
      exact spliced_nodup h hm

end InsertEntry

section InsertName

variable {rib : Rib κ} {pfx : List κ} (hf : rib.find pfx = none) (route : Route)

include hf

private theorem insert_eq_spliced : rib.insert pfx route =
    { spliced rib pfx ((RibEntry.new pfx).insertRoute route).1 with
      faceEntries := emplaceFaceEntry rib.faceEntries route.faceId rib.nextId } := by
  unfold insert
  rw [hf]
  dsimp only
  have hp : (allocate rib pfx ((RibEntry.new pfx).insertRoute route).1).findParent pfx =
      rib.findParent pfx := allocate_findParent_self hf
  unfold allocate at hp
  rw [hp]
  rfl

theorem insert_new_table : (rib.insert pfx route).table = rib.table.insert pfx rib.nextId := by
  rw [insert_eq_spliced hf]
  rfl

theorem insert_new_content :
    Heap.SameContent (update rib.heap rib.nextId ((RibEntry.new pfx).insertRoute route).1)
      (rib.insert pfx route).heap := by
  rw [insert_eq_spliced hf]
  exact spliced_sameContent

theorem insert_new_fields : (rib.insert pfx route).nextId = rib.nextId + 1 ∧
    (rib.insert pfx route).nItems = rib.nItems + 1 ∧
    (rib.insert pfx route).faceEntries = emplaceFaceEntry rib.faceEntries route.faceId rib.nextId ∧
    (rib.insert pfx route).cancelledEvents = rib.cancelledEvents := by
  rw [insert_eq_spliced hf]
  exact ⟨rfl,rfl,rfl,rfl⟩

theorem find_insert_new (m : List κ) :
    (rib.insert pfx route).find m = if m = pfx then some rib.nextId else rib.find m := by
  rw [find,insert_new_table hf,rib.table.find?_insert]
  by_cases hm : m = pfx <;> simp [hm,find]

theorem Linked.insert_new (h : rib.Linked) : (rib.insert pfx route).Linked := by
  have hl : (spliced rib pfx ((RibEntry.new pfx).insertRoute route).1).Linked :=
    spliced_linked h hf rfl rfl rfl
  rw [insert_eq_spliced hf]
  exact hl.congr rfl rfl fun _ => ⟨rfl,rfl,rfl⟩

end InsertName

section EraseEntry

variable {rib : Rib κ} {pfx n : List κ} {p x : EntryId}

private def unlinked (rib : Rib κ) (p : EntryId) : Heap κ :=
  match (rib.heap p).parent with
  | some q => rib.heap.removeChild q p
  | none => rib.heap

private theorem unlinked_eq :
    unlinked rib p = rib.heap.moveChild (rib.heap p).parent none p := by
  unfold unlinked
  cases (rib.heap p).parent <;> rfl

private theorem eraseEntry_heap : (rib.eraseEntry pfx p).heap =
    (unlinked rib p p).children.foldl (Heap.moveChild (some p) (rib.heap p).parent)
      (rib.heap.moveChild (rib.heap p).parent none p) := by
  rw [← releaseChild_eq,← unlinked_eq]
  rfl

theorem eraseEntry_sameContent : rib.heap.SameContent (rib.eraseEntry pfx p).heap := by
  rw [eraseEntry_heap]
  exact (rib.heap.moveChild_sameContent p).trans
    (Heap.foldl_sameContent _ Heap.moveChild_sameContent _ _)

theorem find_eraseEntry (m : List κ) :
    (rib.eraseEntry pfx p).find m = if m = pfx then none else rib.find m := by
  change (rib.table.erase pfx).find? m = _
  rw [rib.table.find?_erase]
  by_cases hm : m = pfx <;> simp [hm,find]

private theorem present_eraseEntry :
    (rib.eraseEntry pfx p).Present = fun k => k ≠ pfx ∧ rib.Present k := by
  funext k
  by_cases hk : k = pfx <;> simp [Present,find_eraseEntry,hk]

variable (h : rib.Linked) (hp : rib.find pfx = some p)

include h

theorem Linked.parent_prefix {m : List κ} {c q : EntryId} (hn : rib.find n = some c)
    (hm : rib.find m = some q) (hq : (rib.heap c).parent = some q) : m <+: n ∧ m ≠ n := by
  obtain ⟨m',hm',hl⟩ := (h.parent n c hn q).mp hq
  obtain rfl := h.find_inj hm hm'
  exact ⟨hl.2.1,hl.2.2.1⟩

theorem Linked.mem_children {c : EntryId} (hn : rib.find n = some x)
    (hc : c ∈ (rib.heap x).children) :
    (∃ m, rib.find m = some c) ∧ (rib.heap c).parent = some x := by
  obtain ⟨m,hm,hq⟩ := (h.children n x hn c).mp hc
  exact ⟨⟨m,hm⟩,hq⟩

theorem Linked.mem_children_iff (hn : rib.find n = some x) (c : EntryId) :
    c ∈ (rib.heap x).children ↔ ∃ m, rib.find m = some c ∧ n ≠ m ∧ Covers rib.Present n m := by
  rw [h.children n x hn c]
  constructor
  · rintro ⟨m,hm,hq⟩
    obtain ⟨k,hk,hl⟩ := (h.parent m c hm x).mp hq
    obtain rfl := h.find_inj hn hk
    exact ⟨m,hm,hl.2.2.1,hl.2.1,hl.2.2.2⟩
  · rintro ⟨m,hm,hne,hc⟩
    exact ⟨m,hm,(h.parent m c hm x).mpr ⟨n,hn,present_of_find hn,hc.1,hne,hc.2⟩⟩

include hp

private theorem parent_ne_self : (rib.heap p).parent ≠ some p :=
  fun hq => (h.parent_prefix hp hp hq).2 rfl

private theorem not_mem_own_children : p ∉ (rib.heap p).children := by
  intro hm
  obtain ⟨_,_,hq⟩ := (h.children pfx p hp p).mp hm
  exact parent_ne_self h hp hq

private theorem parent_not_mem_children :
    ∀ c ∈ (rib.heap p).children, (rib.heap p).parent ≠ some c := by
  intro c hc hq
  obtain ⟨m,hm,hpar⟩ := (h.children pfx p hp c).mp hc
  have h₁ := h.parent_prefix hp hm hq
  have h₂ := h.parent_prefix hm hp hpar
  exact h₁.2 (h₁.1.eq_of_length_le h₂.1.length_le)

private theorem unlinked_children (x : EntryId) :
    (rib.heap.moveChild (rib.heap p).parent none p x).children =
      if (rib.heap p).parent = some x then (rib.heap x).children.filter (fun d => d ≠ p)
      else (rib.heap x).children := by
  rw [Heap.moveChild_children _ (parent_ne_self h hp) (by nofun) (em _)]
  simp only [reduceCtorEq,if_false]

private theorem unlinked_children_self : (unlinked rib p p).children = (rib.heap p).children := by
  rw [unlinked_eq,unlinked_children h hp,if_neg (parent_ne_self h hp)]

private theorem child_ne_self : ∀ c ∈ (rib.heap p).children, some p ≠ some c :=
  fun _ hc heq => not_mem_own_children h hp (Option.some.inj heq ▸ hc)

theorem eraseEntry_parent (x : EntryId) : ((rib.eraseEntry pfx p).heap x).parent =
      if x ∈ (rib.heap p).children then (rib.heap p).parent
      else if x = p then none else (rib.heap x).parent := by
  rw [eraseEntry_heap,unlinked_children_self h hp,Heap.foldl_moveChild_parent (child_ne_self h hp)
    (parent_not_mem_children h hp) (Or.inl nofun),
    Heap.moveChild_parent _ (parent_ne_self h hp) (by nofun)]
  by_cases hx : x = p
  · cases hq : (rib.heap p).parent <;> simp [hx,hq]
  · simp [hx]

theorem eraseEntry_children (hx : x ≠ p) : ((rib.eraseEntry pfx p).heap x).children =
      if (rib.heap p).parent = some x then
        (rib.heap x).children.filter (fun d => d ≠ p) ++ (rib.heap p).children
      else (rib.heap x).children := by
  rw [eraseEntry_heap,unlinked_children_self h hp,Heap.foldl_moveChild_children (child_ne_self h hp)
    (parent_not_mem_children h hp) (Or.inr (parent_ne_self h hp).symm),unlinked_children h hp,
    if_neg fun heq => hx (Option.some.inj heq).symm]
  by_cases hq : (rib.heap p).parent = some x <;> simp [hq]

private theorem find_eraseEntry_iff {m : List κ} :
    (rib.eraseEntry pfx p).find m = some x ↔ rib.find m = some x ∧ x ≠ p := by
  rw [find_eraseEntry]
  by_cases hm : m = pfx
  · subst m
    simp only [if_true,hp,Option.some.injEq]
    exact ⟨fun hx => absurd hx (by simp),fun hx => absurd hx.1.symm hx.2⟩
  · rw [if_neg hm]
    exact ⟨fun hx => ⟨hx,fun e => hm (h.find_inj (e ▸ hx) hp)⟩,fun hx => hx.1⟩

private theorem mem_children_iff_longest (hn : rib.find n = some x) :
    x ∈ (rib.heap p).children ↔ IsLongestProperPrefix rib.Present pfx n := by
  rw [h.children pfx p hp x]
  constructor
  · rintro ⟨m,hm,hq⟩
    obtain rfl := h.find_inj hm hn
    obtain ⟨m',hm',hl⟩ := (h.parent m x hm p).mp hq
    rwa [h.find_inj hp hm']
  · intro hl
    exact ⟨n,hn,(h.parent n x hn p).mpr ⟨pfx,hp,hl⟩⟩

private theorem erased_parent_iff (hn : rib.find n = some x) (hx : x ≠ p) (q : EntryId) :
    ((rib.eraseEntry pfx p).heap x).parent = some q ↔ ∃ m, (rib.eraseEntry pfx p).find m = some q ∧
        IsLongestProperPrefix (rib.eraseEntry pfx p).Present m n := by
  rw [eraseEntry_parent h hp,present_eraseEntry]
  simp only [find_eraseEntry_iff h hp,if_neg hx]
  by_cases hc : x ∈ (rib.heap p).children
  · rw [if_pos hc,h.parent pfx p hp q]
    simp only [longest_erase_of_child ((mem_children_iff_longest h hp hn).mp hc)]
    constructor
    · rintro ⟨m,hm,hl⟩
      exact ⟨m,⟨hm,fun e => hl.2.2.1 (h.find_inj (e ▸ hm) hp)⟩,hl⟩
    · rintro ⟨m,hm,hl⟩
      exact ⟨m,hm.1,hl⟩
  · have hl' := fun hl => hc ((mem_children_iff_longest h hp hn).mpr hl)
    rw [if_neg hc,h.parent n x hn q]
    simp only [longest_erase_of_not_child hl']
    constructor
    · rintro ⟨m,hm,hl⟩
      exact ⟨m,⟨hm,fun e => hl' (h.find_inj (e ▸ hm) hp ▸ hl)⟩,hl⟩
    · rintro ⟨m,hm,hl⟩
      exact ⟨m,hm.1,hl⟩

private theorem erased_children_iff (hn : rib.find n = some x) (hx : x ≠ p) (c : EntryId) :
    c ∈ ((rib.eraseEntry pfx p).heap x).children ↔ ∃ m, (rib.eraseEntry pfx p).find m = some c ∧
        ((rib.eraseEntry pfx p).heap c).parent = some x := by
  simp only [eraseEntry_children h hp hx,eraseEntry_parent h hp,find_eraseEntry_iff h hp]
  constructor
  · intro hm
    by_cases hq : (rib.heap p).parent = some x
    · rw [if_pos hq,mem_append,mem_filter] at hm
      rcases hm with ⟨hm,hcp⟩ | hm
      · have hcp' : c ≠ p := by simpa using hcp
        obtain ⟨⟨m,hm'⟩,hpar⟩ := h.mem_children hn hm
        refine ⟨m,⟨hm',hcp'⟩,?_⟩
        by_cases hcs : c ∈ (rib.heap p).children
        · rw [if_pos hcs,hq]
        · rw [if_neg hcs,if_neg hcp',hpar]
      · obtain ⟨⟨m,hm'⟩,_⟩ := h.mem_children hp hm
        have hcp : c ≠ p := fun e => not_mem_own_children h hp (e ▸ hm)
        exact ⟨m,⟨hm',hcp⟩,by rw [if_pos hm,hq]⟩
    · rw [if_neg hq] at hm
      obtain ⟨⟨m,hm'⟩,hpar⟩ := h.mem_children hn hm
      have hcp : c ≠ p := fun e => hq (e ▸ hpar)
      have hcs : c ∉ (rib.heap p).children := fun hcs =>
        hx (Option.some.inj (hpar.symm.trans (h.mem_children hp hcs).2))
      exact ⟨m,⟨hm',hcp⟩,by rw [if_neg hcs,if_neg hcp,hpar]⟩
  · rintro ⟨m,⟨hm,hcp⟩,hpar⟩
    by_cases hcs : c ∈ (rib.heap p).children
    · rw [if_pos hcs] at hpar
      rw [if_pos hpar]
      exact mem_append_right _ hcs
    · rw [if_neg hcs,if_neg hcp] at hpar
      have hmem := (h.children n x hn c).mpr ⟨m,hm,hpar⟩
      split_ifs
      · exact mem_append_left _ (mem_filter.mpr ⟨hmem,by simpa using hcp⟩)
      · exact hmem

private theorem erased_nodup (hn : rib.find n = some x) (hx : x ≠ p) :
    ((rib.eraseEntry pfx p).heap x).children.Nodup := by
  rw [eraseEntry_children h hp hx]
  split_ifs with hq
  · refine nodup_append.mpr ⟨(h.nodup n x hn).filter _,h.nodup pfx p hp,?_⟩
    rintro a ha b hb rfl
    have h₁ := (h.mem_children hn (List.mem_of_mem_filter ha)).2
    have h₂ := (h.mem_children hp hb).2
    exact hx (Option.some.inj (h₁.symm.trans h₂))
  · exact h.nodup n x hn

theorem Linked.eraseEntry : (rib.eraseEntry pfx p).Linked := by
  constructor
  · intro n x hn
    rw [eraseEntry_sameContent.name x]
    exact h.named n x ((find_eraseEntry_iff h hp).mp hn).1
  · intro n x hn
    exact h.allocated n x ((find_eraseEntry_iff h hp).mp hn).1
  · intro n x hn q
    obtain ⟨hn',hx⟩ := (find_eraseEntry_iff h hp).mp hn
    exact erased_parent_iff h hp hn' hx q
  · intro n x hn c
    obtain ⟨hn',hx⟩ := (find_eraseEntry_iff h hp).mp hn
    exact erased_children_iff h hp hn' hx c
  · intro n x hn
    obtain ⟨hn',hx⟩ := (find_eraseEntry_iff h hp).mp hn
    exact erased_nodup h hp hn' hx

end EraseEntry

end Rib

end KiteNdn.Routing
