import Mathlib.Data.Finset.Card
import KiteNdn.Framework.Run
import KiteNdn.NameTree.Valid
import KiteNdn.Framework.TreeWalk

/-!
# The name tree is a set of names

Whatever lookups, erasures and table operations have been made, with any hash function and any
number of resizes, the tree is a finite set of names that is closed under prefixes. The iterator and
the two longest prefix matches are described by that set.
-/

namespace KiteNdn.NameTree

open Framework Hashtable LinkedList List Option

variable {κ : Type} {hashFunc : κ → HashValue} {t : NameTree κ}

theorem findExactMatch_spec [DecidableEq κ] (h : Valid hashFunc t) (n : List κ) (len : Nat) :
    ∃ r, t.findExactMatch hashFunc n len = some r ∧
      ∀ x, r = some x ↔ t.nameOf x = some (n.take len) := by
  have htake : n.take (min n.length len) = n.take len := by
    rw [min_comm,← take_take,take_length]
  unfold findExactMatch
  dsimp only
  split_ifs with hdeep
  · refine ⟨none,rfl,fun x => iff_of_false nofun ?_⟩
    intro hx
    obtain ⟨e,he,hname⟩ := map_eq_some_iff.mp hx
    have hlen := h.tree.depth x e he
    rw [hname,length_take] at hlen
    omega
  · obtain ⟨r,hr,hspec⟩ := find_spec h.wf n (min n.length len)
    rw [htake] at hspec
    exact ⟨r,hr,hspec⟩

theorem Valid.parentOf_root (h : Valid hashFunc t) {x : NodeId} (hx : t.nameOf x = some []) :
    t.parentOf x = none := by
  obtain ⟨e,he,hname⟩ := map_eq_some_iff.mp hx
  rw [parentOf,he]
  exact (h.tree.root x e he).mpr hname

variable {n : List κ}

theorem Valid.parentOf_concat (h : Valid hashFunc t) {x : NodeId} {c : κ}
    (hx : t.nameOf x = some (n ++ [c])) : ∃ p, t.parentOf x = some p ∧ t.nameOf p = some n := by
  obtain ⟨e,he,hname⟩ := map_eq_some_iff.mp hx
  have hne : e.parent ≠ none := by
    rw [Ne,h.tree.root x e he,hname]
    simp
  obtain ⟨p,hp⟩ := ne_none_iff_exists'.mp hne
  obtain ⟨pe,hpe,hpname⟩ := h.tree.parent x e p he hp
  refine ⟨p,?_,?_⟩
  · rw [parentOf,he]
    exact hp
  · rw [nameOf,hpe,map_some,hpname,hname,dropLast_concat]

theorem Valid.hasName_of_prefix (h : Valid hashFunc t) {m : List κ} (hn : t.HasName n)
    (hm : m <+: n) : t.HasName m := by
  induction n using reverseRecOn with
  | nil =>
    obtain rfl := prefix_nil.mp hm
    exact hn
  | append_singleton n c ih =>
    rcases prefix_concat_iff.mp hm with rfl | hm
    · exact hn
    · apply ih ?_ hm
      obtain ⟨x,hx⟩ := hn
      obtain ⟨p,_,hp⟩ := h.parentOf_concat hx
      exact ⟨p,hp⟩

section Enumeration

variable {ls : List (List NodeId)} {pred : NodeId → Bool}

end Enumeration

/-- The tree stands for a set of names. -/
structure Represents [DecidableEq κ] (hashFunc : κ → HashValue) (t : NameTree κ)
    (names : Finset (List κ)) : Prop where
  findExactMatch : ∀ n, ∃ r, t.findExactMatch hashFunc n n.length = some r ∧
    (r.isSome ↔ n ∈ names) ∧ ∀ x, r = some x ↔ t.nameOf x = some n
  prefixClosed : ∀ n ∈ names, ∀ m, m <+: n → m ∈ names
  parent : ∀ x e, t.entry x = some e → e.parent = none ∧ e.name = [] ∨
    ∃ p, e.parent = some p ∧ e.name ≠ [] ∧ t.nameOf p = some e.name.dropLast
  children : ∀ p e, t.entry p = some e → e.children.Nodup ∧
    ∀ c, c ∈ e.children ↔ t.parentOf c = some p
  size : t.size = names.card
  hash : ∀ x n, t.nameOf x = some n → t.hash x = some (computeHash hashFunc n n.length)
  buckets : ∀ b < t.getNBuckets, ∃ l, IsLinked t.next t.prev none (t.getBucket b) l ∧ l.Nodup ∧
    ∀ x, x ∈ l ↔ (t.hash x).map t.computeBucketIndex = some b
  fullEnumerate : ∀ pred, ∃ l, t.fullEnumerate pred = some l ∧ l.Nodup ∧
    ∀ x, x ∈ l ↔ (t.entry x).isSome ∧ pred x = true

section Runs

/-- What the source asks of the caller. -/
def Op.Legal (t : NameTree κ) : Op κ → Prop
  | .lookup name prefixLen => prefixLen ≤ name.length ∧ prefixLen ≤ getMaxDepth
  | .eraseIfEmpty id _ => (t.entry id).isSome
  | .setFibEntry id _ => (t.entry id).isSome
  | .insertPitEntry id _ => (t.entry id).isSome
  | .erasePitEntry id pitEntry => ∃ e, t.entry id = some e ∧ pitEntry ∈ e.tables.pitEntries
  | .setMeasurementsEntry id _ => (t.entry id).isSome
  | .setStrategyChoiceEntry id _ => (t.entry id).isSome

private theorem onEntry_spec {id : NodeId} (h : Valid hashFunc t) (f : Tables → Tables)
    (hlegal : (t.entry id).isSome) :
    ∃ t', t.onEntry id (t.modifyTables id f) = some t' ∧ Valid hashFunc t' := by
  obtain ⟨e,he⟩ := isSome_iff_exists.mp hlegal
  exact ⟨_,by rw [onEntry,he]; rfl,h.modifyTables id f⟩

/-- A legal operation succeeds and keeps the invariant. -/
theorem step_spec [DecidableEq κ] (h : Valid hashFunc t) (op : Op κ) (hlegal : op.Legal t) :
    ∃ t', step hashFunc t op = some t' ∧ Valid hashFunc t' := by
  cases op with
  | lookup name prefixLen =>
    obtain ⟨x,t',hok,hvalid,_⟩ := lookup_spec h hlegal.1 hlegal.2
    exact ⟨t',by rw [step,hok]; rfl,hvalid⟩
  | eraseIfEmpty id canEraseAncestors =>
    obtain ⟨e,he⟩ := isSome_iff_exists.mp hlegal
    obtain ⟨n,t',hok,hvalid,_⟩ := eraseIfEmpty_spec h he canEraseAncestors
    exact ⟨t',by rw [step,hok]; rfl,hvalid⟩
  | erasePitEntry id pitEntry =>
    obtain ⟨e,he,hmem⟩ := hlegal
    refine ⟨t.erasePitEntry id pitEntry,?_,h.modifyTables id _⟩
    rw [step,he,bind_some,if_pos hmem]
  | _ => exact onEntry_spec h _ hlegal

/-- An operation that is not legal fails. -/
theorem legal_of_step [DecidableEq κ] {op : Op κ} {t' : NameTree κ}
    (h : step hashFunc t op = some t') :
    op.Legal t := by
  have honEntry : ∀ {id : NodeId} {s : NameTree κ}, t.onEntry id s = some t' →
      (t.entry id).isSome := by
    intro id s hs
    obtain ⟨e,he,_⟩ := map_eq_some_iff.mp hs
    rw [he]
    rfl
  cases op with
  | lookup name prefixLen =>
    rw [step,lookup] at h
    by_contra hno
    rw [if_neg (show ¬(prefixLen ≤ name.length ∧ prefixLen ≤ getMaxDepth) from hno)] at h
    exact nomatch h
  | eraseIfEmpty id canEraseAncestors =>
    rw [step,eraseIfEmpty] at h
    cases he : t.entry id with
    | none =>
      rw [he] at h
      exact nomatch h
    | some e =>
      show (t.entry id).isSome
      rw [he]
      rfl
  | erasePitEntry id pitEntry =>
    obtain ⟨e,he,hs⟩ := bind_eq_some_iff.mp h
    split_ifs at hs with hmem
    exact ⟨e,he,hmem⟩
  | _ => exact honEntry h

theorem valid_run [DecidableEq κ] {options : HashtableOptions} {ops : List (Op κ)}
    (h : run hashFunc options ops = some t) : Valid hashFunc t := by
  refine foldlM_keeps (Valid hashFunc) ?_ ops (valid_empty options) h
  intro s op s' hs hstep
  obtain ⟨s'',hok,hvalid⟩ := step_spec hs op (legal_of_step hstep)
  obtain rfl := some.inj (hok.symm.trans hstep)
  exact hvalid

end Runs

section Slots

variable {t : NameTree κ} {x : NodeId}

theorem entry_modifyTables (f : Tables → Tables) (y : NodeId) : (t.modifyTables x f).entry y =
      if y = x then (t.entry y).map fun e => { e with tables := f e.tables } else t.entry y :=
  entry_modifyEntry _ y

theorem nameOf_modifyTables (f : Tables → Tables) (y : NodeId) :
    (t.modifyTables x f).nameOf y = t.nameOf y := by
  rw [nameOf,entry_modifyTables]
  split_ifs
  · rw [Option.map_map]
    rfl
  · rfl

theorem nameOf_of_tablesAt {p : List κ × Tables} (h : t.tablesAt x = some p) :
    t.nameOf x = some p.1 := by
  obtain ⟨e,he,hp⟩ := bind_eq_some_iff.mp h
  split_ifs at hp
  cases hp
  rw [nameOf,he]
  rfl

end Slots

open TreeWalk

variable {hashFunc : κ → HashValue} {t : NameTree κ} {x : NodeId}

variable {hashFunc : κ → HashValue} {t : NameTree κ} {entrySelector : NodeId → Bool}
  {l : List NodeId} {x : NodeId}

structure IsLineage (t : NameTree κ) (x : NodeId) (n : List κ) (l : List NodeId) : Prop where
  path : IsPath t.parentOf (some x) l
  length : l.length = n.length + 1
  names : ∀ i ≤ n.length, ∃ y ∈ l, t.nameOf y = some (n.take i)
  mem : ∀ y ∈ l, ∃ i ≤ n.length, t.nameOf y = some (n.take i)
  nodup : l.Nodup

theorem Valid.exists_lineage (h : Valid hashFunc t) (hx : t.nameOf x = some n) :
    ∃ l, t.IsLineage x n l := by
  induction n using reverseRecOn generalizing x with
  | nil =>
    refine ⟨[x],⟨rfl,h.parentOf_root hx⟩,rfl,?_,?_,nodup_singleton x⟩
    · intro i hi
      obtain rfl := Nat.le_zero.mp hi
      exact ⟨x,mem_singleton_self x,hx⟩
    · intro y hy
      obtain rfl := mem_singleton.mp hy
      exact ⟨0,le_rfl,hx⟩
  | append_singleton n c ih =>
    obtain ⟨p,hparent,hpn⟩ := h.parentOf_concat hx
    obtain ⟨l,hl⟩ := ih hpn
    have htake : ∀ i ≤ n.length, (n ++ [c]).take i = n.take i := fun i hi =>
      take_append_of_le_length hi
    have hlen : (n ++ [c]).length = n.length + 1 := by simp
    have hself : (n ++ [c]).take (n.length + 1) = n ++ [c] := by
      rw [← hlen,take_length]
    refine ⟨x :: l,⟨rfl,hparent ▸ hl.path⟩,by simp [hl.length],?_,?_,?_⟩
    · intro i hi
      rw [hlen] at hi
      rcases Nat.le_succ_iff.mp hi with hi | rfl
      · obtain ⟨y,hy,hname⟩ := hl.names i hi
        exact ⟨y,mem_cons_of_mem x hy,by rw [hname,htake i hi]⟩
      · exact ⟨x,mem_cons_self,by rw [hself]; exact hx⟩
    · intro y hy
      rw [hlen]
      rcases mem_cons.mp hy with rfl | hy
      · exact ⟨n.length + 1,le_rfl,by rw [hself]; exact hx⟩
      · obtain ⟨i,hi,hname⟩ := hl.mem y hy
        exact ⟨i,by omega,by rw [hname,htake i hi]⟩
    · refine nodup_cons.mpr ⟨fun hmem => ?_,hl.nodup⟩
      -- The ancestors have shorter names.
      obtain ⟨i,hi,hname⟩ := hl.mem x hmem
      have heq := congrArg List.length (some.inj (hx.symm.trans hname))
      rw [hlen,length_take] at heq
      omega

section ByName

variable {name : List κ} {depth : Nat}
variable {i : Nat}

private theorem findWithHashes_spec [DecidableEq κ] (h : Valid hashFunc t) (hi : i ≤ depth)
    (hdepth : depth ≤ name.length) :
    ∃ r, t.findWithHashes name i (computeHashes hashFunc name depth) = some r ∧
      ∀ x, r = some x ↔ t.nameOf x = some (name.take i) := by
  rw [findWithHashes_eq hi hdepth]
  exact find_spec h.wf name i

private theorem longestFrom_of_lineage [DecidableEq κ] (h : Valid hashFunc t)
    (hdepth : depth ≤ name.length)
    (hi : i ≤ depth) (hx : t.nameOf x = some (name.take i)) (hl : IsPath t.parentOf (some x) l) :
    longestFrom entrySelector t name (computeHashes hashFunc name depth) i =
      some (l.find? entrySelector) := by
  induction i generalizing x l with
  | zero =>
    obtain ⟨r,hr,hspec⟩ := findWithHashes_spec h hi hdepth
    obtain rfl : r = some x := (hspec x).mpr hx
    have hroot : t.parentOf x = none := h.parentOf_root hx
    obtain rfl : l = [x] := by
      cases l with
      | nil => exact nomatch hl
      | cons y l =>
        obtain ⟨heq,hl⟩ := hl
        cases heq
        rw [hroot] at hl
        cases l with
        | nil => rfl
        | cons z l => exact nomatch hl.1
    rw [longestFrom,hr]
    cases hs : entrySelector x <;> simp [Option.filter,hs]
  | succ i ih =>
    obtain ⟨r,hr,hspec⟩ := findWithHashes_spec h hi hdepth
    obtain rfl : r = some x := (hspec x).mpr hx
    have hlt : i < name.length := by omega
    rw [take_succ_eq_append_getElem hlt] at hx
    obtain ⟨p,hparent,hpn⟩ := h.parentOf_concat hx
    cases l with
    | nil => exact nomatch hl
    | cons y l =>
      obtain ⟨heq,hl⟩ := hl
      cases heq
      rw [hparent] at hl
      rw [longestFrom,hr,bind_some,ih (by omega) hpn hl,find?_cons]
      cases hs : entrySelector x <;> simp [Option.filter,hs]

variable {k : Nat}

private theorem longestFrom_of_missing [DecidableEq κ] (h : Valid hashFunc t)
    (hdepth : depth ≤ name.length)
    (hi : i ≤ depth) (hk : k ≤ i) (hno : ∀ j, k < j → j ≤ i → ¬t.HasName (name.take j)) :
    longestFrom entrySelector t name (computeHashes hashFunc name depth) i =
      longestFrom entrySelector t name (computeHashes hashFunc name depth) k := by
  induction i with
  | zero =>
    obtain rfl := Nat.le_zero.mp hk
    rfl
  | succ i ih =>
    rcases Nat.le_succ_iff.mp hk with hk | rfl
    · obtain ⟨r,hr,hspec⟩ := findWithHashes_spec h hi hdepth
      have hnone : r = none := by
        by_contra hne
        obtain ⟨x,hx⟩ := ne_none_iff_exists'.mp hne
        exact hno (i + 1) (by omega) le_rfl ⟨x,(hspec x).mp hx⟩
      rw [longestFrom,hr,hnone]
      exact ih (by omega) hk fun j hkj hji => hno j hkj (by omega)
    · rfl

/-- The match by name, from the longest prefix that has an entry. -/
theorem findLongestPrefixMatch_eq [DecidableEq κ] (h : Valid hashFunc t)
    (hk : k ≤ min name.length getMaxDepth) (hx : t.nameOf x = some (name.take k))
    (hno : ∀ j, k < j → j ≤ min name.length getMaxDepth → ¬t.HasName (name.take j))
    (hl : IsPath t.parentOf (some x) l) :
    t.findLongestPrefixMatch hashFunc entrySelector name = some (l.find? entrySelector) := by
  unfold findLongestPrefixMatch
  dsimp only
  rw [longestFrom_of_missing h (min_le_left _ _) le_rfl hk hno]
  exact longestFrom_of_lineage h (min_le_left _ _) hk hx hl

theorem findLongestPrefixMatch_of_empty [DecidableEq κ] (h : Valid hashFunc t) (hno : ¬t.HasName []) :
    t.findLongestPrefixMatch hashFunc entrySelector name = some none := by
  have hnone : ∀ n, ¬t.HasName n := fun n hn => hno (h.hasName_of_prefix hn nil_prefix)
  unfold findLongestPrefixMatch
  dsimp only
  rw [longestFrom_of_missing (k := 0) h (min_le_left _ _) le_rfl (Nat.zero_le _)
    fun j _ _ => hnone _]
  obtain ⟨r,hr,hspec⟩ := findWithHashes_spec h (Nat.zero_le _)
    (min_le_left name.length getMaxDepth)
  have hr' : r = none := by
    by_contra hne
    obtain ⟨x,hx⟩ := ne_none_iff_exists'.mp hne
    exact hnone _ ⟨x,(hspec x).mp hx⟩
  rw [longestFrom,hr,hr']
  rfl

theorem exists_deepest (hroot : t.HasName []) (name : List κ) :
    ∃ k ≤ min name.length getMaxDepth, t.HasName (name.take k) ∧
      ∀ j, k < j → j ≤ min name.length getMaxDepth → ¬t.HasName (name.take j) := by
  have hsearch : ∀ d, ∃ k ≤ d, t.HasName (name.take k) ∧
      ∀ j, k < j → j ≤ d → ¬t.HasName (name.take j) := by
    intro d
    induction d with
    | zero => exact ⟨0,le_rfl,hroot,fun j hj hj' => absurd hj' (by omega)⟩
    | succ d ih =>
      by_cases hd : t.HasName (name.take (d + 1))
      · exact ⟨d + 1,le_rfl,hd,fun j hj hj' => absurd hj' (by omega)⟩
      · obtain ⟨k,hk,hname,hno⟩ := ih
        refine ⟨k,by omega,hname,fun j hj hj' => ?_⟩
        rcases Nat.le_succ_iff.mp hj' with hj' | rfl
        · exact hno j hj hj'
        · exact hd
  exact hsearch _

end ByName

/-- The walk up from an entry. -/
theorem findLongestPrefixMatchOfEntry_eq (hx : t.nameOf x = some n) (hl : t.IsLineage x n l) :
    t.findLongestPrefixMatchOfEntry entrySelector x = some (l.find? entrySelector) := by
  obtain ⟨e,he,hname⟩ := map_eq_some_iff.mp hx
  unfold findLongestPrefixMatchOfEntry
  rw [he,bind_some]
  apply findFrom_eq hl.path
  rw [hl.length,hname]

section AllMatches

variable {pred : NodeId → Bool} {name : List κ}

private theorem isPath_suffix {head : Option NodeId} (hl : IsPath t.parentOf head l)
    (hx : l.find? pred = some x) :
    ∃ done rest, l = done ++ x :: rest ∧ IsPath t.parentOf (some x) (x :: rest) ∧
      ∀ y ∈ done, pred y = false := by
  obtain ⟨_,done,rest,rfl,hdone⟩ := find?_eq_some_iff_append.mp hx
  refine ⟨done,rest,rfl,⟨rfl,hl.after⟩,fun y hy => ?_⟩
  simpa using hdone y hy

/-- The selected entries among the prefixes of a name, each once. -/
theorem findAllMatches_spec [DecidableEq κ] (h : Valid hashFunc t) (pred : NodeId → Bool)
    (name : List κ) :
    ∃ l, t.findAllMatches pred hashFunc name = some l ∧ l.Nodup ∧ ∀ x, x ∈ l ↔
      pred x = true ∧ ∃ i ≤ min name.length getMaxDepth, t.nameOf x = some (name.take i) := by
  unfold findAllMatches
  by_cases hroot : t.HasName []
  · obtain ⟨k,hk,⟨x,hx⟩,hno⟩ := exists_deepest hroot name
    obtain ⟨l,hl⟩ := h.exists_lineage hx
    have hklen : (name.take k).length = k := by
      rw [length_take]
      omega
    have hmem : ∀ y, y ∈ l ↔ ∃ i ≤ min name.length getMaxDepth,
        t.nameOf y = some (name.take i) := by
      intro y
      constructor
      · intro hy
        obtain ⟨i,hi,hname⟩ := hl.mem y hy
        refine ⟨i,by omega,?_⟩
        rw [hname,take_take,min_eq_left (by omega)]
      · rintro ⟨i,hi,hname⟩
        have hik : i ≤ k := by
          by_contra hlt
          exact hno i (by omega) hi ⟨y,hname⟩
        obtain ⟨z,hz,hzname⟩ := hl.names i (by omega)
        rw [take_take,min_eq_left hik] at hzname
        obtain ⟨e,he,hen⟩ := map_eq_some_iff.mp hname
        obtain ⟨e',he',hen'⟩ := map_eq_some_iff.mp hzname
        rw [h.wf.injective y z e e' he he' (hen.trans hen'.symm)]
        exact hz
    have hlen : l.length ≤ getMaxDepth + 1 := by
      rw [hl.length,hklen]
      omega
    rw [findLongestPrefixMatch_eq h hk hx hno hl.path,bind_some]
    refine ⟨l.filter pred,?_,hl.nodup.filter pred,fun y => by rw [mem_filter,hmem,and_comm]⟩
    cases hfind : l.find? pred with
    | none =>
      have hnone : l.filter pred = [] := by
        rw [filter_eq_nil_iff]
        intro y hy
        simpa using find?_eq_none.mp hfind y hy
      rw [hnone]
      rfl
    | some ref =>
      obtain ⟨done,rest,hsplit,hpath,hdone⟩ := isPath_suffix hl.path hfind
      have hlen' : (ref :: rest).length ≤ getMaxDepth + 1 := by
        rw [hsplit,length_append] at hlen
        omega
      have hfilter : l.filter pred = (ref :: rest).filter pred := by
        rw [hsplit,filter_append,filter_eq_nil_iff.mpr,nil_append]
        intro y hy
        rw [hdone y hy]
        exact Bool.false_ne_true
      rw [hfilter]
      apply enumerate_eq
      · exact findFrom_eq hpath pred hlen'
      · intro pre a suffix hall
        have hpath' := hall ▸ hpath
        apply findFrom_eq hpath'.after
        rw [hall,length_append,length_cons] at hlen'
        exact (Nat.le_of_succ_le (Nat.le_add_left _ _)).trans hlen'
      · omega
  · have hnone : ∀ n, ¬t.HasName n := fun n hn => hroot (h.hasName_of_prefix hn nil_prefix)
    rw [findLongestPrefixMatch_of_empty h hroot]
    refine ⟨[],rfl,nodup_nil,fun x => ⟨fun hx => absurd hx not_mem_nil,?_⟩⟩
    rintro ⟨_,i,_,hname⟩
    exact absurd ⟨x,hname⟩ (hnone _)

end AllMatches

end KiteNdn.NameTree
