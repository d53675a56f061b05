import KiteNdn.Fw.Packet
import KiteNdn.NameTree.Refinement

/-!
# The pending Interest table

A PIT entry is attached to the name tree entry of its name, without an implicit digest at the end
and cut at the maximum depth of the tree. The other tables use the same tree.
-/

namespace KiteNdn.Table

open NameTree Option Function

abbrev PitEntryId := Nat

/-- An entry that is attached to the name tree. -/
structure PitEntry (κ : Type := Component) where
  interest : Interest κ
  nameTreeEntry : NodeId
  deriving DecidableEq, Repr

variable {κ : Type}

/-- The first components have been compared by the name tree. -/
def PitEntry.canMatch [DecidableEq κ] (e : PitEntry κ) (interest : Interest κ)
    (nEqualNameComps : Nat) : Bool :=
  e.interest.name.drop nEqualNameComps = interest.name.drop nEqualNameComps &&
    e.interest.canBePrefix = interest.canBePrefix && e.interest.mustBeFresh = interest.mustBeFresh

structure Pit (κ : Type := Component) where
  nameTree : NameTree κ
  entries : PitEntryId → Option (PitEntry κ)
  nextEntry : PitEntryId
  nItems : Nat

def hasDigest [NameComponent κ] (name : List κ) : Bool :=
  name.getLast?.any fun c => (NameComponent.toComponent c).isImplicitSha256Digest

def nteDepth [NameComponent κ] (name : List κ) : Nat :=
  min (name.length - if hasDigest name then 1 else 0) getMaxDepth

namespace Pit

def empty (options : HashtableOptions) : Pit κ where
  nameTree := Hashtable.empty options
  entries := fun _ => none
  nextEntry := 0
  nItems := 0

section Operations

variable [NameComponent κ] (hashFunc : κ → HashValue)

def findAt (pit : Pit κ) (nte : Entry κ) (interest : Interest κ) : Option PitEntryId :=
  nte.tables.pitEntries.find? fun id =>
    (pit.entries id).any fun e => e.canMatch interest (nteDepth interest.name)

def attach (pit : Pit κ) (nte : NodeId) (interest : Interest κ) : Pit κ where
  nameTree := pit.nameTree.insertPitEntry nte pit.nextEntry
  entries := update pit.entries pit.nextEntry (some ⟨interest,nte⟩)
  nextEntry := pit.nextEntry + 1
  nItems := pit.nItems + 1

def find (pit : Pit κ) (interest : Interest κ) : Option (Option PitEntryId) :=
  (pit.nameTree.findExactMatch hashFunc interest.name (nteDepth interest.name)).bind fun found =>
    match found with
    | none => some none
    | some nte => (pit.nameTree.entry nte).map fun e => pit.findAt e interest

def insert (pit : Pit κ) (interest : Interest κ) : Option (PitEntryId × Bool × Pit κ) := do
  let (nte,nameTree) ← pit.nameTree.lookup hashFunc interest.name (nteDepth interest.name)
  let pit := { pit with nameTree := nameTree }
  let e ← nameTree.entry nte
  match pit.findAt e interest with
  | some id => some (id,false,pit)
  | none => some (pit.nextEntry,true,pit.attach nte interest)

def nteHasPitEntries (pit : Pit κ) (id : NodeId) : Bool :=
  (pit.nameTree.entry id).any Entry.hasPitEntries

def pitEntriesAt (pit : Pit κ) (id : NodeId) : List PitEntryId :=
  ((pit.nameTree.entry id).map fun e => e.tables.pitEntries).getD []

def findAllDataMatches (pit : Pit κ) (data : Data κ) : Option (List PitEntryId) :=
  (pit.nameTree.findAllMatches pit.nteHasPitEntries hashFunc data.name).map fun ntMatches =>
    ntMatches.flatMap fun nte => (pit.pitEntriesAt nte).filter fun id =>
      (pit.entries id).any fun e => e.interest.matchesData data

def erase (pit : Pit κ) (id : PitEntryId) (canDeleteNte : Bool) : Option (Pit κ) := do
  let e ← pit.entries id
  let nte ← pit.nameTree.entry e.nameTreeEntry
  if id ∈ nte.tables.pitEntries then
    let nameTree := pit.nameTree.erasePitEntry e.nameTreeEntry id
    let nameTree ← if canDeleteNte then (nameTree.eraseIfEmpty e.nameTreeEntry true).map Prod.snd
      else some nameTree
    some { pit with
      nameTree := nameTree
      entries := update pit.entries id none
      nItems := pit.nItems - 1 }
  else none

end Operations

section Matching

variable [DecidableEq κ] (hashFunc : κ → HashValue) (entrySelector : NodeId → Bool)

def goDeeper (t : NameTree κ) (name : List κ) : List Nat → NodeId → Option NodeId
  | [], nte => some nte
  | i :: is, nte =>
    (t.findExactMatch hashFunc name i).bind fun exact =>
      match exact with
      | none => some nte
      | some nte => goDeeper t name is nte

/-- The name of a PIT entry may exceed the depth limit or end with an implicit digest. -/
def deepestEntry (t : NameTree κ) (name : List κ) (id : NodeId) (nte : Entry κ) : Option NodeId :=
  if nte.name.length < name.length then
    goDeeper hashFunc t name (List.range' (nte.name.length + 1)
      (min name.length getMaxDepth - nte.name.length)) id
  else some id

/-- The overload for a PIT entry starts from where the entry is attached. -/
def findLongestPrefixMatch (pit : Pit κ) (id : PitEntryId) : Option (Option NodeId) := do
  let pitEntry ← pit.entries id
  let nte ← pit.nameTree.entry pitEntry.nameTreeEntry
  let deepest ← deepestEntry hashFunc pit.nameTree pitEntry.interest.name pitEntry.nameTreeEntry nte
  pit.nameTree.findLongestPrefixMatchOfEntry entrySelector deepest

end Matching

section Runs

/-- The operations of the PIT, and what the other tables do to the name tree. -/
inductive Op (κ : Type := Component) where
  | insert (interest : Interest κ)
  | erase (id : PitEntryId)
  | other (op : NameTree.Op κ)
  deriving DecidableEq, Repr

def isPitOp : NameTree.Op κ → Bool
  | .insertPitEntry _ _ => true
  | .erasePitEntry _ _ => true
  | _ => false

def step [NameComponent κ] (hashFunc : κ → HashValue) (pit : Pit κ) : Op κ → Option (Pit κ)
  | .insert interest => (pit.insert hashFunc interest).map fun r => r.2.2
  | .erase id => pit.erase id true
  | .other op =>
    if isPitOp op then none
    else (NameTree.step hashFunc pit.nameTree op).map fun t => { pit with nameTree := t }

def run [NameComponent κ] (hashFunc : κ → HashValue) (options : HashtableOptions) (ops : List (Op κ)) :
    Option (Pit κ) :=
  ops.foldlM (step hashFunc) (empty options)

end Runs

end Pit

open List Option Function

section Depth

variable [NameComponent κ] {name : List κ}

theorem nteDepth_le_length : nteDepth name ≤ name.length := (min_le_left _ _).trans (Nat.sub_le _ _)

theorem nteDepth_le_maxDepth : nteDepth name ≤ getMaxDepth := min_le_right _ _

theorem length_take_nteDepth : (name.take (nteDepth name)).length = nteDepth name := by
  rw [length_take,min_eq_left nteDepth_le_length]

theorem eq_of_take_of_drop {m n : List κ} (htake : m.take (nteDepth m) = n.take (nteDepth n))
    (hdrop : m.drop (nteDepth n) = n.drop (nteDepth n)) : m = n := by
  have hdepth : nteDepth m = nteDepth n := by
    rw [← length_take_nteDepth,htake,length_take_nteDepth]
  rw [hdepth] at htake
  rw [← take_append_drop (nteDepth n) m,htake,hdrop,take_append_drop]

end Depth

section Selectors

variable [NameComponent κ]
variable {i j : Interest κ}

theorem sameSelectors_iff : i.sameSelectors j = true ↔
    i.name = j.name ∧ i.canBePrefix = j.canBePrefix ∧ i.mustBeFresh = j.mustBeFresh := by
  simp [Interest.sameSelectors,and_assoc]

theorem sameSelectors_symm (h : i.sameSelectors j = true) :
    j.sameSelectors i = true := by
  obtain ⟨h₁,h₂,h₃⟩ := sameSelectors_iff.mp h
  exact sameSelectors_iff.mpr ⟨h₁.symm,h₂.symm,h₃.symm⟩

theorem sameSelectors_trans {k : Interest κ} (h : i.sameSelectors j = true)
    (h' : j.sameSelectors k = true) : i.sameSelectors k = true := by
  obtain ⟨h₁,h₂,h₃⟩ := sameSelectors_iff.mp h
  obtain ⟨h₁',h₂',h₃'⟩ := sameSelectors_iff.mp h'
  exact sameSelectors_iff.mpr ⟨h₁.trans h₁',h₂.trans h₂',h₃.trans h₃'⟩

end Selectors

namespace Pit

variable {hashFunc : κ → HashValue} {pit pit' : Pit κ} {t : NameTree κ} {x : NodeId}
  {id : PitEntryId}

section Places

theorem pitEntriesAt_of_entry {nte : Entry κ} (h : pit.nameTree.entry x = some nte) :
    pit.pitEntriesAt x = nte.tables.pitEntries := by
  unfold pitEntriesAt
  rw [h]
  rfl

/-- Changes of the tree that keep the PIT entries and the names where they are attached. -/
def KeepsPit (pit : Pit κ) (t : NameTree κ) : Prop :=
  ∀ x, pitEntriesAt { pit with nameTree := t } x = pit.pitEntriesAt x ∧
    (pit.pitEntriesAt x ≠ [] → t.nameOf x = pit.nameTree.nameOf x)

theorem pitEntriesAt_eq (pit : Pit κ) (x : NodeId) : pit.pitEntriesAt x =
    ((pit.nameTree.tablesAt x).map fun p => p.2.pitEntries).getD [] := by
  unfold pitEntriesAt tablesAt
  cases pit.nameTree.entry x with
  | none => rfl
  | some e =>
    rw [map_some,bind_some]
    split_ifs with htables
    · rw [htables]
      rfl
    · rfl

theorem keepsPit_of_tablesAt (h : ∀ x, t.tablesAt x = pit.nameTree.tablesAt x) :
    pit.KeepsPit t := by
  intro x
  refine ⟨by rw [pitEntriesAt_eq,pitEntriesAt_eq,h x],fun hne => ?_⟩
  rw [pitEntriesAt_eq] at hne
  cases htables : pit.nameTree.tablesAt x with
  | none =>
    rw [htables] at hne
    exact absurd rfl hne
  | some p => rw [nameOf_of_tablesAt htables,nameOf_of_tablesAt ((h x).trans htables)]

theorem pitEntriesAt_modifyTables (f : Tables → Tables) (y : NodeId) :
    pitEntriesAt { pit with nameTree := pit.nameTree.modifyTables x f } y =
      if y = x then ((pit.nameTree.entry x).map fun e => (f e.tables).pitEntries).getD []
      else pit.pitEntriesAt y := by
  unfold pitEntriesAt
  rw [entry_modifyTables]
  split_ifs with hy
  · rw [hy,Option.map_map]
    rfl
  · rfl

theorem keepsPit_modifyTables {f : Tables → Tables}
    (hf : ∀ tables, (f tables).pitEntries = tables.pitEntries) :
    pit.KeepsPit (pit.nameTree.modifyTables x f) := by
  intro y
  refine ⟨?_,fun _ => nameOf_modifyTables f y⟩
  rw [pitEntriesAt_modifyTables]
  split_ifs with hy
  · simp only [hf,hy,pitEntriesAt]
  · rfl

end Places

variable [NameComponent κ]

structure Valid (hashFunc : κ → HashValue) (pit : Pit κ) : Prop where
  tree : NameTree.Valid hashFunc pit.nameTree
  attached : ∀ id e, pit.entries id = some e → id ∈ pit.pitEntriesAt e.nameTreeEntry ∧
    pit.nameTree.nameOf e.nameTreeEntry = some (e.interest.name.take (nteDepth e.interest.name))
  stored : ∀ x, ∀ id ∈ pit.pitEntriesAt x, ∃ e, pit.entries id = some e ∧ e.nameTreeEntry = x
  nodup : ∀ x, (pit.pitEntriesAt x).Nodup
  fresh : ∀ id, pit.nextEntry ≤ id → pit.entries id = none
  unique : ∀ id id' e e', pit.entries id = some e → pit.entries id' = some e' →
    e.interest.sameSelectors e'.interest = true → id = id'

theorem valid_empty (options : HashtableOptions) : Valid hashFunc (empty options) where
  tree := NameTree.valid_empty options
  attached _ _ h := nomatch h
  stored _ _ h := absurd h not_mem_nil
  nodup _ := nodup_nil
  fresh _ _ := rfl
  unique _ _ _ _ h := nomatch h

theorem Valid.mem_pitEntriesAt (h : Valid hashFunc pit) : id ∈ pit.pitEntriesAt x ↔
    ∃ e, pit.entries id = some e ∧ e.nameTreeEntry = x := by
  refine ⟨h.stored x id,?_⟩
  rintro ⟨e,he,rfl⟩
  exact (h.attached id e he).1

theorem Valid.lt_nextEntry (h : Valid hashFunc pit) {e : PitEntry κ} (he : pit.entries id = some e) :
    id < pit.nextEntry := by
  by_contra hle
  rw [h.fresh id (not_lt.mp hle)] at he
  cases he

section Trees

theorem Valid.withTree (h : Valid hashFunc pit) (ht : NameTree.Valid hashFunc t)
    (hkeeps : pit.KeepsPit t) : Valid hashFunc { pit with nameTree := t } where
  tree := ht
  attached id e he := by
    obtain ⟨hmem,hname⟩ := h.attached id e he
    refine ⟨by rw [(hkeeps e.nameTreeEntry).1]; exact hmem,?_⟩
    rw [← hname]
    exact (hkeeps e.nameTreeEntry).2 (ne_nil_of_mem hmem)
  stored x id hid := h.stored x id (by rw [← (hkeeps x).1]; exact hid)
  nodup x := by
    rw [(hkeeps x).1]
    exact h.nodup x
  fresh := h.fresh
  unique := h.unique

theorem keepsPit_step {op : NameTree.Op κ} (h : Valid hashFunc pit) (hop : isPitOp op = false)
    (hstep : NameTree.step hashFunc pit.nameTree op = some t) :
    NameTree.Valid hashFunc t ∧ pit.KeepsPit t := by
  have hlegal := legal_of_step hstep
  have hvalid : NameTree.Valid hashFunc t := by
    obtain ⟨t',hok,hvalid⟩ := step_spec h.tree op hlegal
    obtain rfl := some.inj (hok.symm.trans hstep)
    exact hvalid
  refine ⟨hvalid,?_⟩
  have honEntry : ∀ {x : NodeId} {f : Tables → Tables},
      (∀ tables, (f tables).pitEntries = tables.pitEntries) →
      pit.nameTree.onEntry x (pit.nameTree.modifyTables x f) = some t → pit.KeepsPit t := by
    intro x f hf hs
    obtain ⟨_,_,rfl⟩ := map_eq_some_iff.mp hs
    exact keepsPit_modifyTables hf
  cases op with
  | lookup name prefixLen =>
    obtain ⟨y,t',hok,_,_,hadds⟩ := lookup_spec h.tree hlegal.1 hlegal.2
    rw [NameTree.step,hok] at hstep
    cases hstep
    exact keepsPit_of_tablesAt hadds.tables
  | eraseIfEmpty y canEraseAncestors =>
    obtain ⟨e,he⟩ := isSome_iff_exists.mp hlegal
    obtain ⟨n,t',hok,_,htables⟩ := eraseIfEmpty_spec h.tree he canEraseAncestors
    rw [NameTree.step,hok] at hstep
    cases hstep
    exact keepsPit_of_tablesAt htables
  | insertPitEntry y pitEntry => simp [isPitOp] at hop
  | erasePitEntry y pitEntry => simp [isPitOp] at hop
  | _ => exact honEntry (by intro; rfl) hstep

end Trees

section Find

theorem findAt_spec (h : Valid hashFunc pit) {nte : Entry κ} {interest : Interest κ}
    (hnte : pit.nameTree.entry x = some nte)
    (hname : nte.name = interest.name.take (nteDepth interest.name)) :
    pit.findAt nte interest = some id ↔
      ∃ e, pit.entries id = some e ∧ e.interest.sameSelectors interest = true := by
  -- What the comparison of the rest says at this place.
  have hcan : ∀ e : PitEntry κ, e.nameTreeEntry = x → pit.nameTree.nameOf x =
      some (e.interest.name.take (nteDepth e.interest.name)) →
      (e.canMatch interest (nteDepth interest.name) = true ↔
        e.interest.sameSelectors interest = true) := by
    intro e _ hx
    rw [nameOf,hnte,map_some,hname] at hx
    have htake := (some.inj hx).symm
    rw [PitEntry.canMatch,Bool.and_eq_true,Bool.and_eq_true,decide_eq_true_iff,decide_eq_true_iff,
      decide_eq_true_iff,sameSelectors_iff,and_assoc]
    apply and_congr_left
    intro _
    constructor
    · exact eq_of_take_of_drop htake
    · intro heq
      rw [heq]
  unfold findAt
  rw [← pitEntriesAt_of_entry hnte]
  constructor
  · intro hfind
    obtain ⟨e,he,hx⟩ := h.stored x id (mem_of_find?_eq_some hfind)
    have hmatch := find?_some hfind
    rw [he] at hmatch
    exact ⟨e,he,(hcan e hx (hx ▸ (h.attached id e he).2)).mp hmatch⟩
  · rintro ⟨e,he,hmatch⟩
    obtain ⟨hmem,hplace⟩ := h.attached id e he
    have hx : e.nameTreeEntry = x := by
      obtain ⟨e',he',hname'⟩ := map_eq_some_iff.mp hplace
      apply h.tree.wf.injective _ _ e' nte he' hnte
      rw [hname',hname,(sameSelectors_iff.mp hmatch).1]
    rw [hx] at hmem hplace
    cases hfind : (pit.pitEntriesAt x).find? _ with
    | none =>
      have hno := find?_eq_none.mp hfind id hmem
      rw [he] at hno
      exact absurd ((hcan e hx hplace).mpr hmatch) hno
    | some id' =>
      obtain ⟨e',he',hx'⟩ := h.stored x id' (mem_of_find?_eq_some hfind)
      have hmatch' := find?_some hfind
      rw [he'] at hmatch'
      have hmatch'' := (hcan e' hx' (hx' ▸ (h.attached id' e' he').2)).mp hmatch'
      rw [h.unique id' id e' e he' he
        (sameSelectors_trans hmatch'' (sameSelectors_symm hmatch))]

theorem find_spec (h : Valid hashFunc pit) (interest : Interest κ) :
    ∃ r, pit.find hashFunc interest = some r ∧ ∀ id, r = some id ↔
      ∃ e, pit.entries id = some e ∧ e.interest.sameSelectors interest = true := by
  obtain ⟨found,hfound,hspec⟩ := findExactMatch_spec h.tree interest.name (nteDepth interest.name)
  unfold find
  rw [hfound,bind_some]
  cases found with
  | none =>
    refine ⟨none,rfl,fun id => iff_of_false nofun ?_⟩
    rintro ⟨e,he,hmatch⟩
    have hplace := (h.attached id e he).2
    rw [(sameSelectors_iff.mp hmatch).1] at hplace
    exact nomatch (hspec _).mpr hplace
  | some x =>
    obtain ⟨nte,hnte,hname⟩ := map_eq_some_iff.mp ((hspec x).mp rfl)
    refine ⟨pit.findAt nte interest,?_,fun id => findAt_spec h hnte hname⟩
    dsimp only
    rw [hnte]
    rfl

end Find

section Insert

private theorem Valid.update (h : Valid hashFunc pit) {e? : Option (PitEntry κ)} {f : Tables → Tables}
    {next n : Nat} (hpit : pit' =
      ⟨pit.nameTree.modifyTables x f,Function.update pit.entries id e?,next,n⟩)
    (hothers : ∀ y, ∀ id' ≠ id, id' ∈ pit'.pitEntriesAt y ↔ id' ∈ pit.pitEntriesAt y)
    (hself : ∀ y, id ∈ pit'.pitEntriesAt y ↔ ∃ e, e? = some e ∧ e.nameTreeEntry = y)
    (hnodup : ∀ y, (pit'.pitEntriesAt y).Nodup) (hnext : pit.nextEntry ≤ next)
    (hid : id < next)
    (hnew : ∀ e, e? = some e → pit.nameTree.nameOf e.nameTreeEntry =
        some (e.interest.name.take (nteDepth e.interest.name)) ∧
      ∀ id' e', pit.entries id' = some e' → e'.interest.sameSelectors e.interest = false) :
    Valid hashFunc pit' := by
  have hmem : ∀ y id', id' ∈ pit'.pitEntriesAt y ↔
      ∃ e, Function.update pit.entries id e? id' = some e ∧ e.nameTreeEntry = y := by
    intro y id'
    by_cases hid' : id' = id
    · rw [hid',hself,update_self]
    · rw [hothers y id' hid',update_of_ne hid']
      exact h.mem_pitEntriesAt
  subst hpit
  refine ⟨h.tree.modifyTables x f,fun id' e he => ⟨(hmem _ _).mpr ⟨e,he,rfl⟩,?_⟩,
    fun y id' => (hmem y id').mp,hnodup,?_,?_⟩
  · dsimp only at he ⊢
    rw [update_apply] at he
    rw [nameOf_modifyTables]
    split_ifs at he
    · exact (hnew e he).1
    · exact (h.attached id' e he).2
  · intro id' hle
    exact (update_of_ne (hid.trans_le hle).ne' _ _).trans (h.fresh id' (hnext.trans hle))
  · intro a b ea eb ha hb hmatch
    dsimp only at ha hb
    rw [update_apply] at ha hb
    split_ifs at ha hb with hida hidb hidb
    · rw [hida,hidb]
    · have hmatch := sameSelectors_symm hmatch
      rw [(hnew ea ha).2 b eb hb] at hmatch
      cases hmatch
    · rw [(hnew eb hb).2 a ea ha] at hmatch
      cases hmatch
    · exact h.unique a b ea eb ha hb hmatch

private theorem valid_attach (h : Valid hashFunc pit) {interest : Interest κ}
    (hx : pit.nameTree.nameOf x = some (interest.name.take (nteDepth interest.name)))
    (hnew : ∀ id e, pit.entries id = some e → e.interest.sameSelectors interest = false) :
    Valid hashFunc (pit.attach x interest) := by
  obtain ⟨nte,hnte,_⟩ := map_eq_some_iff.mp hx
  have hlist : ∀ y, (pit.attach x interest).pitEntriesAt y =
      if y = x then pit.pitEntriesAt x ++ [pit.nextEntry] else pit.pitEntriesAt y := by
    intro y
    refine (pitEntriesAt_modifyTables _ y).trans ?_
    rw [pitEntriesAt_of_entry hnte,hnte]
    rfl
  have hunused : ∀ y, pit.nextEntry ∉ pit.pitEntriesAt y := by
    intro y hmem
    obtain ⟨e,he,_⟩ := h.stored y _ hmem
    exact (h.lt_nextEntry he).false
  refine h.update rfl ?_ ?_ ?_ (Nat.le_succ _) (Nat.lt_succ_self _) ?_
  · intro y id' hid'
    rw [hlist]
    split_ifs with hy
    · rw [hy,mem_append,mem_singleton,or_iff_left hid']
    · rfl
  · intro y
    rw [hlist]
    split_ifs with hy
    · exact iff_of_true (mem_append_right _ (mem_singleton_self _)) ⟨_,rfl,hy.symm⟩
    · refine iff_of_false (hunused y) ?_
      rintro ⟨_,⟨⟩,rfl⟩
      exact hy rfl
  · intro y
    rw [hlist]
    split_ifs
    · rw [← concat_eq_append]
      exact (h.nodup x).concat (hunused x)
    · exact h.nodup y
  · rintro _ ⟨⟩
    exact ⟨hx,hnew⟩

theorem insert_spec (h : Valid hashFunc pit) (interest : Interest κ) :
    ∃ id isNew pit', pit.insert hashFunc interest = some (id,isNew,pit') ∧ Valid hashFunc pit' ∧
      (∃ e, pit'.entries id = some e ∧ e.interest.sameSelectors interest = true) ∧
      (∀ id' e, pit.entries id' = some e → pit'.entries id' = some e) ∧
      ∀ id', id' ≠ id → pit'.entries id' = pit.entries id' := by
  obtain ⟨x,t,hlookup,ht,hx,hadds⟩ :=
    lookup_spec h.tree (show nteDepth interest.name ≤ interest.name.length from nteDepth_le_length)
      nteDepth_le_maxDepth
  have hvalid := h.withTree ht (keepsPit_of_tablesAt hadds.tables)
  obtain ⟨nte,hnte,hname⟩ := map_eq_some_iff.mp hx
  have heq : pit.insert hashFunc interest =
      (findAt { pit with nameTree := t } nte interest).elim
        (some (pit.nextEntry,true,attach { pit with nameTree := t } x interest))
        fun id => some (id,false,{ pit with nameTree := t }) := by
    unfold insert
    rw [hlookup]
    dsimp only [bind,Option.bind]
    rw [hnte]
    dsimp only
    cases findAt { pit with nameTree := t } nte interest <;> rfl
  rw [heq]
  cases hfind : findAt { pit with nameTree := t } nte interest with
  | some id =>
    exact ⟨id,false,_,rfl,hvalid,(findAt_spec hvalid hnte hname).mp hfind,fun _ _ he => he,
      fun _ _ => rfl⟩
  | none =>
    refine ⟨pit.nextEntry,true,_,rfl,valid_attach hvalid hx ?_,?_,?_,?_⟩
    · intro id e he
      by_contra hmatch
      have hsome := (findAt_spec hvalid hnte hname).mpr ⟨e,he,Bool.not_eq_false _ ▸ hmatch⟩
      rw [hfind] at hsome
      cases hsome
    · refine ⟨⟨interest,x⟩,update_self _ _ _,?_⟩
      simp [Interest.sameSelectors]
    · intro id' e he
      exact (update_of_ne (h.lt_nextEntry he).ne _ _).trans he
    · intro id' hid'
      exact update_of_ne hid' _ _

end Insert

section Erase

private theorem set_getLastD_dropLast_perm {l : List PitEntryId} (h : id ∈ l) :
    ((l.set (l.idxOf id) (l.getLastD id)).dropLast).Perm (l.erase id) := by
  obtain ⟨l₁,l₂,rfl,hid⟩ := eq_append_cons_of_mem h
  rw [idxOf_append_of_notMem hid,idxOf_cons_self,Nat.add_zero,
    set_append_right _ _ le_rfl,Nat.sub_self,set_cons_zero,erase_append_right _ hid,
    erase_cons_head]
  cases l₂ using List.reverseRecOn with
  | nil => simp
  | append_singleton m z _ =>
    have hlast : (l₁ ++ id :: (m ++ [z])).getLastD id = z := by
      rw [← cons_append,← append_assoc,getLastD_concat]
    rw [hlast,← cons_append,← append_assoc,dropLast_concat]
    exact (perm_append_singleton z m).symm.append_left l₁

private def detach (pit : Pit κ) (x : NodeId) (id : PitEntryId) : Pit κ :=
  { pit with
    nameTree := pit.nameTree.erasePitEntry x id
    entries := update pit.entries id none
    nItems := pit.nItems - 1 }

private theorem valid_detach (h : Valid hashFunc pit) {e : PitEntry κ}
    (he : pit.entries id = some e) : Valid hashFunc (pit.detach e.nameTreeEntry id) := by
  obtain ⟨hmem,hplace⟩ := h.attached id e he
  obtain ⟨nte,hnte,_⟩ := map_eq_some_iff.mp hplace
  have hperm : ((pit.detach e.nameTreeEntry id).pitEntriesAt e.nameTreeEntry).Perm
      ((pit.pitEntriesAt e.nameTreeEntry).erase id) := by
    refine List.Perm.trans (List.Perm.of_eq ?_) (set_getLastD_dropLast_perm hmem)
    refine (pitEntriesAt_modifyTables _ _).trans ?_
    rw [if_pos rfl,pitEntriesAt_of_entry hnte,hnte]
    rfl
  have hother : ∀ y, y ≠ e.nameTreeEntry →
      (pit.detach e.nameTreeEntry id).pitEntriesAt y = pit.pitEntriesAt y :=
    fun y hy => (pitEntriesAt_modifyTables _ _).trans (if_neg hy)
  refine h.update rfl ?_ ?_ ?_ le_rfl (h.lt_nextEntry he) nofun
  · intro y id' hid'
    by_cases hy : y = e.nameTreeEntry
    · rw [hy,hperm.mem_iff,mem_erase_of_ne hid']
    · rw [hother y hy]
  · intro y
    refine iff_of_false ?_ nofun
    by_cases hy : y = e.nameTreeEntry
    · rw [hy,hperm.mem_iff]
      exact (h.nodup _).not_mem_erase
    · rw [hother y hy,h.mem_pitEntriesAt]
      rintro ⟨e',he',rfl⟩
      obtain rfl := some.inj (he.symm.trans he')
      exact hy rfl
  · intro y
    by_cases hy : y = e.nameTreeEntry
    · rw [hy]
      exact hperm.nodup_iff.mpr ((h.nodup _).erase id)
    · rw [hother y hy]
      exact h.nodup y

theorem erase_spec (h : Valid hashFunc pit) {e : PitEntry κ} (he : pit.entries id = some e) :
    ∃ pit', pit.erase id true = some pit' ∧ Valid hashFunc pit' ∧
      pit'.entries = update pit.entries id none := by
  obtain ⟨hmem,hplace⟩ := h.attached id e he
  obtain ⟨nte,hnte,_⟩ := map_eq_some_iff.mp hplace
  rw [pitEntriesAt_of_entry hnte] at hmem
  have hvalid := valid_detach h he
  obtain ⟨nte₁,hnte₁⟩ : ∃ nte₁,
      (pit.nameTree.erasePitEntry e.nameTreeEntry id).entry e.nameTreeEntry = some nte₁ := by
    rw [erasePitEntry,entry_modifyTables,if_pos rfl,hnte]
    exact ⟨_,rfl⟩
  obtain ⟨n,t,herase,ht,htables⟩ := eraseIfEmpty_spec hvalid.tree hnte₁ true
  refine ⟨{ pit.detach e.nameTreeEntry id with nameTree := t },?_,
    hvalid.withTree ht (keepsPit_of_tablesAt htables),rfl⟩
  unfold erase
  rw [he]
  dsimp only [bind,Option.bind]
  rw [hnte]
  dsimp only
  rw [if_pos hmem,if_pos rfl,show (pit.nameTree.erasePitEntry e.nameTreeEntry id).eraseIfEmpty
    e.nameTreeEntry true = some (n,t) from herase]
  rfl

end Erase

end Pit

end KiteNdn.Table
