import KiteNdn.Name.Wire
import KiteNdn.Table.Pit

/-!
# Lookups in the PIT

After any run of the PIT and the other tables on the name tree, the entries found for a Data are the
ones it matches, and an Interest finds the entry that was inserted for it and not erased.
-/

namespace KiteNdn.Table.Pit

open Framework NameTree List Option Function

variable {κ : Type} {hashFunc : κ → HashValue} {options : HashtableOptions} {pit pit' : Pit κ}
  {id : PitEntryId} {ops : List (Op κ)}

section Runs

variable [NameComponent κ]

inductive Changes (hashFunc : κ → HashValue) (pit pit' : Pit κ) : Op κ → Prop where
  | insert {interest : Interest κ} {id : PitEntryId} {isNew : Bool}
      (hok : pit.insert hashFunc interest = some (id,isNew,pit'))
      (hentry : ∃ e, pit'.entries id = some e ∧ e.interest.sameSelectors interest = true)
      (hkept : ∀ id' e, pit.entries id' = some e → pit'.entries id' = some e)
      (hother : ∀ id', id' ≠ id → pit'.entries id' = pit.entries id') :
      Changes hashFunc pit pit' (.insert interest)
  | erase {id : PitEntryId} (hentries : pit'.entries = update pit.entries id none) :
      Changes hashFunc pit pit' (.erase id)
  | other {op : NameTree.Op κ} (hentries : pit'.entries = pit.entries) :
      Changes hashFunc pit pit' (.other op)

theorem valid_step (h : Valid hashFunc pit) {op : Op κ} (hstep : step hashFunc pit op = some pit') :
    Valid hashFunc pit' ∧ Changes hashFunc pit pit' op := by
  cases op with
  | insert interest =>
    obtain ⟨id,isNew,pit₁,hok,hvalid,hentry,hkept,hother⟩ := insert_spec h interest
    rw [step,hok] at hstep
    cases hstep
    exact ⟨hvalid,.insert hok hentry hkept hother⟩
  | erase id =>
    cases he : pit.entries id with
    | none =>
      rw [step,erase,he] at hstep
      exact nomatch hstep
    | some e =>
      obtain ⟨pit₁,hok,hvalid,hentries⟩ := erase_spec h he
      rw [step,hok] at hstep
      cases hstep
      exact ⟨hvalid,.erase hentries⟩
  | other op =>
    rw [step] at hstep
    split_ifs at hstep with hop
    obtain ⟨t,ht,rfl⟩ := map_eq_some_iff.mp hstep
    obtain ⟨hvalid,hkeeps⟩ := keepsPit_step h (Bool.not_eq_true _ ▸ hop) ht
    exact ⟨h.withTree hvalid hkeeps,.other rfl⟩

theorem valid_run (h : run hashFunc options ops = some pit) : Valid hashFunc pit :=
  foldlM_keeps (Valid hashFunc) (fun _ _ _ hs hstep => (valid_step hs hstep).1) ops
    (valid_empty options) h

/-- Some insertion for the Interest gave this entry, and it has not been erased since. -/
def IsPending (hashFunc : κ → HashValue) (options : HashtableOptions) (ops : List (Op κ))
    (interest : Interest κ) (id : PitEntryId) : Prop :=
  ∃ past i future pit₀ isNew pit₁, ops = past ++ .insert i :: future ∧
    run hashFunc options past = some pit₀ ∧ pit₀.insert hashFunc i = some (id,isNew,pit₁) ∧
    i.matchesInterest interest = true ∧ .erase id ∉ future

private theorem IsPending.append {interest : Interest κ} {op : Op κ}
    (h : IsPending hashFunc options ops interest id) (hop : op ≠ .erase id) :
    IsPending hashFunc options (ops ++ [op]) interest id := by
  obtain ⟨past,i,future,pit₀,isNew,pit₁,rfl,hrun,hinsert,hmatch,herase⟩ := h
  refine ⟨past,i,future ++ [op],pit₀,isNew,pit₁,by simp,hrun,hinsert,hmatch,?_⟩
  rw [mem_append,mem_singleton]
  rintro (hmem | heq)
  · exact herase hmem
  · exact hop heq.symm

end Runs

section Pending

variable [CanonicalComponent κ]

theorem matchesInterest_eq (i j : Interest κ) : i.matchesInterest j = i.sameSelectors j := by
  simp only [Interest.matchesInterest,Interest.sameSelectors,toName_inj]

/-- The entries of the table are the pending ones. The induction is on the last operation. -/
theorem entries_iff_isPending (h : run hashFunc options ops = some pit) (interest : Interest κ)
    (id : PitEntryId) :
    (∃ e, pit.entries id = some e ∧ e.interest.sameSelectors interest = true) ↔
      IsPending hashFunc options ops interest id := by
  induction ops using reverseRecOn generalizing pit with
  | nil =>
    cases h
    refine iff_of_false ?_ ?_
    · rintro ⟨e,he,_⟩
      exact nomatch he
    · rintro ⟨past,i,future,_,_,_,hops,_⟩
      exact absurd hops (by simp)
  | append_singleton ops op ih =>
    obtain ⟨pit₀,hrun,hstep⟩ := foldlM_concat h
    have hchanges := (valid_step (valid_run hrun) hstep).2
    constructor
    · rintro ⟨e,he,hmatch⟩
      have hold : pit₀.entries id = some e → op ≠ .erase id →
          IsPending hashFunc options (ops ++ [op]) interest id := fun he hop =>
        ((ih hrun).mp ⟨e,he,hmatch⟩).append hop
      cases hchanges with
      | @insert i id' isNew hok hentry hkept hother =>
        by_cases hid : id = id'
        · subst hid
          obtain ⟨e',he',hmatch'⟩ := hentry
          obtain rfl := some.inj (he.symm.trans he')
          refine ⟨ops,i,[],pit₀,isNew,pit,rfl,hrun,hok,?_,not_mem_nil⟩
          rw [matchesInterest_eq]
          exact sameSelectors_trans (sameSelectors_symm hmatch') hmatch
        · exact hold (hother id hid ▸ he) nofun
      | @erase id' hentries =>
        have hid : id ≠ id' := by
          rintro rfl
          rw [hentries,update_self] at he
          exact nomatch he
        rw [hentries,update_of_ne hid] at he
        exact hold he fun heq => hid (Op.erase.inj heq).symm
      | other hentries => exact hold (hentries ▸ he) nofun
    · rintro ⟨past,i,future,pit₁,isNew,pit₂,hops,hrun₁,hinsert,hmatch,herase⟩
      cases future using reverseRecOn with
      | nil =>
        obtain ⟨rfl,heq⟩ := append_inj' hops rfl
        obtain rfl : op = .insert i := (cons.inj heq).1
        obtain rfl := some.inj (hrun.symm.trans hrun₁)
        cases hchanges with
        | @insert _ id' isNew' hok hentry _ _ =>
          obtain ⟨rfl,_⟩ := Prod.mk.inj (some.inj (hok.symm.trans hinsert))
          obtain ⟨e,he,hmatch'⟩ := hentry
          rw [matchesInterest_eq] at hmatch
          exact ⟨e,he,sameSelectors_trans hmatch' hmatch⟩
      | append_singleton future last _ =>
        rw [← cons_append,← append_assoc] at hops
        obtain ⟨rfl,heq⟩ := append_inj' hops rfl
        obtain rfl : op = last := (cons.inj heq).1
        rw [mem_append,mem_singleton,not_or] at herase
        obtain ⟨e,he,hmatch'⟩ := (ih hrun).mpr
          ⟨past,i,future,pit₁,isNew,pit₂,rfl,hrun₁,hinsert,hmatch,herase.1⟩
        refine ⟨e,?_,hmatch'⟩
        cases hchanges with
        | insert _ _ hkept _ => exact hkept id e he
        | @erase id' hentries =>
          have hid : id ≠ id' := fun heq => herase.2 (congrArg Op.erase heq)
          rw [hentries,update_of_ne hid]
          exact he
        | other hentries =>
          rw [hentries]
          exact he

end Pending

section DataMatches

variable [CanonicalComponent κ]

theorem take_nteDepth_of_matchesData {interest : Interest κ} {data : Data κ}
    (h : interest.matchesData data = true) :
    nteDepth interest.name ≤ min data.name.length getMaxDepth ∧
      interest.name.take (nteDepth interest.name) = data.name.take (nteDepth interest.name) := by
  have hprefix : ∀ {name : List κ}, name <+: data.name →
      nteDepth name ≤ min data.name.length getMaxDepth ∧
        name.take (nteDepth name) = data.name.take (nteDepth name) := by
    intro name hname
    obtain ⟨suffix,heq⟩ := hname
    rw [← heq,take_append_of_le_length nteDepth_le_length]
    refine ⟨le_min (nteDepth_le_length.trans ?_) nteDepth_le_maxDepth,rfl⟩
    rw [length_append]
    exact Nat.le_add_right _ _
  unfold Interest.matchesData at h
  dsimp only at h
  rw [Bool.and_eq_true] at h
  have hname := h.1
  split_ifs at hname with hlen
  · -- The name ends with the digest of the Data.
    rw [Bool.and_eq_true,decide_eq_true_iff,toName,getLast?_map,Option.any_map] at hname
    have hdepth : nteDepth interest.name = min data.name.length getMaxDepth := by
      have hdigest : hasDigest interest.name = true := hname.1
      rw [nteDepth,hdigest,if_pos rfl,hlen,Nat.add_sub_cancel]
    refine ⟨hdepth.le,?_⟩
    have hfull : toName interest.name = data.getFullName := hname.2
    rw [← toName_inj,toName_take,toName_take,hfull,Data.getFullName,
      take_append_of_le_length (by rw [hdepth,length_toName]; exact min_le_left _ _)]
  · exact hprefix (toName_prefix_iff.mp (List.isPrefixOf_iff_prefix.mp hname))
  · rw [decide_eq_true_iff,toName_inj] at hname
    exact hprefix (hname ▸ prefix_rfl)

/-- The entries found for a Data are those it satisfies, each once. -/
theorem findAllDataMatches_spec (h : Valid hashFunc pit) (data : Data κ) :
    ∃ l, pit.findAllDataMatches hashFunc data = some l ∧ l.Nodup ∧ ∀ id, id ∈ l ↔
      ∃ e, pit.entries id = some e ∧ e.interest.matchesData data = true := by
  obtain ⟨ntes,hntes,hnodup,hmem⟩ := findAllMatches_spec h.tree pit.nteHasPitEntries data.name
  unfold findAllDataMatches
  rw [hntes]
  refine ⟨_,rfl,?_,fun id => ?_⟩
  · rw [nodup_flatMap]
    refine ⟨fun x _ => (h.nodup x).filter _,hnodup.imp ?_⟩
    intro x y hne id hx hy
    obtain ⟨e,he,hxe⟩ := h.stored x id (mem_filter.mp hx).1
    obtain ⟨e',he',hye⟩ := h.stored y id (mem_filter.mp hy).1
    obtain rfl := some.inj (he.symm.trans he')
    exact hne (hxe.symm.trans hye)
  · rw [mem_flatMap]
    constructor
    · rintro ⟨x,_,hid⟩
      obtain ⟨hid,hmatch⟩ := mem_filter.mp hid
      obtain ⟨e,he,_⟩ := h.stored x id hid
      rw [he] at hmatch
      exact ⟨e,he,hmatch⟩
    · rintro ⟨e,he,hmatch⟩
      obtain ⟨hid,hplace⟩ := h.attached id e he
      obtain ⟨hdepth,htake⟩ := take_nteDepth_of_matchesData hmatch
      refine ⟨e.nameTreeEntry,(hmem _).mpr ⟨?_,nteDepth e.interest.name,hdepth,htake ▸ hplace⟩,?_⟩
      · obtain ⟨nte,hnte,_⟩ := map_eq_some_iff.mp hplace
        unfold pitEntriesAt at hid
        rw [nteHasPitEntries,hnte]
        rw [hnte] at hid
        simpa [Entry.hasPitEntries] using ne_nil_of_mem hid
      · rw [mem_filter,he]
        exact ⟨hid,hmatch⟩

/-- Names in the shortest form. After every run: the entries for a Data, one entry for each Interest,
and the entry that was inserted and not erased. -/
theorem run_findsMatches (hashFunc : ShortestComponent → HashValue) (options : HashtableOptions)
    (ops : List (Op ShortestComponent)) (pit : Pit ShortestComponent)
    (h : run hashFunc options ops = some pit) :
    (∀ data, ∃ l, pit.findAllDataMatches hashFunc data = some l ∧ l.Nodup ∧ ∀ id, id ∈ l ↔
      ∃ e, pit.entries id = some e ∧ e.interest.matchesData data = true) ∧
    (∀ id id' e e', pit.entries id = some e → pit.entries id' = some e' →
      e.interest.matchesInterest e'.interest = true → id = id') ∧
    ∀ interest, ∃ r, pit.find hashFunc interest = some r ∧ ∀ id, r = some id ↔
      IsPending hashFunc options ops interest id := by
  have hvalid := valid_run h
  refine ⟨findAllDataMatches_spec hvalid,?_,fun interest => ?_⟩
  · simp only [matchesInterest_eq]
    exact hvalid.unique
  · obtain ⟨r,hr,hspec⟩ := find_spec hvalid interest
    exact ⟨r,hr,fun id => (hspec id).trans (entries_iff_isPending h interest id)⟩

private def nameA : List ShortestComponent := [letterA]
private def fullNameA : List ShortestComponent :=
  nameA ++ [⟨.ofComponent ⟨1,replicate 32 0⟩ (by decide),rfl⟩]

def digestOps : List (Op ShortestComponent) :=
  [.insert { name := nameA, nonce := [1] },.insert { name := fullNameA, nonce := [2] },.erase 0]

theorem run_findsMatches_digest :
    ∃ pit, run (fun _ => 0) (.ofSize 1 Nat.one_pos) digestOps = some pit ∧
      pit.findAllDataMatches (fun _ => 0) { name := nameA, digest := replicate 32 0 } =
        some [1] ∧
      ∃ r, pit.find (fun _ => 0) { name := nameA, nonce := [3] } = some r ∧
        ∀ id, r = some id ↔ IsPending (fun _ => 0) (.ofSize 1 Nat.one_pos) digestOps
          { name := nameA, nonce := [3] } id := by
  have hfound : ((run (fun _ => 0) (.ofSize 1 Nat.one_pos) digestOps).map fun pit =>
      pit.findAllDataMatches (fun _ => 0) { name := nameA, digest := replicate 32 0 }) =
        some (some [1]) := by
    decide +kernel
  obtain ⟨pit,hrun,hdata⟩ := map_eq_some_iff.mp hfound
  exact ⟨pit,hrun,hdata,
    (run_findsMatches (fun _ => 0) (.ofSize 1 Nat.one_pos) digestOps pit hrun).2.2 _⟩

/-- An Interest whose name is in the long form is matched by the Data, but not found for it, and the
same Interest in the short form gets an entry of its own. -/
theorem misses_long_form : ∃ pit e e', run (fun _ => 0) (.ofSize 1 Nat.one_pos)
      [.insert { name := [longFormA], nonce := [1] },.insert { name := [shortFormA], nonce := [2] }] =
        some pit ∧ pit.entries 0 = some e ∧ pit.entries 1 = some e' ∧
      e.interest.matchesData { name := [shortFormA] } = true ∧
      pit.findAllDataMatches (fun _ => 0) { name := [shortFormA] } = some [1] ∧
      e.interest.matchesInterest e'.interest = true := by
  have hfound : ((run (fun _ => 0) (.ofSize 1 Nat.one_pos)
      [.insert { name := [longFormA], nonce := [1] },
      .insert { name := [shortFormA], nonce := [2] }]).bind fun pit => (pit.entries 0).bind fun e =>
        (pit.entries 1).map fun e' => (e.interest.matchesData { name := [shortFormA] },
          pit.findAllDataMatches (fun _ => 0) { name := [shortFormA] },
          e.interest.matchesInterest e'.interest)) = some (true,some [1],true) := by
    decide +kernel
  obtain ⟨pit,hrun,hfound⟩ := bind_eq_some_iff.mp hfound
  obtain ⟨e,he,hfound⟩ := bind_eq_some_iff.mp hfound
  obtain ⟨e',he',hfound⟩ := map_eq_some_iff.mp hfound
  simp only [Prod.mk.injEq] at hfound
  exact ⟨pit,e,e',hrun,he,he',hfound⟩

end DataMatches

section LongestPrefix

variable [NameComponent κ] {t : NameTree κ} {name : List κ}

private theorem goDeeper_spec (h : NameTree.Valid hashFunc t) (c : Nat) :
    ∀ (k : Nat) (x : NodeId), t.nameOf x = some (name.take k) →
      ∃ y m, goDeeper hashFunc t name (List.range' (k + 1) c) x = some y ∧ k ≤ m ∧ m ≤ k + c ∧
        t.nameOf y = some (name.take m) ∧
        ∀ j, m < j → j ≤ k + c → j ≤ name.length → ¬t.HasName (name.take j) := by
  induction c with
  | zero =>
    intro k x hx
    exact ⟨x,k,rfl,le_rfl,le_rfl,hx,fun j hj hj' _ => absurd hj' (by omega)⟩
  | succ c ih =>
    intro k x hx
    obtain ⟨r,hr,hspec⟩ := findExactMatch_spec h name (k + 1)
    rw [range'_succ,goDeeper,hr,bind_some]
    cases r with
    | none =>
      refine ⟨x,k,rfl,le_rfl,Nat.le_add_right _ _,hx,fun j hj _ hjlen hname => ?_⟩
      -- A longer prefix would have this one above it.
      have hprefix : name.take (k + 1) <+: name.take j :=
        take_prefix_take_left (by omega)
      obtain ⟨y,hy⟩ := h.hasName_of_prefix hname hprefix
      exact nomatch (hspec y).mpr hy
    | some y =>
      obtain ⟨z,m,hok,hkm,hm,hz,hno⟩ := ih (k + 1) y ((hspec y).mp rfl)
      exact ⟨z,m,hok,by omega,by omega,hz,fun j hj hj' => hno j hj (by omega)⟩

theorem findLongestPrefixMatch_spec (h : Valid hashFunc pit) {e : PitEntry κ}
    (he : pit.entries id = some e) (entrySelector : NodeId → Bool) :
    ∃ r, pit.findLongestPrefixMatch hashFunc entrySelector id = some r ∧
      pit.nameTree.findLongestPrefixMatch hashFunc entrySelector e.interest.name = some r := by
  have hplace := (h.attached id e he).2
  obtain ⟨nte,hnte,hname⟩ := map_eq_some_iff.mp hplace
  have hlen : nte.name.length = nteDepth e.interest.name := by rw [hname,length_take_nteDepth]
  have hdepth : nteDepth e.interest.name ≤ min e.interest.name.length getMaxDepth :=
    le_min nteDepth_le_length nteDepth_le_maxDepth
  -- Where the walk up starts.
  obtain ⟨y,m,hstart,hm,hy,hno⟩ : ∃ y m,
      deepestEntry hashFunc pit.nameTree e.interest.name e.nameTreeEntry nte = some y ∧
      m ≤ min e.interest.name.length getMaxDepth ∧
      pit.nameTree.nameOf y = some (e.interest.name.take m) ∧
      ∀ j, m < j → j ≤ min e.interest.name.length getMaxDepth →
        ¬pit.nameTree.HasName (e.interest.name.take j) := by
    rw [deepestEntry,hlen]
    split_ifs with hlt
    · obtain ⟨y,m,hok,_,hm,hy,hno⟩ := goDeeper_spec h.tree
        (min e.interest.name.length getMaxDepth - nteDepth e.interest.name) _ _ hplace
      exact ⟨y,m,hok,by omega,hy,fun j hj hj' => hno j hj (by omega) (by omega)⟩
    · exact ⟨e.nameTreeEntry,nteDepth e.interest.name,rfl,hdepth,hplace,
        fun j hj hj' => absurd hj' (by omega)⟩
  obtain ⟨l,hl⟩ := h.tree.exists_lineage hy
  refine ⟨l.find? entrySelector,?_,findLongestPrefixMatch_eq h.tree hm hy hno hl.path⟩
  unfold findLongestPrefixMatch
  rw [he]
  dsimp only [bind,Option.bind]
  rw [hnte]
  dsimp only
  rw [hstart]
  exact findLongestPrefixMatchOfEntry_eq hy hl

theorem run_findLongestPrefixMatch (hashFunc : κ → HashValue) (options : HashtableOptions)
    (ops : List (Op κ)) (pit : Pit κ) (h : run hashFunc options ops = some pit) (id : PitEntryId)
    (e : PitEntry κ) (he : pit.entries id = some e) (entrySelector : NodeId → Bool) :
    ∃ r, pit.findLongestPrefixMatch hashFunc entrySelector id = some r ∧
      pit.nameTree.findLongestPrefixMatch hashFunc entrySelector e.interest.name = some r :=
  findLongestPrefixMatch_spec (valid_run h) he entrySelector

def deeperOps : List Op :=
  [.insert { name := [Component.generic [97],⟨1,replicate 32 0⟩], nonce := [1] },
    .other (.lookup [Component.generic [97],⟨1,replicate 32 0⟩] 2)]

theorem run_findLongestPrefixMatch_digest :
    ∃ pit e, run (fun _ => 0) (.ofSize 1 Nat.one_pos) deeperOps = some pit ∧
      pit.entries 0 = some e ∧ ∃ r, pit.findLongestPrefixMatch (fun _ => 0) (fun _ => true) 0 =
        some r ∧ pit.nameTree.findLongestPrefixMatch (fun _ => 0) (fun _ => true) e.interest.name =
          some r := by
  have hentry : ((run (fun _ => 0) (.ofSize 1 Nat.one_pos) deeperOps).bind fun pit =>
      pit.entries 0).isSome = true := by decide +kernel
  obtain ⟨e,he⟩ := isSome_iff_exists.mp hentry
  obtain ⟨pit,hrun,he⟩ := bind_eq_some_iff.mp he
  exact ⟨pit,e,hrun,he,run_findLongestPrefixMatch (fun _ => 0) (.ofSize 1 Nat.one_pos) deeperOps pit
    hrun 0 e he fun _ => true⟩

end LongestPrefix

end KiteNdn.Table.Pit
