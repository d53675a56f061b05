import KiteNdn.NameTree.Content
import KiteNdn.NameTree.Tree

/-!
# The invariant of the name tree

The links between entries follow their names. Lookups add leaves, erasures take leaves away, and
what the tables have attached stays as it is.
-/

namespace KiteNdn.NameTree

open Hashtable List Function

variable {κ : Type} {name : List κ} {e : Entry κ}

section Links

variable {entry : NodeId → Option (Entry κ)} {x p : NodeId} {e pe : Entry κ}

/-- Parents are the entries of the shorter names, and children the other way round. -/
structure IsTree (entry : NodeId → Option (Entry κ)) : Prop where
  depth : ∀ x e, entry x = some e → e.name.length ≤ getMaxDepth
  root : ∀ x e, entry x = some e → (e.parent = none ↔ e.name = [])
  parent : ∀ x e p, entry x = some e → e.parent = some p →
    ∃ pe, entry p = some pe ∧ pe.name = e.name.dropLast
  nodup : ∀ p pe, entry p = some pe → pe.children.Nodup
  children : ∀ p pe, entry p = some pe → ∀ c, c ∈ pe.children ↔
    ∃ ce, entry c = some ce ∧ ce.parent = some p

theorem IsTree.ne_of_parent (h : IsTree entry) (he : entry x = some e) (hp : e.parent = some p) :
    p ≠ x := by
  rintro rfl
  obtain ⟨pe,hpe,hname⟩ := h.parent p e p he hp
  obtain rfl := Option.some.inj (he.symm.trans hpe)
  have hlen := congrArg List.length hname
  rw [length_dropLast] at hlen
  have hnil : e.name = [] := eq_nil_of_length_eq_zero (by omega)
  have hnone := (h.root p e he).mpr hnil
  rw [hp] at hnone
  exact nomatch hnone

theorem IsTree.congr (h : IsTree entry) {entry' : NodeId → Option (Entry κ)}
    (hsame : ∀ x, (entry' x).map (fun e => { e with tables := {} }) =
      (entry x).map fun e => { e with tables := {} }) : IsTree entry' := by
  have hbare : ∀ {entry : NodeId → Option (Entry κ)}, IsTree entry ↔
      IsTree fun x => (entry x).map fun e => { e with tables := {} } := by
    intro entry
    constructor
    · rintro ⟨hdepth,hroot,hparent,hnodup,hchildren⟩
      refine ⟨by simpa using hdepth,by simpa using hroot,?_,by simpa using hnodup,
        by simpa using hchildren⟩
      intro x e p he hp
      obtain ⟨e₀,he₀,rfl⟩ := Option.map_eq_some_iff.mp he
      simpa using hparent x e₀ p he₀ hp
    · rintro ⟨hdepth,hroot,hparent,hnodup,hchildren⟩
      refine ⟨by simpa using hdepth,by simpa using hroot,?_,by simpa using hnodup,
        by simpa using hchildren⟩
      intro x e p he hp
      simpa using hparent x { e with tables := {} } p (by rw [he]; rfl) hp
  rw [hbare,funext hsame]
  exact hbare.mp h

theorem IsTree.ne_of_none (h : IsTree entry) (hx : entry x = none) {y : NodeId}
    (he : entry y = some e) : y ≠ x ∧ x ∉ e.children ∧ e.parent ≠ some x := by
  have hne : ∀ {z e}, entry z = some e → z ≠ x := by
    rintro z e hz rfl
    rw [hx] at hz
    cases hz
  refine ⟨hne he,fun hmem => ?_,fun hparent => ?_⟩
  · obtain ⟨ce,hce,_⟩ := (h.children y e he x).mp hmem
    exact hne hce rfl
  · obtain ⟨pe,hpe,_⟩ := h.parent y e x he hparent
    exact hne hpe rfl

def withEntry (entry : NodeId → Option (Entry κ)) (x : NodeId) (parent : Option NodeId) (name : List κ)
    (y : NodeId) : Option (Entry κ) :=
  if y = x then some { name := name, parent := parent }
  else if parent = some y then (entry y).map fun e => { e with children := e.children ++ [x] }
  else entry y

theorem IsTree.add (h : IsTree entry) (hx : entry x = none) {parent : Option NodeId}
    (hroot : parent = none ↔ name = [])
    (hparent : ∀ p, parent = some p → ∃ pe, entry p = some pe ∧ pe.name = name.dropLast)
    (hdepth : name.length ≤ getMaxDepth) : IsTree (withEntry entry x parent name) := by
  have hcases : ∀ y e, withEntry entry x parent name y = some e →
      y = x ∧ e = { name := name, parent := parent } ∨
      ∃ e₀, entry y = some e₀ ∧ e.name = e₀.name ∧ e.parent = e₀.parent ∧
        e.children = if parent = some y then e₀.children ++ [x] else e₀.children := by
    intro y e he
    unfold withEntry at he
    split_ifs at he with hyx hyp
    · exact Or.inl ⟨hyx,(Option.some.inj he).symm⟩
    · obtain ⟨e₀,he₀,rfl⟩ := Option.map_eq_some_iff.mp he
      exact Or.inr ⟨e₀,he₀,rfl,rfl,by rw [if_pos hyp]⟩
    · exact Or.inr ⟨e,he,rfl,rfl,by rw [if_neg hyp]⟩
  have hlive : ∀ y e₀, entry y = some e₀ → ∃ e, withEntry entry x parent name y = some e ∧
      e.name = e₀.name ∧ e.parent = e₀.parent := by
    intro y e₀ he₀
    unfold withEntry
    rw [if_neg (h.ne_of_none hx he₀).1,he₀]
    split_ifs
    · exact ⟨_,rfl,rfl,rfl⟩
    · exact ⟨_,rfl,rfl,rfl⟩
  refine ⟨?_,?_,?_,?_,?_⟩
  · intro y e he
    rcases hcases y e he with ⟨_,rfl⟩ | ⟨e₀,he₀,hname,_⟩
    · exact hdepth
    · exact hname ▸ h.depth y e₀ he₀
  · intro y e he
    rcases hcases y e he with ⟨_,rfl⟩ | ⟨e₀,he₀,hname,hparent,_⟩
    · exact hroot
    · rw [hname,hparent]
      exact h.root y e₀ he₀
  · intro y e q he hq
    obtain ⟨qe,hqe,hqname⟩ : ∃ qe, entry q = some qe ∧ qe.name = e.name.dropLast := by
      rcases hcases y e he with ⟨_,rfl⟩ | ⟨e₀,he₀,hname,hparent,_⟩
      · exact hparent q hq
      · exact hname ▸ h.parent y e₀ q he₀ (hparent ▸ hq)
    obtain ⟨qe',hqe',hname',_⟩ := hlive q qe hqe
    exact ⟨qe',hqe',hname'.trans hqname⟩
  · intro y e he
    rcases hcases y e he with ⟨_,rfl⟩ | ⟨e₀,he₀,_,_,hchildren⟩
    · exact nodup_nil
    · rw [hchildren]
      split_ifs
      · rw [← concat_eq_append]
        exact (h.nodup y e₀ he₀).concat (h.ne_of_none hx he₀).2.1
      · exact h.nodup y e₀ he₀
  · intro y e he c
    have hparents : (∃ ce, withEntry entry x parent name c = some ce ∧ ce.parent = some y) ↔
        c = x ∧ parent = some y ∨ ∃ ce, entry c = some ce ∧ ce.parent = some y := by
      constructor
      · rintro ⟨ce,hce,hy⟩
        rcases hcases c ce hce with ⟨hcx,rfl⟩ | ⟨ce₀,hce₀,_,hparent₀,_⟩
        · exact Or.inl ⟨hcx,hy⟩
        · exact Or.inr ⟨ce₀,hce₀,hparent₀ ▸ hy⟩
      · rintro (⟨rfl,hy⟩ | ⟨ce,hce,hy⟩)
        · exact ⟨_,if_pos rfl,hy⟩
        · obtain ⟨ce',hce',_,hparent'⟩ := hlive c ce hce
          exact ⟨ce',hce',hparent'.trans hy⟩
    rw [hparents]
    rcases hcases y e he with ⟨rfl,rfl⟩ | ⟨e₀,he₀,_,_,hchildren⟩
    · refine iff_of_false not_mem_nil ?_
      rintro (⟨_,hy⟩ | ⟨ce,hce,hy⟩)
      · obtain ⟨pe,hpe,_⟩ := hparent y hy
        exact (h.ne_of_none hx hpe).1 rfl
      · exact (h.ne_of_none hx hce).2.2 hy
    · rw [hchildren]
      split_ifs with hyp
      · rw [mem_append,mem_singleton,h.children y e₀ he₀,or_comm]
        simp [hyp]
      · rw [h.children y e₀ he₀]
        simp [hyp]

def withoutLeaf (entry : NodeId → Option (Entry κ)) (x : NodeId) (parent : Option NodeId)
    (y : NodeId) :
    Option (Entry κ) :=
  if y = x then none
  else if parent = some y then (entry y).map fun e => { e with children := e.children.erase x }
  else entry y

theorem IsTree.removeLeaf (h : IsTree entry) (hx : entry x = some e) (hleaf : e.children = []) :
    IsTree (withoutLeaf entry x e.parent) := by
  have hcases : ∀ y e', withoutLeaf entry x e.parent y = some e' →
      y ≠ x ∧ ∃ e₀, entry y = some e₀ ∧ e'.name = e₀.name ∧ e'.parent = e₀.parent ∧
        e'.children = if e.parent = some y then e₀.children.erase x else e₀.children := by
    intro y e' he'
    unfold withoutLeaf at he'
    split_ifs at he' with hyx hyp
    · obtain ⟨e₀,he₀,rfl⟩ := Option.map_eq_some_iff.mp he'
      exact ⟨hyx,e₀,he₀,rfl,rfl,by rw [if_pos hyp]⟩
    · exact ⟨hyx,e',he',rfl,rfl,by rw [if_neg hyp]⟩
  have hlive : ∀ y e₀, y ≠ x → entry y = some e₀ →
      ∃ e', withoutLeaf entry x e.parent y = some e' ∧ e'.name = e₀.name ∧
        e'.parent = e₀.parent := by
    intro y e₀ hyx he₀
    unfold withoutLeaf
    rw [if_neg hyx,he₀]
    split_ifs
    · exact ⟨_,rfl,rfl,rfl⟩
    · exact ⟨_,rfl,rfl,rfl⟩
  have hnochild : ∀ y e₀, entry y = some e₀ → e₀.parent ≠ some x := by
    intro y e₀ he₀ hparent
    have hmem := (h.children x e hx y).mpr ⟨e₀,he₀,hparent⟩
    rw [hleaf] at hmem
    exact absurd hmem not_mem_nil
  refine ⟨?_,?_,?_,?_,?_⟩
  · intro y e' he'
    obtain ⟨_,e₀,he₀,hname,_⟩ := hcases y e' he'
    exact hname ▸ h.depth y e₀ he₀
  · intro y e' he'
    obtain ⟨_,e₀,he₀,hname,hparent,_⟩ := hcases y e' he'
    rw [hname,hparent]
    exact h.root y e₀ he₀
  · intro y e' q he' hq
    obtain ⟨_,e₀,he₀,hname,hparent,_⟩ := hcases y e' he'
    rw [hparent] at hq
    obtain ⟨qe,hqe,hqname⟩ := h.parent y e₀ q he₀ hq
    have hqx : q ≠ x := fun heq => hnochild y e₀ he₀ (heq ▸ hq)
    obtain ⟨qe',hqe',hname',_⟩ := hlive q qe hqx hqe
    exact ⟨qe',hqe',by rw [hname',hqname,hname]⟩
  · intro y e' he'
    obtain ⟨_,e₀,he₀,_,_,hchildren⟩ := hcases y e' he'
    rw [hchildren]
    split_ifs
    · exact (h.nodup y e₀ he₀).erase x
    · exact h.nodup y e₀ he₀
  · intro y e' he' c
    obtain ⟨_,e₀,he₀,_,_,hchildren⟩ := hcases y e' he'
    have hparents : (∃ ce, withoutLeaf entry x e.parent c = some ce ∧ ce.parent = some y) ↔
        c ≠ x ∧ ∃ ce, entry c = some ce ∧ ce.parent = some y := by
      constructor
      · rintro ⟨ce,hce,hparent⟩
        obtain ⟨hcx,ce₀,hce₀,_,hparent₀,_⟩ := hcases c ce hce
        exact ⟨hcx,ce₀,hce₀,hparent₀ ▸ hparent⟩
      · rintro ⟨hcx,ce,hce,hparent⟩
        obtain ⟨ce',hce',_,hparent'⟩ := hlive c ce hcx hce
        exact ⟨ce',hce',hparent'.trans hparent⟩
    rw [hparents,hchildren]
    split_ifs with hyp
    · rw [(h.nodup y e₀ he₀).mem_erase_iff,h.children y e₀ he₀]
    · rw [h.children y e₀ he₀]
      constructor
      · rintro ⟨ce,hce,hparent⟩
        refine ⟨?_,ce,hce,hparent⟩
        rintro rfl
        obtain rfl := Option.some.inj (hx.symm.trans hce)
        exact hyp hparent
      · exact And.right

end Links

section Operations

variable {hashFunc : κ → HashValue} {t t' t'' : NameTree κ} {x : NodeId}

structure Valid (hashFunc : κ → HashValue) (t : NameTree κ) : Prop where
  wf : Wf hashFunc t
  tree : IsTree t.entry

def nameOf (t : NameTree κ) (x : NodeId) : Option (List κ) := (t.entry x).map Entry.name

def HasName (t : NameTree κ) (n : List κ) : Prop := ∃ x, t.nameOf x = some n

def tablesAt (t : NameTree κ) (x : NodeId) : Option (List κ × Tables) :=
  (t.entry x).bind fun e => if e.tables = {} then none else some (e.name,e.tables)

theorem Entry.hasTableEntries_eq_false : e.hasTableEntries = false ↔ e.tables = {} := by
  obtain ⟨_,_,_,⟨fib,pit,measurements,strategyChoice⟩⟩ := e
  simp [hasTableEntries,hasPitEntries,and_assoc]

theorem Entry.isEmpty_iff : e.isEmpty = true ↔ e.children = [] ∧ e.tables = {} := by
  rw [isEmpty,Bool.and_eq_true,Bool.not_eq_true',Bool.not_eq_true',hasTableEntries_eq_false]
  simp [hasChildren]

theorem valid_empty (options : HashtableOptions) : Valid hashFunc (empty options) where
  wf := wf_empty options
  tree := ⟨nofun,nofun,nofun,nofun,nofun⟩

theorem Valid.modifyTables (h : Valid hashFunc t) (x : NodeId) (f : Tables → Tables) :
    Valid hashFunc (t.modifyTables x f) := by
  refine ⟨wf_modifyEntry h.wf fun _ => rfl,h.tree.congr fun y => ?_⟩
  rw [NameTree.modifyTables,entry_modifyEntry]
  split_ifs
  · rw [Option.map_map]
    rfl
  · rfl

section Lookup

private theorem setParent_spec [DecidableEq κ] {p : NodeId} {pe : Entry κ} (h : IsTree t.entry)
    (hwf : Wf hashFunc t')
    (hx : t.entry x = none) (hentry : t'.entry = update t.entry x (some { name := name }))
    (hp : t.entry p = some pe) (hname : pe.name = name.dropLast) (hne : name ≠ [])
    (hdepth : name.length ≤ getMaxDepth) :
    ∃ t'', t'.setParent x p = some t'' ∧ Valid hashFunc t'' ∧
      t''.entry = withEntry t.entry x (some p) name := by
  have hpx : p ≠ x := (h.ne_of_none hx hp).1
  have hx' : t'.entry x = some { name := name } := by rw [hentry,update_self]
  have hp' : t'.entry p = some pe := by rw [hentry,update_of_ne hpx,hp]
  let t₁ := t'.modifyEntry x fun e => { e with parent := some p }
  let t₂ := t₁.modifyEntry p fun e => { e with children := e.children ++ [x] }
  have heq : t₂.entry = withEntry t.entry x (some p) name := by
    funext y
    rw [entry_modifyEntry,entry_modifyEntry,hentry]
    unfold withEntry
    by_cases hyx : y = x
    · subst hyx
      rw [if_neg hpx.symm,if_pos rfl,if_pos rfl,update_self]
      rfl
    · simp only [if_neg hyx,update_of_ne hyx,Option.some_inj,eq_comm (a := p)]
  have hwf₂ : Wf hashFunc t₂ :=
    wf_modifyEntry (wf_modifyEntry hwf (by intro; rfl)) (by intro; rfl)
  refine ⟨t₂,?_,⟨hwf₂,?_⟩,heq⟩
  · unfold setParent
    rw [hx']
    dsimp only [bind,Option.bind]
    rw [hp']
    exact if_pos ⟨rfl,hne,hname⟩
  · rw [heq]
    exact h.add hx (iff_of_false nofun hne)
      (fun q hq => Option.some.inj hq ▸ ⟨pe,hp,hname⟩) hdepth

/-- The parent that the loop carries when it comes to the prefix of length `i`. -/
def IsParentAt (t : NameTree κ) (name : List κ) : Nat → Option NodeId → Prop
  | 0, parent => parent = none
  | i + 1, parent => ∃ p, parent = some p ∧ t.nameOf p = some (name.take i)

/-- What a lookup does to the tree: names are added, tables are not touched. -/
structure Adds (t t' : NameTree κ) (new : List κ → Prop) : Prop where
  names : ∀ n, t'.HasName n ↔ t.HasName n ∨ new n
  tables : ∀ x, t'.tablesAt x = t.tablesAt x

private theorem adds_of_entry (hx : t.entry x = none) (hnew : t'.nameOf x = some name)
    (hno : t'.tablesAt x = none)
    (hother : ∀ y, y ≠ x → (t'.entry y).map (fun e => (e.name,e.tables)) =
      (t.entry y).map fun e => (e.name,e.tables)) : Adds t t' (· = name) := by
  have hname : ∀ y, y ≠ x → t'.nameOf y = t.nameOf y := by
    intro y hy
    have h := congrArg (Option.map Prod.fst) (hother y hy)
    rw [Option.map_map,Option.map_map] at h
    exact h
  refine ⟨fun n => ⟨?_,?_⟩,fun y => ?_⟩
  · rintro ⟨y,hy⟩
    by_cases hyx : y = x
    · subst hyx
      exact Or.inr (Option.some.inj (hy.symm.trans hnew))
    · exact Or.inl ⟨y,hname y hyx ▸ hy⟩
  · rintro (⟨y,hy⟩ | rfl)
    · have hyx : y ≠ x := by
        rintro rfl
        rw [nameOf,hx] at hy
        exact nomatch hy
      exact ⟨y,(hname y hyx).trans hy⟩
    · exact ⟨x,hnew⟩
  · by_cases hyx : y = x
    · subst hyx
      rw [hno,tablesAt,hx]
      rfl
    · have h := congrArg (fun o => o.bind fun p : List κ × Tables =>
        if p.2 = {} then none else some (p.1,p.2)) (hother y hyx)
      simp only [Option.bind_map] at h
      exact h

private theorem adds_self (h : t.HasName name) : Adds t t (· = name) where
  names n := ⟨Or.inl,by rintro (h' | rfl); exacts [h',h]⟩
  tables _ := rfl

private theorem lookupStep_spec [DecidableEq κ] (h : Valid hashFunc t) {depth i : Nat} (hi : i ≤ depth)
    (hdepth : depth ≤ name.length) (hmax : depth ≤ getMaxDepth) {parent : Option NodeId}
    (hparent : t.IsParentAt name i parent) :
    ∃ t' x, lookupStep name (computeHashes hashFunc name depth) (t,parent) i = some (t',some x) ∧
      Valid hashFunc t' ∧ t'.nameOf x = some (name.take i) ∧ Adds t t' (· = name.take i) := by
  unfold lookupStep
  rcases insert_spec h.wf hi hdepth with ⟨x,hx,hok⟩ | ⟨hnone,t₁,hok,hwf,_,hentry⟩
  · refine ⟨t,x,?_,h,hx,adds_self ⟨x,hx⟩⟩
    rw [hok]
    cases parent <;> rfl
  · have hfresh := h.wf.fresh t.nextNode le_rfl
    cases i with
    | zero =>
      obtain rfl : parent = none := hparent
      have hroot : t₁.entry = withEntry t.entry t.nextNode none [] := by
        rw [hentry]
        funext y
        by_cases hy : y = t.nextNode <;> simp [withEntry,update_apply,hy]
      refine ⟨t₁,t.nextNode,by rw [hok]; rfl,⟨hwf,?_⟩,?_,?_⟩
      · rw [hroot]
        exact h.tree.add hfresh (iff_of_true rfl rfl) nofun (Nat.zero_le _)
      · rw [nameOf,hentry,update_self]
        rfl
      · apply adds_of_entry hfresh
        · rw [nameOf,hentry,update_self]
          rfl
        · rw [tablesAt,hentry,update_self]
          rfl
        · intro y hy
          rw [hentry,update_of_ne hy]
    | succ i =>
      obtain ⟨p,rfl,hp⟩ := hparent
      obtain ⟨pe,hpe,hpname⟩ := Option.map_eq_some_iff.mp hp
      have hlen : (name.take (i + 1)).length = i + 1 := by
        rw [length_take]
        omega
      obtain ⟨t₂,hset,hvalid,hentry₂⟩ := setParent_spec h.tree hwf hfresh hentry hpe
        (by rw [hpname,List.dropLast_eq_take,hlen,List.take_take,min_eq_left (by omega)]; rfl)
        (by rw [← List.length_pos_iff,hlen]; omega) (by omega)
      have hat : t₂.entry t.nextNode = some { name := name.take (i + 1), parent := some p } := by
        rw [hentry₂]
        exact if_pos rfl
      refine ⟨t₂,t.nextNode,?_,hvalid,?_,?_⟩
      · rw [hok]
        show (setParent t₁ t.nextNode p).bind _ = _
        rw [hset]
        rfl
      · rw [nameOf,hat]
        rfl
      · apply adds_of_entry hfresh
        · rw [nameOf,hat]
          rfl
        · rw [tablesAt,hat]
          rfl
        · intro y hy
          rw [hentry₂,withEntry,if_neg hy]
          split_ifs
          · rw [Option.map_map]
            rfl
          · rfl

theorem lookup_spec [DecidableEq κ] (h : Valid hashFunc t) {depth : Nat} (hdepth : depth ≤ name.length)
    (hmax : depth ≤ getMaxDepth) :
    ∃ x t', t.lookup hashFunc name depth = some (x,t') ∧ Valid hashFunc t' ∧
      t'.nameOf x = some (name.take depth) ∧ Adds t t' fun n => ∃ i ≤ depth, n = name.take i := by
  -- The loop has looked up the prefixes shorter than `k`.
  have hloop : ∀ k, k ≤ depth + 1 → ∃ t' parent,
      (List.range k).foldlM (lookupStep name (computeHashes hashFunc name depth)) (t,none) =
        some (t',parent) ∧ Valid hashFunc t' ∧ t'.IsParentAt name k parent ∧
      Adds t t' fun n => ∃ i < k, n = name.take i := by
    intro k
    induction k with
    | zero =>
      intro _
      exact ⟨t,none,rfl,h,rfl,fun n => ⟨Or.inl,by rintro (h | ⟨_,h,_⟩); exacts [h,nomatch h]⟩,
        fun _ => rfl⟩
    | succ k ih =>
      intro hk
      obtain ⟨t₁,parent,hok,hvalid,hparent,hadds⟩ := ih (by omega)
      obtain ⟨t₂,x,hstep,hvalid₂,hx,hadds₂⟩ :=
        lookupStep_spec hvalid (by omega) hdepth hmax hparent
      refine ⟨t₂,some x,?_,hvalid₂,⟨x,rfl,hx⟩,fun n => ?_,fun y => ?_⟩
      · rw [List.range_succ,foldlM_append,hok]
        show (lookupStep name _ (t₁,parent) k).bind _ = _
        rw [hstep]
        rfl
      · rw [hadds₂.names,hadds.names,or_assoc]
        apply or_congr_right
        simp only [Nat.lt_succ_iff_lt_or_eq,or_and_right,exists_or,exists_eq_left]
      · rw [hadds₂.tables,hadds.tables]
  obtain ⟨t',parent,hok,hvalid,hparent,hadds⟩ := hloop (depth + 1) le_rfl
  obtain ⟨x,rfl,hx⟩ := hparent
  refine ⟨x,t',?_,hvalid,hx,?_⟩
  · unfold lookup
    rw [if_pos ⟨hdepth,hmax⟩]
    dsimp only [bind,Option.bind]
    rw [hok]
    rfl
  · simpa only [Nat.lt_succ_iff] using hadds

end Lookup

section Erase

theorem eraseEntry_spec (h : Valid hashFunc t) (he : t.entry x = some e) (hleaf : e.children = []) :
    ∃ t', t.eraseEntry x e.parent = some t' ∧ Valid hashFunc t' ∧
      t'.entry = withoutLeaf t.entry x e.parent := by
  cases hparent : e.parent with
  | none =>
    obtain ⟨t',hok,hwf,_,hentry⟩ := erase_spec h.wf he hparent
    have heq : t'.entry = withoutLeaf t.entry x none := by
      rw [hentry]
      funext y
      by_cases hy : y = x
      · rw [hy,update_self]
        exact (if_pos rfl).symm
      · rw [update_of_ne hy,withoutLeaf,if_neg hy]
        rfl
    refine ⟨t',hok,⟨hwf,?_⟩,heq⟩
    rw [heq,← hparent]
    exact h.tree.removeLeaf he hleaf
  | some p =>
    obtain ⟨pe,hpe,_⟩ := h.tree.parent x e p he hparent
    have hpx : p ≠ x := h.tree.ne_of_parent he hparent
    have hmem : x ∈ pe.children := (h.tree.children p pe hpe x).mpr ⟨e,he,hparent⟩
    let t₁ := t.modifyEntry p fun e => { e with children := e.children.erase x }
    let t₂ := t₁.modifyEntry x fun e => { e with parent := none }
    have hunset : t.unsetParent x = some t₂ := by
      unfold unsetParent
      rw [he]
      dsimp only [bind,Option.bind]
      rw [hparent]
      dsimp only
      rw [hpe]
      exact if_pos hmem
    have he₂ : t₂.entry x = some { e with parent := none } := by
      rw [entry_modifyEntry,if_pos rfl,entry_modifyEntry,if_neg hpx.symm,he]
      rfl
    have hwf₂ : Wf hashFunc t₂ :=
      wf_modifyEntry (wf_modifyEntry h.wf (by intro; rfl)) (by intro; rfl)
    obtain ⟨t',hok,hwf,_,hentry⟩ := erase_spec hwf₂ he₂ rfl
    have heq : t'.entry = withoutLeaf t.entry x (some p) := by
      rw [hentry]
      funext y
      by_cases hy : y = x
      · rw [hy,update_self]
        exact (if_pos rfl).symm
      · rw [update_of_ne hy,withoutLeaf,if_neg hy,entry_modifyEntry,if_neg hy,
          entry_modifyEntry]
        simp only [Option.some.injEq,eq_comm]
    refine ⟨t',?_,⟨hwf,?_⟩,heq⟩
    · show (t.unsetParent x).bind _ = _
      rw [hunset]
      exact hok
    · rw [heq,← hparent]
      exact h.tree.removeLeaf he hleaf

private theorem tablesAt_withoutLeaf {parent : Option NodeId} (he : t.entry x = some e)
    (htables : e.tables = {}) (hentry : t'.entry = withoutLeaf t.entry x parent) (y : NodeId) :
    t'.tablesAt y = t.tablesAt y := by
  unfold tablesAt
  rw [hentry,withoutLeaf]
  split_ifs with hy
  · rw [hy,he,Option.bind_some,if_pos htables]
    rfl
  · rw [Option.bind_map]
    rfl
  · rfl

private theorem eraseIfEmptyLoop_spec (canEraseAncestors : Bool) (fuel : Nat) :
    ∀ (t : NameTree κ) (cur : Option NodeId) (nErased : Nat), Valid hashFunc t →
      (∀ x, cur = some x → ∃ e, t.entry x = some e ∧ e.name.length < fuel) →
      ∃ n t', eraseIfEmptyLoop canEraseAncestors fuel t cur nErased = some (n,t') ∧
        Valid hashFunc t' ∧ ∀ y, t'.tablesAt y = t.tablesAt y := by
  induction fuel with
  | zero =>
    intro t cur nErased h hcur
    cases cur with
    | none => exact ⟨nErased,t,rfl,h,fun _ => rfl⟩
    | some x =>
      obtain ⟨_,_,hlt⟩ := hcur x rfl
      exact absurd hlt (Nat.not_lt_zero _)
  | succ fuel ih =>
    intro t cur nErased h hcur
    cases cur with
    | none => exact ⟨nErased,t,rfl,h,fun _ => rfl⟩
    | some x =>
      obtain ⟨e,he,hlt⟩ := hcur x rfl
      rw [eraseIfEmptyLoop,he,Option.bind_some]
      split_ifs with hempty hancestors
      · obtain ⟨hleaf,htables⟩ := Entry.isEmpty_iff.mp hempty
        obtain ⟨t₁,hok,hvalid,hentry⟩ := eraseEntry_spec h he hleaf
        have hkept : ∀ y, t₁.tablesAt y = t.tablesAt y :=
          tablesAt_withoutLeaf he htables hentry
        rw [hok,Option.bind_some]
        obtain ⟨n,t',hloop,hvalid',hkept'⟩ := ih t₁ e.parent (nErased + 1) hvalid (by
          intro p hp
          obtain ⟨pe,hpe,hname⟩ := h.tree.parent x e p he hp
          have hpx : p ≠ x := h.tree.ne_of_parent he hp
          refine ⟨{ pe with children := pe.children.erase x },?_,?_⟩
          · rw [hentry,withoutLeaf,if_neg hpx,if_pos hp,hpe]
            rfl
          · have hne : e.name ≠ [] := by
              intro hnil
              rw [(h.tree.root x e he).mpr hnil] at hp
              exact nomatch hp
            have hpos := List.length_pos_of_ne_nil hne
            show pe.name.length < fuel
            rw [hname,length_dropLast]
            omega)
        exact ⟨n,t',hloop,hvalid',fun y => (hkept' y).trans (hkept y)⟩
      · obtain ⟨hleaf,htables⟩ := Entry.isEmpty_iff.mp hempty
        obtain ⟨t₁,hok,hvalid,hentry⟩ := eraseEntry_spec h he hleaf
        rw [hok,Option.bind_some]
        exact ⟨_,_,rfl,hvalid,tablesAt_withoutLeaf he htables hentry⟩
      · exact ⟨_,_,rfl,h,fun _ => rfl⟩

theorem eraseIfEmpty_spec (h : Valid hashFunc t) (he : t.entry x = some e)
    (canEraseAncestors : Bool) :
    ∃ n t', t.eraseIfEmpty x canEraseAncestors = some (n,t') ∧ Valid hashFunc t' ∧
      ∀ y, t'.tablesAt y = t.tablesAt y := by
  unfold eraseIfEmpty
  rw [he,Option.bind_some]
  apply eraseIfEmptyLoop_spec canEraseAncestors _ t (some x) 0 h
  rintro y hy
  cases hy
  exact ⟨e,he,Nat.lt_succ_self _⟩

end Erase

end Operations

end KiteNdn.NameTree
