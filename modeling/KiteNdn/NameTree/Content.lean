import KiteNdn.NameTree.Hashtable
import Mathlib.Data.List.Perm.Subperm

/-!
# Every node is in the bucket of its hash

The invariant of the hash table is stated for any set of nodes, since a table that is being resized
holds only the nodes moved so far. Seen from outside, the table is a function from nodes to entries
with distinct names.
-/

namespace KiteNdn.NameTree.Hashtable

open Framework.LinkedList List Option Function

variable {κ : Type} {ht ht' ht'' : Hashtable κ} {id : NodeId}

/-- Only pointers between nodes differ. -/
structure SameContent (ht ht' : Hashtable κ) : Prop where
  options : ht'.options = ht.options
  nextNode : ht'.nextNode = ht.nextNode
  size : ht'.size = ht.size
  hash : ∀ x, ht'.hash x = ht.hash x
  entry : ∀ x, ht'.entry x = ht.entry x

theorem SameContent.refl (ht : Hashtable κ) : SameContent ht ht :=
  ⟨rfl,rfl,rfl,fun _ => rfl,fun _ => rfl⟩

theorem SameContent.trans (h : SameContent ht ht') (h' : SameContent ht' ht'') :
    SameContent ht ht'' where
  options := h'.options.trans h.options
  nextNode := h'.nextNode.trans h.nextNode
  size := h'.size.trans h.size
  hash x := (h'.hash x).trans (h.hash x)
  entry x := (h'.entry x).trans (h.entry x)

theorem SameContent.setBucket (h : SameContent ht ht') {b : Nat} {head : Option NodeId} :
    SameContent ht (ht'.setBucket b head) :=
  ⟨h.1,h.2,h.3,h.4,h.5⟩

section Modify

variable {f : Node κ → Node κ}

theorem nodes_modify (x : NodeId) :
    (ht.modify id f).nodes x = if x = id then (ht.nodes x).map f else ht.nodes x := rfl

private theorem map_modify {β : Type} (g : Node κ → β) (x : NodeId) :
    ((ht.modify id f).nodes x).map g =
      if x = id then (ht.nodes x).map fun n => g (f n) else (ht.nodes x).map g := by
  rw [nodes_modify]
  split_ifs
  · exact Option.map_map g f _
  · rfl

private theorem map_modify_of {β : Type} {g : Node κ → β} (hg : ∀ n, g (f n) = g n) (x : NodeId) :
    ((ht.modify id f).nodes x).map g = (ht.nodes x).map g := by
  simp only [map_modify,hg]
  exact ite_id _

theorem sameContent_modify (hhash : ∀ n, (f n).hash = n.hash)
    (hentry : ∀ n, (f n).entry = n.entry) : SameContent ht (ht.modify id f) :=
  ⟨rfl,rfl,rfl,map_modify_of hhash,map_modify_of hentry⟩

private theorem bind_modify (g : Node κ → Option NodeId) (x : NodeId) :
    ((ht.modify id f).nodes x).bind g =
      if x = id then (ht.nodes x).bind fun n => g (f n) else (ht.nodes x).bind g := by
  rw [nodes_modify]
  split_ifs
  · rw [bind_map]
    rfl
  · rfl

theorem next_modify (x : NodeId) : (ht.modify id f).next x =
    if x = id then (ht.nodes x).bind fun n => (f n).next else ht.next x :=
  bind_modify Node.next x

theorem prev_modify (x : NodeId) : (ht.modify id f).prev x =
    if x = id then (ht.nodes x).bind fun n => (f n).prev else ht.prev x :=
  bind_modify Node.prev x

theorem next_modify_of (hf : ∀ n, (f n).next = n.next) (x : NodeId) :
    (ht.modify id f).next x = ht.next x := by
  simp only [next_modify,hf]
  exact ite_id _

theorem prev_modify_of (hf : ∀ n, (f n).prev = n.prev) (x : NodeId) :
    (ht.modify id f).prev x = ht.prev x := by
  simp only [prev_modify,hf]
  exact ite_id _

private theorem prev_congr {x : NodeId}
    (h : (ht'.nodes x).map Node.prev = (ht.nodes x).map Node.prev) : ht'.prev x = ht.prev x := by
  simpa [prev,bind_map] using congrArg (Option.bind · id) h

end Modify

section Pointers

private theorem ite_bind_const {x y : NodeId} {m : Node κ} {new old : Option NodeId}
    (hm : ht.nodes y = some m) :
    (if x = y then (ht.nodes x).bind fun _ => new else old) =
      if some y = some x then new else old := by
  by_cases hx : x = y
  · rw [if_pos hx,if_pos (congrArg some hx.symm),hx,hm]
    rfl
  · rw [if_neg hx,if_neg fun heq => hx (some.inj heq).symm]

theorem relinkPrev_spec (ht : Hashtable κ) {node : Option NodeId} (expected new : Option NodeId)
    (h : ∀ n, node = some n → (ht.nodes n).map Node.prev = some expected) :
    ∃ ht', ht.relinkPrev node expected new = some ht' ∧ SameContent ht ht' ∧
      ht'.buckets = ht.buckets ∧ (∀ x, ht'.next x = ht.next x) ∧
      ∀ x, ht'.prev x = if node = some x then new else ht.prev x := by
  cases node with
  | none => exact ⟨ht,rfl,SameContent.refl ht,rfl,fun _ => rfl,fun _ => (if_neg nofun).symm⟩
  | some n =>
    refine ⟨ht.modify n fun x => { x with prev := new },if_pos (h n rfl),
      sameContent_modify (fun _ => rfl) fun _ => rfl,rfl,next_modify_of fun _ => rfl,fun x => ?_⟩
    obtain ⟨m,hm,_⟩ := map_eq_some_iff.mp (h n rfl)
    rw [prev_modify,ite_bind_const hm]

theorem relinkNext_spec {b : Nat} {before : Option NodeId} (after : Option NodeId)
    (hfirst : before = none → ht.getBucket b = some id)
    (hbefore : ∀ p, before = some p → ht.next p = some id) :
    ∃ ht', ht.relinkNext b id before after = some ht' ∧ SameContent ht ht' ∧
      ht'.buckets = (if before = none then ht.buckets.set b after else ht.buckets) ∧
      (∀ x, ht'.next x = if before = some x then after else ht.next x) ∧
      ∀ x, (ht'.nodes x).map Node.prev = (ht.nodes x).map Node.prev := by
  cases before with
  | none =>
    exact ⟨ht.setBucket b after,if_pos (hfirst rfl),(SameContent.refl ht).setBucket,rfl,
      fun _ => (if_neg nofun).symm,fun _ => rfl⟩
  | some p =>
    refine ⟨ht.modify p fun x => { x with next := after },if_pos (hbefore p rfl),
      sameContent_modify (fun _ => rfl) fun _ => rfl,rfl,fun x => ?_,fun x => ?_⟩
    · obtain ⟨m,hm,_⟩ := bind_eq_some_iff.mp (hbefore p rfl)
      rw [next_modify,ite_bind_const hm]
    · exact map_modify_of (by intro; rfl) x

theorem attach_links {b : Nat} {node : Node κ} (hnode : ht.nodes id = some node)
    (hhead : ∀ n, ht.getBucket b = some n → n ≠ id ∧ (ht.nodes n).map Node.prev = some none) :
    ∃ ht', ht.attach b id = some ht' ∧ SameContent ht ht' ∧
      ht'.buckets = ht.buckets.set b (some id) ∧
      (∀ x, ht'.next x = if x = id then ht.getBucket b else ht.next x) ∧
      ∀ x, ht'.prev x =
        if x = id then none else if ht.getBucket b = some x then some id else ht.prev x := by
  obtain ⟨ht₁,h₁,hsame,hbuckets,hnext,hprev⟩ := relinkPrev_spec
    (ht.modify id fun n => { n with prev := none, next := ht.getBucket b }) none (some id)
    fun n hn => by
      rw [nodes_modify,if_neg (hhead n hn).1]
      exact (hhead n hn).2
  refine ⟨ht₁.setBucket b (some id),?_,?_,congrArg (List.set · b (some id)) hbuckets,?_,?_⟩
  · rw [attach,h₁]
    rfl
  · exact ((sameContent_modify (by intro; rfl) (by intro; rfl)).trans hsame).setBucket
  · intro x
    refine (hnext x).trans ?_
    rw [next_modify]
    split_ifs with hx
    · rw [hx,hnode]
      rfl
    · rfl
  · intro x
    refine (hprev x).trans ?_
    rw [prev_modify]
    by_cases hx : x = id
    · rw [if_neg fun heq => (hhead x heq).1 hx,if_pos hx,if_pos hx,hx,hnode]
      rfl
    · rw [if_neg hx,if_neg hx]

theorem detach_links {b : Nat} {node : Node κ} (hnode : ht.nodes id = some node)
    (hfirst : ht.prev id = none → ht.getBucket b = some id)
    (hbefore : ∀ p, ht.prev id = some p → ht.next p = some id)
    (hafter : ∀ n, ht.next id = some n → ht.prev n = some id) :
    ∃ ht', ht.detach b id = some ht' ∧ SameContent ht ht' ∧
      ht'.buckets = (if ht.prev id = none then ht.buckets.set b (ht.next id) else ht.buckets) ∧
      (∀ x, x ≠ id → ht'.next x = if ht.prev id = some x then ht.next id else ht.next x) ∧
      ∀ x, x ≠ id → ht'.prev x = if ht.next id = some x then ht.prev id else ht.prev x := by
  have hp : node.prev = ht.prev id := by rw [prev,hnode]; rfl
  have hn : node.next = ht.next id := by rw [next,hnode]; rfl
  obtain ⟨ht₁,h₁,hsame₁,hbuckets₁,hnext₁,hprev₁⟩ := relinkNext_spec (ht.next id) hfirst hbefore
  obtain ⟨ht₂,h₂,hsame₂,hbuckets₂,hnext₂,hprev₂⟩ := relinkPrev_spec ht₁ (some id)
    (ht.prev id) fun n hn => by
      obtain ⟨m,hm,hmp⟩ := bind_eq_some_iff.mp (hafter n hn)
      rw [hprev₁,hm,map_some,hmp]
  refine ⟨ht₂.modify id fun n => { n with prev := none, next := none },?_,
    (hsame₁.trans hsame₂).trans (sameContent_modify (fun _ => rfl) fun _ => rfl),
    hbuckets₂.trans hbuckets₁,?_,?_⟩
  · unfold detach
    rw [hnode]
    dsimp only [bind,Option.bind]
    rw [hp,hn,h₁]
    dsimp only
    rw [h₂]
  · intro x hx
    rw [next_modify,if_neg hx,hnext₂,hnext₁]
  · intro x hx
    rw [prev_modify,if_neg hx,hprev₂,prev_congr (hprev₁ x)]

end Pointers

section Invariant

variable {held : NodeId → Prop}

/-- The buckets are linked lists of the nodes in `held`, each in the bucket of its hash. -/
def Holds (ht : Hashtable κ) (held : NodeId → Prop) : Prop :=
  ∀ b < ht.getNBuckets, ∃ l, IsLinked ht.next ht.prev none (ht.getBucket b) l ∧ l.Nodup ∧
    ∀ id, id ∈ l ↔ held id ∧ (ht.hash id).map ht.computeBucketIndex = some b

theorem Holds.congr (h : ht.Holds held) (hbuckets : ht'.buckets = ht.buckets)
    (hnext : ∀ x, held x → ht'.next x = ht.next x) (hprev : ∀ x, held x → ht'.prev x = ht.prev x)
    (hhash : ∀ x, held x → ht'.hash x = ht.hash x) : ht'.Holds held := by
  unfold Holds getNBuckets getBucket computeBucketIndex getNBuckets
  rw [hbuckets]
  intro b hb
  obtain ⟨l,hl,hnodup,hmem⟩ := h b hb
  refine ⟨l,hl.congr (fun x hx => hnext x ((hmem x).mp hx).1)
    (fun x hx => hprev x ((hmem x).mp hx).1),hnodup,fun x => (hmem x).trans ?_⟩
  apply and_congr_right
  intro hx
  rw [hhash x hx]
  rfl

theorem holds_empty {n : Nat} (hbuckets : ht.buckets = replicate n none)
    (hnone : ∀ x, ¬held x) : ht.Holds held := by
  intro b _
  refine ⟨[],?_,nodup_nil,fun x => iff_of_false not_mem_nil fun hx => hnone x hx.1⟩
  show ht.buckets[b]?.getD none = none
  rw [hbuckets,getElem?_replicate]
  split_ifs <;> rfl

private theorem getBucket_set {b b' : Nat} {head : Option NodeId} (hb : b < ht.getNBuckets)
    (hbuckets : ht'.buckets = ht.buckets.set b head) :
    ht'.getBucket b' = if b' = b then head else ht.getBucket b' := by
  unfold getBucket
  rw [hbuckets,getElem?_set]
  by_cases h : b = b'
  · rw [if_pos h,if_pos (show b < ht.buckets.length from hb),if_pos h.symm]
    rfl
  · rw [if_neg h,if_neg fun heq => h heq.symm]

private abbrev indexOf (ht : Hashtable κ) (x : NodeId) : Option Nat :=
  (ht.hash x).map ht.computeBucketIndex

private theorem Holds.replace {held' : NodeId → Prop} {b : Nat} (h : ht.Holds held)
    (hsame : SameContent ht ht') (hn : ht'.getNBuckets = ht.getNBuckets)
    (hget : ∀ b' ≠ b, ht'.getBucket b' = ht.getBucket b')
    (hlinks : ∀ x, held x → ht.indexOf x ≠ some b → ht'.next x = ht.next x ∧ ht'.prev x = ht.prev x)
    (hheld : ∀ x, ht.indexOf x ≠ some b → (held' x ↔ held x))
    (hnew : ∃ l, IsLinked ht'.next ht'.prev none (ht'.getBucket b) l ∧ l.Nodup ∧
      ∀ x, x ∈ l ↔ held' x ∧ ht.indexOf x = some b) : ht'.Holds held' := by
  intro b' hb'
  have hindex : ∀ x, ht'.indexOf x = ht.indexOf x := by
    intro x
    unfold indexOf computeBucketIndex
    rw [hsame.hash,hn]
  simp only [hindex]
  by_cases hbb : b' = b
  · rw [hbb]
    exact hnew
  · rw [hget b' hbb]
    obtain ⟨l,hl,hnodup,hmem⟩ := h b' (hn ▸ hb')
    have hne : ∀ x, ht.indexOf x = some b' → ht.indexOf x ≠ some b :=
      fun x hx heq => hbb (some.inj (hx.symm.trans heq))
    have hsame : ∀ x ∈ l, ht'.next x = ht.next x ∧ ht'.prev x = ht.prev x := by
      intro x hx
      obtain ⟨hx,hindex⟩ := (hmem x).mp hx
      exact hlinks x hx (hne x hindex)
    exact ⟨l,hl.congr (fun x hx => (hsame x hx).1) fun x hx => (hsame x hx).2,hnodup,
      fun x => (hmem x).trans (and_congr_left fun hx => (hheld x (hne x hx)).symm)⟩

theorem holds_attach {h : HashValue} (hholds : ht.Holds held) (hpos : 0 < ht.getNBuckets)
    (hid : ¬held id) (hhash : ht.hash id = some h) :
    ∃ ht', ht.attach (ht.computeBucketIndex h) id = some ht' ∧ SameContent ht ht' ∧
      ht'.getNBuckets = ht.getNBuckets ∧ ht'.Holds (fun x => x = id ∨ held x) ∧
      ∀ x, ¬held x → x ≠ id → ht'.next x = ht.next x := by
  have hb : ht.computeBucketIndex h < ht.getNBuckets := Nat.mod_lt _ hpos
  have hindex : ht.indexOf id = some (ht.computeBucketIndex h) := congrArg (Option.map _) hhash
  obtain ⟨node,hnode,_⟩ := map_eq_some_iff.mp hhash
  obtain ⟨l,hl,hnodup,hmem⟩ := hholds _ hb
  have hidl : id ∉ l := fun hmem' => hid ((hmem id).mp hmem').1
  obtain ⟨ht',hok,hsame,hbuckets,hnext,hprev⟩ := attach_links hnode fun n hn => by
    obtain ⟨hnl,hfirst⟩ := hl.of_head hn
    obtain ⟨h,hh,_⟩ := map_eq_some_iff.mp ((hmem n).mp hnl).2
    obtain ⟨x,hx,_⟩ := map_eq_some_iff.mp hh
    refine ⟨ne_of_mem_of_not_mem hnl hidl,?_⟩
    rw [prev,hx,bind_some] at hfirst
    rw [hx,map_some,hfirst]
  have hn : ht'.getNBuckets = ht.getNBuckets := by
    unfold getNBuckets
    rw [hbuckets,length_set]
  refine ⟨ht',hok,hsame,hn,hholds.replace (b := ht.computeBucketIndex h) hsame hn ?_ ?_ ?_
    ⟨id :: l,?_,nodup_cons.mpr ⟨hidl,hnodup⟩,?_⟩,fun x _ hne => by rw [hnext,if_neg hne]⟩
  · intro b' hb'
    rw [getBucket_set hb hbuckets,if_neg hb']
  · intro x hx hne
    have hxid : x ≠ id := fun heq => hid (heq ▸ hx)
    rw [hnext,hprev,if_neg hxid,if_neg hxid,
      if_neg fun hhead => hne ((hmem x).mp (hl.of_head hhead).1).2]
    exact ⟨rfl,rfl⟩
  · intro x hne
    exact or_iff_right fun heq => hne (heq ▸ hindex)
  · rw [getBucket_set hb hbuckets,if_pos rfl]
    apply hl.cons hnodup
    · rw [hnext,if_pos rfl]
    · rw [hprev,if_pos rfl]
    · intro x hx
      rw [hnext,if_neg (ne_of_mem_of_not_mem hx hidl)]
    · intro x hx hne
      rw [hprev,if_neg (ne_of_mem_of_not_mem hx hidl),if_neg hne]
    · intro x hx
      rw [hprev,if_neg (ne_of_mem_of_not_mem (hl.of_head hx).1 hidl),if_pos hx]
  · intro x
    rw [mem_cons,hmem,or_and_right]
    apply or_congr_left
    exact (and_iff_left_of_imp fun heq => heq ▸ hindex).symm

theorem holds_detach {h : HashValue} (hholds : ht.Holds held) (hpos : 0 < ht.getNBuckets)
    (hid : held id) (hhash : ht.hash id = some h) :
    ∃ ht', ht.detach (ht.computeBucketIndex h) id = some ht' ∧ SameContent ht ht' ∧
      ht'.getNBuckets = ht.getNBuckets ∧ ht'.Holds (fun x => x ≠ id ∧ held x) := by
  have hb : ht.computeBucketIndex h < ht.getNBuckets := Nat.mod_lt _ hpos
  have hindex : ht.indexOf id = some (ht.computeBucketIndex h) := congrArg (Option.map _) hhash
  obtain ⟨node,hnode,_⟩ := map_eq_some_iff.mp hhash
  obtain ⟨l,hl,hnodup,hmem⟩ := hholds _ hb
  have hidl : id ∈ l := (hmem id).mpr ⟨hid,hindex⟩
  have hfirst : ht.prev id = none → ht.getBucket (ht.computeBucketIndex h) = some id := by
    intro hnone
    by_contra hne
    obtain ⟨p,_,hp,_⟩ := hl.prev_mem hidl hne
    exact absurd (hp.symm.trans hnone) nofun
  have hhead : ht.getBucket (ht.computeBucketIndex h) = some id ↔ ht.prev id = none :=
    ⟨fun heq => (hl.of_head heq).2,hfirst⟩
  have hbefore : ∀ p, ht.prev id = some p → p ∈ l ∧ ht.next p = some id := by
    intro p hp
    obtain ⟨q,hq,hpq,hnq⟩ := hl.prev_mem hidl fun heq => by
      rw [hhead.mp heq] at hp
      exact nomatch hp
    obtain rfl : q = p := some.inj (hpq.symm.trans hp)
    exact ⟨hq,hnq⟩
  obtain ⟨ht',hok,hsame,hbuckets,hnext,hprev⟩ := detach_links hnode hfirst
    (fun p hp => (hbefore p hp).2) fun n => hl.prev_next hidl
  have hn : ht'.getNBuckets = ht.getNBuckets := by
    unfold getNBuckets
    rw [hbuckets]
    split_ifs
    · rw [length_set]
    · rfl
  have hget : ∀ b, ht'.getBucket b = if b = ht.computeBucketIndex h ∧ ht.prev id = none then
      ht.next id else ht.getBucket b := by
    intro b
    by_cases hnone : ht.prev id = none
    · rw [if_pos hnone] at hbuckets
      rw [getBucket_set hb hbuckets]
      simp only [hnone,and_true]
    · rw [if_neg hnone] at hbuckets
      rw [if_neg fun hcase => hnone hcase.2,getBucket,hbuckets]
      rfl
  refine ⟨ht',hok,hsame,hn,hholds.replace (b := ht.computeBucketIndex h) hsame hn ?_ ?_ ?_
    ⟨l.erase id,?_,hnodup.erase id,?_⟩⟩
  · intro b' hb'
    rw [hget,if_neg fun hcase => hb' hcase.1]
  · intro x hx hne
    have hxl : x ∉ l := fun hx => hne ((hmem x).mp hx).2
    have hxid : x ≠ id := fun heq => hxl (heq ▸ hidl)
    rw [hnext x hxid,hprev x hxid,if_neg fun heq => hxl (hbefore x heq).1,
      if_neg fun heq => hxl (hl.next_mem hidl heq)]
    exact ⟨rfl,rfl⟩
  · intro x hne
    exact and_iff_right fun heq => hne (heq ▸ hindex)
  · rw [hget]
    simp only [true_and,← hhead]
    exact hl.erase hnodup hidl nofun (fun x _ hx => hnext x hx) fun x _ hx => hprev x hx
  · intro x
    rw [hnodup.mem_erase_iff,hmem,and_assoc]

end Invariant

variable {s : Hashtable κ} {name : List κ}

section Chains

variable {held : NodeId → Prop}

/-- The nodes bucket by bucket. -/
structure Chains (ht : Hashtable κ) (held : NodeId → Prop) (ls : List (List NodeId)) : Prop where
  length : ls.length = ht.getNBuckets
  linked : ∀ b l, ls[b]? = some l → IsLinked ht.next ht.prev none (ht.getBucket b) l
  index : ∀ b l, ls[b]? = some l → ∀ x ∈ l, (ht.hash x).map ht.computeBucketIndex = some b
  nodup : ls.flatten.Nodup
  mem : ∀ x, x ∈ ls.flatten ↔ held x

theorem Holds.exists_chains (h : ht.Holds held) (hpos : 0 < ht.getNBuckets)
    (hheld : ∀ x, held x → (ht.hash x).isSome) : ∃ ls, ht.Chains held ls := by
  choose! chain hlinked hnodup hmem using h
  have hget : ∀ b l, ((List.range ht.getNBuckets).map chain)[b]? = some l →
      b < ht.getNBuckets ∧ l = chain b := by
    intro b l hl
    rw [getElem?_map,map_eq_some_iff] at hl
    obtain ⟨c,hc,rfl⟩ := hl
    obtain ⟨hb,rfl⟩ := List.getElem?_eq_some_iff.mp hc
    exact ⟨by simpa using hb,by rw [getElem_range]⟩
  refine ⟨(List.range ht.getNBuckets).map chain,by simp,?_,?_,?_,?_⟩
  · intro b l hl
    obtain ⟨hb,rfl⟩ := hget b l hl
    exact hlinked b hb
  · intro b l hl x hx
    obtain ⟨hb,rfl⟩ := hget b l hl
    exact ((hmem b hb x).mp hx).2
  · rw [nodup_flatten]
    constructor
    · intro l hl
      obtain ⟨b,hb,rfl⟩ := mem_map.mp hl
      exact hnodup b (mem_range.mp hb)
    · rw [pairwise_map]
      apply nodup_range.imp_of_mem
      intro b c hb hc hne x hxb hxc
      have h₁ := ((hmem b (mem_range.mp hb) x).mp hxb).2
      have h₂ := ((hmem c (mem_range.mp hc) x).mp hxc).2
      exact hne (some.inj (h₁.symm.trans h₂))
  · intro x
    rw [mem_flatten]
    constructor
    · rintro ⟨l,hl,hx⟩
      obtain ⟨b,hb,rfl⟩ := mem_map.mp hl
      exact ((hmem b (mem_range.mp hb) x).mp hx).1
    · intro hx
      obtain ⟨h,hh⟩ := isSome_iff_exists.mp (hheld x hx)
      have hb : ht.computeBucketIndex h < ht.getNBuckets := Nat.mod_lt _ hpos
      refine ⟨chain (ht.computeBucketIndex h),mem_map_of_mem (mem_range.mpr hb),?_⟩
      exact (hmem _ hb x).mpr ⟨hx,by rw [hh]; rfl⟩

end Chains

section Resize

variable {live : NodeId → Prop}

private structure Moving (ht : Hashtable κ) (live : NodeId → Prop) (n : Nat) (s : Hashtable κ)
    (rest : List NodeId) : Prop where
  same : SameContent ht s
  nBuckets : s.getNBuckets = n
  holds : s.Holds fun x => live x ∧ x ∉ rest
  next : ∀ x ∈ rest, s.next x = ht.next x
  nodup : rest.Nodup
  live : ∀ x ∈ rest, live x

variable {n : Nat}

private theorem moving_attach {a : NodeId} {rest : List NodeId}
    (h : Moving ht live n s (a :: rest)) (hpos : 0 < n) (hlive : ∀ x, live x → (ht.hash x).isSome) :
    ∃ s', s.attachByHash a = some s' ∧ Moving ht live n s' rest := by
  obtain ⟨ha,hnodup⟩ := nodup_cons.mp h.nodup
  have hla := h.live a mem_cons_self
  obtain ⟨v,hv⟩ := isSome_iff_exists.mp (hlive a hla)
  rw [← h.same.hash] at hv
  obtain ⟨s',hok,hsame,hn,hholds,hnext⟩ := holds_attach h.holds (h.nBuckets ▸ hpos)
    (fun hheld => hheld.2 mem_cons_self) hv
  refine ⟨s',?_,h.same.trans hsame,hn.trans h.nBuckets,?_,?_,hnodup,?_⟩
  · rw [attachByHash,hv]
    exact hok
  · have hheld : (fun x => x = a ∨ live x ∧ x ∉ a :: rest) = fun x => live x ∧ x ∉ rest := by
      funext x
      by_cases hx : x = a
      · subst hx
        simp [hla,ha]
      · simp [hx]
    rw [← hheld]
    exact hholds
  · intro x hx
    rw [hnext x (fun hheld => hheld.2 (mem_cons_of_mem a hx)) (ne_of_mem_of_not_mem hx ha)]
    exact h.next x (mem_cons_of_mem a hx)
  · intro x hx
    exact h.live x (mem_cons_of_mem a hx)

variable {fuel : Nat}

private theorem moving_bucket {head : Option NodeId} {l rest : List NodeId}
    (h : Moving ht live n s (l ++ rest)) (hpos : 0 < n) (hlive : ∀ x, live x → (ht.hash x).isSome)
    (hpath : IsPath ht.next head l) (hfuel : l.length ≤ fuel) :
    ∃ s', foreachNode Hashtable.next attachByHash fuel s head = some s' ∧
      Moving ht live n s' rest := by
  have hpath' : IsPath s.next head l :=
    hpath.congr fun x hx => h.next x (mem_append_left rest hx)
  refine foreachNode_rule (fun s l => Moving ht live n s (l ++ rest)) ?_ h hpath' hfuel
  intro s a l h hp
  obtain ⟨s',hok,h'⟩ := moving_attach h hpos hlive
  refine ⟨s',hok,h',hp.2.congr fun x hx => ?_⟩
  rw [h'.next x (mem_append_left rest hx)]
  exact (h.next x (mem_cons_of_mem a (mem_append_left rest hx))).symm

private theorem moving_buckets {heads : List (Option NodeId)}
    {ls : List (List NodeId)} (hpos : 0 < n) (hlive : ∀ x, live x → (ht.hash x).isSome)
    (hpaths : List.Forall₂ (fun head l => IsPath ht.next head l ∧ l.length ≤ fuel) heads ls)
    (h : Moving ht live n s ls.flatten) :
    ∃ s', heads.foldlM (fun s head => foreachNode Hashtable.next attachByHash fuel s head) s =
        some s' ∧ Moving ht live n s' [] := by
  induction hpaths generalizing s with
  | nil => exact ⟨s,rfl,h⟩
  | cons hl _ ih =>
    obtain ⟨s₁,hs₁,h₁⟩ := moving_bucket h hpos hlive hl.1 hl.2
    rw [foldlM_cons,hs₁]
    exact ih h₁

theorem resize_spec (h : ht.Holds live) (hpos : 0 < ht.getNBuckets)
    (hlive : ∀ x, live x → (ht.hash x).isSome)
    (hsize : ∀ l : List NodeId, l.Nodup → (∀ x ∈ l, live x) → l.length ≤ ht.size) (hn : 0 < n) :
    ∃ ht', ht.resize n = some ht' ∧ SameContent ht ht' ∧ ht'.getNBuckets = n ∧
      ht'.Holds live := by
  unfold resize
  split_ifs with heq
  · exact ⟨ht,rfl,SameContent.refl ht,heq,h⟩
  · obtain ⟨ls,hls⟩ := h.exists_chains hpos hlive
    have hpaths : List.Forall₂ (fun head l => IsPath ht.next head l ∧ l.length ≤ ht.size)
        ht.buckets ls := by
      rw [forall₂_iff_get]
      refine ⟨hls.length.symm,fun b hb hb' => ?_⟩
      have hl : ls[b]? = some (ls.get ⟨b,hb'⟩) := getElem?_eq_getElem hb'
      have hhead : ht.getBucket b = ht.buckets.get ⟨b,hb⟩ := by
        rw [getBucket,getElem?_eq_getElem hb]
        rfl
      have hmem : ls.get ⟨b,hb'⟩ ∈ ls := get_mem ls ⟨b,hb'⟩
      refine ⟨hhead ▸ (hls.linked b _ hl).isPath,hsize _ ?_ ?_⟩
      · exact (nodup_flatten.mp hls.nodup).1 _ hmem
      · intro x hx
        exact (hls.mem x).mp (mem_flatten_of_mem hmem hx)
    have hempty : Moving ht live n { ht with buckets := replicate n none } ls.flatten := by
      refine ⟨⟨rfl,rfl,rfl,fun _ => rfl,fun _ => rfl⟩,length_replicate,holds_empty rfl ?_,
        fun _ _ => rfl,hls.nodup,fun x hx => (hls.mem x).mp hx⟩
      exact fun x hx => hx.2 ((hls.mem x).mpr hx.1)
    obtain ⟨s,hs,hm⟩ := moving_buckets hn hlive hpaths hempty
    rw [hs]
    refine ⟨s.computeThresholds,rfl,?_,hm.nBuckets,?_⟩
    · exact ⟨hm.same.1,hm.same.2,hm.same.3,hm.same.4,hm.same.5⟩
    · have hholds := hm.holds
      simp only [not_mem_nil,not_false_eq_true,and_true] at hholds
      exact hholds

end Resize

section Specification

variable (hashFunc : κ → HashValue)

structure Wf (ht : Hashtable κ) : Prop where
  pos : 0 < ht.getNBuckets
  holds : ht.Holds fun x => (ht.entry x).isSome
  fresh : ∀ x, ht.nextNode ≤ x → ht.entry x = none
  count : ∃ l : List NodeId, l.Nodup ∧ (∀ x, x ∈ l ↔ (ht.entry x).isSome) ∧ l.length = ht.size
  hash : ∀ x e, ht.entry x = some e → ht.hash x = some (computeHash hashFunc e.name e.name.length)
  injective : ∀ x y e e', ht.entry x = some e → ht.entry y = some e' → e.name = e'.name → x = y

variable {hashFunc}

theorem hash_isSome (x : NodeId) : (ht.hash x).isSome = (ht.entry x).isSome := by
  unfold hash entry
  rw [isSome_map,isSome_map]

theorem length_le_size (hcount : ∃ l : List NodeId, l.Nodup ∧
      (∀ x, x ∈ l ↔ (ht.entry x).isSome) ∧ l.length = ht.size)
    (l : List NodeId) (hnodup : l.Nodup) (hl : ∀ x ∈ l, (ht.entry x).isSome) :
    l.length ≤ ht.size := by
  obtain ⟨all,_,hall,hsize⟩ := hcount
  rw [← hsize]
  exact (hnodup.subperm fun x hx => (hall x).mpr (hl x hx)).length_le

private theorem wf_of_sameContent (h : Wf hashFunc ht) (hsame : SameContent ht ht')
    (hpos : 0 < ht'.getNBuckets) (hholds : ht'.Holds fun x => (ht.entry x).isSome) :
    Wf hashFunc ht' := by
  have hentry : ht'.entry = ht.entry := funext hsame.entry
  refine ⟨hpos,by rw [hentry]; exact hholds,?_,?_,?_,?_⟩
  · rw [hentry,hsame.nextNode]
    exact h.fresh
  · rw [hentry,hsame.size]
    exact h.count
  · intro x e he
    rw [hsame.hash]
    exact h.hash x e (hentry ▸ he)
  · rw [hentry]
    exact h.injective

theorem wf_resize (h : Wf hashFunc ht) {n : Nat} (hn : 0 < n) :
    ∃ ht', ht.resize n = some ht' ∧ SameContent ht ht' ∧ Wf hashFunc ht' := by
  obtain ⟨ht',hok,hsame,hlen,hholds⟩ := resize_spec h.holds h.pos
    (fun x hx => by rw [hash_isSome]; exact hx) (length_le_size h.count) hn
  exact ⟨ht',hok,hsame,wf_of_sameContent h hsame (hlen ▸ hn) hholds⟩

theorem wf_expandIfFull (h : Wf hashFunc ht) :
    ∃ ht', ht.expandIfFull = some ht' ∧ SameContent ht ht' ∧ Wf hashFunc ht' := by
  unfold expandIfFull
  split_ifs
  · exact wf_resize h (ht.options.expand_pos _ h.pos)
  · exact ⟨ht,rfl,SameContent.refl ht,h⟩

theorem wf_shrinkIfSparse (h : Wf hashFunc ht) :
    ∃ ht', ht.shrinkIfSparse = some ht' ∧ SameContent ht ht' ∧ Wf hashFunc ht' := by
  unfold shrinkIfSparse
  split_ifs
  · exact wf_resize h (ht.options.minSize_pos.trans_le (le_max_left _ _))
  · exact ⟨ht,rfl,SameContent.refl ht,h⟩

theorem wf_empty (options : HashtableOptions) : Wf hashFunc (empty options) := by
  have hpos : 0 < options.initialSize := options.minSize_pos.trans_le options.minSize_le
  refine ⟨?_,holds_empty rfl fun _ => Bool.false_ne_true,fun _ _ => rfl,
    ⟨[],nodup_nil,fun x => iff_of_false not_mem_nil Bool.false_ne_true,rfl⟩,
    fun _ _ => nofun,fun _ _ _ _ => nofun⟩
  show 0 < (replicate options.initialSize none).length
  rw [length_replicate]
  exact hpos

theorem computeHash_take (name : List κ) (len : Nat) :
    computeHash hashFunc (name.take len) (name.take len).length = computeHash hashFunc name len := by
  unfold computeHash
  rw [take_length]

theorem findInBucket_spec [DecidableEq κ] (h : Wf hashFunc ht) (name : List κ) (len : Nat) :
    ∃ r, ht.findInBucket name len (computeHash hashFunc name len) = some r ∧
      ∀ x, r = some x ↔ (ht.entry x).map Entry.name = some (name.take len) := by
  obtain ⟨l,hl,hnodup,hmem⟩ := h.holds (ht.computeBucketIndex (computeHash hashFunc name len))
    (Nat.mod_lt _ h.pos)
  have hfind := findFrom_eq hl.isPath (fun x => ht.hash x = some (computeHash hashFunc name len) &&
    (ht.entry x).map Entry.name = some (name.take len))
    (length_le_size h.count l hnodup fun x hx => ((hmem x).mp hx).1)
  refine ⟨_,hfind,fun x => ⟨fun hx => ?_,fun hx => ?_⟩⟩
  · have hp := find?_some hx
    rw [Bool.and_eq_true] at hp
    exact of_decide_eq_true hp.2
  · obtain ⟨e,he,hname⟩ := map_eq_some_iff.mp hx
    have hhash : ht.hash x = some (computeHash hashFunc name len) := by
      rw [h.hash x e he,hname,computeHash_take]
    have hxl : x ∈ l := (hmem x).mpr ⟨isSome_iff_exists.mpr ⟨e,he⟩,by rw [hhash]; rfl⟩
    cases hr : l.find? _ with
    | none =>
      have hno := find?_eq_none.mp hr x hxl
      simp [hhash,hx] at hno
    | some y =>
      have hp := find?_some hr
      rw [Bool.and_eq_true] at hp
      obtain ⟨e',he',hname'⟩ := map_eq_some_iff.mp (of_decide_eq_true hp.2)
      rw [h.injective y x e' e he' he (hname'.trans hname.symm)]

theorem find_spec [DecidableEq κ] (h : Wf hashFunc ht) (name : List κ) (len : Nat) :
    ∃ r, ht.find hashFunc name len = some r ∧
      ∀ x, r = some x ↔ (ht.entry x).map Entry.name = some (name.take len) := by
  obtain ⟨r,hr,hspec⟩ := findInBucket_spec h name len
  refine ⟨r,?_,hspec⟩
  unfold find findOrInsert
  rw [hr]
  cases r <;> rfl

theorem findWithHashes_eq [DecidableEq κ] {depth i : Nat} (hi : i ≤ depth)
    (hdepth : depth ≤ name.length) :
    ht.findWithHashes name i (computeHashes hashFunc name depth) = ht.find hashFunc name i := by
  unfold findWithHashes find
  rw [computeHashes_getElem? hashFunc hi hdepth]
  rfl

section Insert

private def withNode (ht : Hashtable κ) (node : Node κ) : Hashtable κ :=
  { ht with
    nodes := update ht.nodes ht.nextNode (some node)
    nextNode := ht.nextNode + 1 }

private theorem entry_withNode (node : Node κ) :
    (ht.withNode node).entry = update ht.entry ht.nextNode (some node.entry) := by
  funext x
  by_cases hx : x = ht.nextNode
  · subst hx
    simp [entry,withNode]
  · simp [entry,withNode,update_of_ne hx]

private theorem holds_withNode (h : Wf hashFunc ht) (node : Node κ) :
    (ht.withNode node).Holds fun x => (ht.entry x).isSome := by
  have hne : ∀ x, (ht.entry x).isSome → x ≠ ht.nextNode := by
    rintro x hx rfl
    rw [h.fresh _ le_rfl] at hx
    exact absurd hx Bool.false_ne_true
  have hnodes : ∀ x, (ht.entry x).isSome → (ht.withNode node).nodes x = ht.nodes x := fun x hx =>
    update_of_ne (hne x hx) _ _
  exact h.holds.congr rfl (fun x hx => congrArg (Option.bind · Node.next) (hnodes x hx))
    (fun x hx => congrArg (Option.bind · Node.prev) (hnodes x hx))
    fun x hx => congrArg (Option.map Node.hash) (hnodes x hx)

private theorem wf_insert {len : Nat} (h : Wf hashFunc ht)
    (hnew : ∀ x, (ht.entry x).map Entry.name ≠ some (name.take len))
    (hentry : ht'.entry = update ht.entry ht.nextNode (some { name := name.take len }))
    (hhash : ∀ x, ht'.hash x =
      if x = ht.nextNode then some (computeHash hashFunc name len) else ht.hash x)
    (hpos : 0 < ht'.getNBuckets) (hholds : ht'.Holds fun x => x = ht.nextNode ∨ (ht.entry x).isSome)
    (hnext : ht'.nextNode = ht.nextNode + 1) (hsize : ht'.size = ht.size + 1) :
    Wf hashFunc ht' := by
  have hat : ht'.entry ht.nextNode = some { name := name.take len } := by
    rw [hentry,update_self]
  have hother : ∀ x, x ≠ ht.nextNode → ht'.entry x = ht.entry x := by
    intro x hx
    rw [hentry,update_of_ne hx]
  have hlive : ∀ x, (ht'.entry x).isSome ↔ x = ht.nextNode ∨ (ht.entry x).isSome := by
    intro x
    by_cases hx : x = ht.nextNode
    · simp [hx,hat]
    · simp [hx,hother x hx]
  refine ⟨hpos,?_,?_,?_,?_,?_⟩
  · rw [show (fun x => (ht'.entry x).isSome = true) = _ from funext fun x => propext (hlive x)]
    exact hholds
  · intro x hx
    have hlt : ht.nextNode < x := by rw [hnext] at hx; exact hx
    rw [hother x hlt.ne']
    exact h.fresh x hlt.le
  · obtain ⟨l,hnodup,hmem,hlen⟩ := h.count
    refine ⟨ht.nextNode :: l,nodup_cons.mpr ⟨?_,hnodup⟩,?_,?_⟩
    · rw [hmem,h.fresh _ le_rfl]
      exact Bool.false_ne_true
    · intro x
      rw [mem_cons,hmem,hlive]
    · rw [length_cons,hlen,hsize]
  · intro x e he
    rw [hhash]
    by_cases hx : x = ht.nextNode
    · subst hx
      obtain rfl := some.inj (hat.symm.trans he)
      rw [if_pos rfl,computeHash_take]
    · rw [if_neg hx]
      exact h.hash x e (hother x hx ▸ he)
  · intro x y e e' he he' hname
    have hnone : ∀ z e, z ≠ ht.nextNode → ht'.entry z = some e → e.name ≠ name.take len := by
      intro z e hz hez heq
      rw [hother z hz] at hez
      exact hnew z (by rw [hez,map_some,heq])
    by_cases hx : x = ht.nextNode
    · subst hx
      obtain rfl := some.inj (hat.symm.trans he)
      by_contra hne
      exact hnone y e' (Ne.symm hne) he' hname.symm
    · by_cases hy : y = ht.nextNode
      · subst hy
        obtain rfl := some.inj (hat.symm.trans he')
        exact absurd hname (hnone x e hx he)
      · exact h.injective x y e e' (hother x hx ▸ he) (hother y hy ▸ he') hname

theorem insertNode_spec (h : Wf hashFunc ht) (name : List κ) (len : Nat)
    (hnew : ∀ x, (ht.entry x).map Entry.name ≠ some (name.take len)) :
    ∃ ht', ht.insertNode name len (computeHash hashFunc name len) = some (ht.nextNode,ht') ∧
      Wf hashFunc ht' ∧ ht'.nextNode = ht.nextNode + 1 ∧
      ht'.entry = update ht.entry ht.nextNode (some { name := name.take len }) := by
  let node : Node κ := { hash := computeHash hashFunc name len, entry := { name := name.take len } }
  have hfresh : ¬(ht.entry ht.nextNode).isSome := by
    rw [h.fresh _ le_rfl]
    exact Bool.false_ne_true
  have hhash : (ht.withNode node).hash ht.nextNode = some node.hash := by simp [hash,withNode]
  obtain ⟨ht₁,hok,hsame,hn,hholds,_⟩ := holds_attach (holds_withNode h node) h.pos hfresh hhash
  have hentry : ht₁.entry = update ht.entry ht.nextNode (some node.entry) := by
    rw [← entry_withNode]
    exact funext hsame.entry
  have hwf : Wf hashFunc { ht₁ with size := ht₁.size + 1 } := by
    refine wf_insert h hnew hentry ?_ (hn ▸ h.pos) hholds hsame.nextNode ?_
    · intro x
      rw [show Hashtable.hash { ht₁ with size := ht₁.size + 1 } x = ht₁.hash x from rfl,hsame.hash]
      by_cases hx : x = ht.nextNode
      · subst hx
        rw [hhash,if_pos rfl]
      · rw [if_neg hx]
        simp [hash,withNode,update_of_ne hx]
    · exact congrArg (· + 1) hsame.size
  obtain ⟨ht₂,hexpand,hsame₂,hwf₂⟩ := wf_expandIfFull hwf
  refine ⟨ht₂,?_,hwf₂,hsame₂.nextNode.trans hsame.nextNode,(funext hsame₂.entry).trans hentry⟩
  show ((ht.withNode node).attach ((ht.withNode node).computeBucketIndex node.hash)
    ht.nextNode).bind _ = _
  rw [hok,bind_some,hexpand]
  rfl

end Insert

theorem insert_spec [DecidableEq κ] (h : Wf hashFunc ht) {depth i : Nat} (hi : i ≤ depth)
    (hdepth : depth ≤ name.length) :
    (∃ x, (ht.entry x).map Entry.name = some (name.take i) ∧
      ht.insert name i (computeHashes hashFunc name depth) = some (some x,false,ht)) ∨
    (∀ x, (ht.entry x).map Entry.name ≠ some (name.take i)) ∧ ∃ ht',
      ht.insert name i (computeHashes hashFunc name depth) = some (some ht.nextNode,true,ht') ∧
      Wf hashFunc ht' ∧ ht'.nextNode = ht.nextNode + 1 ∧
      ht'.entry = update ht.entry ht.nextNode (some { name := name.take i }) := by
  obtain ⟨r,hr,hspec⟩ := findInBucket_spec h name i
  have heq : ht.insert name i (computeHashes hashFunc name depth) =
      ht.findOrInsert name i (computeHash hashFunc name i) true := by
    rw [insert,computeHashes_getElem? hashFunc hi hdepth]
    rfl
  rw [heq]
  unfold findOrInsert
  rw [hr]
  cases r with
  | some x => exact Or.inl ⟨x,(hspec x).mp rfl,rfl⟩
  | none =>
    have hnew : ∀ x, (ht.entry x).map Entry.name ≠ some (name.take i) := fun x hx =>
      nomatch (hspec x).mpr hx
    obtain ⟨ht',hok,hwf⟩ := insertNode_spec h name i hnew
    refine Or.inr ⟨hnew,ht',?_,hwf⟩
    show (ht.insertNode name i (computeHash hashFunc name i)).bind _ = _
    rw [hok]
    rfl

theorem erase_spec (h : Wf hashFunc ht) {e : Entry κ} (he : ht.entry id = some e)
    (hparent : e.parent = none) :
    ∃ ht', ht.erase id = some ht' ∧ Wf hashFunc ht' ∧ ht'.nextNode = ht.nextNode ∧
      ht'.entry = update ht.entry id none := by
  obtain ⟨node,hnode,rfl⟩ := map_eq_some_iff.mp he
  have hhash : ht.hash id = some node.hash := by rw [hash,hnode]; rfl
  obtain ⟨ht₁,hok,hsame,hn,hholds⟩ := holds_detach h.holds h.pos
    (show (ht.entry id).isSome by rw [he]; rfl) hhash
  let ht₂ : Hashtable κ :=
    { ht₁ with nodes := update ht₁.nodes id none, size := ht₁.size - 1 }
  have hnodes : ∀ x, x ≠ id → ht₂.nodes x = ht₁.nodes x := fun x hx => update_of_ne hx _ _
  have hentry : ht₂.entry = update ht.entry id none := by
    funext x
    by_cases hx : x = id
    · subst hx
      simp [entry,ht₂]
    · rw [update_of_ne hx,← hsame.entry,entry,hnodes x hx]
      rfl
  have hother : ∀ x, x ≠ id → ht₂.entry x = ht.entry x := by
    intro x hx
    rw [hentry,update_of_ne hx]
  have hlive : ∀ x, (ht₂.entry x).isSome ↔ x ≠ id ∧ (ht.entry x).isSome := by
    intro x
    by_cases hx : x = id
    · simp [hx,hentry]
    · simp [hx,hother x hx]
  have hwf : Wf hashFunc ht₂ := by
    refine ⟨hn ▸ h.pos,?_,?_,?_,?_,?_⟩
    · rw [show (fun x => (ht₂.entry x).isSome = true) = _ from funext fun x => propext (hlive x)]
      exact hholds.congr rfl (fun x hx => congrArg (Option.bind · Node.next) (hnodes x hx.1))
        (fun x hx => congrArg (Option.bind · Node.prev) (hnodes x hx.1))
        fun x hx => congrArg (Option.map Node.hash) (hnodes x hx.1)
    · intro x hx
      by_cases hxid : x = id
      · rw [hxid,hentry,update_self]
      · rw [hother x hxid]
        exact h.fresh x (hsame.nextNode ▸ hx)
    · obtain ⟨l,hnodup,hmem,hlen⟩ := h.count
      refine ⟨l.erase id,hnodup.erase id,?_,?_⟩
      · intro x
        rw [hnodup.mem_erase_iff,hmem,hlive]
      · rw [length_erase_of_mem ((hmem id).mpr (by rw [he]; rfl)),hlen]
        exact congrArg (· - 1) hsame.size.symm
    · intro x e' he'
      have hx : x ≠ id := ((hlive x).mp (by rw [he']; rfl)).1
      rw [← h.hash x e' (hother x hx ▸ he'),← hsame.hash,hash,hash,hnodes x hx]
    · intro x y e₁ e₂ h₁ h₂ hname
      have hx : x ≠ id := ((hlive x).mp (by rw [h₁]; rfl)).1
      have hy : y ≠ id := ((hlive y).mp (by rw [h₂]; rfl)).1
      exact h.injective x y e₁ e₂ (hother x hx ▸ h₁) (hother y hy ▸ h₂) hname
  obtain ⟨ht₃,hshrink,hsame₃,hwf₃⟩ := wf_shrinkIfSparse hwf
  refine ⟨ht₃,?_,hwf₃,hsame₃.nextNode.trans hsame.nextNode,(funext hsame₃.entry).trans hentry⟩
  unfold erase
  rw [hnode]
  show (if node.entry.parent ≠ none then none else _) = _
  rw [if_neg (not_not.mpr hparent),hok]
  exact hshrink

theorem entry_modifyEntry (f : Entry κ → Entry κ) (x : NodeId) :
    (ht.modifyEntry id f).entry x = if x = id then (ht.entry x).map f else ht.entry x := by
  unfold modifyEntry entry
  rw [map_modify,Option.map_map]
  rfl

theorem wf_modifyEntry (h : Wf hashFunc ht) {f : Entry κ → Entry κ} (hf : ∀ e, (f e).name = e.name) :
    Wf hashFunc (ht.modifyEntry id f) := by
  have hhash : ∀ x, (ht.modifyEntry id f).hash x = ht.hash x := map_modify_of fun _ => rfl
  have hlive : ∀ x, ((ht.modifyEntry id f).entry x).isSome = (ht.entry x).isSome := by
    intro x
    rw [← hash_isSome,hhash,hash_isSome]
  have hname : ∀ x e, (ht.modifyEntry id f).entry x = some e →
      ∃ e', ht.entry x = some e' ∧ e'.name = e.name := by
    intro x e he
    rw [entry_modifyEntry] at he
    split_ifs at he
    · obtain ⟨e',he',rfl⟩ := map_eq_some_iff.mp he
      exact ⟨e',he',(hf e').symm⟩
    · exact ⟨e,he,rfl⟩
  refine ⟨h.pos,?_,?_,?_,?_,?_⟩
  · simp only [hlive]
    exact h.holds.congr rfl (fun x _ => next_modify_of (by intro; rfl) x)
      (fun x _ => prev_modify_of (by intro; rfl) x) fun x _ => hhash x
  · intro x hx
    rw [entry_modifyEntry,h.fresh x hx]
    split_ifs <;> rfl
  · simp only [hlive]
    exact h.count
  · intro x e he
    obtain ⟨e',he',heq⟩ := hname x e he
    rw [hhash,h.hash x e' he',heq]
  · intro x y e₁ e₂ h₁ h₂ heq
    obtain ⟨e₁',h₁',heq₁⟩ := hname x e₁ h₁
    obtain ⟨e₂',h₂',heq₂⟩ := hname y e₂ h₂
    exact h.injective x y e₁' e₂' h₁' h₂' (heq₁.trans (heq.trans heq₂.symm))

end Specification

end KiteNdn.NameTree.Hashtable
