import Mathlib.Data.List.Nodup
import Mathlib.Order.Nat
import Mathlib.Order.Lattice

/-!
# Ordered maps

A `std::map` is its list of bindings in strictly increasing key order, which is a field of the map.
-/

namespace KiteNdn.Framework

open List

section Ranges

variable {α : Type*} {R : α → α → Prop} {p : α → Bool} {l : List α}

theorem lt_findIdx_iff (hsorted : l.Pairwise R) (hdown : ∀ a b, R a b → p b = true → p a = true)
    {i : Nat} (hi : i < l.length) : i < l.findIdx (fun a => !p a) ↔ p l[i] = true := by
  constructor
  · intro h
    have hnot := not_of_lt_findIdx h
    simpa using hnot
  · intro h
    by_contra hle
    have hlt : l.findIdx (fun a => !p a) < l.length := lt_of_le_of_lt (not_lt.mp hle) hi
    have hp : (!p (l[l.findIdx fun a => !p a])) = true := findIdx_getElem (w := hlt)
    rcases lt_or_eq_of_le (not_lt.mp hle) with hlt' | heq
    · have hR := pairwise_iff_getElem.mp hsorted _ i hlt hi hlt'
      rw [hdown _ _ hR h] at hp
      exact nomatch hp
    · simp only [heq] at hp
      rw [h] at hp
      exact nomatch hp

end Ranges

structure OrderedMap (κ ν : Type*) [LinearOrder κ] where
  entries : List (κ × ν)
  sorted : entries.Pairwise (fun a b => a.1 < b.1)

namespace OrderedMap

variable {κ ν : Type*} [LinearOrder κ] {k : κ}

def empty : OrderedMap κ ν := ⟨[],List.Pairwise.nil⟩

def find? (m : OrderedMap κ ν) (k : κ) : Option ν :=
  (m.entries.find? fun e => e.1 = k).map Prod.snd

private def insertEntry (k : κ) (v : ν) : List (κ × ν) → List (κ × ν)
  | [] => [(k,v)]
  | e :: es => if k < e.1 then (k,v) :: e :: es
      else if k = e.1 then (k,v) :: es
      else e :: insertEntry k v es

private theorem mem_insertEntry (k : κ) (v : ν) (es : List (κ × ν)) (x : κ × ν)
    (hs : es.Pairwise (fun a b => a.1 < b.1)) :
    x ∈ insertEntry k v es ↔ x = (k,v) ∨ (x ∈ es ∧ x.1 ≠ k) := by
  induction es with
  | nil => simp [insertEntry]
  | cons e es ih =>
    have hp := pairwise_cons.mp hs
    rw [insertEntry]
    split_ifs with hlt heq
    · have hne : ∀ y ∈ e :: es, y.1 ≠ k := by
        intro y hy h
        rcases mem_cons.mp hy with rfl | hy
        · exact absurd h hlt.ne'
        · exact absurd h (hlt.trans (hp.1 y hy)).ne'
      constructor
      · intro h
        rcases mem_cons.mp h with h | h
        · exact Or.inl h
        · exact Or.inr ⟨h,hne x h⟩
      · rintro (h | h)
        · exact mem_cons.mpr (Or.inl h)
        · exact mem_cons.mpr (Or.inr h.1)
    · have hne : ∀ y ∈ es, y.1 ≠ k := fun y hy h => absurd h (heq ▸ hp.1 y hy).ne'
      constructor
      · intro h
        rcases mem_cons.mp h with h | h
        · exact Or.inl h
        · exact Or.inr ⟨mem_cons.mpr (Or.inr h),hne x h⟩
      · rintro (h | ⟨h,hk⟩)
        · exact mem_cons.mpr (Or.inl h)
        · rcases mem_cons.mp h with h | h
          · exact absurd (by rw [h,heq]) hk
          · exact mem_cons.mpr (Or.inr h)
    · rw [mem_cons,ih hp.2,mem_cons]
      constructor
      · rintro (h | h | h)
        · exact Or.inr ⟨Or.inl h,by rw [h]; exact fun h => heq h.symm⟩
        · exact Or.inl h
        · exact Or.inr ⟨Or.inr h.1,h.2⟩
      · rintro (h | ⟨h | h,hk⟩)
        · exact Or.inr (Or.inl h)
        · exact Or.inl h
        · exact Or.inr (Or.inr ⟨h,hk⟩)

private theorem insertEntry_sorted (k : κ) (v : ν) (es : List (κ × ν))
    (hs : es.Pairwise (fun a b => a.1 < b.1)) :
    (insertEntry k v es).Pairwise (fun a b => a.1 < b.1) := by
  induction es with
  | nil => simp [insertEntry]
  | cons e es ih =>
    have hp := pairwise_cons.mp hs
    rw [insertEntry]
    split_ifs with hlt heq
    · refine pairwise_cons.mpr ⟨?_,hs⟩
      intro y hy
      rcases mem_cons.mp hy with rfl | hy
      · exact hlt
      · exact hlt.trans (hp.1 y hy)
    · exact pairwise_cons.mpr ⟨fun y hy => heq ▸ hp.1 y hy,hp.2⟩
    · refine pairwise_cons.mpr ⟨?_,ih hp.2⟩
      intro y hy
      rcases (mem_insertEntry k v es y hp.2).mp hy with rfl | hy
      · exact lt_of_le_of_ne (not_lt.mp hlt) (fun h => heq h.symm)
      · exact hp.1 y hy.1

/-- Insert a binding, overwriting the value of an existing key. -/
def insert (m : OrderedMap κ ν) (k : κ) (v : ν) : OrderedMap κ ν :=
  ⟨insertEntry k v m.entries,insertEntry_sorted k v m.entries m.sorted⟩

def erase (m : OrderedMap κ ν) (k : κ) : OrderedMap κ ν :=
  ⟨m.entries.filter fun e => e.1 ≠ k,m.sorted.filter _⟩

def after (m : OrderedMap κ ν) (k : κ) : List (κ × ν) :=
  (m.entries.dropWhile fun e => e.1 ≠ k).tail

theorem mem_entries_unique (m : OrderedMap κ ν) {v w : ν} (hv : (k,v) ∈ m.entries)
    (hw : (k,w) ∈ m.entries) : v = w := by
  obtain ⟨es,hs⟩ := m
  dsimp only at hv hw
  induction es with
  | nil => simp at hv
  | cons e es ih =>
    have hp := pairwise_cons.mp hs
    rcases mem_cons.mp hv with hv | hv <;> rcases mem_cons.mp hw with hw | hw
    · exact congrArg Prod.snd (hv.trans hw.symm)
    · exact absurd (congrArg Prod.fst hv) (hp.1 _ hw).ne'
    · exact absurd (congrArg Prod.fst hw) (hp.1 _ hv).ne'
    · exact ih hp.2 hv hw

theorem find?_eq_some (m : OrderedMap κ ν) (k : κ) (v : ν) :
    m.find? k = some v ↔ (k,v) ∈ m.entries := by
  constructor
  · intro h
    obtain ⟨e,he,hv⟩ := Option.map_eq_some_iff.mp h
    have hk : e.1 = k := by simpa using find?_some he
    have hm := mem_of_find?_eq_some he
    rw [← hk,← hv]
    exact hm
  · intro h
    cases hf : m.entries.find? (fun e => e.1 = k) with
    | none => exact absurd (find?_eq_none.mp hf (k,v) h) (by simp)
    | some e =>
      have hk : e.1 = k := by simpa using find?_some hf
      have hm : (k,e.2) ∈ m.entries := hk ▸ mem_of_find?_eq_some hf
      simp [find?,hf,m.mem_entries_unique hm h]

theorem find?_eq_none (m : OrderedMap κ ν) (k : κ) :
    m.find? k = none ↔ ∀ e ∈ m.entries, e.1 ≠ k := by
  simp [find?]

@[simp] theorem find?_empty (k : κ) : (empty : OrderedMap κ ν).find? k = none := rfl

theorem mem_insert (m : OrderedMap κ ν) (k : κ) (v : ν) (x : κ × ν) :
    x ∈ (m.insert k v).entries ↔ x = (k,v) ∨ (x ∈ m.entries ∧ x.1 ≠ k) :=
  mem_insertEntry k v m.entries x m.sorted

theorem mem_erase (m : OrderedMap κ ν) (k : κ) (x : κ × ν) :
    x ∈ (m.erase k).entries ↔ x ∈ m.entries ∧ x.1 ≠ k := by
  simp [erase]

theorem find?_insert (m : OrderedMap κ ν) (k : κ) (v : ν) (l : κ) :
    (m.insert k v).find? l = if l = k then some v else m.find? l := by
  apply Option.ext
  intro w
  rw [find?_eq_some,mem_insert]
  split_ifs with h
  · subst l
    simp [eq_comm]
  · simp [h,find?_eq_some]

theorem find?_erase (m : OrderedMap κ ν) (k l : κ) :
    (m.erase k).find? l = if l = k then none else m.find? l := by
  apply Option.ext
  intro w
  rw [find?_eq_some,mem_erase]
  split_ifs with h
  · simp [h]
  · simp [h,find?_eq_some]

theorem nodup_entries (m : OrderedMap κ ν) : m.entries.Nodup :=
  m.sorted.imp fun h e => h.ne (congrArg Prod.fst e)

theorem insert_perm (m : OrderedMap κ ν) (v : ν) (h : m.find? k = none) :
    (m.insert k v).entries.Perm ((k,v) :: m.entries) := by
  have hk := (m.find?_eq_none k).mp h
  rw [perm_ext_iff_of_nodup (m.insert k v).nodup_entries
    (nodup_cons.mpr ⟨fun hm => hk _ hm rfl,m.nodup_entries⟩)]
  intro x
  rw [mem_insert,mem_cons]
  exact or_congr_right ⟨And.left,fun hx => ⟨hx,hk x hx⟩⟩

theorem erase_perm (m : OrderedMap κ ν) {v : ν} (h : m.find? k = some v) :
    m.entries.Perm ((k,v) :: (m.erase k).entries) := by
  have hm := (m.find?_eq_some k v).mp h
  rw [perm_ext_iff_of_nodup m.nodup_entries
    (nodup_cons.mpr ⟨fun hx => ((m.mem_erase k _).mp hx).2 rfl,(m.erase k).nodup_entries⟩)]
  rintro ⟨l,w⟩
  rw [mem_cons,mem_erase]
  constructor
  · intro hx
    by_cases hl : l = k
    · subst l
      exact Or.inl (by rw [m.mem_entries_unique hx hm])
    · exact Or.inr ⟨hx,hl⟩
  · rintro (hx | hx)
    · exact hx ▸ hm
    · exact hx.1

theorem after_eq_filter (m : OrderedMap κ ν) {v : ν} (h : m.find? k = some v) :
    m.after k = m.entries.filter fun e => k < e.1 := by
  have hm := (m.find?_eq_some k v).mp h
  unfold after
  clear h
  obtain ⟨es,hs⟩ := m
  dsimp only at hm ⊢
  induction es with
  | nil => simp at hm
  | cons e es ih =>
    have hp := pairwise_cons.mp hs
    rcases mem_cons.mp hm with he | he
    · subst e
      have hall : es.filter (fun e => decide (k < e.1)) = es := by
        apply filter_eq_self.mpr
        intro y hy
        simpa using hp.1 y hy
      simp [hall]
    · have hlt := hp.1 _ he
      have hn : ¬ k < e.1 := not_lt.mpr hlt.le
      simpa [hlt.ne,hn] using ih hp.2 he

/-- Scanning forward until a predicate fails finds every binding that satisfies it, when the
predicate, once lost, is never regained. -/
theorem takeWhile_eq_filter {α : Type*} (q : α → Bool) (l : List α)
    (h : l.Pairwise fun a b => q b = true → q a = true) : l.takeWhile q = l.filter q := by
  induction l with
  | nil => rfl
  | cons a l ih =>
    have hp := pairwise_cons.mp h
    cases ha : q a with
    | true => simp [ha,ih hp.2]
    | false =>
      have hl : l.filter q = [] := by
        apply filter_eq_nil_iff.mpr
        intro b hb hq
        rw [hp.1 b hb hq] at ha
        exact absurd ha (by decide)
      simp [ha,hl]

section Bounds

def lowerBound (m : OrderedMap κ ν) (k : κ) : Nat := m.entries.findIdx fun e => !decide (e.1 < k)

variable (m : OrderedMap κ ν) {k : κ} {e : κ × ν}

private theorem lt_lowerBound_iff {i : Nat} (hi : i < m.entries.length) :
    i < m.lowerBound k ↔ m.entries[i].1 < k := by
  unfold lowerBound
  rw [lt_findIdx_iff m.sorted _ hi,decide_eq_true_eq]
  intro a b hab hb
  exact decide_eq_true (hab.trans (of_decide_eq_true hb))

theorem lt_of_mem_take_lowerBound (h : e ∈ m.entries.take (m.lowerBound k)) : e.1 < k := by
  simpa using false_of_mem_take_findIdx h

theorem le_of_mem_drop_lowerBound (h : e ∈ m.entries.drop (m.lowerBound k)) : k ≤ e.1 := by
  obtain ⟨i,hi,rfl⟩ := getElem_of_mem h
  rw [length_drop] at hi
  rw [getElem_drop]
  refine not_lt.mp fun hlt => ?_
  have := (m.lt_lowerBound_iff (by omega)).mpr hlt
  omega

theorem lt_of_getElem?_lowerBound (h : m.entries[m.lowerBound k]? = none) :
    ∀ x ∈ m.entries, x.1 < k := by
  intro x hx
  obtain ⟨j,hj,rfl⟩ := getElem_of_mem hx
  exact (m.lt_lowerBound_iff hj).mp (hj.trans_le (getElem?_eq_none_iff.mp h))

end Bounds

end OrderedMap

end KiteNdn.Framework
