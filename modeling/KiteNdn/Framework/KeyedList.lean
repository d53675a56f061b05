import Mathlib.Data.List.Sort

/-!
# Lists with distinct keys

A list whose items carry pairwise different keys, with the two ways of adding an item that
sequential code uses: overwriting the item of the same key in place, and inserting by key order
unless the key is taken.
-/

namespace KiteNdn.Framework

open List

structure KeyedList {α κ : Type*} (key : α → κ) where
  items : List α
  distinct : (items.map key).Nodup

namespace KeyedList

variable {α κ : Type*} {key : α → κ} {k : κ} {a : α}

def empty : KeyedList key := ⟨[],nodup_nil⟩

def filter (s : KeyedList key) (q : α → Bool) : KeyedList key :=
  ⟨s.items.filter q,s.distinct.sublist (filter_sublist.map key)⟩

theorem filter_eq_self (s : KeyedList key) {q : α → Bool} (h : ∀ a ∈ s.items, q a = true) :
    s.filter q = s := by
  cases s
  simp [filter,List.filter_eq_self.mpr h]

def map (s : KeyedList key) (f : α → α) (hf : ∀ a, key (f a) = key a) : KeyedList key :=
  ⟨s.items.map f,by rw [map_map,show key ∘ f = key from funext hf]; exact s.distinct⟩

theorem mem_unique (s : KeyedList key) {b : α} (ha : a ∈ s.items) (hb : b ∈ s.items)
    (h : key a = key b) : a = b :=
  inj_on_of_nodup_map s.distinct ha hb h

variable [DecidableEq κ]

def find? (s : KeyedList key) (k : κ) : Option α := s.items.find? fun a => key a = k

theorem find?_eq_some (s : KeyedList key) : s.find? k = some a ↔ a ∈ s.items ∧ key a = k := by
  constructor
  · intro h
    exact ⟨mem_of_find?_eq_some h,by simpa using find?_some h⟩
  · rintro ⟨ha,hk⟩
    cases h : s.find? k with
    | none => exact absurd hk (by simpa using List.find?_eq_none.mp h a ha)
    | some b =>
      have hb : key b = k := by simpa using find?_some h
      rw [s.mem_unique (mem_of_find?_eq_some h) ha (hb.trans hk.symm)]

theorem find?_eq_none (s : KeyedList key) : s.find? k = none ↔ ∀ a ∈ s.items, key a ≠ k := by
  simp [find?]

@[simp] theorem find?_empty (k : κ) : (empty : KeyedList key).find? k = none := rfl

theorem find?_filter (s : KeyedList key) (q : α → Bool) (k : κ) :
    (s.filter q).find? k = (s.find? k).filter q := by
  apply Option.ext
  intro a
  rw [find?_eq_some,Option.filter_eq_some_iff,find?_eq_some]
  simp only [filter,mem_filter]
  tauto

theorem find?_map (s : KeyedList key) (f : α → α) (hf : ∀ a, key (f a) = key a) (k : κ) :
    (s.map f hf).find? k = (s.find? k).map f := by
  unfold find? map
  rw [List.find?_map]
  simp only [Function.comp_def,hf]

private def replaceOrAppend (key : α → κ) (a : α) : List α → List α
  | [] => [a]
  | b :: l => if key b = key a then a :: l else b :: replaceOrAppend key a l

private theorem keys_replaceOrAppend (a : α) (l : List α) : (replaceOrAppend key a l).map key =
      if key a ∈ l.map key then l.map key else l.map key ++ [key a] := by
  induction l with
  | nil => simp [replaceOrAppend]
  | cons b l ih =>
    by_cases hb : key b = key a
    · simp [replaceOrAppend,hb]
    · have hb' : ¬ key a = key b := fun h => hb h.symm
      rw [replaceOrAppend,if_neg hb,map_cons,ih]
      by_cases hm : key a ∈ l.map key
      · simp [hm]
      · simp only [map_cons,mem_cons,hb',hm,or_self,if_false,cons_append]

private theorem find?_replaceOrAppend (a : α) (l : List α) (k : κ) :
    (replaceOrAppend key a l).find? (fun b => key b = k) =
      if k = key a then some a else l.find? fun b => key b = k := by
  induction l with
  | nil => by_cases hk : k = key a <;> simp [replaceOrAppend,hk,eq_comm]
  | cons b l ih =>
    by_cases hb : key b = key a
    · by_cases hk : k = key a
      · simp [replaceOrAppend,hb,hk]
      · have hk' : ¬ key a = k := fun h => hk h.symm
        simp [replaceOrAppend,hb,hk,hk']
    · rw [replaceOrAppend,if_neg hb,find?_cons,find?_cons,ih]
      by_cases hbk : key b = k
      · have hk : ¬ k = key a := fun h => hb (hbk.trans h)
        simp [hbk,hk]
      · simp [hbk]

def put (s : KeyedList key) (a : α) : KeyedList key := by
  refine ⟨replaceOrAppend key a s.items,?_⟩
  rw [keys_replaceOrAppend]
  split_ifs with h
  · exact s.distinct
  · exact nodup_append.mpr ⟨s.distinct,nodup_singleton _,by
      rintro x hx y hy rfl
      exact h (mem_singleton.mp hy ▸ hx)⟩

theorem find?_put (s : KeyedList key) (a : α) (k : κ) :
    (s.put a).find? k = if k = key a then some a else s.find? k :=
  find?_replaceOrAppend a s.items k

theorem mem_put_iff (s : KeyedList key) {b : α} :
    b ∈ (s.put a).items ↔ b = a ∨ b ∈ s.items ∧ key b ≠ key a := by
  have h : b ∈ (s.put a).items ↔ (s.put a).find? (key b) = some b := by simp [find?_eq_some]
  rw [h,find?_put]
  split_ifs with hk
  · simp [hk,eq_comm]
  · have hne : b ≠ a := fun e => hk (congrArg key e)
    simp [find?_eq_some,hk,hne]

theorem mem_put (s : KeyedList key) {b : α} (h : b ∈ (s.put a).items) : b = a ∨ b ∈ s.items :=
  (s.mem_put_iff.mp h).imp_right And.left

theorem perm_of_find? (s : KeyedList key) (h : s.find? k = some a) :
    s.items.Perm (a :: (s.filter fun b => key b ≠ k).items) := by
  obtain ⟨ha,rfl⟩ := s.find?_eq_some.mp h
  have hnodup : (a :: (s.filter fun b => key b ≠ key a).items).Nodup :=
    nodup_cons.mpr ⟨by simp [filter],.of_map _ (filter s _).distinct⟩
  refine (perm_ext_iff_of_nodup (.of_map _ s.distinct) hnodup).mpr fun b => ?_
  have hunique : b ∈ s.items → key b = key a → b = a := fun hb => s.mem_unique hb ha
  simp only [filter,mem_cons,mem_filter,decide_eq_true_eq]
  grind

theorem countP_of_find? (s : KeyedList key) (h : s.find? k = some a) (p : α → Bool) :
    s.items.countP p = (s.filter fun b => key b ≠ k).items.countP p + if p a then 1 else 0 := by
  rw [(s.perm_of_find? h).countP_eq,countP_cons]

theorem countP_put (s : KeyedList key) (a : α) (p : α → Bool) : (s.put a).items.countP p =
      (s.filter fun b => key b ≠ key a).items.countP p + if p a then 1 else 0 := by
  rw [(s.put a).countP_of_find? (k := key a) (a := a) (by simp [find?_put])]
  congr 1
  refine List.Perm.countP_eq p ((perm_ext_iff_of_nodup (.of_map _ (filter _ _).distinct)
    (.of_map _ (filter _ _).distinct)).mpr fun b => ?_)
  simp only [filter,mem_filter,mem_put_iff]
  grind

/-- Overwrites the item of the same key in place, or puts the new one in front. -/
def putFront (s : KeyedList key) (a : α) : KeyedList key :=
  if h : key a ∈ s.items.map key then s.put a
  else ⟨a :: s.items,nodup_cons.mpr ⟨h,s.distinct⟩⟩

theorem find?_putFront (s : KeyedList key) (a : α) (k : κ) :
    (s.putFront a).find? k = if k = key a then some a else s.find? k := by
  unfold putFront
  split_ifs with h hk hk
  · rw [find?_put,if_pos hk]
  · rw [find?_put,if_neg hk]
  · exact (find?_eq_some _).mpr ⟨mem_cons_self,hk.symm⟩
  · have hk' : ¬ key a = k := fun e => hk e.symm
    simp [find?,hk']

theorem find?_key (s : KeyedList key) (h : s.find? k = some a) : key a = k :=
  (s.find?_eq_some.mp h).2

def modify (s : KeyedList key) (k : κ) (f : α → α) : KeyedList key :=
  match s.find? k with
  | some a => s.put (f a)
  | none => s

theorem find?_modify (s : KeyedList key) {f : α → α} (hf : ∀ a, key (f a) = key a) (k' : κ) :
    (s.modify k f).find? k' = if k' = k then (s.find? k).map f else s.find? k' := by
  unfold modify
  cases h : s.find? k with
  | none =>
    by_cases hk : k' = k
    · rw [if_pos hk,hk,h]
      rfl
    · rw [if_neg hk]
  | some a =>
    have hka : key (f a) = k := (hf a).trans (s.find?_key h)
    simp only [find?_put,hka,Option.map_some]

def insertNew [LE κ] [DecidableRel fun a b : α => key a ≤ key b] (s : KeyedList key) (a : α) :
    KeyedList key :=
  if h : key a ∈ s.items.map key then s else by
    refine ⟨s.items.orderedInsert (fun a b => key a ≤ key b) a,?_⟩
    exact ((perm_orderedInsert _ a s.items).map key).nodup_iff.mpr
      (nodup_cons.mpr ⟨h,s.distinct⟩)

theorem find?_insertNew [LE κ] [DecidableRel fun a b : α => key a ≤ key b] (s : KeyedList key)
    (a : α) (k : κ) :
    (s.insertNew a).find? k = if k = key a then s.find? k <|> some a else s.find? k := by
  unfold insertNew
  split_ifs with h hk hk
  · obtain ⟨b,hb,hba⟩ := mem_map.mp h
    rw [(s.find?_eq_some).mpr ⟨hb,hba.trans hk.symm⟩]
    rfl
  · rfl
  · have hno : s.find? k = none := s.find?_eq_none.mpr fun b hb hbk =>
      h (mem_map.mpr ⟨b,hb,hbk.trans hk⟩)
    rw [hno]
    exact (find?_eq_some _).mpr ⟨(mem_orderedInsert _).mpr (Or.inl rfl),hk.symm⟩
  · apply Option.ext
    intro b
    rw [find?_eq_some,find?_eq_some]
    simp only [mem_orderedInsert]
    constructor
    · rintro ⟨rfl | hb,hbk⟩
      · exact absurd hbk.symm hk
      · exact ⟨hb,hbk⟩
    · rintro ⟨hb,hbk⟩
      exact ⟨Or.inr hb,hbk⟩

end KeyedList

end KiteNdn.Framework
