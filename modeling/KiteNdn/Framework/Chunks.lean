import Mathlib.Data.Nat.Basic

/-!
# Chunks of a list

A list cut into pieces of a fixed size, the last one possibly shorter.
-/

namespace KiteNdn.Framework

open List

variable {α : Type*} {size fuel : Nat} {l : List α}

def chunksFuel (size : Nat) : Nat → List α → List (List α)
  | 0, _ => []
  | fuel + 1, l => if l.isEmpty then [] else l.take size :: chunksFuel size fuel (l.drop size)

def chunks (size : Nat) (l : List α) : List (List α) := chunksFuel size l.length l

theorem flatten_chunksFuel (hsize : 0 < size) (hfuel : l.length ≤ fuel) :
    (chunksFuel size fuel l).flatten = l := by
  induction fuel generalizing l with
  | zero =>
    rw [List.length_eq_zero_iff.mp (Nat.le_zero.mp hfuel)]
    rfl
  | succ fuel ih =>
    unfold chunksFuel
    split_ifs with hempty
    · rw [isEmpty_iff.mp hempty]
      rfl
    · have hdrop : (l.drop size).length ≤ fuel := by
        rw [length_drop]
        omega
      rw [flatten_cons,ih hdrop,take_append_drop]

theorem flatten_chunks (hsize : 0 < size) (l : List α) : (chunks size l).flatten = l :=
  flatten_chunksFuel hsize le_rfl

theorem mem_chunksFuel (hsize : 0 < size) {c : List α} (hc : c ∈ chunksFuel size fuel l) :
    c ≠ [] ∧ c.length ≤ size := by
  induction fuel generalizing l with
  | zero => exact absurd hc not_mem_nil
  | succ fuel ih =>
    unfold chunksFuel at hc
    split_ifs at hc with hempty
    · exact absurd hc not_mem_nil
    rcases mem_cons.mp hc with heq | htail
    · rw [heq]
      have hne : l ≠ [] := fun h => hempty (isEmpty_iff.mpr h)
      refine ⟨?_,List.length_take_le size l⟩
      intro htake
      rcases List.take_eq_nil_iff.mp htake with hzero | hnil
      · omega
      · exact hne hnil
    · exact ih htail

theorem mem_chunks (hsize : 0 < size) {c : List α} (hc : c ∈ chunks size l) :
    c ≠ [] ∧ c.length ≤ size :=
  mem_chunksFuel hsize hc

def chunkCount (size length : Nat) : Nat :=
  length / size + if length % size ≠ 0 then 1 else 0

private theorem chunkCount_sub {length : Nat} (hsize : 0 < size) (hlength : 0 < length) :
    chunkCount size length = chunkCount size (length - size) + 1 := by
  unfold chunkCount
  rcases Nat.lt_or_ge length size with hlt | hge
  · rw [Nat.div_eq_of_lt hlt,Nat.mod_eq_of_lt hlt,Nat.sub_eq_zero_of_le (Nat.le_of_lt hlt),
      Nat.zero_div,
      Nat.zero_mod,if_pos (by omega)]
    simp
  · rw [Nat.div_eq_sub_div hsize hge,Nat.mod_eq_sub_mod hge]
    omega

theorem length_chunksFuel (hsize : 0 < size) (hfuel : l.length ≤ fuel) :
    (chunksFuel size fuel l).length = chunkCount size l.length := by
  induction fuel generalizing l with
  | zero =>
    rw [Nat.le_zero.mp hfuel]
    simp [chunksFuel,chunkCount]
  | succ fuel ih =>
    unfold chunksFuel
    split_ifs with hempty
    · rw [isEmpty_iff.mp hempty]
      simp [chunkCount]
    · have hpos : 0 < l.length :=
        List.length_pos_iff.mpr fun h => hempty (isEmpty_iff.mpr h)
      have hdrop : (l.drop size).length ≤ fuel := by
        rw [length_drop]
        omega
      rw [length_cons,ih hdrop,length_drop,chunkCount_sub hsize hpos]

theorem length_chunks (hsize : 0 < size) (l : List α) :
    (chunks size l).length = chunkCount size l.length :=
  length_chunksFuel hsize le_rfl

end KiteNdn.Framework
