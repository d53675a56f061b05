import Mathlib.Data.List.Induction
import Mathlib.Data.List.Lex
import Mathlib.Tactic.Ring

/-!
# Numbers of fixed width

Signed 64-bit registers, and numbers in a fixed count of octets, most significant first.
-/

namespace KiteNdn.Framework

open List

def wrap64 (x : Int) : Int := x.bmod (2^64)

theorem wrap64_range (x : Int) : -2^63 ≤ wrap64 x ∧ wrap64 x < 2^63 := by
  have hlow := Int.le_bmod (x := x) (m := 2^64) (by decide)
  have hhigh := Int.bmod_lt (x := x) (m := 2^64) (by decide)
  rw [wrap64]
  omega

theorem wrap64_of_fits {x : Int} (hlow : -2^63 ≤ x) (hhigh : x < 2^63) : wrap64 x = x :=
  Int.bmod_eq_of_le (by omega) (by omega)

theorem wrap64_of_large {x : Int} (hlow : 2^63 ≤ x) (hhigh : x < 2^63 + 2^64) :
    wrap64 x = x - 2^64 := by
  have hshift : wrap64 x = wrap64 (x - 2^64) := by
    have h := Int.add_mul_bmod_self_left (x - 2^64) (2^64) 1
    rw [wrap64,wrap64,← h]
    congr 1
    omega
  rw [hshift,wrap64_of_fits (by omega) (by omega)]

theorem wrap64_nonneg_iff {x : Int} (hlow : 0 ≤ x) (hhigh : x < 2^64) :
    0 ≤ wrap64 x ↔ x < 2^63 := by
  by_cases h : x < 2^63
  · rw [wrap64_of_fits (by omega) h]
    omega
  · rw [wrap64_of_large (by omega) (by omega)]
    omega

theorem toInt_toInt64_ofNat (n : Nat) : ((UInt64.ofNat n).toInt64).toInt = wrap64 n := by
  rw [UInt64.toInt64_ofNat',Int64.toInt_ofNat']
  rfl

@[simp] theorem wrap64_add_wrap64 (x y : Int) : wrap64 (x + wrap64 y) = wrap64 (x + y) :=
  Int.add_bmod_bmod

@[simp] theorem wrap64_wrap64_mul (x y : Int) : wrap64 (wrap64 x * y) = wrap64 (x * y) :=
  Int.bmod_mul_bmod

def ofBytes (octets : List UInt8) : Nat :=
  octets.foldl (fun number octet => number * 256 + octet.toNat) 0

def toBytes : Nat → Nat → List UInt8
  | 0, _ => []
  | width + 1, number => toBytes width (number / 256) ++ [UInt8.ofNat (number % 256)]

theorem length_toBytes (width number : Nat) : (toBytes width number).length = width := by
  induction width generalizing number with
  | zero => rfl
  | succ width ih => rw [toBytes,length_append,ih,length_singleton]

private theorem ofBytes_concat (octets : List UInt8) (octet : UInt8) :
    ofBytes (octets ++ [octet]) = ofBytes octets * 256 + octet.toNat := by
  rw [ofBytes,foldl_append]
  rfl

theorem ofBytes_toBytes {width number : Nat} (h : number < 256^width) :
    ofBytes (toBytes width number) = number := by
  induction width generalizing number with
  | zero =>
    rw [pow_zero] at h
    rw [Nat.lt_one_iff.mp h]
    rfl
  | succ width ih =>
    have hdiv : number / 256 < 256^width := by
      apply Nat.div_lt_of_lt_mul
      rw [Nat.mul_comm,← pow_succ]
      exact h
    rw [toBytes,ofBytes_concat,ih hdiv,UInt8.toNat_ofNat']
    omega

theorem ofBytes_lt (octets : List UInt8) : ofBytes octets < 256^octets.length := by
  induction octets using reverseRecOn with
  | nil => exact Nat.one_pos
  | append_singleton octets octet ih =>
    have hoctet := octet.toNat_lt
    rw [ofBytes_concat,length_append,length_singleton,pow_succ]
    omega

theorem toBytes_ofBytes (octets : List UInt8) : toBytes octets.length (ofBytes octets) = octets := by
  induction octets using reverseRecOn with
  | nil => rfl
  | append_singleton octets octet ih =>
    have hoctet := octet.toNat_lt
    have hdiv : (ofBytes octets * 256 + octet.toNat) / 256 = ofBytes octets := by omega
    have hmod : (ofBytes octets * 256 + octet.toNat) % 256 = octet.toNat := by omega
    rw [ofBytes_concat,length_append,length_singleton,toBytes,hdiv,hmod,ih,
      UInt8.ofNat_toNat]

theorem ofBytes_cons (octet : UInt8) (octets : List UInt8) :
    ofBytes (octet :: octets) = octet.toNat * 256^octets.length + ofBytes octets := by
  induction octets using reverseRecOn with
  | nil => simp [ofBytes]
  | append_singleton octets last ih =>
    rw [← cons_append,ofBytes_concat,ih,ofBytes_concat,length_append,
      length_singleton,pow_succ]
    ring

theorem map_toNat_lt_of_ofBytes_lt {x y : List UInt8} (hlen : x.length = y.length)
    (h : ofBytes x < ofBytes y) : x.map UInt8.toNat < y.map UInt8.toNat := by
  induction x generalizing y with
  | nil =>
    rw [eq_nil_of_length_eq_zero hlen.symm] at h
    exact absurd h (lt_irrefl _)
  | cons a x ih =>
    cases y with
    | nil => exact absurd hlen (by simp)
    | cons b y =>
      have hlen' : x.length = y.length := Nat.succ.inj hlen
      have hx := ofBytes_lt x
      have hy := ofBytes_lt y
      rw [ofBytes_cons,ofBytes_cons,hlen'] at h
      rw [hlen'] at hx
      rw [map_cons,map_cons,cons_lt_cons_iff]
      rcases lt_trichotomy a.toNat b.toNat with hab | hab | hab
      · exact Or.inl hab
      · rw [hab] at h
        exact Or.inr ⟨hab,ih hlen' (by omega)⟩
      · -- A larger octet in front cannot be made up for by those behind it.
        have hle : (b.toNat + 1) * 256^y.length ≤ a.toNat * 256^y.length :=
          Nat.mul_le_mul_right _ hab
        rw [Nat.add_mul,Nat.one_mul] at hle
        omega

theorem map_toNat_lt_iff {x y : List UInt8} (hlen : x.length = y.length) :
    x.map UInt8.toNat < y.map UInt8.toNat ↔ ofBytes x < ofBytes y := by
  constructor
  · intro h
    by_contra hge
    rcases lt_or_eq_of_le (not_lt.mp hge) with hlt | heq
    · exact lt_asymm h (map_toNat_lt_of_ofBytes_lt hlen.symm hlt)
    · have hx := toBytes_ofBytes x
      have hy := toBytes_ofBytes y
      rw [hlen,← heq,hy] at hx
      rw [hx] at h
      exact lt_irrefl _ h
  · exact map_toNat_lt_of_ofBytes_lt hlen

end KiteNdn.Framework
