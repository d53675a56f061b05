import KiteNdn.Fw.Packet

/-!
# Successors of names

The successor of a component has the same type and the next value; a value of only `0xFF` octets
gets longer, or goes over to the next type if the type fixes the length.
-/

namespace KiteNdn

open List

namespace Component

/-- The next value of the same length, and whether there was none. -/
def increment : List UInt8 → Bool × List UInt8
  | [] => (true,[])
  | b :: bs =>
    let rest := increment bs
    if rest.1 then (b + 1 = 0,(b + 1) :: rest.2) else (false,b :: rest.2)

def isSha256Type (type : Nat) : Bool := type = implicitSha256Digest || type = 2

def getMinValue (type : Nat) : List UInt8 :=
  if isSha256Type type then replicate 32 0 else []

def getSuccessor (c : Component) : Component :=
  let next := increment c.value
  if next.1 then
    if isSha256Type c.type then ⟨c.type + 1,getMinValue (c.type + 1)⟩ else ⟨c.type,next.2 ++ [0]⟩
  else ⟨c.type,next.2⟩

theorem increment_length (bs : List UInt8) : (increment bs).2.length = bs.length := by
  induction bs with
  | nil => rfl
  | cons b bs ih =>
    rw [increment]
    split_ifs
    · rw [length_cons,length_cons,ih]
    · rw [length_cons,length_cons,ih]

theorem increment_overflows_iff (bs : List UInt8) :
    (increment bs).1 = true ↔ bs = replicate bs.length 0xFF := by
  induction bs with
  | nil => exact iff_of_true rfl rfl
  | cons b bs ih =>
    rw [increment,length_cons,List.replicate_succ,List.cons.injEq,← ih]
    split_ifs with ho
    · have hb : b + 1 = 0 ↔ b = 0xFF := by
        rw [← UInt8.toNat_inj,← UInt8.toNat_inj,UInt8.toNat_add]
        have hlt := b.toNat_lt
        show (b.toNat + 1) % 2^8 = 0 ↔ b.toNat = 255
        omega
      simp [hb,ho]
    · simp [ho]

theorem lt_increment (bs : List UInt8) (h : (increment bs).1 = false) :
    bs.map UInt8.toNat < (increment bs).2.map UInt8.toNat := by
  induction bs with
  | nil => exact nomatch h
  | cons b bs ih =>
    rw [increment] at h ⊢
    split_ifs at h ⊢ with ho
    · have hne : b + 1 ≠ 0 := of_decide_eq_false h
      refine cons_lt_cons_iff.mpr (Or.inl ?_)
      have hlt : b.toNat ≠ 255 := by
        intro heq
        apply hne
        rw [← UInt8.toNat_inj,UInt8.toNat_add,heq]
        rfl
      have hb := b.toNat_lt
      rw [UInt8.toNat_add]
      show b.toNat < (b.toNat + 1) % 2^8
      omega
    · exact cons_lt_cons_iff.mpr (Or.inr ⟨rfl,ih (by simpa using ho)⟩)

theorem lt_iff {c d : Component} : c < d ↔ c.type < d.type ∨ c.type = d.type ∧
    (c.value.length < d.value.length ∨ c.value.length = d.value.length ∧
      c.value.map UInt8.toNat < d.value.map UInt8.toNat) := by
  show orderKey c < orderKey d ↔ _
  rw [orderKey,orderKey,Prod.Lex.toLex_lt_toLex,Prod.Lex.toLex_lt_toLex]

theorem lt_getSuccessor (c : Component) : c < c.getSuccessor := by
  rw [lt_iff,getSuccessor]
  split_ifs with ho hsha
  · exact Or.inl (Nat.lt_succ_self _)
  · refine Or.inr ⟨rfl,Or.inl ?_⟩
    show c.value.length < ((increment c.value).2 ++ [0]).length
    rw [length_append,increment_length]
    exact Nat.lt_succ_self _
  · refine Or.inr ⟨rfl,Or.inr ⟨(increment_length c.value).symm,lt_increment c.value ?_⟩⟩
    simpa using ho

theorem isImplicitSha256Digest_getSuccessor (c : Component) :
    c.getSuccessor.isImplicitSha256Digest =
      (c.isImplicitSha256Digest && c.value ≠ replicate 32 0xFF) := by
  have hoverflow := increment_overflows_iff c.value
  have hlength := increment_length c.value
  unfold getSuccessor isImplicitSha256Digest isSha256Type
  by_cases ho : (increment c.value).1 = true
  · have hvalue := hoverflow.mp ho
    by_cases htype : c.type = implicitSha256Digest
    · simp only [ho,htype,decide_true,Bool.true_or,if_true]
      by_cases hl : c.value.length = 32
      · rw [hl] at hvalue
        simp [hvalue,implicitSha256Digest]
      · simp [hl,implicitSha256Digest]
    · simp only [ho,htype,decide_false,Bool.false_or,Bool.false_and,if_true]
      split_ifs with h2
      · simp [of_decide_eq_true h2,implicitSha256Digest]
      · simp [htype]
  · have hne : c.value.length = 32 → c.value ≠ replicate 32 0xFF := by
      intro hl heq
      exact ho (hoverflow.mpr (by rw [hl]; exact heq))
    simp only [ho,Bool.false_eq_true,if_false,hlength]
    by_cases hl : c.value.length = 32
    · rw [decide_eq_true (hne hl),Bool.and_true]
    · simp [hl]

end Component

namespace Name

def getSuccessor (name : Name) : Name :=
  match name.getLast? with
  | none => [⟨Component.implicitSha256Digest,replicate 32 0⟩]
  | some last => name.dropLast ++ [last.getSuccessor]

theorem getSuccessor_concat (n : Name) (c : Component) :
    getSuccessor (n ++ [c]) = n ++ [c.getSuccessor] := by
  unfold getSuccessor
  rw [getLast?_concat]
  dsimp only
  rw [dropLast_concat]

section Order

variable {κ : Type} [LinearOrder κ]

theorem lt_append_of_lt {n : List κ} {c d : κ} (h : c < d) (suffix : List κ) :
    n ++ c :: suffix < n ++ [d] := by
  induction n with
  | nil => exact cons_lt_cons_iff.mpr (Or.inl h)
  | cons a n ih => exact cons_lt_cons_iff.mpr (Or.inr ⟨rfl,ih⟩)

theorem lt_concat (n : List κ) (c : κ) : n < n ++ [c] := by
  induction n with
  | nil => exact List.Lex.nil
  | cons a n ih => exact cons_lt_cons_iff.mpr (Or.inr ⟨rfl,ih⟩)

theorem not_lt_of_extends {n m : List κ} (h : n <+: m) : ¬m < n := List.IsPrefix.le h

end Order

theorem lt_getSuccessor_of_extends {n m : Name} (hn : n ≠ []) (h : n <+: m) : m < n.getSuccessor := by
  obtain ⟨suffix,rfl⟩ := h
  obtain ⟨l,c,rfl⟩ := (eq_nil_or_concat n).resolve_left hn
  rw [concat_eq_append,getSuccessor_concat,append_assoc]
  exact lt_append_of_lt c.lt_getSuccessor suffix

section Encoded

variable {κ : Type} {n m s : List κ} {c d : κ}

/-- The successor has a new component at its end, which the constructor may refuse. -/
def getSuccessor? [NameComponent κ] (n : List κ) : Option (List κ) :=
  match n.getLast? with
  | none => (NameComponent.encode ⟨Component.implicitSha256Digest,replicate 32 0⟩).map ([·])
  | some last => (NameComponent.encode (NameComponent.toComponent last).getSuccessor).map fun c =>
      n.dropLast ++ [c]

theorem getSuccessor?_concat [NameComponent κ] : getSuccessor? (n ++ [c]) = some s ↔
    ∃ d, NameComponent.encode (NameComponent.toComponent c).getSuccessor = some d ∧ n ++ [d] = s := by
  rw [getSuccessor?,getLast?_concat]
  dsimp only
  rw [dropLast_concat,Option.map_eq_some_iff]

theorem lt_of_encode_getSuccessor [CanonicalComponent κ]
    (h : NameComponent.encode (NameComponent.toComponent c).getSuccessor = some d) : c < d := by
  rw [CanonicalComponent.lt_iff,NameComponent.toComponent_of_encode h]
  exact Component.lt_getSuccessor _

theorem lt_getSuccessor?_of_extends [CanonicalComponent κ] (hn : n ≠ []) (h : n <+: m)
    (hs : getSuccessor? n = some s) : m < s := by
  obtain ⟨suffix,rfl⟩ := h
  obtain ⟨l,c,rfl⟩ := (eq_nil_or_concat n).resolve_left hn
  rw [concat_eq_append] at hs ⊢
  obtain ⟨d,hd,rfl⟩ := getSuccessor?_concat.mp hs
  rw [append_assoc]
  exact lt_append_of_lt (lt_of_encode_getSuccessor hd) suffix

end Encoded

end Name

end KiteNdn
