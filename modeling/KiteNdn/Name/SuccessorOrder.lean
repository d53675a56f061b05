import KiteNdn.Name.Compare

/-!
# Ranges of names below a prefix

There is no component between a component and its successor, so the names from a name up to its
successor are those below the name.
-/

namespace KiteNdn

open Framework Tlv List EncodedName

namespace Component

def DigestSized (c : Component) : Prop := isSha256Type c.type = true → c.value.length = 32

instance (c : Component) : Decidable c.DigestSized := inferInstanceAs (Decidable (_ → _))

theorem ofBytes_increment (bs : List UInt8) :
    ofBytes (increment bs).2 + (if (increment bs).1 then 256^bs.length else 0) = ofBytes bs + 1 := by
  induction bs with
  | nil => rfl
  | cons b bs ih =>
    have hb := b.toNat_lt
    have hlen := increment_length bs
    rw [increment]
    by_cases hcarry : (increment bs).1 = true
    · rw [if_pos hcarry] at ih
      rw [if_pos hcarry,ofBytes_cons,ofBytes_cons,hlen,length_cons,pow_succ]
      by_cases hmax : b.toNat = 255
      · have hzero : b + 1 = 0 := by
          apply UInt8.toNat_inj.mp
          rw [UInt8.toNat_add,hmax]
          rfl
        rw [hzero,hmax]
        show 0 * 256^bs.length + ofBytes (increment bs).2 + 256^bs.length * 256 = _
        omega
      · have hsucc : (b + 1).toNat = b.toNat + 1 := by
          rw [UInt8.toNat_add]
          show (b.toNat + 1) % 2^8 = _
          omega
        have hne : b + 1 ≠ 0 := by
          intro hzero
          rw [hzero] at hsucc
          exact absurd hsucc (by simp)
        rw [if_neg (by simpa using hne),hsucc,Nat.add_mul]
        omega
    · rw [if_neg hcarry] at ih
      rw [if_neg hcarry,ofBytes_cons,ofBytes_cons,hlen,if_neg Bool.false_ne_true]
      omega

private theorem ofBytes_replicate_zero (n : Nat) : ofBytes (replicate n 0) = 0 := by
  induction n with
  | zero => rfl
  | succ n ih =>
    rw [replicate_succ,ofBytes_cons,ih]
    simp

private theorem ofBytes_concat_zero {octets : List UInt8} (h : ofBytes octets = 0) :
    ofBytes (octets ++ [0]) = 0 := by
  rw [ofBytes,foldl_append]
  show ofBytes octets * 256 + 0 = 0
  omega

variable {c d : Component}

theorem lt_iff_ofBytes : c < d ↔ c.type < d.type ∨ c.type = d.type ∧
    (c.value.length < d.value.length ∨ c.value.length = d.value.length ∧
      ofBytes c.value < ofBytes d.value) := by
  rw [lt_iff]
  by_cases hlen : c.value.length = d.value.length
  · rw [map_toNat_lt_iff hlen]
  · simp [hlen]

/-- Nothing lies between a component and its successor. -/
theorem not_lt_getSuccessor (hc : c.DigestSized) (hd : d.DigestSized)
    (h : c < d) : ¬d < c.getSuccessor := by
  have hcarry := ofBytes_increment c.value
  have hlen := increment_length c.value
  have hmax := ofBytes_lt c.value
  have hdmax := ofBytes_lt d.value
  rw [lt_iff_ofBytes] at h ⊢
  unfold getSuccessor
  by_cases ho : (increment c.value).1 = true
  · rw [if_pos ho] at hcarry
    rw [if_pos ho]
    by_cases hsha : isSha256Type c.type = true
    · -- The next type begins with its smallest value.
      rw [if_pos hsha]
      dsimp only
      have hc' := hc hsha
      by_cases htype : c.type = d.type
      · have hd' := hd (htype ▸ hsha)
        rw [hc'] at hcarry hmax
        rw [hd'] at hdmax
        omega
      · have hmin : d.type = c.type + 1 →
            (getMinValue (c.type + 1)).length ≤ d.value.length ∧
              ofBytes (getMinValue (c.type + 1)) = 0 := by
          intro hnext
          unfold getMinValue
          split_ifs with hsha'
          · rw [length_replicate,hd (hnext ▸ hsha')]
            exact ⟨le_rfl,ofBytes_replicate_zero 32⟩
          · exact ⟨Nat.zero_le _,rfl⟩
        omega
    · -- The value of one more octet begins with zeros only.
      rw [if_neg hsha]
      dsimp only
      have hzero : ofBytes (increment c.value).2 = 0 := by omega
      rw [length_append,hlen,length_singleton,ofBytes_concat_zero hzero]
      by_cases htype : c.type = d.type
      · by_cases heq : c.value.length = d.value.length
        · rw [heq] at hcarry hmax
          omega
        · omega
      · omega
  · rw [if_neg ho,Nat.add_zero] at hcarry
    rw [if_neg ho]
    dsimp only
    omega

theorem digestSized_getSuccessor (hc : c.DigestSized) : c.getSuccessor.DigestSized := by
  intro hsha
  have hlen := increment_length c.value
  unfold getSuccessor at hsha ⊢
  by_cases ho : (increment c.value).1 = true
  · rw [if_pos ho] at hsha ⊢
    by_cases hsha' : isSha256Type c.type = true
    · rw [if_pos hsha'] at hsha ⊢
      dsimp only at hsha ⊢
      rw [getMinValue,if_pos hsha,length_replicate]
    · rw [if_neg hsha'] at hsha
      exact absurd hsha hsha'
  · rw [if_neg ho] at hsha ⊢
    dsimp only at hsha ⊢
    rw [hlen]
    exact hc hsha

theorem bounds_getSuccessor {n : Nat} (hpos : 0 < c.type) (htype : c.type ≤ 65535)
    (hshort : c.value.length + 1 < n) (hn : 32 < n) :
    0 < c.getSuccessor.type ∧ c.getSuccessor.type ≤ 65535 ∧ c.getSuccessor.value.length < n := by
  have hlen := increment_length c.value
  unfold getSuccessor
  dsimp only
  split_ifs with ho hsha
  · have hmin : (getMinValue (c.type + 1)).length ≤ 32 := by
      unfold getMinValue
      split_ifs
      · rw [length_replicate]
      · exact Nat.zero_le _
    have hsmall : c.type ≤ 2 := by
      rcases Bool.or_eq_true_iff.mp hsha with h | h
      · exact (of_decide_eq_true h).trans_le (by decide)
      · exact (of_decide_eq_true h).le
    dsimp only
    omega
  · dsimp only
    rw [length_append,hlen,length_singleton]
    omega
  · dsimp only
    rw [hlen]
    omega

end Component

namespace Name

private theorem append_lt_append_iff (p x y : Name) : p ++ x < p ++ y ↔ x < y := by
  constructor
  · intro h
    by_contra hge
    rcases lt_or_eq_of_le (not_lt.mp hge) with hlt | heq
    · exact lt_asymm h (append_left_lt hlt)
    · rw [heq] at h
      exact lt_irrefl _ h
  · exact append_left_lt

/-- The names from a name up to its successor are below it. -/
theorem prefix_iff_between {n m : Name} (hn : n ≠ []) (hdigests : ∀ c ∈ n, c.DigestSized)
    (hdigests' : ∀ c ∈ m, c.DigestSized) : n <+: m ↔ n ≤ m ∧ m < n.getSuccessor := by
  constructor
  · intro h
    exact ⟨not_lt.mp (not_lt_of_extends h),lt_getSuccessor_of_extends hn h⟩
  · intro ⟨hle,hlt⟩
    obtain ⟨p,c,rfl⟩ := (eq_nil_or_concat n).resolve_left hn
    rw [concat_eq_append] at *
    rw [getSuccessor_concat] at hlt
    have hp : p <+: m := prefix_of_between
      ((not_lt.mp (not_lt_of_extends (prefix_append p [c]))).trans hle) hlt.le
      (prefix_append p [c.getSuccessor])
    obtain ⟨s,rfl⟩ := hp
    rw [append_lt_append_iff] at hlt
    have hge := not_lt.mpr hle
    rw [append_lt_append_iff] at hge
    cases s with
    | nil => exact absurd (nil_lt_cons c []) hge
    | cons d s =>
      -- The component after the common part is the last one of the name.
      have hd : d < c.getSuccessor := by
        rcases cons_lt_cons_iff.mp hlt with h | ⟨_,h⟩
        · exact h
        · exact absurd h (not_lt_nil s)
      have hcd : ¬c < d := fun h => Component.not_lt_getSuccessor
        (hdigests c (by simp)) (hdigests' d (by simp)) h hd
      have hdc : ¬d < c := fun h => hge (cons_lt_cons_iff.mpr (Or.inl h))
      rw [le_antisymm (not_lt.mp hdc) (not_lt.mp hcd)]
      exact (prefix_append_right_inj p).mpr
        (cons_prefix_cons.mpr ⟨rfl,List.nil_prefix⟩)

theorem getSuccessor_least {n x : Name} (hn : n ≠ []) (hdigests : ∀ c ∈ n, c.DigestSized)
    (hdigests' : ∀ c ∈ x, c.DigestSized) (hlt : n < x) (h : ¬n <+: x) : n.getSuccessor ≤ x := by
  by_contra hgt
  exact h ((prefix_iff_between hn hdigests hdigests').mpr ⟨hlt.le,not_le.mp hgt⟩)

end Name

section Encoded

/-- A component of a valid type and size, with or without octets. Its successor still has a size that
an `int` holds. -/
structure ValidComponent extends EncodedComponent where
  type_le : type ≤ 65535
  digestSized : Component.DigestSized ⟨type,value⟩
  short : value.length + 1 < 2^31

namespace ValidComponent

/-- The octets are in the shortest form. -/
def Minimal (c : ValidComponent) : Prop := c.size = c.toBlock.size

theorem canonical {c : ValidComponent} (h : c.Minimal) : c.Canonical := by
  have htype := c.type_le
  have hshort := c.short
  exact ⟨h,by omega,fun _ => by omega⟩

theorem valid_toBlock (c : ValidComponent) : c.toBlock.Valid := by
  have hshort := c.short
  exact ⟨c.type_lt.1,c.type_lt.2,by omega⟩

private theorem successor_bounds (c : ValidComponent) :
    0 < c.toComponent.getSuccessor.type ∧ c.toComponent.getSuccessor.type ≤ 65535 ∧
      c.toComponent.getSuccessor.value.length < 2^31 :=
  Component.bounds_getSuccessor c.type_lt.1 c.type_le c.short (by decide)

private theorem valid_successor (c : ValidComponent) :
    Block.Valid ⟨c.toComponent.getSuccessor.type,c.toComponent.getSuccessor.value⟩ := by
  obtain ⟨hpos,htype,hlen⟩ := c.successor_bounds
  exact ⟨hpos,lt_of_le_of_lt htype (by decide),hlen.trans (by decide)⟩

def getSuccessor (c : ValidComponent) : EncodedComponent :=
  ⟨Element.encoded _ c.valid_successor,by simp [Element.encoded]⟩

theorem canonical_getSuccessor (c : ValidComponent) : c.getSuccessor.Canonical := by
  obtain ⟨_,htype,hlen⟩ := c.successor_bounds
  exact ⟨rfl,htype.trans (by decide),fun _ => hlen⟩

def reencode (c : ValidComponent) : ValidComponent :=
  ⟨⟨Element.encoded c.toBlock c.valid_toBlock,by simp [Element.encoded]⟩,c.type_le,c.digestSized,
    c.short⟩

/-- Only a component in its shortest form does not exceed itself. -/
theorem compare_reencode (c : ValidComponent) :
    ∃ i ≥ 0, c.compare c.reencode.toEncodedComponent = some i ∧ (i = 0 → c.Minimal) := by
  by_cases hmin : c.Minimal
  · have hagrees : c.Agrees c.reencode.toEncodedComponent :=
      EncodedComponent.agrees_of_canonical (canonical hmin) (canonical rfl)
    exact ⟨0,le_rfl,hagrees.eq_zero_iff.mpr rfl,fun _ => hmin⟩
  · cases hwire : c.wire with
    | none =>
      apply absurd _ hmin
      unfold Minimal Element.size
      rw [hwire]
    | some octets =>
      obtain ⟨i,hi,heq⟩ := compareFront_encode_of_framed (c.framed octets hwire)
        (fun h => hmin ((EncodedComponent.wire_of_size hwire).mpr h))
      refine ⟨i,by omega,?_,fun h => by omega⟩
      unfold EncodedComponent.compare
      rw [hwire]
      show memcmp octets c.toBlock.encode _ = some i
      rw [memcmp_min,heq]

end ValidComponent

/-- Fewer components than an `int` counts. -/
structure ValidName where
  components : List ValidComponent
  length_lt : components.length < 2^31

namespace ValidName

def toEncoded (n : ValidName) : EncodedName := n.components.map ValidComponent.toEncodedComponent

def toName (n : ValidName) : Name := n.toEncoded.toName

def Minimal (n : ValidName) : Prop := ∀ c ∈ n.components, c.Minimal

def getSuccessor (n : ValidName) : EncodedName :=
  match n.components.getLast? with
  | none => [⟨Element.encoded ⟨Component.implicitSha256Digest,replicate 32 0⟩
      ⟨by decide,by decide,by decide⟩,by simp [Element.encoded]⟩]
  | some last =>
    n.components.dropLast.map ValidComponent.toEncodedComponent ++ [last.getSuccessor]

variable {n : ValidName}

theorem canonical (h : n.Minimal) : n.toEncoded.Canonical := by
  refine ⟨?_,?_⟩
  · intro c hc
    obtain ⟨v,hv,rfl⟩ := mem_map.mp hc
    exact ValidComponent.canonical (h v hv)
  · rw [toEncoded,length_map]
    exact n.length_lt

theorem canonical_getSuccessor (h : n.Minimal) : n.getSuccessor.Canonical := by
  have hlen := n.length_lt
  unfold getSuccessor
  cases hlast : n.components.getLast? with
  | none =>
    refine ⟨?_,Nat.one_lt_two_pow (by decide)⟩
    intro c hc
    rw [mem_singleton.mp hc]
    exact ⟨rfl,by decide,fun _ => by decide⟩
  | some last =>
    refine ⟨?_,?_⟩
    · intro c hc
      rcases mem_append.mp hc with hc' | hc'
      · obtain ⟨v,hv,rfl⟩ := mem_map.mp hc'
        exact ValidComponent.canonical (h v (dropLast_subset _ hv))
      · rw [mem_singleton.mp hc']
        exact last.canonical_getSuccessor
    · rw [length_append,length_map,length_dropLast,length_singleton]
      omega

theorem toName_getSuccessor (hn : n.components ≠ []) :
    n.getSuccessor.toName = n.toName.getSuccessor := by
  obtain ⟨p,c,hpc⟩ := (eq_nil_or_concat n.components).resolve_left hn
  rw [concat_eq_append] at hpc
  have hname : n.toName = (p.map fun v => v.toComponent) ++ [c.toComponent] := by
    unfold toName toEncoded EncodedName.toName
    rw [hpc,map_map,map_append]
    rfl
  rw [hname,Name.getSuccessor_concat]
  unfold getSuccessor EncodedName.toName
  rw [hpc,getLast?_concat]
  dsimp only
  rw [dropLast_concat,map_append,map_map]
  rfl

theorem digestSized (n : ValidName) : ∀ c ∈ n.toName, c.DigestSized := by
  intro c hc
  obtain ⟨e,he,rfl⟩ := mem_map.mp hc
  obtain ⟨v,_,rfl⟩ := mem_map.mp he
  exact v.digestSized

theorem toName_ne_nil (hn : n.components ≠ []) : n.toName ≠ [] := by
  intro hnil
  exact hn (map_eq_nil_iff.mp (map_eq_nil_iff.mp hnil))

theorem types_getSuccessor (n : ValidName) : ∀ c ∈ n.getSuccessor,
    0 < c.type ∧ c.type ≤ 65535 ∧ c.toComponent.DigestSized := by
  intro c hc
  unfold getSuccessor at hc
  cases hlast : n.components.getLast? with
  | none =>
    rw [hlast] at hc
    rw [mem_singleton.mp hc]
    exact ⟨by decide,by decide,fun _ => rfl⟩
  | some last =>
    rw [hlast] at hc
    rcases mem_append.mp hc with hc' | hc'
    · obtain ⟨v,_,rfl⟩ := mem_map.mp hc'
      exact ⟨v.type_lt.1,v.type_le,v.digestSized⟩
    · rw [mem_singleton.mp hc']
      obtain ⟨hpos,htype,_⟩ := last.successor_bounds
      exact ⟨hpos,htype,Component.digestSized_getSuccessor last.digestSized⟩

def reencode (n : ValidName) : ValidName :=
  ⟨n.components.map ValidComponent.reencode,by rw [length_map]; exact n.length_lt⟩

theorem minimal_reencode (n : ValidName) : n.reencode.Minimal := by
  intro c hc
  obtain ⟨v,_,rfl⟩ := mem_map.mp hc
  rfl

theorem toName_reencode (n : ValidName) : n.reencode.toName = n.toName := by
  unfold toName toEncoded reencode EncodedName.toName
  rw [map_map,map_map,map_map]
  rfl

private theorem compareFront_reencode (components : List ValidComponent) :
    ∃ i ≥ 0, compareFront EncodedComponent.compare
      (components.map ValidComponent.toEncodedComponent)
      ((components.map ValidComponent.reencode).map ValidComponent.toEncodedComponent) = some i ∧
        (i = 0 → ∀ c ∈ components, c.Minimal) := by
  induction components with
  | nil => exact ⟨0,le_rfl,rfl,by simp⟩
  | cons c components ih =>
    obtain ⟨i,hi,heq,hzero⟩ := c.compare_reencode
    by_cases hi' : i = 0
    · subst hi'
      obtain ⟨j,hj,heqj,hzeroj⟩ := ih
      refine ⟨j,hj,?_,?_⟩
      · rw [map_cons,map_cons,map_cons,compareFront_cons_of_zero heq,heqj]
      · intro h
        exact forall_mem_cons.mpr ⟨hzero rfl,hzeroj h⟩
    · refine ⟨i,hi,?_,fun h => absurd h hi'⟩
      rw [map_cons,map_cons,map_cons,compareFront_cons_of_ne heq hi']

theorem minimal_of_compare_reencode {i : Int} (hi : i ≤ 0)
    (h : n.toEncoded.compare n.reencode.toEncoded = some i) : n.Minimal := by
  obtain ⟨j,hj,heq,hzero⟩ := compareFront_reencode n.components
  unfold EncodedName.compare at h
  rw [show n.toEncoded = n.components.map ValidComponent.toEncodedComponent from rfl,
    show n.reencode.toEncoded = (n.components.map ValidComponent.reencode).map
      ValidComponent.toEncodedComponent from rfl,heq] at h
  dsimp only at h
  by_cases hj' : j = 0
  · exact hzero hj'
  · rw [if_pos hj'] at h
    have hij := Option.some.inj h
    omega

end ValidName

end Encoded

section Ranges

namespace EncodedName

def Le (n m : EncodedName) : Prop := ∃ i ≤ 0, n.compare m = some i

def Lt (n m : EncodedName) : Prop := ∃ i < 0, n.compare m = some i

theorem Agrees.lt_iff {n m : EncodedName} (h : n.Agrees m) : n.Lt m ↔ n.toName < m.toName :=
  h.neg_iff

theorem Agrees.le_iff {n m : EncodedName} (h : n.Agrees m) : n.Le m ↔ n.toName ≤ m.toName := by
  obtain ⟨i,hi,_,hgt⟩ := h
  unfold Le
  rw [hi,← not_lt,← hgt]
  simp

end EncodedName

/-- For a name in its shortest form the names below it are those from it up to its successor, and the
successor is the least name behind them all. For a name in another form they are not. -/
theorem successor_range_iff (n : ValidName) (hn : n.components ≠ []) : n.Minimal ↔
      (∀ m : ValidName, m.Minimal → (n.toEncoded.isPrefixOf m.toEncoded = true ↔
        n.toEncoded.Le m.toEncoded ∧ m.toEncoded.Lt n.getSuccessor)) ∧
      (∀ x : ValidName, x.Minimal → (∀ m : ValidName, m.Minimal →
        n.toEncoded.isPrefixOf m.toEncoded = true → m.toEncoded.Lt x.toEncoded) →
          n.getSuccessor.Le x.toEncoded) ∧
      ∀ c ∈ n.getSuccessor, 0 < c.type ∧ c.type ≤ 65535 ∧ c.toComponent.DigestSized := by
  have hname := ValidName.toName_ne_nil hn
  constructor
  · intro h
    have hn' := ValidName.canonical h
    have hsucc := ValidName.canonical_getSuccessor h
    refine ⟨?_,?_,n.types_getSuccessor⟩
    · intro m hm
      have hm' := ValidName.canonical hm
      rw [isPrefixOf_iff,(agrees_of_canonical hn' hm').le_iff,
        (agrees_of_canonical hm' hsucc).lt_iff,ValidName.toName_getSuccessor hn]
      exact Name.prefix_iff_between hname n.digestSized m.digestSized
    · intro x hx hbound
      have hx' := ValidName.canonical hx
      rw [(agrees_of_canonical hsucc hx').le_iff,ValidName.toName_getSuccessor hn]
      have hlt : ∀ m : ValidName, m.Minimal → n.toName <+: m.toName → m.toName < x.toName := by
        intro m hm hfront
        exact (agrees_of_canonical (ValidName.canonical hm) hx').lt_iff.mp
          (hbound m hm (isPrefixOf_iff.mpr hfront))
      apply Name.getSuccessor_least hname n.digestSized x.digestSized
      · exact hlt n h prefix_rfl
      · intro hfront
        exact lt_irrefl _ (hlt x hx hfront)
  · intro ⟨hrange,_⟩
    have hfront : n.toEncoded.isPrefixOf n.reencode.toEncoded = true := by
      rw [isPrefixOf_iff]
      show n.toName <+: n.reencode.toName
      rw [n.toName_reencode]
    obtain ⟨⟨i,hi,heq⟩,_⟩ := (hrange n.reencode n.minimal_reencode).mp hfront
    exact ValidName.minimal_of_compare_reencode hi heq

def shortNameA : ValidName :=
  ⟨[⟨shortA,by decide,fun h => absurd h (by decide),by decide⟩],by decide⟩

def longNameA : ValidName :=
  ⟨[⟨longA,by decide,fun h => absurd h (by decide),by decide⟩],by decide⟩

theorem longNameA_exceeds : longNameA.toEncoded.isPrefixOf shortNameA.toEncoded = true ∧
      longNameA.toEncoded.compare shortNameA.toEncoded = some 245 ∧
      shortNameA.toEncoded.isPrefixOf longNameA.toEncoded = true ∧
      longNameA.toEncoded.compare shortNameA.getSuccessor = some 245 := by
  decide +kernel

theorem successor_range_iff_shortNameA : shortNameA.components ≠ [] ∧ shortNameA.Minimal ∧
      ∀ m : ValidName, m.Minimal → (shortNameA.toEncoded.isPrefixOf m.toEncoded = true ↔
        shortNameA.toEncoded.Le m.toEncoded ∧ m.toEncoded.Lt shortNameA.getSuccessor) := by
  have hne : shortNameA.components ≠ [] := by simp [shortNameA]
  have hmin : shortNameA.Minimal := by
    intro c hc
    rw [mem_singleton.mp hc]
    exact (by decide : shortA.size = shortA.toBlock.size)
  exact ⟨hne,hmin,((successor_range_iff shortNameA hne).mp hmin).1⟩

end Ranges

end KiteNdn
