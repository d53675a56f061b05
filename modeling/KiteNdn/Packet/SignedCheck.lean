import KiteNdn.Packet.Interest

/-!
# The check that an Interest is signed

`Interest::isSigned` is `noexcept`, but it decodes the signature information, which the decoder of
the Interest has only stored.
-/

namespace KiteNdn.Packet

open Tlv List

namespace SignatureInfo

/-- One type of the signature, after it at most one key locator, both of them readable, and besides
them only elements that are kept. -/
def WellFormed (value : List UInt8) : Prop :=
  ∃ elements, Element.parse value = .ok elements ∧
    (∀ e ∈ elements, isOrdered e.toBlock = false → CanBeKept e.toBlock) ∧
    ∃ type locators, (elements.filter fun e => isOrdered e.toBlock) = type :: locators ∧
      type.type = TlvType.signatureType ∧ (∃ n, readSignatureType type = .ok n) ∧
      locators.length ≤ 1 ∧
      ∀ l ∈ locators, l.type = TlvType.keyLocator ∧ ∃ locator, KeyLocator.ofElement l = .ok locator

section Fold

/-- The elements that have a place, after the last one with this index. -/
def Takes : Nat → List Element → Prop
  | _, [] => True
  | last, e :: es =>
    if e.type = TlvType.signatureType then
      last = 0 ∧ (∃ n, readSignatureType e = .ok n) ∧ Takes 1 es
    else last ≤ 1 ∧ (∃ locator, KeyLocator.ofElement e = .ok locator) ∧ Takes 2 es

variable {info : SignatureInfo} {last : Nat} {e : Element}

theorem decodeElement_type (h : e.type = TlvType.signatureType) : decodeElement (info,last) e =
      if last > 0 then .error "SignatureType element is repeated or out-of-order"
      else (readSignatureType e).map fun type => ({ info with type := some type },1) := by
  simp [decodeElement,h]

theorem decodeElement_locator (h : e.type = TlvType.keyLocator) : decodeElement (info,last) e =
      if last > 1 then .error "KeyLocator element is repeated or out-of-order"
      else (KeyLocator.ofElement e).map fun locator =>
        ({ info with keyLocator := some locator },2) := by
  simp [decodeElement,h]

theorem decodeElement_refused (info : SignatureInfo) (last : Nat) (h : isOrdered e.toBlock = false)
    (hkept : ¬CanBeKept e.toBlock) :
    ∃ message, decodeElement (info,last) e = .error message := by
  simp only [isOrdered,Bool.or_eq_false_iff,decide_eq_false_iff_not] at h
  rw [decodeElement,if_neg h.1,if_neg h.2]
  unfold CanBeKept at hkept
  split_ifs at hkept with hnonce
  · exact ⟨_,if_pos ⟨hnonce,by simp [not_not.mp hkept]⟩⟩
  · rw [not_or,Bool.not_eq_false] at hkept
    rw [if_neg (by simp [hnonce])]
    exact ⟨_,if_pos ⟨hnonce,hkept⟩⟩

theorem fold_ok_iff (info : SignatureInfo) (last : Nat) (elements : List Element) :
    (∃ r, elements.foldlM decodeElement (info,last) = .ok r ∧ r.1.type ≠ none) ↔
      (∀ e ∈ elements, isOrdered e.toBlock = false → CanBeKept e.toBlock) ∧
        Takes last (elements.filter fun e => isOrdered e.toBlock) ∧
        (info.type ≠ none ∨ ∃ e ∈ elements, e.type = TlvType.signatureType) := by
  induction elements generalizing info last with
  | nil => simp [pure,Except.pure,Takes]
  | cons e es ih =>
    rw [foldlM_cons]
    by_cases htype : e.type = TlvType.signatureType
    · have hordered : isOrdered e.toBlock = true := by simp [isOrdered,htype]
      rw [decodeElement_type htype,filter_cons_of_pos (by exact hordered),Takes,if_pos htype]
      by_cases hlast : last = 0
      · cases hread : readSignatureType e with
        | error message => simp [hlast,bind,Except.bind,Except.map]
        | ok n =>
          simp only [hlast,gt_iff_lt,lt_irrefl,if_false,bind,Except.bind,Except.map,ih]
          simp [hordered,htype]
      · simp [hlast,Nat.pos_of_ne_zero hlast,bind,Except.bind]
    · by_cases hlocator : e.type = TlvType.keyLocator
      · have hordered : isOrdered e.toBlock = true := by simp [isOrdered,hlocator]
        rw [decodeElement_locator hlocator,filter_cons_of_pos (by exact hordered),Takes,if_neg htype]
        by_cases hlast : last ≤ 1
        · cases hread : KeyLocator.ofElement e with
          | error message => simp [not_lt.mpr hlast,bind,Except.bind,Except.map]
          | ok locator =>
            simp only [gt_iff_lt,not_lt.mpr hlast,if_false,bind,Except.bind,Except.map,ih]
            simp [hordered,htype,hlast]
        · simp [not_le.mp hlast,hlast,bind,Except.bind]
      · have hordered : isOrdered e.toBlock = false := by simp [isOrdered,htype,hlocator]
        rw [filter_cons_of_neg (by simp [hordered])]
        by_cases hkept : CanBeKept e.toBlock
        · simp only [decodeElement_kept hordered hkept,bind,Except.bind,ih]
          simp [hordered,htype,hkept]
        · obtain ⟨message,hrefused⟩ := decodeElement_refused info last hordered hkept
          simp [hrefused,hordered,hkept,bind,Except.bind]

theorem takes_two {es : List Element} : Takes 2 es ↔ es = [] := by
  cases es <;> simp [Takes]

theorem takes_iff {l : List Element} (hl : ∀ e ∈ l, isOrdered e.toBlock = true) :
    Takes 0 l ∧ (∃ e ∈ l, e.type = TlvType.signatureType) ↔ ∃ type locators, l = type :: locators ∧
        type.type = TlvType.signatureType ∧ (∃ n, readSignatureType type = .ok n) ∧
        locators.length ≤ 1 ∧ ∀ k ∈ locators, k.type = TlvType.keyLocator ∧
          ∃ locator, KeyLocator.ofElement k = .ok locator := by
  have hlocator : ∀ e ∈ l, e.type ≠ TlvType.signatureType → e.type = TlvType.keyLocator := by
    intro e he hne
    simpa [isOrdered,hne] using hl e he
  cases l with
  | nil => simp
  | cons e es =>
    by_cases htype : e.type = TlvType.signatureType
    · cases es with
      | nil => simp [Takes,htype]
      | cons k ks =>
        by_cases hk : k.type = TlvType.signatureType
        · simp [Takes,htype,hk]
        · have hkl := hlocator k (by simp) hk
          cases ks <;> simp [Takes,htype,hkl]
    · simp only [Takes,if_neg htype,takes_two]
      constructor
      · rintro ⟨⟨_,_,rfl⟩,e',he',hmem⟩
        rw [mem_singleton.mp he'] at hmem
        exact absurd hmem htype
      · rintro ⟨type,locators,heq,htype',_⟩
        cases heq
        exact absurd htype' htype

end Fold

theorem ofElement_isOk_iff {wire : Element} (h : wire.type = TlvType.interestSignatureInfo) :
    (∃ info, ofElement wire .interest = .ok info) ↔ WellFormed wire.value := by
  unfold ofElement WellFormed
  cases hparse : Element.parse wire.value with
  | error message => simp
  | ok elements =>
    simp only [Except.ok.injEq,exists_eq_left']
    have hkind : wire.type = SignatureInfoType.interest.number := h
    rw [dif_pos hkind]
    have hfold := fold_ok_iff { wire := some wire, wire_type := by simp [h] } 0 elements
    have htakes := takes_iff (l := elements.filter fun e => isOrdered e.toBlock) (by simp)
    have htype : (∃ e ∈ elements, e.type = TlvType.signatureType) ↔
        ∃ e ∈ elements.filter (fun e => isOrdered e.toBlock), e.type = TlvType.signatureType := by
      constructor
      · rintro ⟨e,he,ht⟩
        exact ⟨e,mem_filter.mpr ⟨he,by simp [isOrdered,ht]⟩,ht⟩
      · rintro ⟨e,he,ht⟩
        exact ⟨e,(mem_filter.mp he).1,ht⟩
    rw [← htakes,← htype]
    simp only [ne_eq,not_true_eq_false,false_or] at hfold
    rw [← hfold]
    constructor
    · rintro ⟨info,hinfo⟩
      split at hinfo
      · cases hinfo
      · rename_i info' last hr
        split_ifs at hinfo with hnone
        exact ⟨(info',last),hr,hnone⟩
    · rintro ⟨⟨info,last⟩,hr,hnone⟩
      rw [hr]
      exact ⟨info,if_neg hnone⟩

end SignatureInfo

namespace Interest

/-- The check returns exactly if it does not get to the information, or the information is well
formed. The signature value is not decoded. -/
theorem isSigned_returns_iff (i : Interest) : (∃ signed, i.isSigned = some signed) ↔
    (3 ≤ i.parameters.length → ∀ p ∈ i.findFirstParameter TlvType.interestSignatureInfo,
      SignatureInfo.WellFormed p.value) := by
  unfold isSigned getSignatureInfo
  by_cases hlength : i.parameters.length < 3
  · simp [hlength,not_le.mpr hlength]
  · rw [if_neg hlength]
    cases hfind : i.findFirstParameter TlvType.interestSignatureInfo with
    | none => simp
    | some p =>
      have htype : p.type = TlvType.interestSignatureInfo := by
        simpa using List.find?_some hfind
      have hwell := SignatureInfo.ofElement_isOk_iff htype
      simp only [Option.mem_some_iff,forall_eq',not_lt.mp hlength,true_implies]
      rw [← hwell]
      cases SignatureInfo.ofElement p.toElement .interest <;> simp [Except.map]

def emptyInfoWire : Element :=
  .encoded ⟨TlvType.interest,[7,37,8,1,65,2,32] ++ replicate 32 0 ++ [36,0,44,0,46,1,0]⟩
    ⟨(by decide : 0 < TlvType.interest),(by decide : TlvType.interest < 2^32),by
      simp only [length_append,List.length_replicate,length_cons,List.length_nil]
      decide⟩

/-- The decoder accepts the Interest, and the check ends the program. -/
theorem isSigned_terminates : ∃ i, wireDecode zeroSha256 true emptyInfoWire {} = .ok i ∧
    i.isSigned = none :=
  exists_decoded emptyInfoWire (by decide +kernel)

end Interest

end KiteNdn.Packet
