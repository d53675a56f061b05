import KiteNdn.Kite.Request

/-!
# Encoding and decoding requests

A request comes back from its Interest unless the rendezvous prefix has the keyword in it, the name
has a digest component of its own, or the receiver keeps an older expiration period.
-/

namespace KiteNdn.Kite

open List Option Bool

/-- A name as a request has it: prefix, keyword, suffix and one more component, split at the first
keyword. -/
def IsSplit (name rvPrefix producerSuffix : Name) : Prop :=
  rvPrefix ≠ [] ∧ producerSuffix ≠ [] ∧ kiteKeyword ∉ rvPrefix ∧
    ∃ last, name = rvPrefix ++ kiteKeyword :: (producerSuffix ++ [last])

section Names

variable {name rvPrefix producerSuffix : Name}

private theorem findIdx_keyword (h : kiteKeyword ∉ rvPrefix) (rest : Name) :
    (rvPrefix ++ kiteKeyword :: rest).findIdx (fun c => c = kiteKeyword) = rvPrefix.length := by
  rw [findIdx_append,findIdx_eq_length_of_false,if_neg (lt_irrefl _)]
  · simp [findIdx_cons]
  · intro c hc
    exact decide_eq_false fun heq => h (heq ▸ hc)

theorem extractPrefixes_of_isSplit (h : IsSplit name rvPrefix producerSuffix) :
    extractPrefixes name = .ok (rvPrefix,producerSuffix) := by
  obtain ⟨hrv,hsuffix,hkeyword,last,rfl⟩ := h
  have hrvlen := length_pos_of_ne_nil hrv
  have hsuffixlen := length_pos_of_ne_nil hsuffix
  unfold extractPrefixes
  dsimp only
  rw [findIdx_keyword hkeyword,if_neg (by omega),if_neg (by simp),if_pos]
  · have hlen : (((rvPrefix ++ kiteKeyword :: (producerSuffix ++ [last])).length : Int) -
        rvPrefix.length - 1 - 1).toNat = producerSuffix.length := by
      simp only [length_append,length_cons,length_nil]
      omega
    rw [hlen,take_left,drop_append,drop_of_length_le (by omega)]
    simp
  · simp only [length_append,length_cons,length_nil]
    omega

theorem isSplit_of_extractPrefixes (h : extractPrefixes name = .ok (rvPrefix,producerSuffix)) :
    IsSplit name rvPrefix producerSuffix := by
  unfold extractPrefixes at h
  dsimp only at h
  split_ifs at h with hzero hend hlen
  cases h
  have hlt : name.findIdx (fun c => c = kiteKeyword) < name.length :=
    lt_of_le_of_ne findIdx_le_length hend
  have hkeyword : name[name.findIdx (fun c => c = kiteKeyword)] = kiteKeyword :=
    of_decide_eq_true (findIdx_getElem (w := hlt))
  have hbefore : kiteKeyword ∉ name.take (name.findIdx fun c => c = kiteKeyword) := by
    intro hmem
    obtain ⟨k,hk,heq⟩ := mem_take_iff_getElem.mp hmem
    have hk' := (lt_min_iff.mp hk).1
    exact absurd heq (of_decide_eq_false (not_of_lt_findIdx hk'))
  have hdrop := drop_eq_getElem_cons hlt
  rw [hkeyword] at hdrop
  generalize name.findIdx (fun c => c = kiteKeyword) = pos at *
  -- What follows the keyword ends with one component more than the suffix.
  have hrest : name.drop (pos + 1) ≠ [] := by
    intro hnil
    have hzero := congrArg List.length hnil
    rw [length_drop,length_nil] at hzero
    omega
  have hsuffix : (name.drop (pos + 1)).take ((name.length : Int) - pos - 1 - 1).toNat =
      (name.drop (pos + 1)).dropLast := by
    rw [dropLast_eq_take,length_drop]
    congr 1
    omega
  rw [hsuffix]
  refine ⟨?_,?_,hbefore,(name.drop (pos + 1)).getLast hrest,?_⟩
  · intro hnil
    have hzero' := congrArg List.length hnil
    rw [length_take,length_nil] at hzero'
    omega
  · intro hnil
    have hzero' := congrArg List.length hnil
    rw [length_dropLast,length_drop,length_nil] at hzero'
    omega
  · rw [dropLast_append_getLast,← hdrop,take_append_drop]

end Names

section Digests

variable {name : Name} (sha : Sha256) {i : SignableInterest}

/-- The names that have no digest component. -/
def HasNoDigest (name : Name) : Prop := ∀ c ∈ name, c.isParametersSha256Digest = false

instance (name : Name) : Decidable (HasNoDigest name) := by
  unfold HasNoDigest
  infer_instance

private theorem findParametersDigestComponent_eq_iff :
    findParametersDigestComponent name = -1 ↔ HasNoDigest name := by
  have hnil : (name.zipIdx.filter fun p => p.1.isParametersSha256Digest).map Prod.snd = [] ↔
      HasNoDigest name := by
    rw [map_eq_nil_iff,filter_eq_nil_iff]
    constructor
    · intro h c hc
      obtain ⟨k,hk,rfl⟩ := mem_iff_getElem.mp hc
      exact eq_false_of_not_eq_true
        (h (name[k],k) (mem_zipIdx_iff_getElem?.mpr (getElem?_eq_getElem hk)))
    · intro h p hp
      exact not_eq_true _ ▸ h p.1 (fst_mem_of_mem_zipIdx hp)
  rw [← hnil]
  unfold findParametersDigestComponent
  split
  · next h => exact ⟨fun _ => h,fun _ => rfl⟩
  · next pos h =>
    rw [h]
    constructor
    · intro heq
      omega
    · exact fun heq => nomatch heq
  · next hne _ => exact ⟨fun heq => absurd heq (by decide),fun heq => absurd heq hne⟩

private theorem addOrReplace_of_digest (h : ¬HasNoDigest i.name) :
    (i.addOrReplaceParametersDigestComponent sha).name.length = i.name.length ∧
      ¬HasNoDigest (i.addOrReplaceParametersDigestComponent sha).name := by
  unfold SignableInterest.addOrReplaceParametersDigestComponent
  dsimp only
  rw [if_neg (fun heq => h (findParametersDigestComponent_eq_iff.mp heq))]
  refine ⟨length_set,?_⟩
  dsimp only
  generalize (findParametersDigestComponent i.name).toNat = pos
  by_cases hpos : pos < i.name.length
  · intro hno
    have hset := hno _ (mem_set hpos _)
    exact absurd hset (by simp [Component.isParametersSha256Digest,sha.length_digest])
  · rw [set_eq_of_length_le (Nat.le_of_not_lt hpos)]
    exact h

private theorem isDigest (parameters : List Parameter) : Component.isParametersSha256Digest
      ⟨Component.parametersSha256DigestComponent,sha.digest parameters⟩ = true := by
  simp [Component.isParametersSha256Digest,sha.length_digest]

private theorem addOrReplace_of_hasNoDigest (h : HasNoDigest i.name) :
    (i.addOrReplaceParametersDigestComponent sha).name =
      i.name ++ [⟨Component.parametersSha256DigestComponent,sha.digest i.parameters⟩] := by
  unfold SignableInterest.addOrReplaceParametersDigestComponent
  dsimp only
  rw [if_pos (findParametersDigestComponent_eq_iff.mpr h)]

private theorem findParametersDigestComponent_append (h : HasNoDigest name) {c : Component}
    (hc : c.isParametersSha256Digest = true) :
    findParametersDigestComponent (name ++ [c]) = name.length := by
  have hfilter : (name.zipIdx.filter fun p => p.1.isParametersSha256Digest) = [] := by
    rw [filter_eq_nil_iff]
    intro p hp
    exact not_eq_true _ ▸ h p.1 (fst_mem_of_mem_zipIdx hp)
  unfold findParametersDigestComponent
  rw [zipIdx_append,filter_append,hfilter]
  simp [hc]

private theorem addOrReplace_of_append (h : HasNoDigest name) {c : Component}
    (hc : c.isParametersSha256Digest = true) (hi : i.name = name ++ [c]) :
    (i.addOrReplaceParametersDigestComponent sha).name =
      name ++ [⟨Component.parametersSha256DigestComponent,sha.digest i.parameters⟩] := by
  unfold SignableInterest.addOrReplaceParametersDigestComponent
  dsimp only
  rw [hi,findParametersDigestComponent_append h hc,if_neg (by omega)]
  simp

private theorem exists_addOrReplace (h : HasNoDigest name)
    (hi : i.name = name ∨ ∃ c : Component, c.isParametersSha256Digest = true ∧
      i.name = name ++ [c]) :
    ∃ c : Component, c.isParametersSha256Digest = true ∧
      (i.addOrReplaceParametersDigestComponent sha).name = name ++ [c] := by
  rcases hi with hi | ⟨c,hc,hi⟩
  · rw [← hi] at h ⊢
    exact ⟨_,isDigest sha i.parameters,addOrReplace_of_hasNoDigest sha h⟩
  · exact ⟨_,isDigest sha i.parameters,addOrReplace_of_append sha h hc hi⟩

end Digests

section Signing

variable (sha : Sha256) (signer : Signer) {i i' : SignableInterest} {value : List UInt8}

private def StartsWith (value : List UInt8) (i : SignableInterest) : Prop :=
  i.parameters = [] ∧ value = [] ∨ i.parameters = [.applicationParameters value]

private def signedInfo : Parameter :=
  .interestSignatureInfo ⟨some signer.nonce,some signer.timestamp⟩

private def prepared (value : List UInt8) (i : SignableInterest) : SignableInterest :=
  SignableInterest.addOrReplaceParametersDigestComponent sha
    { i with parameters := [.applicationParameters value,signedInfo signer] }

private theorem setSignatureInfo_eq (h : StartsWith value i) :
    i.setSignatureInfo sha ⟨some signer.nonce,some signer.timestamp⟩ =
      prepared sha signer value i := by
  have hparameters : (if i.parameters = [] then [.applicationParameters []] else i.parameters) =
      [.applicationParameters value] := by
    rcases h with ⟨hnil,rfl⟩ | hone
    · rw [if_pos hnil]
    · rw [if_neg (by rw [hone]; exact cons_ne_nil _ _),hone]
  unfold SignableInterest.setSignatureInfo
  rw [hparameters]
  rfl

private theorem setSignatureValue_eq (signature : List UInt8)
    (h : i.parameters = [.applicationParameters value,signedInfo signer]) :
    i.setSignatureValue sha signature =
      .ok (SignableInterest.addOrReplaceParametersDigestComponent sha { i with parameters :=
        [.applicationParameters value,signedInfo signer,.interestSignatureValue signature] }) := by
  unfold SignableInterest.setSignatureValue
  rw [h]
  rfl

private theorem addOrReplace_parameters :
    (i.addOrReplaceParametersDigestComponent sha).parameters = i.parameters := by
  unfold SignableInterest.addOrReplaceParametersDigestComponent
  dsimp only
  split_ifs
  · rfl
  · rfl

private theorem makeSignedInterest_eq (h : StartsWith value i) :
    ∃ signature, i.makeSignedInterest sha signer =
      if (prepared sha signer value i).name.getLast?.map Component.type ≠
        some Component.parametersSha256DigestComponent
      then .error "Interest Name must end with a ParametersSha256DigestComponent"
      else .ok (SignableInterest.addOrReplaceParametersDigestComponent sha
        { prepared sha signer value i with parameters :=
            [.applicationParameters value,signedInfo signer,.interestSignatureValue signature] }) := by
  have hp : (prepared sha signer value i).parameters =
      [.applicationParameters value,signedInfo signer] := addOrReplace_parameters sha
  refine ⟨signer.sign ((prepared sha signer value i).name.dropLast,
    [.applicationParameters value,signedInfo signer]),?_⟩
  unfold SignableInterest.makeSignedInterest SignableInterest.extractSignedRanges
  dsimp only
  rw [setSignatureInfo_eq sha signer h,hp]
  by_cases hlast : (prepared sha signer value i).name.getLast?.map Component.type ≠
      some Component.parametersSha256DigestComponent
  · rw [if_pos hlast,if_pos hlast]
  · rw [if_neg hlast,if_neg hlast]
    exact setSignatureValue_eq sha signer _ hp

private theorem makeSignedInterest_of_hasNoDigest {name : Name} (hname : HasNoDigest name)
    (h : StartsWith value i)
    (hi : i.name = name ∨ ∃ c : Component, c.isParametersSha256Digest = true ∧
      i.name = name ++ [c]) :
    ∃ i' signature c, i.makeSignedInterest sha signer = .ok i' ∧
      c.isParametersSha256Digest = true ∧ i'.name = name ++ [c] ∧ i'.parameters =
        [.applicationParameters value,signedInfo signer,.interestSignatureValue signature] := by
  obtain ⟨signature,heq⟩ := makeSignedInterest_eq sha signer h
  obtain ⟨c,hc,hprepared⟩ := exists_addOrReplace sha (i := { i with parameters :=
    [.applicationParameters value,signedInfo signer] }) hname hi
  have hlast : (prepared sha signer value i).name.getLast?.map Component.type =
      some Component.parametersSha256DigestComponent := by
    rw [prepared,hprepared,getLast?_concat,map_some]
    rw [Component.isParametersSha256Digest,and_eq_true] at hc
    exact congrArg some (of_decide_eq_true hc.1)
  rw [if_neg (not_not_intro hlast)] at heq
  obtain ⟨c',hc',hname'⟩ := exists_addOrReplace sha
    (i := { prepared sha signer value i with parameters :=
      [.applicationParameters value,signedInfo signer,.interestSignatureValue signature] }) hname
    (Or.inr ⟨c,hc,hprepared⟩)
  exact ⟨_,signature,c',heq,hc',hname',addOrReplace_parameters sha⟩

private theorem makeSignedInterest_of_digest (hname : ¬HasNoDigest i.name) (h : StartsWith value i)
    (hs : i.makeSignedInterest sha signer = .ok i') : i'.name.length = i.name.length := by
  obtain ⟨signature,heq⟩ := makeSignedInterest_eq sha signer h
  rw [heq] at hs
  split_ifs at hs
  cases hs
  obtain ⟨hlen,hno⟩ := addOrReplace_of_digest sha (i := { i with parameters :=
    [.applicationParameters value,signedInfo signer] }) hname
  have hlen' := (addOrReplace_of_digest sha (i := { prepared sha signer value i with
    parameters := [.applicationParameters value,signedInfo signer,
      .interestSignatureValue signature] }) hno).1
  exact hlen'.trans hlen

end Signing

namespace Request

variable (sha : Sha256) (signer : Signer) {r : Request}

/-- The receiver reads from the Interest what the sender has put in. -/
def RoundTrips (sha : Sha256) (signer : Signer) (receiver r : Request) : Prop :=
  ∃ i r' decoded, r.makeInterest sha signer = .ok (i,r') ∧ receiver.decode i = .ok decoded ∧
    decoded.rvPrefix = r.rvPrefix ∧ decoded.producerSuffix = r.producerSuffix ∧
      decoded.expiration = r.expiration

section Making

private def parametersValue (r : Request) : List UInt8 :=
  (r.expiration.map fun e => (expirationBlock e).encode).getD []

private def baseName (r : Request) : Name := r.rvPrefix ++ [kiteKeyword] ++ r.producerSuffix

private def unsigned (r : Request) : SignableInterest :=
  match r.expiration with
  | some e => SignableInterest.setApplicationParameters sha (expirationBlock e) { name := r.baseName }
  | none => { name := r.baseName }

private theorem makeInterest_eq (hrv : r.rvPrefix ≠ []) (hsuffix : r.producerSuffix ≠ []) :
    r.makeInterest sha signer =
      if findParametersDigestComponent r.baseName = -2 then
        .error "Name cannot have more than one ParametersSha256DigestComponent"
      else
        ((r.unsigned sha).makeSignedInterest sha signer).map fun i =>
          (i,{ r with nonce := some signer.nonce, timestamp := some signer.timestamp }) := by
  unfold makeInterest
  rw [if_neg hrv,if_neg hsuffix,SignableInterest.ofName]
  change (if findParametersDigestComponent r.baseName = -2 then _ else _ : Except String _) >>= _ = _
  split_ifs
  · rfl
  · change (SignableInterest.makeSignedInterest sha signer (r.unsigned sha)) >>= _ = _
    cases (r.unsigned sha).makeSignedInterest sha signer <;> rfl

private theorem startsWith_unsigned (r : Request) :
    StartsWith r.parametersValue (r.unsigned sha) := by
  unfold unsigned parametersValue
  cases r.expiration with
  | none => exact Or.inl ⟨rfl,rfl⟩
  | some e => exact Or.inr (addOrReplace_parameters sha)

private theorem unsigned_name_of_hasNoDigest (h : HasNoDigest r.baseName) :
    (r.unsigned sha).name = r.baseName ∨ ∃ c : Component, c.isParametersSha256Digest = true ∧
      (r.unsigned sha).name = r.baseName ++ [c] := by
  unfold unsigned
  cases r.expiration with
  | none => exact Or.inl rfl
  | some e => exact Or.inr (exists_addOrReplace sha h (Or.inl rfl))

private theorem unsigned_name_of_digest (h : ¬HasNoDigest r.baseName) :
    (r.unsigned sha).name.length = r.baseName.length ∧ ¬HasNoDigest (r.unsigned sha).name := by
  unfold unsigned
  cases r.expiration with
  | none => exact ⟨rfl,h⟩
  | some e => exact addOrReplace_of_digest sha h

private theorem hasNoDigest_baseName (r : Request) :
    HasNoDigest r.baseName ↔ HasNoDigest (r.rvPrefix ++ r.producerSuffix) := by
  have hkeyword : kiteKeyword.isParametersSha256Digest = false := by decide
  unfold HasNoDigest baseName
  simp only [mem_append,mem_singleton]
  constructor
  · intro h c hc
    apply h
    tauto
  · intro h c hc
    by_cases heq : c = kiteKeyword
    · rw [heq]
      exact hkeyword
    · apply h
      tauto

end Making

section Decoding

variable {i : SignableInterest}

private theorem decode_eq_ok {receiver decoded : Request} (h : receiver.decode i = .ok decoded) :
    extractPrefixes i.name = .ok (decoded.rvPrefix,decoded.producerSuffix) ∧
      ∃ elements, i.getApplicationParameters = .ok elements ∧
        (elements.find? (fun b => b.type = expirationPeriod) = none →
          decoded.expiration = receiver.expiration) := by
  unfold decode at h
  split_ifs at h
  split at h
  · split at h
    · exact nomatch h
    · next rvPrefix producerSuffix hsplit =>
      cases hget : i.getApplicationParameters with
      | error e =>
        rw [hget] at h
        exact nomatch h
      | ok elements =>
        rw [hget] at h
        dsimp only [bind,Except.bind] at h
        rw [hsplit]
        cases hfind : elements.find? fun b => b.type = expirationPeriod with
        | none =>
          rw [hfind] at h
          cases h
          exact ⟨rfl,elements,rfl,fun _ => rfl⟩
        | some b =>
          rw [hfind] at h
          dsimp only at h
          cases hread : Tlv.readNonNegativeInteger b.value with
          | error e =>
            rw [hread] at h
            exact nomatch h
          | ok count =>
            rw [hread] at h
            cases h
            exact ⟨rfl,elements,rfl,fun hnone => by rw [hfind] at hnone; exact nomatch hnone⟩
  · exact nomatch h

private theorem valid_expirationBlock (e : Int) : (expirationBlock e).Valid := by
  refine ⟨Nat.succ_pos 108,show expirationPeriod < 2^32 by decide,?_⟩
  rw [expirationBlock,Tlv.writeNonNegativeInteger,Framework.length_toBytes,
    Tlv.sizeOfNonNegativeInteger]
  split_ifs <;> decide

private theorem parse_parametersValue (r : Request) :
    Tlv.parse r.parametersValue = .ok (r.expiration.map expirationBlock).toList := by
  have hblocks := Tlv.parse_flatMap_encode (r.expiration.map expirationBlock).toList (by
    intro b hb
    obtain ⟨e,_,rfl⟩ := map_eq_some_iff.mp (Option.mem_toList.mp hb)
    exact valid_expirationBlock e)
  unfold parametersValue
  cases h : r.expiration with
  | none => rfl
  | some e =>
    rw [h] at hblocks
    simpa using hblocks

private theorem toMilliseconds_expiration {e : Int} (hpos : 0 ≤ e) (hlt : e < 2^63) :
    PrefixAnnouncement.toMilliseconds (e % 2^64).toNat = e := by
  unfold PrefixAnnouncement.toMilliseconds
  rw [if_pos (by omega)]
  omega

private theorem decode_signed (receiver : Request) {c : Component}
    {name : Name} {signature : List UInt8} (hc : c.isParametersSha256Digest = true)
    (hname : i.name = name ++ [c]) (hparameters : i.parameters =
      [.applicationParameters r.parametersValue,signedInfo signer,.interestSignatureValue signature])
    (hsplit : extractPrefixes i.name = .ok (r.rvPrefix,r.producerSuffix))
    (hexpiration : ∀ e ∈ r.expiration, 0 ≤ e ∧ e < 2^63)
    (hreceiver : r.expiration = none → receiver.expiration = none) :
    ∃ decoded, receiver.decode i = .ok decoded ∧ decoded.rvPrefix = r.rvPrefix ∧
      decoded.producerSuffix = r.producerSuffix ∧ decoded.expiration = r.expiration := by
  have hinfo : i.getSignatureInfo = some ⟨some signer.nonce,some signer.timestamp⟩ := by
    rw [SignableInterest.getSignatureInfo,hparameters]
    rfl
  have hsigned : i.isSigned = true := by
    have htype : c.type = Component.parametersSha256DigestComponent := by
      rw [Component.isParametersSha256Digest,and_eq_true] at hc
      exact of_decide_eq_true hc.1
    simp [SignableInterest.isSigned,hinfo,hparameters,hname,htype,Parameter.isSignatureValue]
  have happlication : i.getApplicationParameters =
      .ok (r.expiration.map expirationBlock).toList := by
    rw [SignableInterest.getApplicationParameters,hparameters]
    exact parse_parametersValue r
  unfold decode
  rw [if_neg (by rw [hsigned]; decide),hinfo]
  dsimp only
  rw [hsplit]
  dsimp only
  rw [happlication]
  dsimp only [bind,Except.bind]
  cases hr : r.expiration with
  | none => exact ⟨_,rfl,rfl,rfl,hreceiver hr⟩
  | some e =>
    obtain ⟨hpos,hlt⟩ := hexpiration e hr
    have hread : Tlv.readNonNegativeInteger (expirationBlock e).value = .ok (e % 2^64).toNat :=
      Tlv.readNonNegativeInteger_write (by omega)
    have hfind : ((some e).map expirationBlock).toList.find? (fun b => b.type = expirationPeriod) =
        some (expirationBlock e) := by simp [expirationBlock]
    rw [hfind]
    dsimp only
    rw [hread]
    exact ⟨_,rfl,rfl,rfl,by rw [toMilliseconds_expiration hpos hlt]⟩

end Decoding

private theorem setExpiration_eq_ok {r₀ : Request} {e : Int} (h : r₀.setExpiration e = .ok r) :
    0 ≤ e ∧ r = { r₀ with expiration := some e } := by
  unfold setExpiration at h
  split_ifs at h with hneg
  exact ⟨Int.not_lt.mp hneg,(Except.ok.inj h).symm⟩

/-- A request with an expiration that its setter accepts comes back exactly if its prefix has no
keyword, its names no digest, and its expiration period nothing to hide behind; and the names of
requests are exactly those that split. -/
theorem roundTrips_iff (sha : Sha256) (signer : Signer) (receiver r : Request)
    (hrv : r.rvPrefix ≠ []) (hsuffix : r.producerSuffix ≠ [])
    (hset : ∀ e ∈ r.expiration, e < 2^63 ∧ ∃ r₀ : Request, r₀.setExpiration e = .ok r) :
    (RoundTrips sha signer receiver r ↔ kiteKeyword ∉ r.rvPrefix ∧
      HasNoDigest (r.rvPrefix ++ r.producerSuffix) ∧
        (r.expiration = none → receiver.expiration = none)) ∧
    ∀ name, (∀ rvPrefix producerSuffix, extractPrefixes name = .ok (rvPrefix,producerSuffix) ↔
        IsSplit name rvPrefix producerSuffix) ∧
      ((∃ e, extractPrefixes name = .error e) ↔
        ¬∃ rvPrefix producerSuffix, IsSplit name rvPrefix producerSuffix) := by
  have hexpiration : ∀ e ∈ r.expiration, 0 ≤ e ∧ e < 2^63 := by
    intro e he
    obtain ⟨hlt,r₀,hr⟩ := hset e he
    exact ⟨(setExpiration_eq_ok hr).1,hlt⟩
  refine ⟨⟨?_,?_⟩,fun name => ⟨fun rvPrefix producerSuffix =>
    ⟨isSplit_of_extractPrefixes,extractPrefixes_of_isSplit⟩,?_,?_⟩⟩
  · rintro ⟨i,r',decoded,hmake,hdecode,hrv',hsuffix',hexpiration'⟩
    rw [makeInterest_eq sha signer hrv hsuffix] at hmake
    split_ifs at hmake
    obtain ⟨hsplit,elements,helements,hkept⟩ := decode_eq_ok hdecode
    rw [hrv',hsuffix'] at hsplit
    obtain ⟨_,_,hkeyword,last,hname⟩ := isSplit_of_extractPrefixes hsplit
    cases hsign : (r.unsigned sha).makeSignedInterest sha signer with
    | error e =>
      rw [hsign] at hmake
      exact nomatch hmake
    | ok i₀ =>
      rw [hsign] at hmake
      cases hmake
      -- A digest in the name would be replaced, and the name would be too short to be split.
      have hnone : HasNoDigest r.baseName := by
        by_contra hdigest
        obtain ⟨hlen,hdigest'⟩ := unsigned_name_of_digest sha hdigest
        have hlen' :=
          makeSignedInterest_of_digest sha signer hdigest' (startsWith_unsigned sha r) hsign
        rw [hlen,hname,baseName] at hlen'
        simp at hlen'
      refine ⟨hkeyword,(hasNoDigest_baseName r).mp hnone,fun hno => ?_⟩
      obtain ⟨i',signature,c,hok,_,_,hparameters⟩ := makeSignedInterest_of_hasNoDigest sha
        signer hnone (startsWith_unsigned sha r) (unsigned_name_of_hasNoDigest sha hnone)
      rw [hsign] at hok
      cases hok
      rw [SignableInterest.getApplicationParameters,hparameters] at helements
      have hparse : .ok elements = Except.ok (r.expiration.map expirationBlock).toList :=
        helements.symm.trans (parse_parametersValue r)
      rw [hno] at hparse hexpiration'
      cases hparse
      rw [← hkept rfl]
      exact hexpiration'
  · rintro ⟨hkeyword,hdigest,hreceiver⟩
    have hnone := (hasNoDigest_baseName r).mpr hdigest
    obtain ⟨i,signature,c,hok,hc,hname,hparameters⟩ := makeSignedInterest_of_hasNoDigest sha
      signer hnone (startsWith_unsigned sha r) (unsigned_name_of_hasNoDigest sha hnone)
    have hsplit : extractPrefixes i.name = .ok (r.rvPrefix,r.producerSuffix) := by
      apply extractPrefixes_of_isSplit
      refine ⟨hrv,hsuffix,hkeyword,c,?_⟩
      rw [hname,baseName]
      simp
    obtain ⟨decoded,hdecode,hsame⟩ := decode_signed signer receiver hc hname hparameters
      hsplit hexpiration hreceiver
    refine ⟨i,{ r with nonce := some signer.nonce, timestamp := some signer.timestamp },decoded,?_,
      hdecode,hsame⟩
    have hfind : findParametersDigestComponent r.baseName = -1 :=
      findParametersDigestComponent_eq_iff.mpr hnone
    rw [makeInterest_eq sha signer hrv hsuffix,if_neg (by rw [hfind]; decide),hok]
    rfl
  · rintro ⟨e,herror⟩ ⟨rvPrefix,producerSuffix,hsplit⟩
    rw [extractPrefixes_of_isSplit hsplit] at herror
    exact nomatch herror
  · intro hnone
    cases h : extractPrefixes name with
    | error e => exact ⟨e,rfl⟩
    | ok p => exact absurd ⟨p.1,p.2,isSplit_of_extractPrefixes h⟩ hnone

def zeroDigest : Sha256 := ⟨fun _ => replicate 32 0,fun _ => length_replicate⟩

def emptySigner : Signer := ⟨[1,2,3,4],1000,fun _ => []⟩

def aliceRequest : Request where
  rvPrefix := [Component.generic [114,118]]
  producerSuffix := [Component.generic [97]]
  expiration := some 1000

theorem roundTrips_iff_alice :
    ((({} : Request).setRvPrefix [Component.generic [114,118]]).setProducerSuffix
      [Component.generic [97]]).setExpiration 1000 = .ok aliceRequest ∧
    RoundTrips zeroDigest emptySigner {} aliceRequest := by
  refine ⟨rfl,(roundTrips_iff zeroDigest emptySigner {} aliceRequest (by decide) (by decide)
    ?_).1.mpr ⟨by decide,by decide,by decide⟩⟩
  rintro e ⟨⟩
  exact ⟨by decide,aliceRequest,rfl⟩

def keywordRequest : Request where
  rvPrefix := [Component.generic [97],kiteKeyword,Component.generic [98]]
  producerSuffix := [Component.generic [112]]
  expiration := some 1000

/-- The setters accept the prefix; the decoder splits at its keyword, and gets `/a` and `/b/KITE/p`. -/
theorem keyword_in_prefix_decoded :
    ((({} : Request).setRvPrefix
      [Component.generic [97],kiteKeyword,Component.generic [98]]).setProducerSuffix
        [Component.generic [112]]).setExpiration 1000 = .ok keywordRequest ∧
    ((keywordRequest.makeInterest zeroDigest emptySigner).bind fun p =>
        ({} : Request).decode p.1).toOption.map (fun r => (r.rvPrefix,r.producerSuffix)) =
      some ([Component.generic [97]],[Component.generic [98],kiteKeyword,Component.generic [112]]) ∧
    ¬RoundTrips zeroDigest emptySigner {} keywordRequest := by
  refine ⟨rfl,by decide +kernel,?_⟩
  rintro ⟨i,r',decoded,hmake,hdecode,hrv,_⟩
  have hdecoded : ((keywordRequest.makeInterest zeroDigest emptySigner).bind fun p =>
      ({} : Request).decode p.1).toOption.map Request.rvPrefix = some [Component.generic [97]] := by
    decide +kernel
  rw [hmake] at hdecoded
  dsimp only [Except.bind] at hdecoded
  rw [hdecode] at hdecoded
  have heq : decoded.rvPrefix = [Component.generic [97]] := some.inj hdecoded
  rw [hrv] at heq
  exact absurd heq (by decide)

end Request

end KiteNdn.Kite
