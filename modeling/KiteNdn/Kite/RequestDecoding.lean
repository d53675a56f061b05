import KiteNdn.Packet.Interest

/-!
# Decoding requests

`Request::decode` assigns the members of a request one after the other. The name, the nonce and the
time are checked before the first of them is assigned, the parameters only after that; and the
expiration period is assigned only if the parameters hold one.
-/

namespace KiteNdn

open Tlv List Option

variable {i : Packet.Interest}

namespace Packet.SignatureInfo

def findOtherTlv (type : Nat) (info : SignatureInfo) : Option Element :=
  info.otherTlvs.find? fun e => e.type = type

def getNonce (info : SignatureInfo) : Option (List UInt8) :=
  (info.findOtherTlv TlvType.signatureNonce).map fun e => e.value

def getTime (info : SignatureInfo) : Except String (Option Time) :=
  match info.findOtherTlv TlvType.signatureTime with
  | none => .ok none
  | some e => (readNonNegativeInteger e.value).map fun count =>
    some (toNanoseconds (PrefixAnnouncement.toMilliseconds count))

end Packet.SignatureInfo

namespace Kite

structure RequestHeader where
  rvPrefix : Name
  producerSuffix : Name
  nonce : List UInt8
  timestamp : Time
  deriving DecidableEq, Repr

inductive Decoding where
  | decoded (r : Request)
  | thrown (message : String) (left : Request)
  /-- `Interest::isSigned` is `noexcept` and its exception ends the program. -/
  | terminated
  deriving DecidableEq, Repr

namespace Decoding

/-- The object as it was, or no object. -/
def failed : Option String → Request → Decoding
  | some message, r => thrown message r
  | none, _ => terminated

def toOption : Decoding → Option Request
  | decoded r => some r
  | thrown _ _ | terminated => none

end Decoding

namespace Request

/-- The checks up to the name. There is no message where the program ends. -/
def checkHeader (i : Packet.Interest) : Except (Option String) RequestHeader :=
  match i.isSigned with
  | none => .error none
  | some false => .error (some "Not signed")
  | some true =>
    match i.getSignatureInfo with
    | .error message => .error (some message)
    | .ok none => .error none
    | .ok (some si) =>
      match si.getNonce with
      | none => .error (some "Missing nonce or timestamp")
      | some nonce =>
        match si.getTime with
        | .error message => .error (some message)
        | .ok none => .error (some "Missing nonce or timestamp")
        | .ok (some time) =>
          match extractPrefixes i.name.toName with
          | .error _ => .error (some "Name is in the wrong format")
          | .ok (rvPrefix,producerSuffix) => .ok ⟨rvPrefix,producerSuffix,nonce,time⟩

def readExpiration (i : Packet.Interest) : Except String (Option Nat) :=
  match i.getApplicationParameters with
  | none => .ok none
  | some params =>
    match Element.parse params.value with
    | .error message => .error message
    | .ok elements =>
      match elements.find? fun e => e.type = expirationPeriod with
      | none => .ok none
      | some element => (readNonNegativeInteger element.value).map some

def assignHeader (h : RequestHeader) (r : Request) : Request :=
  { r with rvPrefix := h.rvPrefix, producerSuffix := h.producerSuffix, nonce := some h.nonce,
           timestamp := some h.timestamp }

def decodeInto (i : Packet.Interest) (r : Request) : Decoding :=
  match checkHeader i with
  | .error failure => .failed failure r
  | .ok h =>
    let r := r.assignHeader h
    match readExpiration i with
    | .error message => .thrown message r
    | .ok none => .decoded r
    | .ok (some count) =>
      .decoded { r with expiration := some (PrefixAnnouncement.toMilliseconds count) }

/-- A decode that succeeds depends on the Interest alone, and one that throws changes nothing. -/
structure IsAtomic (i : Packet.Interest) : Prop where
  same : ∀ r₁ r₂ r, decodeInto i r₁ = .decoded r → decodeInto i r₂ = .decoded r
  absent : ∀ r₀ r, decodeInto i r₀ = .decoded r → readExpiration i = .ok none → r.expiration = none
  nonneg : ∀ r₀ r e, decodeInto i r₀ = .decoded r → r.expiration = some e → 0 ≤ e
  unchanged : ∀ r message left, decodeInto i r = .thrown message left → left = r

variable {i : Packet.Interest} {h : RequestHeader}

theorem decodeInto_error {failure : Option String} (hh : checkHeader i = .error failure)
    (r : Request) : decodeInto i r = .failed failure r := by
  rw [decodeInto,hh]

theorem decodeInto_ok (hh : checkHeader i = .ok h) (r : Request) :
    decodeInto i r = match readExpiration i with
      | .error message => .thrown message (r.assignHeader h)
      | .ok none => .decoded (r.assignHeader h)
      | .ok (some count) => .decoded { r.assignHeader h with
          expiration := some (PrefixAnnouncement.toMilliseconds count) } := by
  rw [decodeInto,hh]

theorem checkHeader_eq_ok : checkHeader i = .ok h ↔ i.isSigned = some true ∧
    ∃ si, i.getSignatureInfo = .ok (some si) ∧ si.getNonce = some h.nonce ∧
      si.getTime = .ok (some h.timestamp) ∧
      extractPrefixes i.name.toName = .ok (h.rvPrefix,h.producerSuffix) := by
  constructor
  · intro hh
    unfold checkHeader at hh
    split at hh
    · exact nomatch hh
    · exact nomatch hh
    · next hsigned =>
      refine ⟨hsigned,?_⟩
      split at hh
      · exact nomatch hh
      · exact nomatch hh
      · next si hinfo =>
        refine ⟨si,hinfo,?_⟩
        split at hh
        · exact nomatch hh
        · next nonce hnonce =>
          split at hh
          · exact nomatch hh
          · exact nomatch hh
          · next time htime =>
            split at hh
            · exact nomatch hh
            · next hname =>
              cases hh
              exact ⟨hnonce,htime,hname⟩
  · intro ⟨hsigned,si,hinfo,hnonce,htime,hname⟩
    rw [checkHeader,hsigned]
    simp only [hinfo,hnonce,htime,hname]

theorem readExpiration_lt {count : Nat} (he : readExpiration i = .ok (some count)) :
    count < 2^64 := by
  unfold readExpiration at he
  split at he
  · exact nomatch he
  · split at he
    · exact nomatch he
    · split at he
      · exact nomatch he
      · next element _ =>
        cases hread : readNonNegativeInteger element.value with
        | error message =>
          rw [hread] at he
          exact nomatch he
        | ok n =>
          rw [hread] at he
          cases he
          exact readNonNegativeInteger_lt hread

theorem toMilliseconds_nonneg_iff {count : Nat} (hlt : count < 2^64) :
    0 ≤ PrefixAnnouncement.toMilliseconds count ↔ count < 2^63 := by
  unfold PrefixAnnouncement.toMilliseconds
  split_ifs with hsmall
  · exact iff_of_true (Int.natCast_nonneg count) hsmall
  · refine iff_of_false (fun hnonneg => ?_) hsmall
    omega

/-- Decoding is a function of the Interest and atomic exactly if an Interest that passes the checks
of its name and signature has parameters with a period that fits a signed number. -/
theorem isAtomic_iff (i : Packet.Interest) : IsAtomic i ↔
    ∀ h, checkHeader i = .ok h → ∃ count < 2^63, readExpiration i = .ok (some count) := by
  constructor
  · intro hatomic h hh
    cases he : readExpiration i with
    | error message =>
      have hthrown : decodeInto i {} = .thrown message (assignHeader h {}) := by
        rw [decodeInto_ok hh,he]
      exact absurd (congrArg Request.nonce (hatomic.unchanged _ _ _ hthrown)) nofun
    | ok period =>
      cases period with
      | none =>
        have hdecoded : ∀ r : Request, decodeInto i r = .decoded (r.assignHeader h) := by
          intro r
          rw [decodeInto_ok hh,he]
        have hsame := hatomic.same {} { expiration := some 0 } _ (hdecoded {})
        rw [hdecoded] at hsame
        exact absurd (congrArg Request.expiration (Decoding.decoded.inj hsame)) nofun
      | some count =>
        have hdecoded : decodeInto i {} = .decoded { assignHeader h {} with
            expiration := some (PrefixAnnouncement.toMilliseconds count) } := by
          rw [decodeInto_ok hh,he]
        have hnonneg := hatomic.nonneg _ _ _ hdecoded rfl
        exact ⟨count,(toMilliseconds_nonneg_iff (readExpiration_lt he)).mp hnonneg,rfl⟩
  · intro hperiod
    cases hh : checkHeader i with
    | error failure =>
      have hfailed : ∀ r₀ r : Request, decodeInto i r₀ ≠ .decoded r := by
        intro r₀ r
        rw [decodeInto_error hh]
        cases failure <;> exact nofun
      refine ⟨fun r₁ _ r hr => absurd hr (hfailed r₁ r),fun r₀ r hr => absurd hr (hfailed r₀ r),
        fun r₀ r _ hr => absurd hr (hfailed r₀ r),fun r message left hthrown => ?_⟩
      rw [decodeInto_error hh] at hthrown
      cases failure with
      | none => exact nomatch hthrown
      | some _ => exact (Decoding.thrown.inj hthrown).2.symm
    | ok h =>
      obtain ⟨count,hcount,he⟩ := hperiod h hh
      have hdecoded : ∀ r : Request, decodeInto i r = .decoded { r.assignHeader h with
          expiration := some (PrefixAnnouncement.toMilliseconds count) } := by
        intro r
        rw [decodeInto_ok hh,he]
      constructor
      · intro r₁ r₂ r hr
        rw [hdecoded] at hr ⊢
        exact hr
      · intro r₀ r _ hnone
        rw [he] at hnone
        exact nomatch hnone
      · intro r₀ r e hr hexpiration
        rw [hdecoded] at hr
        cases hr
        cases hexpiration
        exact (toMilliseconds_nonneg_iff (readExpiration_lt he)).mpr hcount
      · intro r message left hthrown
        rw [hdecoded] at hthrown
        exact nomatch hthrown

end Request

section Packets

def Parameter.ofPacket (p : Packet.Parameter) : Parameter :=
  if p.type = TlvType.applicationParameters then .applicationParameters p.value
  else if p.type = TlvType.interestSignatureInfo then
    .interestSignatureInfo (match Packet.SignatureInfo.ofElement p.toElement .interest with
      | .ok si => ⟨si.getNonce,si.getTime.toOption.join⟩
      | .error _ => ⟨none,none⟩)
  else if p.type = TlvType.interestSignatureValue then .interestSignatureValue p.value
  else .other p.toBlock

def SignableInterest.ofPacket (i : Packet.Interest) : SignableInterest :=
  ⟨i.name.toName,i.canBePrefix,i.parameters.map Parameter.ofPacket⟩

open SignableInterest

private theorem getSignatureInfo_ofPacket (i : Packet.Interest) : (ofPacket i).getSignatureInfo =
      (i.findFirstParameter TlvType.interestSignatureInfo).map fun p =>
        match Packet.SignatureInfo.ofElement p.toElement .interest with
        | .ok si => ⟨si.getNonce,si.getTime.toOption.join⟩
        | .error _ => ⟨none,none⟩ := by
  unfold SignableInterest.getSignatureInfo ofPacket Packet.Interest.findFirstParameter
  induction i.parameters with
  | nil => rfl
  | cons p ps ih =>
    rw [map_cons,findSome?_cons,find?_cons,ih]
    by_cases hinfo : p.type = TlvType.interestSignatureInfo
    · rw [decide_eq_true hinfo,Parameter.ofPacket,if_neg (by rw [hinfo]; decide),if_pos hinfo]
      rfl
    · rw [decide_eq_false hinfo,Parameter.ofPacket,if_neg hinfo]
      by_cases hparameters : p.type = TlvType.applicationParameters
      · rw [if_pos hparameters]
      · rw [if_neg hparameters]
        split_ifs <;> rfl

private theorem any_isSignatureValue (i : Packet.Interest) :
    (ofPacket i).parameters.any Parameter.isSignatureValue = i.getSignatureValue.isSome := by
  unfold ofPacket Packet.Interest.getSignatureValue Packet.Interest.findFirstParameter
  rw [isSome_map]
  induction i.parameters with
  | nil => rfl
  | cons p ps ih =>
    rw [map_cons,any_cons,find?_cons]
    by_cases hvalue : p.type = TlvType.interestSignatureValue
    · rw [decide_eq_true hvalue,Parameter.ofPacket,if_neg (by rw [hvalue]; decide),
        if_neg (by rw [hvalue]; decide),if_pos hvalue]
      rfl
    · have hother : (Parameter.ofPacket p).isSignatureValue = false := by
        unfold Parameter.ofPacket
        split_ifs <;> rfl
      rw [decide_eq_false hvalue,hother]
      exact ih

private theorem lastType_ofPacket (i : Packet.Interest) (type : Nat) :
    ((ofPacket i).name.getLast?.map Component.type = some type) ↔
      (i.name.getLast?.any fun c => c.type = type) = true := by
  rw [ofPacket,EncodedName.toName,getLast?_map]
  cases i.name.getLast? with
  | none => simp
  | some c => simp [EncodedComponent.toComponent]

private theorem isSigned_ofPacket {signed : Bool} (h : i.isSigned = some signed) :
    (ofPacket i).isSigned = signed := by
  have hlength : (ofPacket i).parameters.length = i.parameters.length := length_map _
  unfold SignableInterest.isSigned
  unfold Packet.Interest.isSigned at h
  rw [hlength,any_isSignatureValue,getSignatureInfo_ofPacket]
  split_ifs at h with hshort
  · cases h
    rw [decide_eq_false (by omega)]
    rfl
  · unfold Packet.Interest.getSignatureInfo at h
    cases hfirst : i.findFirstParameter TlvType.interestSignatureInfo with
    | none =>
      rw [hfirst] at h
      cases h
      simp
    | some p =>
      rw [hfirst] at h
      dsimp only at h
      cases hinfo : Packet.SignatureInfo.ofElement p.toElement .interest with
      | error message =>
        rw [hinfo] at h
        exact nomatch h
      | ok si =>
        rw [hinfo] at h
        cases h
        have hlast := lastType_ofPacket i Component.parametersSha256DigestComponent
        simp only [map_some,isSome_some,Bool.and_true,
          decide_eq_true (show i.parameters.length ≥ 3 by omega),Bool.true_and]
        congr 1
        rw [Bool.eq_iff_iff,decide_eq_true_iff]
        exact hlast

private theorem getSignatureInfo_eq_iff {nonce : List UInt8} {time : Time} :
    (ofPacket i).getSignatureInfo = some ⟨some nonce,some time⟩ ↔
      ∃ si, i.getSignatureInfo = .ok (some si) ∧ si.getNonce = some nonce ∧
        si.getTime = .ok (some time) := by
  rw [getSignatureInfo_ofPacket,Packet.Interest.getSignatureInfo]
  cases i.findFirstParameter TlvType.interestSignatureInfo with
  | none => simp
  | some p =>
    rw [map_some]
    dsimp only
    cases Packet.SignatureInfo.ofElement p.toElement .interest with
    | error message => simp [Except.map]
    | ok si =>
      have htime : si.getTime.toOption.join = some time ↔ si.getTime = .ok (some time) := by
        cases si.getTime <;> simp [Except.toOption]
      simp [Except.map,htime]

private theorem readExpiration_ofPacket
    (hfront : ∀ p ∈ i.parameters.head?, p.type = TlvType.applicationParameters) :
    Request.readExpiration i = (ofPacket i).getApplicationParameters.bind fun blocks =>
      match blocks.find? fun b => b.type = Request.expirationPeriod with
      | none => .ok none
      | some b => (readNonNegativeInteger b.value).map some := by
  unfold Request.readExpiration Packet.Interest.getApplicationParameters
    SignableInterest.getApplicationParameters ofPacket
  cases hps : i.parameters with
  | nil => rfl
  | cons p ps =>
    have hp := hfront p (by rw [hps]; rfl)
    rw [head?_cons,map_some,map_cons,Parameter.ofPacket,if_pos hp]
    dsimp only
    rw [← Element.parse_blocks]
    cases Element.parse p.value with
    | error message => rfl
    | ok elements =>
      dsimp only [Except.map,Except.bind]
      rw [find?_map]
      show _ = match Option.map Element.toBlock
        (elements.find? fun e => e.type = Request.expirationPeriod) with
        | none => _
        | some b => _
      cases elements.find? fun e => e.type = Request.expirationPeriod <;> rfl

private theorem exists_header {r r' : Request} (h : r.decode (ofPacket i) = .ok r') :
    ∃ header, Request.checkHeader i = .ok header := by
  unfold Request.decode at h
  split_ifs at h with hunsigned
  split at h
  · next nonce time hinfo =>
    obtain ⟨si,hsi,hnonce,htime⟩ := getSignatureInfo_eq_iff.mp hinfo
    split at h
    · exact nomatch h
    · next rvPrefix producerSuffix hname =>
      refine ⟨⟨rvPrefix,producerSuffix,nonce,time⟩,Request.checkHeader_eq_ok.mpr
        ⟨?_,si,hsi,hnonce,htime,hname⟩⟩
      obtain ⟨signed,hsigned⟩ : ∃ signed, i.isSigned = some signed := by
        rw [Packet.Interest.isSigned,hsi]
        split_ifs <;> exact ⟨_,rfl⟩
      rw [hsigned,← isSigned_ofPacket hsigned,(Bool.not_eq_false _).mp hunsigned]
  · exact nomatch h

private theorem front_of_fold {ps : List Packet.Parameter} {j : Packet.Interest} {last l : Nat}
    (hj : ∀ p ∈ j.parameters.head?, p.type = TlvType.applicationParameters)
    (h : ps.foldlM Packet.Interest.decodeElement (j,last) = .ok (i,l)) :
    ∀ p ∈ i.parameters.head?, p.type = TlvType.applicationParameters := by
  induction ps generalizing j last with
  | nil =>
    cases h
    exact hj
  | cons p ps ih =>
    obtain ⟨k,m,hp,h⟩ := Packet.Interest.exists_of_fold_cons h
    refine ih ?_ h
    cases Packet.Interest.decodeElement_cases hp with
    | applicationParameters htype => exact fun q hq => some.inj hq ▸ htype
    | kept _ hne =>
      intro q hq
      rw [head?_append_of_ne_nil _ hne] at hq
      exact hj q hq
    | _ => exact hj

end Packets

namespace Request

open Packet.Interest (wireDecode zeroSha256 exists_decoded)

/-- The octets of a name, to which a digest is added, and of parameters, with a signature by the key
`/r/KEY/k`. Its nonce is 1 and its time is one millisecond. -/
def signedWire (name parameters : List UInt8) (h : name.length + parameters.length < 100) : Element :=
  .encoded ⟨TlvType.interest,[7,UInt8.ofNat (name.length + 34)] ++ name ++ [2,32] ++
      replicate 32 0 ++ parameters ++ [44,24,27,1,3,28,13,7,11,8,1,114,8,3,75,69,89,8,1,107,38,1,1,
        40,1,1,46,1,0]⟩
    ⟨(by decide : 0 < TlvType.interest),(by decide : TlvType.interest < 2^32),by
      simp only [length_append,length_replicate,length_cons,length_nil]
      omega⟩

def requestName : List UInt8 := [8,1,114,32,4,75,73,84,69,8,1,112]

/-- Whatever octets an Interest was decoded from, the members that are assigned one after the other
are those of the request in the model of signed Interests. -/
theorem decode_ofPacket {sha : Packet.Sha256} {autoCheck : Bool} {wire : Element}
    {i₀ : Packet.Interest} (h : wireDecode sha autoCheck wire i₀ = .ok i) (r : Request) :
    (r.decodeInto i).toOption = (r.decode (.ofPacket i)).toOption := by
  obtain ⟨_,_,_,_,_,_,hfold⟩ := Packet.Interest.fold_of_wireDecode h
  have hexpiration := readExpiration_ofPacket (front_of_fold (by simp) hfold)
  cases hh : checkHeader i with
  | ok h =>
    obtain ⟨hsigned,si,hinfo,hnonce,htime,hname⟩ := checkHeader_eq_ok.mp hh
    rw [decodeInto_ok hh,hexpiration,decode,isSigned_ofPacket hsigned,
      getSignatureInfo_eq_iff.mpr ⟨si,hinfo,hnonce,htime⟩,if_neg (by decide)]
    dsimp only
    have hname' : extractPrefixes (SignableInterest.ofPacket i).name =
        .ok (h.rvPrefix,h.producerSuffix) := hname
    rw [hname']
    cases (SignableInterest.ofPacket i).getApplicationParameters with
    | error message => rfl
    | ok blocks =>
      dsimp only [Except.bind,bind]
      cases blocks.find? fun b => b.type = expirationPeriod with
      | none => rfl
      | some b =>
        dsimp only
        cases readNonNegativeInteger b.value <;> rfl
  | error failure =>
    rw [decodeInto_error hh]
    cases hdecode : r.decode (.ofPacket i) with
    | error message => cases failure <;> rfl
    | ok r' =>
      obtain ⟨h,hh'⟩ := exists_header hdecode
      rw [hh] at hh'
      exact nomatch hh'

theorem decode_ofPacket_request : ∃ i,
    wireDecode zeroSha256 true (signedWire requestName [36,0] (by decide)) {} = .ok i ∧
      (decode (.ofPacket i) {}).toOption.isSome = true := by
  obtain ⟨i,hi,hdecoded⟩ := exists_decoded (signedWire requestName [36,0] (by decide))
    (P := fun i => (decodeInto i {}).toOption.isSome = true) (by decide +kernel)
  exact ⟨i,hi,decode_ofPacket hi {} ▸ hdecoded⟩

def largestPeriod : List UInt8 := [36,10,109,8,255,255,255,255,255,255,255,255]

private theorem decoded_of_expiration {r : Request} {e : Option Int}
    (h : (decodeInto i r).toOption.map Request.expiration = some e) :
    ∃ r', decodeInto i r = .decoded r' ∧ r'.expiration = e := by
  cases hd : decodeInto i r with
  | decoded r' =>
    rw [hd] at h
    exact ⟨r',rfl,some.inj h⟩
  | thrown | terminated =>
    rw [hd] at h
    exact nomatch h

/-- Parameters without a period keep the one that was there, parameters that cannot be parsed leave
the new name and signature, and the largest period becomes minus one. -/
theorem decode_not_atomic :
    (∃ i, wireDecode zeroSha256 true (signedWire requestName [36,0] (by decide)) {} = .ok i ∧
      (decodeInto i {}).toOption.map Request.expiration = some none ∧
      (decodeInto i { expiration := some 5 }).toOption.map Request.expiration = some (some 5) ∧
      ¬IsAtomic i) ∧
    (∃ i, wireDecode zeroSha256 true (signedWire requestName [36,1,109] (by decide)) {} = .ok i ∧
      decodeInto i {} = .thrown "Empty buffer during TLV parsing"
        { rvPrefix := [.generic [114]], producerSuffix := [.generic [112]], nonce := some [1],
          timestamp := some 1000000 } ∧
      ¬IsAtomic i) ∧
    (∃ i, wireDecode zeroSha256 true (signedWire requestName largestPeriod (by decide)) {} = .ok i ∧
      (decodeInto i {}).toOption.map Request.expiration = some (some (-1)) ∧ ¬IsAtomic i) := by
  refine ⟨?_,?_,?_⟩
  · obtain ⟨i,hi,hnone,hstale⟩ := exists_decoded (signedWire requestName [36,0] (by decide))
      (P := fun i => (decodeInto i {}).toOption.map Request.expiration = some none ∧
        (decodeInto i { expiration := some 5 }).toOption.map Request.expiration = some (some 5))
      (by decide +kernel)
    refine ⟨i,hi,hnone,hstale,fun hatomic => ?_⟩
    obtain ⟨r,hr,he⟩ := decoded_of_expiration hnone
    obtain ⟨r',hr',he'⟩ := decoded_of_expiration hstale
    have hsame := hatomic.same _ { expiration := some 5 } _ hr
    rw [hr',Decoding.decoded.injEq] at hsame
    rw [← hsame,he'] at he
    exact nomatch he
  · obtain ⟨i,hi,hthrown⟩ := exists_decoded (signedWire requestName [36,1,109] (by decide))
      (P := fun i => decodeInto i {} = .thrown "Empty buffer during TLV parsing"
        { rvPrefix := [.generic [114]], producerSuffix := [.generic [112]], nonce := some [1],
          timestamp := some 1000000 })
      (by decide +kernel)
    exact ⟨i,hi,hthrown,fun hatomic => nomatch hatomic.unchanged _ _ _ hthrown⟩
  · obtain ⟨i,hi,hnegative⟩ := exists_decoded (signedWire requestName largestPeriod (by decide))
      (P := fun i => (decodeInto i {}).toOption.map Request.expiration = some (some (-1)))
      (by decide +kernel)
    obtain ⟨r,hr,he⟩ := decoded_of_expiration hnegative
    exact ⟨i,hi,hnegative,fun hatomic => absurd (hatomic.nonneg _ _ _ hr he) (by decide)⟩

end Request

end Kite

end KiteNdn
