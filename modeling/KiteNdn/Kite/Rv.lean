import KiteNdn.Fw.Registration
import KiteNdn.Kite.RequestDecoding
import KiteNdn.Packet.DataSigning
import KiteNdn.Util.Segments

/-!
# The rendezvous server

The server answers a request with an acknowledgment: a Data packet whose content is a prefix
announcement for the producer. Nothing catches what decoding the request or making the
acknowledgment throws.

The system clock, the server's key and the dates in announcements are parameters.
-/

namespace KiteNdn

open Tlv Encoding List Element
open Packet (SigningKey DataDraft)
open Kite (extractPrefixes contentTypeKiteAck)

section Announcements

variable (encodeValidity : Time × Time → Element) (key : SigningKey) (now : UInt64)

def PrefixAnnouncement.setExpiration (expiration : Int) (pa : PrefixAnnouncement) :
    Except String PrefixAnnouncement :=
  if expiration < 0 then .error "expiration period is negative"
  else .ok { pa with expiration := expiration }

def PrefixAnnouncement.toData (pa : PrefixAnnouncement) : Except String Packet.Data :=
  let elements := .ofBlock (Kite.Request.expirationBlock pa.expiration) ::
    pa.validityPeriod.toList.map encodeValidity
  (Encoding.Tree.node TlvType.content (elements.map .leaf)).write.bind fun content =>
    DataDraft.sign key
      { name := pa.announcedName ++ [keywordComponent,.fromVersion .typed now.toNat,
          .fromSegment .typed 0]
        metaInfo := { type := UInt32.ofNat contentTypePrefixAnn }
        content := some content }

def Kite.Ack.makeData (i : Packet.Interest) (ack : Ack) : Except String Packet.Data :=
  match extractPrefixes i.name.toName with
  | .error message => .error message
  | .ok (_,producerPrefix) =>
    if producerPrefix ≠ ack.prefixAnnouncement.announcedName then .error "Producer prefix mismatch"
    else
      (ack.prefixAnnouncement.toData encodeValidity key now).bind fun announcement =>
        match announcement.wire with
        | none => .error "Requested wire format, but Data has not been signed"
        | some wire =>
          (Encoding.Tree.node TlvType.content [.leaf wire]).write.bind fun content =>
            DataDraft.sign key
              { name := i.name.toName
                metaInfo := { type := UInt32.ofNat contentTypeKiteAck }
                content := some content }

end Announcements

section Reading

variable (decodeValidity : Element → Except String (Time × Time))

def AnnouncementElement.ofElement (e : Element) : AnnouncementElement :=
  if e.type = Kite.Request.expirationPeriod then .expirationPeriod e.value
  else if e.type = TlvType.validityPeriod then .validityPeriod (decodeValidity e)
  else .other e.type

def AnnouncementData.ofPacket (d : Packet.Data) : AnnouncementData where
  name := d.name.toName
  contentType := d.metaInfo.type.toNat
  content :=
    match d.content with
    | none => .ok []
    | some content => (Element.parse content.value).map
        (List.map (AnnouncementElement.ofElement decodeValidity))

def ContentElement.ofElement (e : Element) : ContentElement :=
  if e.type = TlvType.data then
    .data ((Packet.Data.wireDecode e).map (AnnouncementData.ofPacket decodeValidity))
  else .other e.type

def Data.ofPacket (d : Packet.Data) : Data where
  name := d.name.toName
  contentType := d.metaInfo.type.toNat
  freshnessPeriod := d.metaInfo.freshnessPeriod.toInt
  content :=
    match d.content with
    | none => .ok []
    | some content => (Element.parse content.value).map
        (List.map (ContentElement.ofElement decodeValidity))

end Reading

namespace Rv

open Kite (Request Ack Decoding)

variable (encodeValidity : Time × Time → Element) (key : SigningKey) (now : UInt64)

inductive Outcome where
  | put (d : Packet.Data)
  | thrown (message : String)
  | terminated

def defaultExpiration : Int := 1000

def onSuccess (i : Packet.Interest) : Outcome :=
  match Request.decodeInto i {} with
  | .terminated => .terminated
  | .thrown message _ => .thrown message
  | .decoded r =>
    match PrefixAnnouncement.setExpiration (r.expiration.getD defaultExpiration)
        ⟨r.getProducerPrefix,0,none⟩ with
    | .error message => .thrown message
    | .ok pa =>
      match Ack.makeData encodeValidity key now i ⟨pa⟩ with
      | .error message => .thrown message
      | .ok d => .put d

def maxNdnPacketSize : Nat := 8800

/-- `Face::Impl::finishEncoding`, for a packet without tags. There is no block where it throws. -/
def finishEncoding (wire : Element) : Option Element :=
  if wire.size > maxNdnPacketSize then none else some wire

/-- The server survives the Interest, and answers it if it is a request. -/
structure IsRobust (decodeValidity : Element → Except String (Time × Time)) (i : Packet.Interest) :
    Prop where
  returns : ∃ d, onSuccess encodeValidity key now i = .put d
  answers : ∀ r, Request.decodeInto i {} = .decoded r → ∃ d wire received ack,
    onSuccess encodeValidity key now i = .put d ∧ d.wire.bind finishEncoding = some wire ∧
    Packet.Data.ofOctets wire.octets = .ok received ∧ received.name.toName = i.name.toName ∧
    Ack.ofData (.ofPacket decodeValidity received) = .ok ack ∧ r.canMatch ack = true

def announcement (announced : Name) (expiration : Int) : DataDraft where
  name := announced ++ [PrefixAnnouncement.keywordComponent,.fromVersion .typed now.toNat,
    .fromSegment .typed 0]
  metaInfo := { type := UInt32.ofNat PrefixAnnouncement.contentTypePrefixAnn }
  content := some (.ofBlock ⟨TlvType.content,(Request.expirationBlock expiration).encode⟩)

def answer (i : Packet.Interest) (announced : Name) (expiration : Int) : DataDraft where
  name := i.name.toName
  metaInfo := { type := UInt32.ofNat contentTypeKiteAck }
  content := some (.ofBlock ⟨TlvType.content,
    ((announcement now announced expiration).signedBlock key).encode⟩)

section Making

variable {encodeValidity key now} {i : Packet.Interest} {announced rvPrefix : Name} {expiration : Int}
  {d : Packet.Data}

theorem wire_of_decoded {wire : Element} (h : Packet.Data.wireDecode wire = .ok d) :
    d.wire = some wire := by
  obtain ⟨_,_,_,_,_,_,_,_,_,_,rfl⟩ := Packet.Data.wireDecode_eq_ok h
  rfl

theorem toData_eq_ok :
    PrefixAnnouncement.toData encodeValidity key now ⟨announced,expiration,none⟩ = .ok d ↔
      ((announcement now announced expiration).signedBlock key).encode.length < 2^64 ∧
      Packet.Data.wireDecode (.ofBlock ((announcement now announced expiration).signedBlock key)) =
        .ok d :=
  DataDraft.sign_written (Request.expirationBlock expiration)

theorem length_announcement_le :
    ((announcement now announced expiration).signedBlock key).encode.length ≤
      ((answer key now i announced expiration).signedBlock key).encode.length := by
  have hcontent : _ ≤ (Block.encode ⟨TlvType.content,
    ((announcement now announced expiration).signedBlock key).encode⟩).length :=
      Block.length_value_le _
  exact hcontent.trans (DataDraft.length_content_le _ _ _)

theorem exists_announcement (htyped : Name.WellTyped announced)
    (hlen : ((announcement now announced expiration).signedBlock key).encode.length < 2^64) :
    ∃ d, Packet.Data.wireDecode (.ofBlock ((announcement now announced expiration).signedBlock key)) =
        .ok d ∧
      d.name.toName = announced ++ [PrefixAnnouncement.keywordComponent,
        .fromVersion .typed now.toNat,.fromSegment .typed 0] ∧
      d.metaInfo.type = UInt32.ofNat PrefixAnnouncement.contentTypePrefixAnn ∧
      d.content = some (.ofBlock ⟨TlvType.content,(Request.expirationBlock expiration).encode⟩) := by
  have hname : Name.WellTyped (announced ++ [PrefixAnnouncement.keywordComponent,
      .fromVersion .typed now.toNat,.fromSegment .typed 0]) := by
    intro c hc
    rcases mem_append.mp hc with hc | hc
    · exact htyped c hc
    · simp only [mem_cons,not_mem_nil,or_false] at hc
      rcases hc with rfl | rfl | rfl
      · exact (by decide : 0 < 32 ∧ 32 < 2^32)
      · exact (by decide : 0 < 54 ∧ 54 < 2^32)
      · exact (by decide : 0 < 50 ∧ 50 < 2^32)
  have hcontent : (Block.encode ⟨TlvType.content,(Request.expirationBlock expiration).encode⟩).length
      < 2^64 := (DataDraft.length_content_le _ _ _).trans_lt hlen
  have hvalid := Block.valid_of_length (by decide : 0 < TlvType.content)
    (by decide : TlvType.content < 2^32) hcontent
  obtain ⟨d,hd,hname,htype,hcontent,_⟩ := DataDraft.wireDecode_signedBlock hname
    (type_ofBlock _) ((hasWire_ofBlock _).mpr hvalid) hlen
  exact ⟨d,hd,hname,htype,hcontent⟩

private theorem wellTyped_suffix
    (hname : extractPrefixes i.name.toName = .ok (rvPrefix,announced)) :
    Name.WellTyped announced := by
  have hmem : ∀ c ∈ announced, c ∈ i.name.toName := by
    intro c hc
    unfold extractPrefixes at hname
    dsimp only at hname
    split_ifs at hname
    cases hname
    exact List.mem_of_mem_drop (List.mem_of_mem_take hc)
  exact fun c hc => i.name.wellTyped_toName c (hmem c hc)

theorem makeData_eq_ok (hname : extractPrefixes i.name.toName = .ok (rvPrefix,announced)) :
    Ack.makeData encodeValidity key now i ⟨⟨announced,expiration,none⟩⟩ = .ok d ↔
      ((answer key now i announced expiration).signedBlock key).encode.length < 2^64 ∧
      Packet.Data.wireDecode (.ofBlock ((answer key now i announced expiration).signedBlock key)) =
        .ok d := by
  rw [Ack.makeData,hname]
  dsimp only
  rw [if_neg (not_not.mpr rfl)]
  cases htoData : PrefixAnnouncement.toData encodeValidity key now ⟨announced,expiration,none⟩ with
  | error message =>
    refine iff_of_false (fun h => nomatch h) (fun h => ?_)
    have hlen := length_announcement_le.trans_lt h.1
    obtain ⟨a,ha,_⟩ := exists_announcement (wellTyped_suffix hname) hlen
    have hok := (@toData_eq_ok encodeValidity _ _ _ _ _).mpr ⟨hlen,ha⟩
    rw [htoData] at hok
    exact nomatch hok
  | ok a =>
    have hwire := wire_of_decoded (toData_eq_ok.mp htoData).2
    rw [Except.bind,hwire]
    exact DataDraft.sign_written _

end Making

section Reading

variable {decodeValidity : Element → Except String (Time × Time)} {key now} {i : Packet.Interest}
  {announced : Name} {expiration : Int} {d : Packet.Data}

private theorem parse_encoded {b : Block} (h : b.Valid) :
    Element.parse b.encode = .ok [.ofBlock b] := by
  apply parse_eq_ok.mpr
  simp [Element.allOctets,h]

private theorem ofOctets_encoded {b : Block} (h : b.Valid) :
    Packet.Data.ofOctets b.encode = Packet.Data.wireDecode (.ofBlock b) := by
  have hwire := wire_eq_octets ((hasWire_ofBlock b).mpr h)
  rw [octets_ofBlock] at hwire
  rw [Packet.Data.ofOctets,ofSpan_eq_ok.mpr ⟨_,[],hwire,(append_nil _).symm⟩]

private theorem ofData_announcement
    (hname : d.name.toName = announced ++ [PrefixAnnouncement.keywordComponent,
      .fromVersion .typed now.toNat,.fromSegment .typed 0])
    (htype : d.metaInfo.type = UInt32.ofNat PrefixAnnouncement.contentTypePrefixAnn)
    (hcontent : d.content =
      some (.ofBlock ⟨TlvType.content,(Request.expirationBlock expiration).encode⟩)) :
    PrefixAnnouncement.ofData (.ofPacket decodeValidity d) =
      .ok ⟨announced,PrefixAnnouncement.toMilliseconds (expiration % 2^64).toNat,none⟩ := by
  have hlt : (expiration % 2^64).toNat < 2^64 := by omega
  have hvalid : (Request.expirationBlock expiration).Valid := by
    refine ⟨(by decide : 0 < 109),(by decide : 109 < 2^32),?_⟩
    have hle := sizeOfNonNegativeInteger_le (expiration % 2^64).toNat
    rw [← length_writeNonNegativeInteger] at hle
    exact hle.trans_lt (by decide)
  have hread : (AnnouncementData.ofPacket decodeValidity d).content = .ok
      [.expirationPeriod (writeNonNegativeInteger (expiration % 2^64).toNat)] := by
    unfold AnnouncementData.ofPacket
    dsimp only
    rw [hcontent]
    dsimp only
    rw [value_ofBlock,parse_encoded hvalid]
    simp [Except.map,AnnouncementElement.ofElement,Request.expirationBlock]
  have hreverse : (AnnouncementData.ofPacket decodeValidity d).name.reverse =
      .fromSegment .typed 0 :: .fromVersion .typed now.toNat ::
        PrefixAnnouncement.keywordComponent :: announced.reverse := by
    show d.name.toName.reverse = _
    rw [hname]
    simp
  have htype' : (AnnouncementData.ofPacket decodeValidity d).contentType =
      PrefixAnnouncement.contentTypePrefixAnn := by
    show d.metaInfo.type.toNat = _
    rw [htype]
    rfl
  unfold PrefixAnnouncement.ofData
  rw [hreverse]
  dsimp only
  rw [if_neg (by simp [Component.isVersion_fromVersion,Component.isSegment_fromSegment]),
    if_neg (not_not.mpr htype'),hread]
  generalize (expiration % 2^64).toNat = count at hlt
  simp [PrefixAnnouncement.findExpiration,PrefixAnnouncement.findValidity,
    PrefixAnnouncement.unrecognizedType,readNonNegativeInteger_write hlt,bind,Except.bind]

theorem ofData_answer (decodeValidity : Element → Except String (Time × Time))
    (htyped : Name.WellTyped announced)
    (hlen : ((answer key now i announced expiration).signedBlock key).encode.length < 2^64) :
    ∃ d ack, Packet.Data.wireDecode
        (.ofBlock ((answer key now i announced expiration).signedBlock key)) = .ok d ∧
      d.name.toName = i.name.toName ∧
      Ack.ofData (.ofPacket decodeValidity d) = .ok ack ∧
      ack.prefixAnnouncement.announcedName = announced := by
  have hlen' := length_announcement_le.trans_lt hlen
  have hcontent : (Block.encode ⟨TlvType.content,((announcement now announced
      expiration).signedBlock key).encode⟩).length < 2^64 :=
    (DataDraft.length_content_le _ _ _).trans_lt hlen
  have hvalid := Block.valid_of_length (by decide : 0 < TlvType.content)
    (by decide : TlvType.content < 2^32) hcontent
  have hvalid' : ((announcement now announced expiration).signedBlock key).Valid :=
    Block.valid_of_length (by decide : 0 < TlvType.data) (by decide : TlvType.data < 2^32) hlen'
  obtain ⟨a,ha,haname,hatype,hacontent⟩ := exists_announcement htyped hlen'
  obtain ⟨d,hd,hdname,hdtype,hdcontent,_⟩ := DataDraft.wireDecode_signedBlock
    i.name.wellTyped_toName (type_ofBlock _) ((hasWire_ofBlock _).mpr hvalid) hlen
  refine ⟨d,⟨⟨announced,PrefixAnnouncement.toMilliseconds (expiration % 2^64).toNat,none⟩⟩,hd,hdname,
    ?_,rfl⟩
  have hread : (Data.ofPacket decodeValidity d).content =
      .ok [.data (.ok (.ofPacket decodeValidity a))] := by
    unfold Data.ofPacket
    dsimp only
    rw [hdcontent]
    dsimp only
    rw [value_ofBlock,parse_encoded hvalid']
    have htype : (Element.ofBlock ((announcement now announced expiration).signedBlock key)).type =
      TlvType.data := type_ofBlock _
    show Except.ok [ContentElement.ofElement decodeValidity _] = _
    rw [ContentElement.ofElement,if_pos htype,ha]
    rfl
  have htype : (Data.ofPacket decodeValidity d).contentType = contentTypeKiteAck := by
    show d.metaInfo.type.toNat = _
    rw [hdtype]
    rfl
  rw [Ack.ofData,if_neg (not_not.mpr htype),hread]
  dsimp only
  rw [Kite.findData]
  show (match PrefixAnnouncement.ofData _ with | .error _ => _ | .ok pa => _) = _
  rw [ofData_announcement haname hatype hacontent]

end Reading

section Robustness

variable {encodeValidity key now} {i : Packet.Interest} {h : Kite.RequestHeader}
  {period : Option Nat}

def announcedExpiration (period : Option Nat) : Int :=
  (period.map PrefixAnnouncement.toMilliseconds).getD defaultExpiration

private theorem announcedExpiration_nonneg_iff (he : Request.readExpiration i = .ok period) :
    0 ≤ announcedExpiration period ↔ ∀ count ∈ period, count < 2^63 := by
  cases period with
  | none => exact iff_of_true (by decide) nofun
  | some count =>
    have hiff := Request.toMilliseconds_nonneg_iff (Request.readExpiration_lt he)
    simpa [announcedExpiration] using hiff

private theorem decodeInto_fresh (hh : Request.checkHeader i = .ok h)
    (he : Request.readExpiration i = .ok period) : Request.decodeInto i {} = .decoded
      { rvPrefix := h.rvPrefix, producerSuffix := h.producerSuffix, timestamp := some h.timestamp
        nonce := some h.nonce, expiration := period.map PrefixAnnouncement.toMilliseconds } := by
  rw [Request.decodeInto_ok hh,he]
  cases period <;> rfl

private theorem onSuccess_request (hh : Request.checkHeader i = .ok h)
    (he : Request.readExpiration i = .ok period) : onSuccess encodeValidity key now i =
      if announcedExpiration period < 0 then .thrown "expiration period is negative"
      else
        match Ack.makeData encodeValidity key now i
            ⟨⟨h.producerSuffix,announcedExpiration period,none⟩⟩ with
        | .error message => .thrown message
        | .ok d => .put d := by
  rw [onSuccess,decodeInto_fresh hh he]
  unfold PrefixAnnouncement.setExpiration
  dsimp only
  rw [show (period.map PrefixAnnouncement.toMilliseconds).getD defaultExpiration =
    announcedExpiration period from rfl]
  split_ifs <;> rfl

private theorem exists_request {d : Packet.Data}
    (hput : onSuccess encodeValidity key now i = .put d) : ∃ h period,
      Request.checkHeader i = .ok h ∧ Request.readExpiration i = .ok period := by
  unfold onSuccess at hput
  cases hh : Request.checkHeader i with
  | error failure =>
    rw [Request.decodeInto_error hh] at hput
    cases failure <;> exact nomatch hput
  | ok h =>
    cases he : Request.readExpiration i with
    | error message =>
      rw [Request.decodeInto_ok hh,he] at hput
      exact nomatch hput
    | ok period => exact ⟨h,period,rfl,rfl⟩

/-- The server is robust for the Interests that are requests with a period that fits a signed
number, if there is one, and with an answer that fits a packet. -/
theorem isRobust_iff (encodeValidity : Time × Time → Element) (key : SigningKey) (now : UInt64)
    (decodeValidity : Element → Except String (Time × Time)) (i : Packet.Interest) :
    IsRobust encodeValidity key now decodeValidity i ↔
      ∃ h period, Request.checkHeader i = .ok h ∧ Request.readExpiration i = .ok period ∧
        (∀ count ∈ period, count < 2^63) ∧
        ((answer key now i h.producerSuffix (announcedExpiration period)).signedBlock key).size ≤
          maxNdnPacketSize := by
  constructor
  · intro hrobust
    obtain ⟨d,hput⟩ := hrobust.returns
    obtain ⟨h,period,hh,he⟩ := exists_request hput
    obtain ⟨_,_,_,_,_,hname⟩ := Request.checkHeader_eq_ok.mp hh
    obtain ⟨d,wire,_,_,hput,hwire,_⟩ := hrobust.answers _ (decodeInto_fresh hh he)
    rw [onSuccess_request hh he] at hput
    split_ifs at hput with hneg
    refine ⟨h,period,hh,he,(announcedExpiration_nonneg_iff he).mp (not_lt.mp hneg),?_⟩
    cases hmake : Ack.makeData encodeValidity key now i
        ⟨⟨h.producerSuffix,announcedExpiration period,none⟩⟩ with
    | error message =>
      rw [hmake] at hput
      exact nomatch hput
    | ok made =>
      rw [hmake] at hput
      cases hput
      rw [wire_of_decoded ((makeData_eq_ok hname).mp hmake).2,Option.bind_some,finishEncoding,
        size_ofBlock] at hwire
      split_ifs at hwire with hsize
      exact not_lt.mp hsize
  · intro ⟨h,period,hh,he,hfits,hsize⟩
    obtain ⟨_,_,_,_,_,hname⟩ := Request.checkHeader_eq_ok.mp hh
    have hlen : ((answer key now i h.producerSuffix
        (announcedExpiration period)).signedBlock key).encode.length < 2^64 :=
      lt_of_le_of_lt hsize (by decide)
    have hvalid := Block.valid_of_length (b := (answer key now i h.producerSuffix
      (announcedExpiration period)).signedBlock key) (by decide : 0 < TlvType.data)
      (by decide : TlvType.data < 2^32) hlen
    obtain ⟨d,ack,hd,hdname,hack,hannounced⟩ :=
      ofData_answer decodeValidity (wellTyped_suffix hname) hlen
    have hput : onSuccess encodeValidity key now i = .put d := by
      rw [onSuccess_request hh he,
        if_neg (not_lt.mpr ((announcedExpiration_nonneg_iff he).mpr hfits)),
        (makeData_eq_ok hname).mpr ⟨hlen,hd⟩]
    refine ⟨⟨d,hput⟩,fun r hr => ⟨d,.ofBlock ((answer key now i h.producerSuffix
      (announcedExpiration period)).signedBlock key),d,ack,hput,?_,?_,hdname,hack,?_⟩⟩
    · rw [wire_of_decoded hd,Option.bind_some,finishEncoding,size_ofBlock,
        if_neg (not_lt.mpr hsize)]
    · rw [octets_ofBlock,ofOctets_encoded hvalid]
      exact hd
    · rw [decodeInto_fresh hh he] at hr
      cases hr
      exact decide_eq_true hannounced

open Packet.Interest (wireDecode zeroSha256 exists_decoded)

/-- A request that fits is answered under its name. Whatever the state and the faces of a forwarder
are, the answer makes the strategy announce nothing but the requested prefix. -/
theorem request_answered (decodeValidity : Element → Except String (Time × Time))
    (hh : Request.checkHeader i = .ok h) (he : Request.readExpiration i = .ok period)
    (hfits : ∀ count ∈ period, count < 2^63)
    (hlen : ((answer key now i h.producerSuffix
      (announcedExpiration period)).signedBlock key).encode.length < 2^64) :
    ∃ d, onSuccess encodeValidity key now i = .put d ∧ d.name.toName = i.name.toName ∧
      ∀ c s id ingress, (∀ e ∈ s.pit.find? id, e.name = i.name.toName) →
        Fw.Forwarder.AnnouncesRequested c s (.ofPacket decodeValidity d) ingress id := by
  obtain ⟨_,_,_,_,_,hname⟩ := Request.checkHeader_eq_ok.mp hh
  obtain ⟨d,ack,hd,hdname,hack,hannounced⟩ :=
    ofData_answer decodeValidity (wellTyped_suffix hname) hlen
  refine ⟨d,?_,hdname,?_⟩
  · rw [onSuccess_request hh he,
      if_neg (not_lt.mpr ((announcedExpiration_nonneg_iff he).mpr hfits)),
      (makeData_eq_ok hname).mpr ⟨hlen,hd⟩]
  · intro c s id ingress hentry e he s' hs' pa face lifetime ha
    rw [Fw.Forwarder.beforeSatisfyInterest_ack he hack] at hs'
    cases hs'
    rw [Fw.Forwarder.slAnnounce_registPrefix ha,hentry e he,hannounced]
    exact ⟨h.rvPrefix,hname⟩

theorem request_answered_once :
    ∃ i d, onSuccess (fun _ => .ofBlock ⟨0,[]⟩) ⟨1,[],fun _ => []⟩ 0 i = .put d := by
  obtain ⟨i,_,hh,he,hlen⟩ := exists_decoded
    (Request.signedWire Request.requestName [36,0] (by decide))
    (P := fun i => Request.checkHeader i = .ok ⟨[.generic [114]],[.generic [112]],[1],1000000⟩ ∧
      Request.readExpiration i = .ok none ∧ ((answer ⟨1,[],fun _ => []⟩ 0 i [.generic [112]]
        1000).signedBlock ⟨1,[],fun _ => []⟩).encode.length < 2^64) (by decide +kernel)
  obtain ⟨d,hput,_⟩ := request_answered (fun _ => .error "") hh he nofun hlen
  exact ⟨i,d,hput⟩

/-- The server throws, whatever its key and its clock are. -/
def Throws (i : Packet.Interest) (message : String) : Prop :=
  ∀ encodeValidity key now, onSuccess encodeValidity key now i = .thrown message

private theorem Throws.not_isRobust {message : String} (h : Throws i message) :
    ∀ encodeValidity key now decodeValidity, ¬IsRobust encodeValidity key now decodeValidity i := by
  intro encodeValidity key now decodeValidity hrobust
  obtain ⟨d,hput⟩ := hrobust.returns
  rw [h] at hput
  exact nomatch hput

private theorem throws_of_thrown {message : String} {left : Request}
    (h : Request.decodeInto i {} = .thrown message left) : Throws i message := by
  intro encodeValidity key now
  rw [onSuccess,h]

/-- A signed Interest for `/r/x`, a request whose parameters cannot be parsed, and a request for the
longest period. -/
theorem onSuccess_throws :
    (∃ i, wireDecode zeroSha256 true (Request.signedWire [8,1,114,8,1,120] [36,0] (by decide)) {} =
        .ok i ∧ i.isSigned = some true ∧ Throws i "Name is in the wrong format" ∧
      ∀ encodeValidity key now decodeValidity, ¬IsRobust encodeValidity key now decodeValidity i) ∧
    (∃ i, wireDecode zeroSha256 true
        (Request.signedWire Request.requestName [36,1,109] (by decide)) {} = .ok i ∧
      i.isSigned = some true ∧ Throws i "Empty buffer during TLV parsing" ∧
      ∀ encodeValidity key now decodeValidity, ¬IsRobust encodeValidity key now decodeValidity i) ∧
    (∃ i, wireDecode zeroSha256 true
        (Request.signedWire Request.requestName Request.largestPeriod (by decide)) {} = .ok i ∧
      i.isSigned = some true ∧ Throws i "expiration period is negative" ∧
      ∀ encodeValidity key now decodeValidity, ¬IsRobust encodeValidity key now decodeValidity i) := by
  refine ⟨?_,?_,?_⟩
  · obtain ⟨i,hi,hsigned,hthrown⟩ := exists_decoded
      (Request.signedWire [8,1,114,8,1,120] [36,0] (by decide))
      (P := fun i => i.isSigned = some true ∧
        Request.decodeInto i {} = .thrown "Name is in the wrong format" {})
      (by decide +kernel)
    have hthrows := throws_of_thrown hthrown
    exact ⟨i,hi,hsigned,hthrows,hthrows.not_isRobust⟩
  · obtain ⟨i,hi,hsigned,hthrown⟩ := exists_decoded
      (Request.signedWire Request.requestName [36,1,109] (by decide))
      (P := fun i => i.isSigned = some true ∧
        Request.decodeInto i {} = .thrown "Empty buffer during TLV parsing"
          { rvPrefix := [.generic [114]], producerSuffix := [.generic [112]], nonce := some [1],
            timestamp := some 1000000 })
      (by decide +kernel)
    have hthrows := throws_of_thrown hthrown
    exact ⟨i,hi,hsigned,hthrows,hthrows.not_isRobust⟩
  · obtain ⟨i,hi,hsigned,hdecoded⟩ := exists_decoded
      (Request.signedWire Request.requestName Request.largestPeriod (by decide))
      (P := fun i => i.isSigned = some true ∧ Request.decodeInto i {} = .decoded
          { rvPrefix := [.generic [114]], producerSuffix := [.generic [112]], nonce := some [1],
            timestamp := some 1000000, expiration := some (-1) })
      (by decide +kernel)
    have hthrows : Throws i "expiration period is negative" := by
      intro encodeValidity key now
      rw [onSuccess,hdecoded]
      rfl
    exact ⟨i,hi,hsigned,hthrows,hthrows.not_isRobust⟩

end Robustness

end Rv

end KiteNdn
