import KiteNdn.Framework.Run
import KiteNdn.Fw.Evolution
import KiteNdn.Packet.Interest

/-!
# Lifetimes from the wire

The lifetime of an Interest is an unsigned number on the wire and a signed count of milliseconds
afterwards. The records made from an Interest, and the timer of its PIT entry, go by that count.
-/

namespace KiteNdn.Packet.Interest

open Framework Tlv Option List

variable {i j : Interest} {last l : Nat} {p : Parameter} {ps : List Parameter} {autoCheck : Bool}
  {wire : Element} {sha : Sha256}

/-- The number in the first element that tells a lifetime. -/
def lifetimeCount (elements : List Element) : Option Nat :=
  (elements.find? fun e => e.type = TlvType.interestLifetime).bind fun e =>
    (readNonNegativeInteger e.value).toOption

def wireLifetime (wire : Element) : Option Nat :=
  (Element.parse wire.value).toOption.bind lifetimeCount

private theorem lifetimeCount_cons_of_ne {e : Element} {es : List Element}
    (h : e.type ≠ TlvType.interestLifetime) : lifetimeCount (e :: es) = lifetimeCount es := by
  rw [lifetimeCount,lifetimeCount,find?_cons_of_neg (by simpa using h)]

private theorem TakesElement.lifetime (h : TakesElement i last p j l) :
    (p.type ≠ TlvType.interestLifetime ∧ j.interestLifetime = i.interestLifetime) ∨
      ∃ count, p.type = TlvType.interestLifetime ∧ last < 6 ∧ l = 6 ∧
        readNonNegativeInteger p.value = .ok count ∧
        j.interestLifetime = (UInt64.ofNat count).toInt64 := by
  cases h with
  | interestLifetime count htype hlast hcount => exact .inr ⟨count,htype,hlast,rfl,hcount,rfl⟩
  | kept htype _ => exact .inl ⟨fun h => htype (by rw [h]; decide),rfl⟩
  | ignored htype =>
    rcases htype with ⟨htype,_⟩ | ⟨htype,_⟩ | ⟨htype,_⟩
    · exact .inl ⟨by rw [htype]; decide,rfl⟩
    · exact .inl ⟨by rw [htype]; decide,rfl⟩
    · exact .inl ⟨fun h => htype (by rw [h]; decide),rfl⟩
  | canBePrefix htype _ | mustBeFresh htype _ | forwardingHint _ htype _ | nonce _ htype _
  | hopLimit _ htype _ | applicationParameters htype _ _ => exact .inl ⟨by rw [htype]; decide,rfl⟩

private theorem TakesElement.last_le (h : TakesElement i last p j l) : last ≤ l := by
  cases h <;> omega

private theorem fold_after_lifetime (hlast : 6 ≤ last)
    (h : ps.foldlM decodeElement (i,last) = .ok (j,l)) :
    j.interestLifetime = i.interestLifetime := by
  induction ps generalizing i last with
  | nil =>
    cases h
    rfl
  | cons p ps ih =>
    obtain ⟨k,m,hp,h⟩ := exists_of_fold_cons h
    have htakes := decodeElement_cases hp
    rw [ih (hlast.trans htakes.last_le) h]
    rcases htakes.lifetime with ⟨_,hkeeps⟩ | ⟨_,_,hlt,_⟩
    · exact hkeeps
    · omega

private theorem fold_lifetime (h : ps.foldlM decodeElement (i,last) = .ok (j,l)) :
    j.interestLifetime = ((lifetimeCount (ps.map Parameter.toElement)).map fun count =>
      (UInt64.ofNat count).toInt64).getD i.interestLifetime := by
  induction ps generalizing i last with
  | nil =>
    cases h
    rfl
  | cons p ps ih =>
    obtain ⟨k,m,hp,h⟩ := exists_of_fold_cons h
    rcases (decodeElement_cases hp).lifetime with ⟨htype,hkeeps⟩ | ⟨count,htype,_,hm,hcount,hset⟩
    · rw [map_cons,lifetimeCount_cons_of_ne htype,← hkeeps]
      exact ih h
    · have hfirst : lifetimeCount ((p :: ps).map Parameter.toElement) = some count := by
        rw [lifetimeCount,map_cons,find?_cons_of_pos (by simpa using htype),
          bind_some,hcount]
        rfl
      rw [fold_after_lifetime (by omega) h,hset,hfirst]
      rfl

theorem wireDecode_lifetime (h : i.wireDecode sha autoCheck wire = .ok j) :
    j.interestLifetime = ((wireLifetime wire).map fun count =>
      (UInt64.ofNat count).toInt64).getD defaultLifetime := by
  obtain ⟨element,elements,name,last,hparse,htype,hfold⟩ := fold_of_wireDecode h
  have hne : element.type ≠ TlvType.interestLifetime := by
    rw [htype]
    decide
  rw [fold_lifetime hfold,locate_elements,wireLifetime,hparse,Except.toOption,bind_some,
    lifetimeCount_cons_of_ne hne]
  rfl

theorem wireLifetime_lt {count : Nat} (h : wireLifetime wire = some count) : count < 2^64 := by
  obtain ⟨elements,_,h⟩ := bind_eq_some_iff.mp h
  obtain ⟨e,_,h⟩ := bind_eq_some_iff.mp h
  cases hread : readNonNegativeInteger e.value with
  | error message =>
    rw [hread] at h
    exact nomatch h
  | ok integer =>
    rw [hread] at h
    cases h
    exact readNonNegativeInteger_lt hread

theorem lifetime_nonneg_iff (h : i.wireDecode sha autoCheck wire = .ok j) :
    0 ≤ j.interestLifetime.toInt ↔ ∀ count ∈ wireLifetime wire, count < 2^63 := by
  rw [wireDecode_lifetime h]
  cases hcount : wireLifetime wire with
  | none => simp [defaultLifetime]
  | some count =>
    have hlt := wireLifetime_lt hcount
    rw [map_some,getD_some,toInt_toInt64_ofNat,wrap64_nonneg_iff (by omega) (by omega)]
    simp only [mem_some_iff,forall_eq']
    omega

end KiteNdn.Packet.Interest

namespace KiteNdn.Fw

open Framework Option List

def received (generated : Packet.Nonce) (nextHopFaceId : Option FaceId) (i : Packet.Interest) :
    Interest where
  name := i.name.toName
  canBePrefix := i.canBePrefix
  mustBeFresh := i.mustBeFresh
  nonce := (i.nonce.getD generated).octets
  interestLifetime := i.interestLifetime.toInt
  hopLimit := i.hopLimit.map UInt8.toNat
  forwardingHint := i.forwardingHint.map fun d => d.toName
  nextHopFaceId := nextHopFaceId

/-- The steady clock starts with the machine, and the longest lifetime of a record can be added. -/
def ClockInRange (now : Time) : Prop :=
  0 ≤ now ∧ now + maxLifetime * nanosecondsPerMillisecond < 2^63

instance (now : Time) : Decidable (ClockInRange now) := inferInstanceAs (Decidable (_ ∧ _))

theorem le_recordExpiry {i : Interest} {now : Time} (hclock : ClockInRange now)
    (hi : 0 ≤ i.interestLifetime) : now ≤ recordExpiry i now := by
  obtain ⟨hlow,hhigh⟩ := hclock
  have hnanos : 0 ≤ min i.interestLifetime maxLifetime * nanosecondsPerMillisecond ∧
      min i.interestLifetime maxLifetime * nanosecondsPerMillisecond ≤
        maxLifetime * nanosecondsPerMillisecond := by
    unfold maxLifetime nanosecondsPerMillisecond
    omega
  rw [recordExpiry,addDuration,toNanoseconds,wrap64_add_wrap64,wrap64_of_fits]
  · exact le_add_of_nonneg_right hnanos.1
  · exact (by decide : (-2^63 : Int) ≤ 0).trans (add_nonneg hlow hnanos.1)
  · exact (add_le_add_right hnanos.2 now).trans_lt hhigh

theorem expiry_insertOrUpdateInRecord (e : PitEntry) (face : FaceId) (i : Interest) (now : Time) :
    ((e.insertOrUpdateInRecord face i now).getInRecord face).map InRecord.expiry =
      some (recordExpiry i now) := by
  rw [PitEntry.getInRecord,PitEntry.insertOrUpdateInRecord,KeyedList.find?_putFront,if_pos rfl]
  rfl

theorem expiry_insertOrUpdateOutRecord (e : PitEntry) (face : FaceId) (i : Interest) (now : Time) :
    ((e.insertOrUpdateOutRecord face i now).getOutRecord face).map OutRecord.expiry =
      some (recordExpiry i now) := by
  rw [PitEntry.getOutRecord,PitEntry.insertOrUpdateOutRecord,KeyedList.find?_putFront,if_pos rfl]
  rfl

namespace Forwarder

variable {c : Config} {s s' : Forwarder}

def ExpiriesFit (e : PitEntry) : Prop := ∀ r ∈ e.inRecords.items, r.expiry < 2^63

private theorem ExpiriesFit.apply {e : PitEntry} (h : ExpiriesFit e) (x : Change) :
    ExpiriesFit (x.apply e) := by
  intro r hr
  rcases Change.inRecords_apply hr with ⟨r₀,hr₀,_,hexpiry⟩ | ⟨i,now,_,hexpiry⟩
  · rw [← hexpiry]
    exact h r₀ hr₀
  · rw [hexpiry]
    exact (wrap64_range _).2

private theorem expiriesFit_arises {Q : PitId → Change → Prop} (h : Arises Q s s')
    (hs : ∀ id e, s.pit.find? id = some e → ExpiriesFit e) (id : PitId) (e : PitEntry)
    (he : s'.pit.find? id = some e) : ExpiriesFit e :=
  h.forall_entries (fun _ _ _ hr => nomatch hr) (fun _ x _ _ he => he.apply x) hs id e he

theorem run_expiriesFit {events : List Event} (h : run c events = some s) (id : PitId)
    (e : PitEntry) (he : s.pit.find? id = some e) : ExpiriesFit e := by
  refine foldlM_keeps (fun s => ∀ id e, s.pit.find? id = some e → ExpiriesFit e)
    (fun _ _ _ hs hstep => expiriesFit_arises (arises_step hstep) hs) events ?_ h id e he
  intro id e he
  exact absurd (show none = some e from he) nofun

/-- The state in which the expiry timer is computed: the Interest has its in-record. -/
def withInRecord (c : Config) (i : Interest) (ingress : FaceId) (id : PitId) (isNew : Bool)
    (s : Forwarder) : Forwarder :=
  s.modifyEntry id (admitted c i ingress isNew s.now)

theorem onContentStoreMiss_eq (i : Interest) (ingress : FaceId) (id : PitId) (isNew : Bool) :
    s.onContentStoreMiss c i ingress id isNew =
      let s := (s.withInRecord c i ingress id isNew).setExpiryTimer id
        ((s.withInRecord c i ingress id isNew).expiryFromNow id)
      let i := attachHopLimit c i
      match i.nextHopFaceId with
      | some f => .handled (if c.hasFace f then s.sendInterest c i f id else s)
      | none => .dispatched s i id := rfl

@[simp] theorem attachHopLimit_lifetime (i : Interest) :
    (attachHopLimit c i).interestLifetime = i.interestLifetime := by
  unfold attachHopLimit
  split_ifs <;> rfl

theorem expiryFromNow_nonneg {i : Interest} {ingress : FaceId} {id : PitId} {isNew : Bool}
    (hs : ∀ id e, s.pit.find? id = some e → ExpiriesFit e) (hclock : 0 ≤ s.now)
    (hle : s.now ≤ recordExpiry (attachHopLimit c i) s.now) :
    0 ≤ (s.withInRecord c i ingress id isNew).expiryFromNow id := by
  have hid : ∀ e, (admitted c i ingress isNew s.now e).id = e.id := by
    intro e
    cases isNew <;> rfl
  unfold expiryFromNow
  rw [withInRecord,find_modifyEntry _ _ hid,if_pos rfl]
  cases he : s.pit.find? id with
  | none =>
    show 0 ≤ (wrap64 (s.now - s.now)).tdiv _
    rw [sub_self]
    decide
  | some e =>
    have hfit : ExpiriesFit (admitted c i ingress isNew s.now e) := by
      have hnew : ExpiriesFit (if isNew then { e with interest := attachHopLimit c i } else e) := by
        cases isNew <;> exact hs id e he
      exact hnew.apply (.enter ingress (attachHopLimit c i) s.now)
    have hrecord : ∃ r ∈ (admitted c i ingress isNew s.now e).inRecords.items,
        s.now ≤ r.expiry := by
      obtain ⟨r,hr,hexpiry⟩ := map_eq_some_iff.mp (expiry_insertOrUpdateInRecord
        (if isNew then { e with interest := attachHopLimit c i } else e) ingress
        (attachHopLimit c i) s.now)
      exact ⟨r,((KeyedList.find?_eq_some _).mp hr).1,hexpiry ▸ hle⟩
    simp only [map_some,bind_some]
    generalize admitted c i ingress isNew s.now e = e' at hfit hrecord ⊢
    obtain ⟨r,hr,hnow⟩ := hrecord
    have hmem : r.expiry ∈ e'.inRecords.items.map InRecord.expiry := mem_map_of_mem hr
    obtain ⟨last,hlast⟩ : ∃ last, e'.lastExpiry = some last :=
      isSome_iff_exists.mp (List.isSome_max?_of_mem hmem)
    obtain ⟨r',hr',hlast'⟩ := mem_map.mp (List.max?_mem hlast)
    have hbound : last < 2^63 := hlast' ▸ hfit r' hr'
    have hge : s.now ≤ last := hnow.trans ((List.max?_eq_some_iff.mp hlast).2 _ hmem)
    show 0 ≤ (wrap64 (e'.lastExpiry.getD s.now - s.now)).tdiv _
    rw [hlast,getD_some,wrap64_of_fits]
    · exact Int.tdiv_nonneg (sub_nonneg.mpr hge) (by decide)
    · exact (by decide : (-2^63 : Int) ≤ 0).trans (sub_nonneg.mpr hge)
    · exact (sub_le_self last hclock).trans_lt hbound

def timerOnMiss (c : Config) (i : Interest) (ingress : FaceId) (s : Forwarder) : Int :=
  ((s.insertPit i).1.withInRecord c i ingress (s.insertPit i).2
    (s.findPitEntry i).isNone).expiryFromNow (s.insertPit i).2

def passed (i : Interest) (hopLimit : Option Nat) (forwardingHint : List Name) : Interest :=
  { i with hopLimit := hopLimit, forwardingHint := forwardingHint }

structure Punctual (c : Config) (i : Interest) : Prop where
  lifetime : 0 ≤ i.interestLifetime
  inRecord : ∀ hopLimit hint now (e : PitEntry) face (r : InRecord), ClockInRange now →
    (e.insertOrUpdateInRecord face (passed i hopLimit hint) now).getInRecord face = some r →
    now ≤ r.expiry
  outRecord : ∀ hopLimit hint now (e : PitEntry) face (r : OutRecord), ClockInRange now →
    (e.insertOrUpdateOutRecord face (passed i hopLimit hint) now).getOutRecord face = some r →
    now ≤ r.expiry
  timer : ∀ hopLimit hint events s ingress, run c events = some s → ClockInRange s.now →
    0 ≤ s.timerOnMiss c (passed i hopLimit hint) ingress

theorem punctual_iff {i : Interest} : Punctual c i ↔ 0 ≤ i.interestLifetime := by
  constructor
  · exact Punctual.lifetime
  · intro hi
    have hpassed : ∀ hopLimit hint now, ClockInRange now →
        now ≤ recordExpiry (passed i hopLimit hint) now := by
      intro hopLimit hint now hclock
      exact le_recordExpiry hclock hi
    constructor
    · exact hi
    · intro hopLimit hint now e face r hclock hr
      have hexpiry := expiry_insertOrUpdateInRecord e face (passed i hopLimit hint) now
      rw [hr] at hexpiry
      exact (hpassed hopLimit hint now hclock).trans_eq (some.inj hexpiry).symm
    · intro hopLimit hint now e face r hclock hr
      have hexpiry := expiry_insertOrUpdateOutRecord e face (passed i hopLimit hint) now
      rw [hr] at hexpiry
      exact (hpassed hopLimit hint now hclock).trans_eq (some.inj hexpiry).symm
    · intro hopLimit hint events s ingress hrun hclock
      have hnow : (s.insertPit (passed i hopLimit hint)).1.now = s.now := (steady_insertPit _).now
      apply expiryFromNow_nonneg
      · exact expiriesFit_arises (arises_insertPit (Q := Changed) _) (run_expiriesFit hrun)
      · rw [hnow]
        exact hclock.1
      · rw [hnow]
        exact le_recordExpiry hclock (by rw [attachHopLimit_lifetime]; exact hi)

/-- For an Interest from the wire, neither the lifetime nor the records and timers made from it lie
in the past, exactly if the number on the wire is below 2^63. -/
theorem punctual_of_wire_iff (c : Config) (sha : Packet.Sha256) (autoCheck : Bool)
    (generated : Packet.Nonce) (nextHopFaceId : Option FaceId) {wire : Tlv.Element}
    {old i : Packet.Interest} (h : old.wireDecode sha autoCheck wire = .ok i) :
    Punctual c (received generated nextHopFaceId i) ↔
      ∀ count ∈ Packet.Interest.wireLifetime wire, count < 2^63 :=
  punctual_iff.trans (Packet.Interest.lifetime_nonneg_iff h)

end Forwarder

section Wires

open Packet.Interest Forwarder

def lifetimeWire (lifetime : List UInt8) (h : lifetime.length = 8) : Tlv.Element :=
  .encoded ⟨TlvType.interest,[7,3,8,1,65,12,8] ++ lifetime⟩
    ⟨(by decide : 0 < TlvType.interest),(by decide : TlvType.interest < 2^32),
      by rw [length_append,h]; decide⟩

def longestWire : Tlv.Element := lifetimeWire [127,255,255,255,255,255,255,255] rfl

def overlongWire : Tlv.Element := lifetimeWire [255,255,255,255,255,255,255,255] rfl

theorem punctual_of_wire_iff_longest : ∃ i, wireDecode zeroSha256 true longestWire {} = .ok i ∧
    i.interestLifetime = 2^63 - 1 ∧ Punctual fourFaces (received nonceOne none i) := by
  obtain ⟨i,hdecode,hlifetime⟩ := exists_decoded longestWire
    (P := fun i => i.interestLifetime = 2^63 - 1) (by decide +kernel)
  have hcount : wireLifetime longestWire = some (2^63 - 1) := by decide +kernel
  refine ⟨i,hdecode,hlifetime,(punctual_of_wire_iff _ _ _ _ _ hdecode).mpr fun count hmem => ?_⟩
  rw [hcount] at hmem
  cases hmem
  decide

/-- The largest number on the wire becomes a lifetime of minus one millisecond: the records expire
and the timer ends before they begin. -/
theorem overlong_lifetime_negative : ∃ i s, wireDecode zeroSha256 true overlongWire {} = .ok i ∧
    run fourFaces [.elapse 5000000] = some s ∧ ClockInRange s.now ∧ s.now = 5000000 ∧
    wireLifetime overlongWire = some (2^64 - 1) ∧ i.interestLifetime = -1 ∧
    recordExpiry (received nonceOne none i) s.now = 4000000 ∧
    s.timerOnMiss fourFaces (received nonceOne none i) 1 = -1 := by
  obtain ⟨i,hdecode,hlifetime,hrecord,htimer⟩ := exists_decoded overlongWire
    (P := fun i => i.interestLifetime = -1 ∧
      recordExpiry (received nonceOne none i) 5000000 = 4000000 ∧
      timerOnMiss fourFaces (received nonceOne none i) 1 { empty with now := 5000000 } = -1)
    (by decide +kernel)
  exact ⟨i,_,hdecode,rfl,by decide +kernel,rfl,by decide +kernel,hlifetime,hrecord,htimer⟩

end Wires

end KiteNdn.Fw
