import KiteNdn.Fw.KiteStrategy
import KiteNdn.Mgmt.RibManager

/-!
# How long an announcement lasts

The lifetime of an announcement is an unsigned number of milliseconds on the wire, a signed one in
the announcement, and a number of nanoseconds in the route and in the measurements entry.
-/

namespace KiteNdn

open Framework Option

section Expiration

def ackExpiration (d : Data) : Option Nat := do
  let elements ← d.content.toOption
  let announcement ← (Kite.findData elements).toOption
  let content ← announcement.content.toOption
  (PrefixAnnouncement.findExpiration content).toOption

theorem PrefixAnnouncement.findExpiration_lt {elements : List AnnouncementElement} {count : Nat}
    (h : findExpiration elements = .ok count) : count < 2^64 := by
  induction elements with
  | nil => exact nomatch h
  | cons e elements ih =>
    cases e with
    | expirationPeriod value => exact Tlv.readNonNegativeInteger_lt h
    | _ => exact ih h

theorem PrefixAnnouncement.ofData_expiration {d : AnnouncementData} {pa : PrefixAnnouncement}
    (h : ofData d = .ok pa) : ∃ elements count, d.content = .ok elements ∧
      findExpiration elements = .ok count ∧ pa.expiration = toMilliseconds count := by
  unfold ofData at h
  split at h
  · split_ifs at h
    split at h
    · exact nomatch h
    · exact nomatch h
    · next elements _ hcontent =>
      cases hcount : findExpiration elements with
      | error message =>
        rw [hcount] at h
        exact nomatch h
      | ok count =>
        rw [hcount] at h
        refine ⟨elements,count,hcontent,hcount,?_⟩
        cases hvalidity : findValidity elements with
        | error message =>
          simp only [hvalidity,bind,Except.bind] at h
          exact nomatch h
        | ok validity =>
          simp only [hvalidity,bind,Except.bind] at h
          split at h
          · exact nomatch h
          · exact (Except.ok.inj h) ▸ rfl
  · exact nomatch h

theorem ack_expiration {d : Data} {ack : Kite.Ack} (h : Kite.Ack.ofData d = .ok ack) :
    ∃ count < 2^64, ackExpiration d = some count ∧
      ack.prefixAnnouncement.expiration = PrefixAnnouncement.toMilliseconds count := by
  unfold Kite.Ack.ofData at h
  split_ifs at h
  split at h
  · exact nomatch h
  · next elements hcontent =>
    cases hdata : Kite.findData elements with
    | error message =>
      rw [hdata] at h
      exact nomatch h
    | ok announcement =>
      rw [hdata] at h
      split at h
      · exact nomatch h
      · next pa hpa =>
        cases h
        obtain ⟨content,count,hinner,hcount,hexpiration⟩ :=
          PrefixAnnouncement.ofData_expiration hpa
        refine ⟨count,PrefixAnnouncement.findExpiration_lt hcount,?_,hexpiration⟩
        simp only [ackExpiration,hcontent,hdata,hinner,hcount,Except.toOption,bind,bind_some]

theorem toMilliseconds_eq {count : Nat} (h : count < 2^64) :
    PrefixAnnouncement.toMilliseconds count = wrap64 count := by
  unfold PrefixAnnouncement.toMilliseconds
  split_ifs
  · exact (wrap64_of_fits (by omega) (by omega)).symm
  · exact (wrap64_of_large (by omega) (by omega)).symm

end Expiration

namespace Routing

def announcedRoute (pa : PrefixAnnouncement) (faceId : FaceId) (maxLifetime : Int)
    (now wallClock : Time) : Route :=
  let route := Route.ofAnnouncement pa faceId now wallClock
  { route with expires := some (min route.annExpires (addDuration now (toNanoseconds maxLifetime))) }

theorem slAnnounce_eq (nth : NthElement) (s : RibManager) (pa : PrefixAnnouncement)
    (faceId : FaceId) (maxLifetime : Int) (wallClock : Time) :
    s.slAnnounce nth pa faceId maxLifetime wallClock = s.beginAddRoute nth pa.announcedName
      (announcedRoute pa faceId maxLifetime s.now wallClock) none := rfl

/-- The route lasts as long as was announced, up to the maximum of the caller, and the measurements
entry of the producer lasts as long as the route. -/
structure LastsAsAnnounced (pa : PrefixAnnouncement) (count maxLifetime : Nat) (faceId : FaceId)
    (now wallClock : Time) : Prop where
  lifetime : (announcedRoute pa faceId maxLifetime now wallClock).expires =
    some (now + (min count maxLifetime : Nat) * nanosecondsPerMillisecond)
  unexpired : 0 < count →
    ∀ t ∈ (announcedRoute pa faceId maxLifetime now wallClock).expires, now < t
  extension : ∀ t ∈ (announcedRoute pa faceId maxLifetime now wallClock).expires,
    t - now ≤ toNanoseconds pa.expiration
  extended : ∀ (f : Fw.Forwarder), f.now = now → ∀ m ∈ (f.extendLifetime pa.announcedName
      (toNanoseconds pa.expiration)).measurements (Fw.Forwarder.measurementsName pa.announcedName),
    ∀ t ∈ (announcedRoute pa faceId maxLifetime now wallClock).expires, t ≤ m.expiry

private theorem le_wrap64_add_iff {now m w : Int} (hnow : 0 ≤ now) (hm : 0 ≤ m)
    (hfit : now + m < 2^63) (hw : -2^63 ≤ w ∧ w < 2^63) :
    now + m ≤ wrap64 (now + w) ↔ m ≤ w ∧ now + w < 2^63 := by
  by_cases h : now + w < 2^63
  · rw [wrap64_of_fits (by omega) h]
    omega
  · rw [wrap64_of_large (by omega) (by omega)]
    omega

theorem expires_announcedRoute {pa : PrefixAnnouncement} (hperiod : pa.validityPeriod = none)
    (faceId : FaceId) (maxLifetime : Int) (now wallClock : Time) :
    (announcedRoute pa faceId maxLifetime now wallClock).expires =
      some (min (addDuration now (toNanoseconds pa.expiration))
        (addDuration now (toNanoseconds maxLifetime))) := by
  have hle : toNanoseconds pa.expiration ≤ durationMax := by
    exact Int.le_sub_one_of_lt (wrap64_range (pa.expiration * nanosecondsPerMillisecond)).2
  have hcompute : computeExpiration pa now wallClock =
      addDuration now (toNanoseconds pa.expiration) := by
    rw [computeExpiration,hperiod]
    exact congrArg (addDuration now) (min_eq_right hle)
  rw [announcedRoute,Route.ofAnnouncement,hcompute]

/-- The lifetime of the route in 64 bits is the announced one, or the maximum of the caller is
reached all the same. -/
private theorem lifetime_iff (count : Nat) {maxLifetime : Nat} {now : Int} (hnow : 0 ≤ now)
    (hclock : now + maxLifetime * nanosecondsPerMillisecond < 2^63) :
    min (wrap64 (now + wrap64 (count * nanosecondsPerMillisecond)))
        (now + maxLifetime * nanosecondsPerMillisecond) =
      now + (min count maxLifetime : Nat) * nanosecondsPerMillisecond ↔
      count ≤ maxLifetime ∨
        maxLifetime * nanosecondsPerMillisecond ≤ wrap64 (count * nanosecondsPerMillisecond) ∧
        now + wrap64 (count * nanosecondsPerMillisecond) < 2^63 := by
  unfold nanosecondsPerMillisecond at *
  by_cases hle : count ≤ maxLifetime
  · rw [wrap64_add_wrap64,wrap64_of_fits (by omega) (by omega)]
    omega
  · have hreached := le_wrap64_add_iff hnow (by omega) hclock (wrap64_range (count * 1000000))
    rw [min_eq_right (not_le.mp hle).le,min_eq_right_iff,hreached]
    omega

private theorem expiry_extendLifetime {f : Fw.Forwarder} {name : Name} {lifetime : Time}
    {m : Fw.MeasurementsEntry} (h : m ∈ (f.extendLifetime name lifetime).measurements
      (Fw.Forwarder.measurementsName name)) : addDuration f.now lifetime ≤ m.expiry := by
  have hentry := (Function.update_self _ _ _).symm.trans h
  obtain ⟨m₀,_,rfl⟩ := map_eq_some_iff.mp hentry
  exact le_max_right _ _

/-- An announcement in an acknowledgment, without a validity period, lasts as announced exactly if
it asks for no more than the maximum of the caller, or reaches it in spite of the wrapping. -/
theorem lastsAsAnnounced_iff {d : Data} {ack : Kite.Ack} (h : Kite.Ack.ofData d = .ok ack)
    (hperiod : ack.prefixAnnouncement.validityPeriod = none) {count : Nat}
    (hcount : ackExpiration d = some count) (maxLifetime : Nat) (faceId : FaceId)
    {now : Time} (wallClock : Time) (hnow : 0 ≤ now)
    (hclock : now + maxLifetime * nanosecondsPerMillisecond < 2^63) :
    LastsAsAnnounced ack.prefixAnnouncement count maxLifetime faceId now wallClock ↔
      (count = 0 ∨ 0 < maxLifetime) ∧ (count ≤ maxLifetime ∨
        maxLifetime * nanosecondsPerMillisecond ≤ wrap64 (count * nanosecondsPerMillisecond) ∧
        now + wrap64 (count * nanosecondsPerMillisecond) < 2^63) := by
  obtain ⟨count',hlt,hcount',hexpiration⟩ := ack_expiration h
  obtain rfl := some.inj (hcount.symm.trans hcount')
  rw [toMilliseconds_eq hlt] at hexpiration
  have hnanos : toNanoseconds ack.prefixAnnouncement.expiration =
      wrap64 (count * nanosecondsPerMillisecond) := by
    rw [toNanoseconds,hexpiration,wrap64_wrap64_mul]
  have hmax : addDuration now (toNanoseconds maxLifetime) =
      now + maxLifetime * nanosecondsPerMillisecond := by
    have hpos : 0 ≤ (maxLifetime : Int) * nanosecondsPerMillisecond :=
      Int.mul_nonneg (Int.natCast_nonneg _) (by decide)
    rw [addDuration,toNanoseconds,wrap64_add_wrap64,wrap64_of_fits _ hclock]
    exact (by decide : (-2^63 : Int) ≤ 0).trans (add_nonneg hnow hpos)
  have hexpires := expires_announcedRoute hperiod faceId maxLifetime now wallClock
  rw [hnanos,hmax] at hexpires
  have hlifetime := lifetime_iff count hnow hclock
  constructor
  · intro hlasts
    have heq := hexpires.symm.trans hlasts.lifetime
    refine ⟨?_,hlifetime.mp (some.inj heq)⟩
    by_contra hneg
    have hzero : maxLifetime = 0 := by omega
    have hearly := hlasts.unexpired (by omega) _ hlasts.lifetime
    rw [hzero,Nat.min_zero] at hearly
    simp at hearly
  · rintro ⟨hpos,hcase⟩
    have hroute := hexpires.trans (congrArg some (hlifetime.mpr hcase))
    have hreached := (hlifetime.mpr hcase).symm.trans_le (min_le_left _ _)
    have hbounds : 0 ≤ ((min count maxLifetime : Nat) : Int) * nanosecondsPerMillisecond ∧
        ((min count maxLifetime : Nat) : Int) * nanosecondsPerMillisecond ≤
          maxLifetime * nanosecondsPerMillisecond := by
      unfold nanosecondsPerMillisecond
      omega
    constructor
    · exact hroute
    · intro hcount₀ t ht
      obtain rfl := some.inj (hroute.symm.trans ht)
      have hlasts : 0 < ((min count maxLifetime : Nat) : Int) * nanosecondsPerMillisecond := by
        unfold nanosecondsPerMillisecond
        omega
      exact lt_add_of_pos_right now hlasts
    · intro t ht
      obtain rfl := some.inj (hroute.symm.trans ht)
      rw [hnanos,add_sub_cancel_left]
      exact ((le_wrap64_add_iff hnow hbounds.1 ((add_le_add_right hbounds.2 now).trans_lt hclock)
        (wrap64_range _)).mp hreached).1
    · intro f hf m hm t ht
      obtain rfl := some.inj (hroute.symm.trans ht)
      have hentry := expiry_extendLifetime hm
      rw [hf,hnanos] at hentry
      exact hreached.trans hentry

def ackFor : List UInt8 → Data :=
  Fw.acknowledgment [Component.generic [114,118],Kite.kiteKeyword,Component.generic [112],
    Component.generic [1]] [Component.generic [112]]

theorem lastsAsAnnounced_iff_second : ∃ ack, Kite.Ack.ofData (ackFor [3,232]) = .ok ack ∧
    LastsAsAnnounced ack.prefixAnnouncement 1000 300000 1 7 0 := by
  refine ⟨_,rfl,(lastsAsAnnounced_iff (d := ackFor [3,232]) rfl rfl (by decide +kernel) 300000 1 0
    (by decide) (by decide)).mpr ⟨.inr (by decide),.inl (by decide)⟩⟩

/-- The largest number is read as minus one millisecond, and 18446744073710 ms become less than half
a millisecond. -/
theorem long_announcement_expires : ∃ ack ack',
    Kite.Ack.ofData (ackFor [255,255,255,255,255,255,255,255]) = .ok ack ∧
    ackExpiration (ackFor [255,255,255,255,255,255,255,255]) = some (2^64 - 1) ∧
    (announcedRoute ack.prefixAnnouncement 1 300000 5000000 0).expires = some 4000000 ∧
    toNanoseconds ack.prefixAnnouncement.expiration = -1000000 ∧
    Kite.Ack.ofData (ackFor [0,0,16,198,247,160,181,238]) = .ok ack' ∧
    ackExpiration (ackFor [0,0,16,198,247,160,181,238]) = some 18446744073710 ∧
    (announcedRoute ack'.prefixAnnouncement 1 300000 5000000 0).expires = some 5448384 :=
  ⟨_,_,rfl,by decide +kernel,by decide +kernel,by decide +kernel,rfl,by decide +kernel,
    by decide +kernel⟩

end Routing

end KiteNdn
