import KiteNdn.Fw.KiteStrategy

/-!
# Nexthops for retransmitted Interests

`BestRouteStrategy` and `AsfStrategy` send a retransmitted Interest to a nexthop without an
unexpired out-record and, when there is none, to the one whose out-record was renewed earliest.
-/

namespace KiteNdn.Fw.NextHops

open Framework List Option

abbrev TimePoint := {t : Int // t ≤ 2 ^ 63 - 1}

def TimePoint.max : TimePoint := ⟨2 ^ 63 - 1,Int.le_refl _⟩

structure OutRecord where
  face : FaceId
  lastRenewed : TimePoint
  expiry : TimePoint
  incomingNack : Option NackReason

structure NextHop where
  face : FaceId
  cost : Nat
  deriving DecidableEq

inductive RetxSuppressionResult where
  | new
  | forward
  | suppress
  deriving DecidableEq

inductive Outcome where
  | suppressed
  | noRoute
  | send (face : FaceId)
  | retry (it : Option NextHop) (isSuppressed : Bool)

structure Incoming where
  config : Config
  inFace : FaceId
  interest : Interest
  outRecords : KeyedList OutRecord.face

namespace Incoming

variable (i : Incoming)

def hasPendingOutRecords (now : TimePoint) : Bool :=
  i.outRecords.items.any fun outRecord =>
    outRecord.expiry.1 ≥ now.1 ∧ outRecord.incomingNack = none

def isNextHopEligible (nexthop : NextHop) (unusedAt : Option TimePoint := none) : Bool :=
  Fw.isNextHopEligible i.config i.inFace i.interest nexthop.face &&
    unusedAt.all fun now =>
      !(i.outRecords.find? nexthop.face).any fun outRecord => outRecord.expiry.1 > now.1

/-- One nexthop of the loop; it fails where the assertion does. -/
def visit (s : Option NextHop × TimePoint) (nexthop : NextHop) :
    Option (Option NextHop × TimePoint) :=
  if i.isNextHopEligible nexthop then
    (i.outRecords.find? nexthop.face).map fun outRecord =>
      if outRecord.lastRenewed.1 < s.2.1 then (some nexthop,outRecord.lastRenewed) else s
  else some s

def findEligibleNextHopWithEarliestOutRecord (nexthops : List NextHop) : Option (Option NextHop) :=
  (nexthops.foldlM i.visit (none,TimePoint.max)).map Prod.fst

end Incoming

def BestRouteStrategy.afterReceiveInterest (i : Incoming) (suppression : RetxSuppressionResult)
    (nexthops : List NextHop) (now : TimePoint) : Option Outcome :=
  match suppression with
  | .suppress => some .suppressed
  | .new =>
    match nexthops.find? fun nexthop => i.isNextHopEligible nexthop with
    | none => some .noRoute
    | some it => some (.send it.face)
  | .forward =>
    match nexthops.find? fun nexthop => i.isNextHopEligible nexthop (some now) with
    | some it => some (.send it.face)
    | none => (i.findEligibleNextHopWithEarliestOutRecord nexthops).map (.retry · false)

namespace AsfStrategy

structure FaceInfo where
  lastRtt : Int
  srtt : Int

def rttNoMeasurement : Int := -1

def rttTimeout : Int := -2

structure FaceStats where
  face : FaceId
  rtt : Int
  srtt : Int
  cost : Nat

/-- Faces without measurements rank better than timeouts. -/
def getValueForSorting (stats : FaceStats) : Int :=
  if stats.rtt = rttTimeout then 2 ^ 63 - 1
  else if stats.rtt = rttNoMeasurement then (2 ^ 63 - 1) / 2
  else stats.srtt

def faceStatsCompare (lhs rhs : FaceStats) : Bool :=
  getValueForSorting lhs < getValueForSorting rhs ∨
    getValueForSorting lhs = getValueForSorting rhs ∧ lhs.cost < rhs.cost

def insertRanked (stats : FaceStats) : List FaceStats → List FaceStats
  | [] => [stats]
  | other :: rankedFaces =>
    if faceStatsCompare stats other then stats :: other :: rankedFaces
    else if faceStatsCompare other stats then other :: insertRanked stats rankedFaces
    else other :: rankedFaces

def toFaceStats (getFaceInfo : FaceId → Option FaceInfo) (nexthop : NextHop) : FaceStats :=
  match getFaceInfo nexthop.face with
  | none => ⟨nexthop.face,rttNoMeasurement,rttNoMeasurement,nexthop.cost⟩
  | some info => ⟨nexthop.face,info.lastRtt,info.srtt,nexthop.cost⟩

variable (i : Incoming) (getFaceInfo : FaceId → Option FaceInfo)

def getBestFaceForForwarding (nexthops : List NextHop) (unusedAt : Option TimePoint) :
    Option FaceId :=
  let eligible := nexthops.filter fun nexthop => i.isNextHopEligible nexthop unusedAt
  let rankedFaces := (eligible.map (toFaceStats getFaceInfo)).foldl (flip insertRanked) []
  rankedFaces.head?.map FaceStats.face

/-- The clock is read for the pending out-records and again for the unused nexthops. Whether an
upstream is suppressed is up to `decidePerUpstream`. -/
def afterReceiveInterest (decidePerUpstream : FaceId → RetxSuppressionResult)
    (nexthops : List NextHop) (now now' : TimePoint) : Option Outcome :=
  if i.hasPendingOutRecords now then
    match getBestFaceForForwarding i getFaceInfo nexthops (some now') with
    | some faceToUse =>
      some (if decidePerUpstream faceToUse = .suppress then .suppressed else .send faceToUse)
    | none =>
      (i.findEligibleNextHopWithEarliestOutRecord nexthops).map fun it =>
        .retry it (it.any fun nexthop => decidePerUpstream nexthop.face = .suppress)
  else
    match getBestFaceForForwarding i getFaceInfo nexthops none with
    | none => some .noRoute
    | some faceToUse => some (.send faceToUse)

end AsfStrategy

namespace Incoming

/-- The result is an eligible nexthop whose out-record was renewed earliest, and the end if there
is no eligible one. -/
structure IsEarliest (i : Incoming) (nexthops : List NextHop) (it : Option NextHop) : Prop where
  none_iff : it = none ↔ ∀ nexthop ∈ nexthops, i.isNextHopEligible nexthop = false
  some_spec : ∀ found, it = some found → found ∈ nexthops ∧ i.isNextHopEligible found = true ∧
    ∃ outRecord, i.outRecords.find? found.face = some outRecord ∧
      ∀ nexthop ∈ nexthops, i.isNextHopEligible nexthop = true →
        ∀ other, i.outRecords.find? nexthop.face = some other →
          outRecord.lastRenewed ≤ other.lastRenewed

def HaveOutRecords (i : Incoming) (nexthops : List NextHop) : Prop :=
  ∀ nexthop ∈ nexthops, i.isNextHopEligible nexthop = true →
    ∃ outRecord, i.outRecords.find? nexthop.face = some outRecord

private structure Visited (i : Incoming) (visited : List NextHop) (found : Option NextHop)
    (earliestRenewed : TimePoint) : Prop where
  le : ∀ nexthop ∈ visited, i.isNextHopEligible nexthop = true →
    ∀ outRecord, i.outRecords.find? nexthop.face = some outRecord →
      earliestRenewed ≤ outRecord.lastRenewed
  of_none : found = none → earliestRenewed = TimePoint.max ∧
    ∀ nexthop ∈ visited, i.isNextHopEligible nexthop = false
  of_some : ∀ nexthop, found = some nexthop →
    nexthop ∈ visited ∧ i.isNextHopEligible nexthop = true ∧
    ∃ outRecord, i.outRecords.find? nexthop.face = some outRecord ∧
      outRecord.lastRenewed = earliestRenewed

variable {i : Incoming} {nexthops : List NextHop} {now : TimePoint}

private theorem visitAll (hrecords : ∀ nexthop ∈ nexthops, i.isNextHopEligible nexthop = true →
      ∃ outRecord, i.outRecords.find? nexthop.face = some outRecord ∧
        outRecord.lastRenewed < TimePoint.max) :
    ∃ found earliestRenewed,
      nexthops.foldlM i.visit (none,TimePoint.max) = some (found,earliestRenewed) ∧
        Visited i nexthops found earliestRenewed := by
  induction nexthops using reverseRecOn with
  | nil => exact ⟨none,TimePoint.max,rfl,by simp,by simp,by simp⟩
  | append_singleton nexthops nexthop ih =>
    simp only [forall_mem_append,forall_mem_singleton] at hrecords
    obtain ⟨found,earliest,hfold,hle,hnone,hsome⟩ := ih hrecords.1
    rw [foldlM_append,hfold]
    simp only [Option.bind_eq_bind,bind_some,foldlM_cons,foldlM_nil,visit]
    by_cases heligible : i.isNextHopEligible nexthop = true
    · obtain ⟨outRecord,hfind,hmax⟩ := hrecords.2 heligible
      by_cases hlt : outRecord.lastRenewed < earliest
      · refine ⟨some nexthop,outRecord.lastRenewed,by simp [heligible,hfind,hlt],?_,by simp,?_⟩
        · simp only [forall_mem_append,forall_mem_singleton]
          refine ⟨fun n hn he r hr => hlt.le.trans (hle n hn he r hr),fun _ r hr => ?_⟩
          rw [some.inj (hfind.symm.trans hr)]
        · simpa using ⟨heligible,outRecord,hfind,rfl⟩
      · refine ⟨found,earliest,by simp [heligible,hfind,hlt],?_,?_,?_⟩
        · simp only [forall_mem_append,forall_mem_singleton]
          refine ⟨hle,fun _ r hr => ?_⟩
          rw [← some.inj (hfind.symm.trans hr)]
          exact not_lt.mp hlt
        · intro h
          exact absurd ((hnone h).1 ▸ hmax) hlt
        · intro n hn
          exact ⟨mem_append_left _ (hsome n hn).1,(hsome n hn).2⟩
    · refine ⟨found,earliest,by simp [heligible],?_,?_,?_⟩
      · simp only [forall_mem_append,forall_mem_singleton]
        exact ⟨hle,fun he => absurd he heligible⟩
      · intro h
        simp only [forall_mem_append,forall_mem_singleton]
        exact ⟨(hnone h).1,(hnone h).2,eq_false_of_ne_true heligible⟩
      · intro n hn
        exact ⟨mem_append_left _ (hsome n hn).1,(hsome n hn).2⟩

private theorem outRecord_of_used (hclock : ∀ r ∈ i.outRecords.items, r.lastRenewed ≤ now)
    {nexthop : NextHop} (hused : i.isNextHopEligible nexthop (some now) = false)
    (heligible : i.isNextHopEligible nexthop = true) :
    ∃ outRecord, i.outRecords.find? nexthop.face = some outRecord ∧
      outRecord.lastRenewed < TimePoint.max := by
  simp only [isNextHopEligible,Option.all_none,Bool.and_true] at heligible
  cases hfind : i.outRecords.find? nexthop.face with
  | none => simp [isNextHopEligible,heligible,hfind] at hused
  | some outRecord =>
    have hexpiry : now < outRecord.expiry := by
      simpa [isNextHopEligible,heligible,hfind] using hused
    have hrenewed := hclock outRecord (i.outRecords.find?_eq_some.mp hfind).1
    exact ⟨outRecord,rfl,(hrenewed.trans_lt hexpiry).trans_le outRecord.expiry.2⟩

private theorem findEligible_spec (hclock : ∀ r ∈ i.outRecords.items, r.lastRenewed ≤ now)
    (hused : ∀ nexthop ∈ nexthops, i.isNextHopEligible nexthop (some now) = false) :
    i.HaveOutRecords nexthops ∧
      ∃ it, i.findEligibleNextHopWithEarliestOutRecord nexthops = some it ∧
        i.IsEarliest nexthops it := by
  have hrecords := fun nexthop hn => outRecord_of_used hclock (hused nexthop hn)
  obtain ⟨found,earliest,hfold,hle,hnone,hsome⟩ := visitAll hrecords
  refine ⟨fun nexthop hn he => (hrecords nexthop hn he).imp fun _ h => h.1,found,?_,?_,?_⟩
  · rw [findEligibleNextHopWithEarliestOutRecord,hfold]
    rfl
  · refine ⟨fun h => (hnone h).2,fun hall => ?_⟩
    cases hfound : found with
    | none => rfl
    | some nexthop =>
      obtain ⟨hmem,he,_⟩ := hsome nexthop hfound
      rw [hall nexthop hmem] at he
      cases he
  · intro nexthop hfound
    obtain ⟨hmem,he,outRecord,hfind,rfl⟩ := hsome nexthop hfound
    exact ⟨hmem,he,outRecord,hfind,hle⟩

end Incoming

theorem AsfStrategy.insertRanked_ne_nil (stats : FaceStats) (rankedFaces : List FaceStats) :
    insertRanked stats rankedFaces ≠ [] := by
  cases rankedFaces with
  | nil => simp [insertRanked]
  | cons other rankedFaces =>
    unfold insertRanked
    split_ifs <;> simp

variable {nexthops : List NextHop}

theorem AsfStrategy.getBestFaceForForwarding_eq_none {i : Incoming}
    {getFaceInfo : FaceId → Option FaceInfo} {unusedAt : Option TimePoint}
    (h : getBestFaceForForwarding i getFaceInfo nexthops unusedAt = none) :
    ∀ nexthop ∈ nexthops, i.isNextHopEligible nexthop unusedAt = false := by
  simp only [getBestFaceForForwarding,map_eq_none_iff,head?_eq_none_iff] at h
  rcases eq_nil_or_concat (nexthops.filter fun nh => i.isNextHopEligible nh unusedAt) with
    hnil | ⟨init,last,hconcat⟩
  · simpa [filter_eq_nil_iff] using hnil
  · rw [hconcat] at h
    simp only [concat_eq_append,map_append,foldl_append] at h
    exact absurd h (insertRanked_ne_nil _ _)

/-- No assertion fails; where the loop is entered its precondition holds and its result is
right. -/
def Incoming.RetriesEarliest (i : Incoming) (nexthops : List NextHop)
    (outcome : Option Outcome) : Prop :=
  outcome ≠ none ∧ ∀ it isSuppressed, outcome = some (.retry it isSuppressed) →
    i.HaveOutRecords nexthops ∧ i.IsEarliest nexthops it

private theorem retriesEarliest_of_used {i : Incoming} {now : TimePoint}
    (hclock : ∀ r ∈ i.outRecords.items, r.lastRenewed ≤ now)
    (hused : ∀ nexthop ∈ nexthops, i.isNextHopEligible nexthop (some now) = false)
    (f : Option NextHop → Bool) :
    i.RetriesEarliest nexthops
      ((i.findEligibleNextHopWithEarliestOutRecord nexthops).map fun it => .retry it (f it)) := by
  obtain ⟨hhave,it,hit,hearliest⟩ := Incoming.findEligible_spec hclock hused
  rw [hit]
  refine ⟨by simp,?_⟩
  rintro _ _ ⟨⟩
  exact ⟨hhave,hearliest⟩

/-- Both strategies try the earliest out-record only after all eligible nexthops were found used. -/
theorem afterReceiveInterest_retriesEarliest (i : Incoming) (nexthops : List NextHop)
    (now now' : TimePoint)
    (hclock : ∀ outRecord ∈ i.outRecords.items, outRecord.lastRenewed ≤ now) (hnow : now ≤ now')
    (suppression : RetxSuppressionResult) (getFaceInfo : FaceId → Option AsfStrategy.FaceInfo)
    (decidePerUpstream : FaceId → RetxSuppressionResult) :
    i.RetriesEarliest nexthops
        (BestRouteStrategy.afterReceiveInterest i suppression nexthops now) ∧
      i.RetriesEarliest nexthops
        (AsfStrategy.afterReceiveInterest i getFaceInfo decidePerUpstream nexthops now now') := by
  constructor
  · unfold BestRouteStrategy.afterReceiveInterest
    cases suppression with
    | suppress => simp [Incoming.RetriesEarliest]
    | new =>
      dsimp only
      split <;> simp [Incoming.RetriesEarliest]
    | forward =>
      dsimp only
      split
      · simp [Incoming.RetriesEarliest]
      · next hfind =>
        apply retriesEarliest_of_used hclock fun nexthop hn => ?_
        simpa using find?_eq_none.mp hfind nexthop hn
  · unfold AsfStrategy.afterReceiveInterest
    split
    · split
      · split_ifs <;> simp [Incoming.RetriesEarliest]
      · next hbest =>
        exact retriesEarliest_of_used (fun r hr => (hclock r hr).trans hnow)
          (AsfStrategy.getBestFaceForForwarding_eq_none hbest) _
    · split <;> simp [Incoming.RetriesEarliest]

theorem afterReceiveInterest_retriesEarliest_second :
    ∃ (i : Incoming) (nexthops : List NextHop) (now : TimePoint),
      BestRouteStrategy.afterReceiveInterest i .forward nexthops now =
          some (.retry (some ⟨2,10⟩) false) ∧
        i.IsEarliest nexthops (some ⟨2,10⟩) := by
  let t (n : Fin 100) : TimePoint := ⟨n,by omega⟩
  let c : Config := ⟨fun _ => .nonLocal,fun _ => .pointToPoint,fun _ => true,fun _ => true,
    fun _ => false,0⟩
  let i : Incoming := ⟨c,3,⟨[],false,false,[],4000,none,[],none⟩,
    ⟨[⟨1,t 20,t 90,none⟩,⟨2,t 10,t 80,none⟩],by decide⟩⟩
  refine ⟨i,[⟨1,5⟩,⟨2,10⟩],t 50,rfl,?_⟩
  exact ((afterReceiveInterest_retriesEarliest i _ (t 50) (t 50) (by decide) (le_refl _) .forward
    (fun _ => none) fun _ => .new).1.2 _ _ rfl).2

end KiteNdn.Fw.NextHops
