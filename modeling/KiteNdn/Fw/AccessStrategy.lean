import KiteNdn.Fw.Forwarder

/-!
# Measurements of the access strategy

A strategy is chosen by the name of the PIT entry, but `AccessStrategy` keeps its measurements under
the name of the Data, through an accessor that hides what other strategies govern.
-/

namespace KiteNdn.Fw

open Function

inductive StrategyType where
  | access
  | other
  deriving DecidableEq

/-- The strategy choice table, which has an entry for the empty name. Each entry has a strategy
object of its own, known here by the prefix of the entry. -/
structure StrategyChoice where
  entries : Name → Option StrategyType
  hasDefault : (entries []).isSome = true

namespace StrategyChoice

def findEffectiveStrategy (t : StrategyChoice) (name : Name) : Name :=
  ((name :: Name.properPrefixes name).find? fun p => (t.entries p).isSome).getD []

/-- The entry at `p` is the one at the longest prefix of `name`. -/
def Governs (t : StrategyChoice) (p name : Name) : Prop :=
  (t.entries p).isSome = true ∧ p <+: name ∧ ∀ q, (t.entries q).isSome = true → q <+: name → q <+: p

variable {t : StrategyChoice} {p q name : Name}

private theorem Governs.unique (hp : t.Governs p name) (hq : t.Governs q name) : p = q :=
  (hq.2.2 p hp.1 hp.2.1).eq_of_length_le (hp.2.2 q hq.1 hq.2.1).length_le

theorem governs_findEffectiveStrategy (t : StrategyChoice) (name : Name) :
    t.Governs (t.findEffectiveStrategy name) name := by
  unfold findEffectiveStrategy
  rw [List.find?_cons]
  split
  · next h => exact ⟨h,List.prefix_rfl,fun q _ hq => hq⟩
  · next hname =>
    have hentry : ∀ q, (t.entries q).isSome = true → q ≠ name := by
      rintro q hq rfl
      rw [hq] at hname
      cases hname
    obtain ⟨p,hp⟩ : ∃ p, Name.IsLongestProperPrefix (fun q => (t.entries q).isSome = true) p name :=
      Name.exists_longest t.hasDefault List.nil_prefix (hentry [] t.hasDefault)
    rw [(Name.find?_properPrefixes _ p name).mpr hp]
    exact ⟨hp.1,hp.2.1,fun q hq hpre => hp.2.2.2 q hq hpre (hentry q hq)⟩

theorem findEffectiveStrategy_eq_iff : t.findEffectiveStrategy name = p ↔ t.Governs p name := by
  constructor
  · rintro rfl
    exact governs_findEffectiveStrategy t name
  · exact (governs_findEffectiveStrategy t name).unique

end StrategyChoice

namespace AccessStrategy

structure RttEstimator (ρ : Type) where
  initial : ρ
  addMeasurement : ρ → Time → ρ

structure MtInfo (ρ : Type) where
  lastNexthop : Option FaceId
  rtt : ρ

/-- What the strategy knows of faces, and the measurements entries with its information. -/
structure State (ρ : Type) where
  fit : FaceId → Option ρ
  measurements : Name → Option (Option (MtInfo ρ))

variable {ρ : Type} (rttEstimator : RttEstimator ρ) (t : StrategyChoice) (strategy : Name)

def get (s : State ρ) (name : Name) : Option Name × State ρ :=
  let key := Forwarder.measurementsName name
  let entry := (s.measurements key).getD none
  (if t.findEffectiveStrategy key = strategy then some key else none,
    { s with measurements := update s.measurements key (some entry) })

/-- The name of the entry, its information and the state; it fails where the assertion does. -/
def addPrefixMeasurements (s : State ρ) (data : Data) : Option (Name × MtInfo ρ × State ρ) :=
  let (me,s) := if data.name = [] then (none,s) else get t strategy s data.name.dropLast
  let (me,s) := if me = none then get t strategy s data.name else (me,s)
  me.map fun me =>
    (me,((s.measurements me).bind id).getD ⟨none,rttEstimator.initial⟩,s)

def updateMeasurements (s : State ρ) (inFace : FaceId) (data : Data) (rtt : Time) :
    Option (State ρ) :=
  let fi := rttEstimator.addMeasurement ((s.fit inFace).getD rttEstimator.initial) rtt
  let s := { s with fit := update s.fit inFace (some fi) }
  (addPrefixMeasurements rttEstimator t strategy s data).map fun (me,mi,s) =>
    let mi : MtInfo ρ :=
      if mi.lastNexthop ≠ some inFace then ⟨some inFace,fi⟩
      else { mi with rtt := rttEstimator.addMeasurement mi.rtt rtt }
    { s with measurements := update s.measurements me (some (some mi)) }

/-- `rtt` is the time since the out-record was renewed. -/
def beforeSatisfyInterest (s : State ρ) (data : Data) (ingress : FaceId) (rtt : Time)
    (pitEntry : PitEntry) : Option (State ρ) :=
  if pitEntry.inRecords.items = [] then some s
  else if pitEntry.getOutRecord ingress = none then some s
  else updateMeasurements rttEstimator t strategy s ingress data rtt

variable {rttEstimator t strategy}

theorem addPrefixMeasurements_isSome_iff (s : State ρ) (data : Data) :
    (addPrefixMeasurements rttEstimator t strategy s data).isSome = true ↔ data.name ≠ [] ∧
          t.Governs strategy (Forwarder.measurementsName data.name.dropLast) ∨
        t.Governs strategy (Forwarder.measurementsName data.name) := by
  simp only [← StrategyChoice.findEffectiveStrategy_eq_iff,addPrefixMeasurements,get,
    Option.isSome_map]
  split_ifs <;> simp_all

/-- The assertion holds exactly if the strategy that is effective for the PIT entry governs the
parent of the Data name or the Data name, unless nothing is measured. -/
theorem beforeSatisfyInterest_isSome_iff (rttEstimator : RttEstimator ρ) (t : StrategyChoice)
    (s : State ρ) (data : Data) (ingress : FaceId) (rtt : Time) (pitEntry : PitEntry) :
    (beforeSatisfyInterest rttEstimator t (t.findEffectiveStrategy pitEntry.name) s data ingress rtt
        pitEntry).isSome = true ↔
      pitEntry.inRecords.items = [] ∨ pitEntry.getOutRecord ingress = none ∨
        data.name ≠ [] ∧ t.Governs (t.findEffectiveStrategy pitEntry.name)
          (Forwarder.measurementsName data.name.dropLast) ∨
        t.Governs (t.findEffectiveStrategy pitEntry.name)
          (Forwarder.measurementsName data.name) := by
  unfold beforeSatisfyInterest
  split_ifs with hin hout
  · simp [hin]
  · simp [hout]
  · rw [updateMeasurements,Option.isSome_map,addPrefixMeasurements_isSome_iff]
    simp [hin,hout]

private def component (c : UInt8) : Component := Component.generic [c]

/-- The access strategy is chosen for `/a` and another one for `/a/b`. An Interest for `/a` that
can be a prefix is satisfied by `/a/b/c/d`. -/
theorem beforeSatisfyInterest_longer_name : ∃ (t : StrategyChoice) (pitEntry : PitEntry)
    (data : Data), t.entries (t.findEffectiveStrategy pitEntry.name) = some .access ∧
      pitEntry.interest.matchesData data = true ∧
      ∀ (ρ : Type) (rttEstimator : RttEstimator ρ) (s : State ρ) (rtt : Time),
        beforeSatisfyInterest rttEstimator t (t.findEffectiveStrategy pitEntry.name) s data 2 rtt
          pitEntry = none := by
  let t : StrategyChoice := ⟨fun p => if p = [component 97] then some .access
    else if p = [] ∨ p = [component 97,component 98] then some .other else none,rfl⟩
  let interest : Interest := ⟨[component 97],true,false,[],4000,none,[],none⟩
  let pitEntry : PitEntry :=
    ⟨0,interest,⟨[⟨1,interest,0,none⟩],by simp⟩,⟨[⟨2,[],0,none,none⟩],by simp⟩,none,false⟩
  let data : Data := ⟨[component 97,component 98,component 99,component 100],0,0,[],.ok []⟩
  refine ⟨t,pitEntry,data,by decide,by decide,fun ρ rttEstimator s rtt => ?_⟩
  have hparent : t.findEffectiveStrategy (Forwarder.measurementsName data.name.dropLast) ≠
      t.findEffectiveStrategy pitEntry.name := by decide
  have hname : t.findEffectiveStrategy (Forwarder.measurementsName data.name) ≠
      t.findEffectiveStrategy pitEntry.name := by decide
  have hin : pitEntry.inRecords.items ≠ [] := by simp [pitEntry]
  have hout : pitEntry.getOutRecord 2 ≠ none := by decide
  rw [beforeSatisfyInterest,if_neg hin,if_neg hout,updateMeasurements,Option.map_eq_none_iff,
    ← Option.not_isSome_iff_eq_none,addPrefixMeasurements_isSome_iff]
  simp [← StrategyChoice.findEffectiveStrategy_eq_iff,hparent,hname]

end AccessStrategy

end KiteNdn.Fw
