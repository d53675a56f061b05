import Mathlib.Data.Fintype.Basic
import Mathlib.Tactic.FinCases
import KiteNdn.Framework.Run
import KiteNdn.Fw.Packet

/-!
# Pending Interests of the client face

`Face` keeps the Interests of the application and those of the forwarder in one table. Each record
counts the destinations that have not Nacked, and a Nack is matched against all records.

The calls of the application are posted: callbacks do not reenter the loops over the tables.
-/

namespace KiteNdn.Client

open Framework List Function Bool

inductive PendingInterestOrigin where
  | app
  | forwarder
  deriving DecidableEq

inductive Destination where
  | forwarder
  | filter (id : Nat)
  deriving DecidableEq

structure PendingInterest where
  id : Nat
  interest : Interest
  origin : PendingInterestOrigin
  nNotNacked : Int := 0
  leastSevereNack : Option Nack := none
  /-- Where the Interest was forwarded; nothing reads it. -/
  destinations : List Destination := []
  /-- The Nacks recorded and where they came from; nothing reads it. -/
  nacks : List (Destination × NackReason) := []

namespace PendingInterest

def recordForwarding (entry : PendingInterest) (destination : Destination) : PendingInterest :=
  { entry with
    nNotNacked := entry.nNotNacked + 1
    destinations := entry.destinations ++ [destination] }

/-- The assertion is left to `nackPendingInterests`. -/
def recordNack (entry : PendingInterest) (source : Destination) (nack : Nack) : PendingInterest :=
  { entry with
    nNotNacked := entry.nNotNacked - 1
    leastSevereNack :=
      if entry.leastSevereNack.all fun least => nack.reason.isLessSevere least.reason then some nack
      else entry.leastSevereNack
    nacks := entry.nacks ++ [(source,nack.reason)] }

end PendingInterest

structure InterestFilterRecord where
  id : Nat
  allowsLoopback : Bool
  filterMatches : Name → Bool

def InterestFilterRecord.doesMatch (filter : InterestFilterRecord) (entry : PendingInterest) :
    Bool :=
  (entry.origin = .forwarder || filter.allowsLoopback) && filter.filterMatches entry.interest.name

inductive Callback where
  | data (data : Data)
  | nack (nack : Option Nack)
  | timeout

inductive Sent where
  | interest (interest : Interest)
  | data (data : Data)
  | nack (nack : Nack)

structure Face where
  pendingInterestTable : List PendingInterest := []
  lastId : Nat := 0
  posted : List (Nat × Interest) := []
  interestFilterTable : List InterestFilterRecord := []
  lastFilterId : Nat := 0
  sent : List Sent := []
  /-- The callbacks that were invoked, and the records at that time; nothing reads it. -/
  callbacks : List (PendingInterest × Callback) := []

namespace Face

def dispatchInterest (s : Face) (entry : PendingInterest) : PendingInterest :=
  s.interestFilterTable.foldl (fun entry filter =>
    if filter.doesMatch entry then entry.recordForwarding (.filter filter.id) else entry) entry

def put (s : Face) (entry : PendingInterest) : Option Face :=
  if s.pendingInterestTable.any fun other => other.id = entry.id then none
  else some { s with pendingInterestTable := s.pendingInterestTable ++ [entry] }

def expressInterest (s : Face) (id : Nat) (interest : Interest) : Option Face :=
  let entry : PendingInterest := { id, interest, origin := .app }
  let s := { s with sent := s.sent ++ [Sent.interest interest] }
  s.put (s.dispatchInterest (entry.recordForwarding .forwarder))

def processIncomingInterest (s : Face) (interest : Interest) : Option Face :=
  let s := { s with lastId := s.lastId + 1 }
  s.put (s.dispatchInterest { id := s.lastId, interest, origin := .forwarder })

def removeIf (s : Face) (done : PendingInterest → Bool) (callback : PendingInterest → Callback) :
    Face :=
  { s with
    pendingInterestTable := s.pendingInterestTable.filter fun entry => !done entry
    callbacks := s.callbacks ++ ((s.pendingInterestTable.filter fun entry =>
      done entry && entry.origin = .app).map fun entry => (entry,callback entry)) }

def satisfyPendingInterests (s : Face) (data : Data) : Face × Bool :=
  let hasMatch origin := s.pendingInterestTable.any fun entry =>
    entry.interest.matchesData data && entry.origin = origin
  (s.removeIf (fun entry => entry.interest.matchesData data) fun _ => .data data,
    hasMatch .forwarder || !hasMatch .app)

def putData (s : Face) (data : Data) : Face :=
  let (s,shouldSendToForwarder) := s.satisfyPendingInterests data
  if shouldSendToForwarder then { s with sent := s.sent ++ [.data data] } else s

def recordNacks (s : Face) (source : Destination) (nack : Nack) : List PendingInterest :=
  s.pendingInterestTable.map fun entry =>
    if nack.interest.matchesInterest entry.interest then entry.recordNack source nack
    else entry

def isNacked (nack : Nack) (entry : PendingInterest) : Bool :=
  nack.interest.matchesInterest entry.interest && entry.nNotNacked ≤ 0

def nackPendingInterests (s : Face) (source : Destination) (nack : Nack) :
    Option (Face × Option Nack) :=
  let entries := s.recordNacks source nack
  if entries.any fun entry => nack.interest.matchesInterest entry.interest && entry.nNotNacked < 0
  then none
  else
    let outNacks := entries.filter fun entry => isNacked nack entry && entry.origin = .forwarder
    some ({ s with pendingInterestTable := entries }.removeIf (isNacked nack) fun entry =>
        .nack entry.leastSevereNack,
      outNacks.getLast?.bind PendingInterest.leastSevereNack)

def putNack (s : Face) (source : Destination) (nack : Nack) : Option Face :=
  (s.nackPendingInterests source nack).map fun (s,outNack) =>
    { s with sent := s.sent ++ (outNack.map Sent.nack).toList }

end Face

inductive Event where
  | expressInterest (interest : Interest)
  | processExpressed
  | receiveInterest (interest : Interest)
  | receiveData (data : Data)
  | receiveNack (nack : Nack)
  | putData (data : Data)
  | putNack (filter : Nat) (nack : Nack)
  | timeout (id : Nat)
  | removePendingInterest (id : Nat)
  | removeAllPendingInterests
  | setInterestFilter (allowsLoopback : Bool) (filterMatches : Name → Bool)
  | unsetInterestFilter (id : Nat)

def step (s : Face) : Event → Option Face
  | .expressInterest interest =>
    some { s with lastId := s.lastId + 1, posted := s.posted ++ [(s.lastId + 1,interest)] }
  | .processExpressed =>
    match s.posted with
    | [] => some s
    | (id,interest) :: posted => { s with posted }.expressInterest id interest
  | .receiveInterest interest => s.processIncomingInterest interest
  | .receiveData data => some (s.satisfyPendingInterests data).1
  | .receiveNack nack => (s.nackPendingInterests .forwarder nack).map Prod.fst
  | .putData data => some (s.putData data)
  | .putNack filter nack => s.putNack (.filter filter) nack
  | .timeout id => some (s.removeIf (fun entry => entry.id = id) fun _ => .timeout)
  | .removePendingInterest id =>
    some { s with pendingInterestTable := s.pendingInterestTable.filter fun entry => entry.id ≠ id }
  | .removeAllPendingInterests => some { s with pendingInterestTable := [] }
  | .setInterestFilter allowsLoopback filterMatches =>
    some { s with
      lastFilterId := s.lastFilterId + 1
      interestFilterTable := s.interestFilterTable ++
        [⟨s.lastFilterId + 1,allowsLoopback,filterMatches⟩] }
  | .unsetInterestFilter id =>
    some { s with
      interestFilterTable := s.interestFilterTable.filter fun filter => filter.id ≠ id }

def run (events : List Event) : Option Face := events.foldlM step {}

/-- A reason given such that no other is less severe. -/
def IsLeastSevere (nacks : List (Destination × NackReason)) (reason : NackReason) : Prop :=
  (∃ nack ∈ nacks, nack.2 = reason) ∧ ∀ nack ∈ nacks, nack.2.isLessSevere reason = false

/-- The Nack callback was invoked when all destinations had Nacked. -/
def Justified (entry : PendingInterest) : Callback → Prop
  | .nack nack => (∀ destination ∈ entry.destinations, destination ∈ entry.nacks.map Prod.fst) ∧
    ∃ least, nack = some least ∧ IsLeastSevere entry.nacks least.reason
  | _ => True

structure Accounted (s : Face) : Prop where
  nonnegative : ∀ entry ∈ s.pendingInterestTable, 0 ≤ entry.nNotNacked
  justified : ∀ called ∈ s.callbacks, Justified called.1 called.2

/-- Every record that a Nack matches was forwarded to where it comes from, which has not Nacked. -/
def Awaited (s : Face) (source : Destination) (nack : Nack) : Prop :=
  ∀ entry ∈ s.pendingInterestTable, nack.interest.matchesInterest entry.interest = true →
    source ∈ entry.destinations ∧ source ∉ entry.nacks.map Prod.fst

def Expected (s : Face) : Event → Prop
  | .receiveNack nack => Awaited s .forwarder nack
  | .putNack filter nack => Awaited s (.filter filter) nack
  | _ => True

section Ids

variable {s s' : Face}

def ids (s : Face) : List Nat :=
  s.callbacks.map (fun called => called.1.id) ++
    s.pendingInterestTable.map (fun entry => entry.id) ++ s.posted.map Prod.fst

def IdsInv (s : Face) : Prop := ∀ id, (ids s).count id ≤ if id ≤ s.lastId then 1 else 0

theorem IdsInv.of_count (h : IdsInv s) (hids : ∀ id, (ids s').count id ≤ (ids s).count id)
    (hlast : s'.lastId = s.lastId) : IdsInv s' :=
  fun id => hlast ▸ (hids id).trans (h id)

theorem IdsInv.of_new (h : IdsInv s)
    (hids : ∀ id, (ids s').count id = (ids s).count id + if s.lastId + 1 = id then 1 else 0)
    (hlast : s'.lastId = s.lastId + 1) : IdsInv s' := by
  intro id
  have hid := h id
  rw [hids,hlast]
  split_ifs at hid ⊢ <;> omega

theorem dispatchInterest_eq (s : Face) (entry : PendingInterest) : s.dispatchInterest entry =
      let filters := s.interestFilterTable.filter fun filter => filter.doesMatch entry
      { entry with
        nNotNacked := entry.nNotNacked + filters.length
        destinations := entry.destinations ++ filters.map fun filter => .filter filter.id } := by
  unfold Face.dispatchInterest
  induction s.interestFilterTable generalizing entry with
  | nil => simp
  | cons filter filters ih =>
    rw [foldl_cons,ih]
    cases hmatch : filter.doesMatch entry with
    | false => simp [hmatch]
    | true =>
      have hkeep : ∀ other : InterestFilterRecord,
        other.doesMatch (entry.recordForwarding (.filter filter.id)) = other.doesMatch entry :=
          fun _ => rfl
      simp only [hkeep,hmatch,filter_cons_of_pos,if_true]
      simp [PendingInterest.recordForwarding]
      omega

theorem put_eq_some {entry : PendingInterest} (hput : s.put entry = some s') :
    s' = { s with pendingInterestTable := s.pendingInterestTable ++ [entry] } := by
  unfold Face.put at hput
  split_ifs at hput
  exact (Option.some.inj hput).symm

theorem IdsInv.removeIf (h : IdsInv s) (done : PendingInterest → Bool)
    (callback : PendingInterest → Callback) : IdsInv (s.removeIf done callback) := by
  refine h.of_count (fun id => ?_) rfl
  have hsplit := countP_eq_countP_filter_add s.pendingInterestTable
    (fun entry => entry.id == id) done
  have hle : ((s.pendingInterestTable.filter fun entry => done entry && entry.origin = .app).countP
      fun entry => entry.id == id) ≤
        (s.pendingInterestTable.filter done).countP fun entry => entry.id == id :=
    (monotone_filter_right _ fun _ hboth => (and_eq_true_iff.mp hboth).1).countP_le
  simp only [ids,Face.removeIf,map_append,map_map,count_eq_countP,countP_append,countP_map,
    comp_def]
  omega

theorem nackPendingInterests_eq_some {source : Destination} {nack : Nack} {out : Option Nack}
    (hs : s.nackPendingInterests source nack = some (s',out)) :
    s' = { s with pendingInterestTable := s.recordNacks source nack }.removeIf
      (Face.isNacked nack) fun entry => .nack entry.leastSevereNack := by
  unfold Face.nackPendingInterests at hs
  dsimp only at hs
  split_ifs at hs
  exact (Prod.mk.inj (Option.some.inj hs)).1.symm

theorem IdsInv.nackPendingInterests (h : IdsInv s) {source : Destination} {nack : Nack}
    {out : Option Nack} (hs : s.nackPendingInterests source nack = some (s',out)) : IdsInv s' := by
  rw [nackPendingInterests_eq_some hs]
  refine IdsInv.removeIf ?_ _ _
  have hids : (s.recordNacks source nack).map (fun entry => entry.id) =
      s.pendingInterestTable.map fun entry => entry.id := by
    rw [Face.recordNacks,map_map]
    refine map_congr_left fun entry _ => ?_
    dsimp only [comp_apply]
    split_ifs <;> rfl
  exact h.of_count (fun id => by simp only [ids,hids]; exact Nat.le_refl _) rfl

theorem step_ids (h : IdsInv s) (event : Event) (hs : step s event = some s') : IdsInv s' := by
  cases event with
  | expressInterest interest =>
    cases hs
    refine h.of_new (fun id => ?_) rfl
    simp [ids,count_singleton,add_assoc]
  | processExpressed =>
    simp only [step] at hs
    cases hposted : s.posted with
    | nil =>
      rw [hposted] at hs
      cases hs
      exact h
    | cons call posted =>
      rw [hposted] at hs
      rw [put_eq_some hs,dispatchInterest_eq]
      refine h.of_count (fun id => ?_) rfl
      simp [ids,hposted,PendingInterest.recordForwarding,count_cons]
  | receiveInterest interest =>
    rw [put_eq_some hs,dispatchInterest_eq]
    refine h.of_new (fun id => ?_) rfl
    simp [ids,count_cons]
    omega
  | receiveNack nack =>
    obtain ⟨⟨s₁,out⟩,hout,rfl⟩ := Option.map_eq_some_iff.mp hs
    exact h.nackPendingInterests hout
  | putData data =>
    cases hs
    unfold Face.putData
    dsimp only
    split_ifs <;> exact h.removeIf _ _
  | putNack filter nack =>
    obtain ⟨⟨s₁,out⟩,hout,rfl⟩ := Option.map_eq_some_iff.mp hs
    have hids := h.nackPendingInterests hout
    exact hids
  | removePendingInterest id =>
    cases hs
    refine h.of_count (fun id => List.Sublist.count_le _ ?_) rfl
    exact ((filter_sublist.map _).append_left _).append_right _
  | removeAllPendingInterests =>
    cases hs
    refine h.of_count (fun id => List.Sublist.count_le _ ?_) rfl
    exact ((nil_sublist _).append_left _).append_right _
  | setInterestFilter allowsLoopback filterMatches =>
    cases hs
    exact h
  | unsetInterestFilter id =>
    cases hs
    exact h
  | _ =>
    cases hs
    exact h.removeIf _ _

end Ids

section Records

variable {s s' : Face}

/-- Each destination has Nacked once or not yet. -/
structure Counted (entry : PendingInterest) : Prop where
  destinations : entry.destinations.Nodup
  once : (entry.nacks.map Prod.fst).Nodup
  forwarded : ∀ source ∈ entry.nacks.map Prod.fst, source ∈ entry.destinations
  count : entry.nNotNacked + entry.nacks.length = entry.destinations.length
  least : entry.leastSevereNack.elim (entry.nacks = []) fun least =>
    IsLeastSevere entry.nacks least.reason

variable {entry : PendingInterest}

theorem Counted.nonnegative (h : Counted entry) :
    0 ≤ entry.nNotNacked := by
  have hle := (h.once.subperm h.forwarded).length_le
  rw [length_map] at hle
  have := h.count
  omega

theorem Counted.justified (h : Counted entry)
    (hnacked : entry.nacks ≠ []) (hzero : entry.nNotNacked ≤ 0) :
    Justified entry (.nack entry.leastSevereNack) := by
  have hcount := h.count
  have hperm : (entry.nacks.map Prod.fst).Perm entry.destinations := by
    refine (h.once.subperm h.forwarded).perm_of_length_le ?_
    rw [length_map]
    omega
  refine ⟨fun destination hd => hperm.mem_iff.mpr hd,?_⟩
  have hleast := h.least
  cases hnack : entry.leastSevereNack with
  | none => exact absurd (by rwa [hnack] at hleast) hnacked
  | some least => exact ⟨least,rfl,by rwa [hnack] at hleast⟩

private theorem isLessSevere_trans (x y z : NackReason) (hxy : x.isLessSevere y = true)
    (hyz : y.isLessSevere z = true) : x.isLessSevere z = true := by
  revert hxy hyz
  cases x <;> cases y <;> cases z <;> decide

private theorem isLessSevere_irrefl (x : NackReason) : x.isLessSevere x = false := by
  cases x <;> rfl

theorem Counted.recordNack {entry : PendingInterest} (h : Counted entry) {source : Destination}
    (hforwarded : source ∈ entry.destinations) (hnew : source ∉ entry.nacks.map Prod.fst)
    (nack : Nack) : Counted (entry.recordNack source nack) := by
  refine ⟨h.destinations,?_,?_,?_,?_⟩
  · rw [PendingInterest.recordNack,map_append]
    exact nodup_append_comm.mp (nodup_cons.mpr ⟨hnew,h.once⟩)
  · intro other hother
    rw [PendingInterest.recordNack,map_append] at hother
    cases mem_append.mp hother with
    | inl hmem => exact h.forwarded other hmem
    | inr heq => exact mem_singleton.mp heq ▸ hforwarded
  · have hcount := h.count
    simp only [PendingInterest.recordNack,length_append,length_singleton]
    omega
  · have hleast := h.least
    unfold PendingInterest.recordNack
    cases hold : entry.leastSevereNack with
    | none =>
      rw [hold] at hleast
      have hnil : entry.nacks = [] := hleast
      simp [IsLeastSevere,hnil,isLessSevere_irrefl]
    | some old =>
      rw [hold] at hleast
      obtain ⟨⟨other,hother,heq⟩,hmin⟩ := hleast
      cases hless : nack.reason.isLessSevere old.reason with
      | true =>
        simp only [Option.all_some,hless,if_true]
        refine ⟨⟨_,mem_append_right _ mem_cons_self,rfl⟩,forall_mem_append.mpr
          ⟨fun other hother => eq_false_iff.mpr fun hlt => ?_,
            forall_mem_singleton.mpr (isLessSevere_irrefl _)⟩⟩
        exact absurd (isLessSevere_trans _ _ _ hlt hless) (by simp [hmin other hother])
      | false =>
        simp only [Option.all_some,hless,false_eq_true,if_false]
        exact ⟨⟨other,mem_append_left _ hother,heq⟩,forall_mem_append.mpr
          ⟨hmin,forall_mem_singleton.mpr hless⟩⟩

theorem Counted.dispatchInterest (hfilters : (s.interestFilterTable.map fun f => f.id).Nodup)
    (h : Counted entry) (hnone : ∀ destination ∈ entry.destinations, destination = .forwarder) :
    Counted (s.dispatchInterest entry) := by
  rw [dispatchInterest_eq]
  refine ⟨nodup_append.mpr ⟨h.destinations,?_,?_⟩,h.once,fun source hsource =>
    mem_append_left _ (h.forwarded source hsource),?_,h.least⟩
  · have hsub := hfilters.sublist (List.Sublist.map (fun f => f.id) (filter_sublist
      (p := fun f : InterestFilterRecord => f.doesMatch entry)))
    have hinj := hsub.map fun _ _ => Destination.filter.inj
    rwa [map_map] at hinj
  · intro a ha b hb heq
    obtain ⟨filter,_,rfl⟩ := mem_map.mp hb
    rw [heq] at ha
    cases hnone _ ha
  · have hcount := h.count
    simp only [length_append,length_map]
    omega

structure Inv (s : Face) : Prop where
  counted : ∀ entry ∈ s.pendingInterestTable, Counted entry
  filters : (s.interestFilterTable.map fun filter => filter.id).Nodup
  filterIds : ∀ filter ∈ s.interestFilterTable, filter.id ≤ s.lastFilterId
  justified : ∀ called ∈ s.callbacks, Justified called.1 called.2

theorem Inv.with_sent (h : Inv s) (sent : List Sent) : Inv { s with sent } :=
  ⟨h.counted,h.filters,h.filterIds,h.justified⟩

theorem Inv.with_ids (h : Inv s) (lastId : Nat) (posted : List (Nat × Interest)) :
    Inv { s with lastId, posted } :=
  ⟨h.counted,h.filters,h.filterIds,h.justified⟩

theorem Inv.removeIf (h : Inv s) (done : PendingInterest → Bool)
    (callback : PendingInterest → Callback) (hdone : ∀ entry ∈ s.pendingInterestTable,
      done entry = true → Justified entry (callback entry)) : Inv (s.removeIf done callback) := by
  refine ⟨fun entry hentry => h.counted entry (mem_of_mem_filter hentry),h.filters,h.filterIds,
    forall_mem_append.mpr ⟨h.justified,fun called hcalled => ?_⟩⟩
  obtain ⟨entry,hentry,rfl⟩ := mem_map.mp hcalled
  obtain ⟨hmem,hends⟩ := mem_filter.mp hentry
  exact hdone entry hmem (and_eq_true_iff.mp hends).1

variable {source : Destination}

theorem recordNacks_counted (h : Inv s) {nack : Nack}
    (hawaited : Awaited s source nack) : ∀ entry ∈ s.recordNacks source nack, Counted entry ∧
      (nack.interest.matchesInterest entry.interest = true → entry.nacks ≠ []) := by
  intro entry hentry
  obtain ⟨old,hold,rfl⟩ := mem_map.mp hentry
  split_ifs with hmatch
  · obtain ⟨hforwarded,hnew⟩ := hawaited old hold hmatch
    exact ⟨(h.counted old hold).recordNack hforwarded hnew nack,fun _ => by
      simp [PendingInterest.recordNack]⟩
  · exact ⟨h.counted old hold,fun hmatch' => absurd hmatch' hmatch⟩

theorem nackPendingInterests_spec (h : Inv s) {nack : Nack} (hawaited : Awaited s source nack) :
    ∃ s' out, s.nackPendingInterests source nack = some (s',out) ∧ Inv s' := by
  have hentries := recordNacks_counted h hawaited
  have hstep : ∃ s' out, s.nackPendingInterests source nack = some (s',out) := by
    refine ⟨_,_,if_neg fun hany => ?_⟩
    obtain ⟨entry,hentry,hneg⟩ := any_eq_true.mp hany
    have hnonneg := (hentries entry hentry).1.nonnegative
    exact absurd (of_decide_eq_true (and_eq_true_iff.mp hneg).2) (by omega)
  obtain ⟨s',out,hs'⟩ := hstep
  have hrecorded : Inv { s with pendingInterestTable := s.recordNacks source nack } :=
    ⟨fun entry hentry => (hentries entry hentry).1,h.filters,h.filterIds,h.justified⟩
  refine ⟨s',out,hs',?_⟩
  rw [nackPendingInterests_eq_some hs']
  refine hrecorded.removeIf _ _ fun entry hentry hdone => ?_
  obtain ⟨hmatch,hzero⟩ := and_eq_true_iff.mp hdone
  exact (hentries entry hentry).1.justified ((hentries entry hentry).2 hmatch)
    (of_decide_eq_true hzero)

theorem put_spec (h : Inv s) (hnew : entry.id ∉ s.pendingInterestTable.map fun entry => entry.id)
    (hcounted : Counted entry) : ∃ s', s.put entry = some s' ∧ Inv s' := by
  have hput : s.put entry =
      some { s with pendingInterestTable := s.pendingInterestTable ++ [entry] } := by
    refine if_neg fun hany => hnew ?_
    obtain ⟨other,hother,heq⟩ := any_eq_true.mp hany
    exact mem_map.mpr ⟨other,hother,of_decide_eq_true heq⟩
  exact ⟨_,hput,forall_mem_append.mpr ⟨h.counted,forall_mem_singleton.mpr hcounted⟩,
    h.filters,h.filterIds,h.justified⟩

theorem expressInterest_spec (h : Inv s) {id : Nat} (interest : Interest)
    (hnew : id ∉ s.pendingInterestTable.map fun entry => entry.id) :
    ∃ s', s.expressInterest id interest = some s' ∧ Inv s' := by
  refine put_spec (h.with_sent _) (by rwa [dispatchInterest_eq])
    (Counted.dispatchInterest h.filters ?_ (by simp [PendingInterest.recordForwarding]))
  exact ⟨nodup_singleton _,nodup_nil,forall_mem_nil _,rfl,rfl⟩

theorem processIncomingInterest_spec (h : Inv s) (interest : Interest)
    (hnew : s.lastId + 1 ∉ s.pendingInterestTable.map fun entry => entry.id) :
    ∃ s', s.processIncomingInterest interest = some s' ∧ Inv s' := by
  refine put_spec (h.with_ids _ _) (by rwa [dispatchInterest_eq])
    (Counted.dispatchInterest h.filters ?_ (forall_mem_nil _))
  exact ⟨nodup_nil,nodup_nil,forall_mem_nil _,rfl,rfl⟩

theorem step_spec (h : Inv s) (hids : IdsInv s) (event : Event) (he : Expected s event) :
    ∃ s', step s event = some s' ∧ Inv s' := by
  cases event with
  | expressInterest interest => exact ⟨_,rfl,h.with_ids _ _⟩
  | processExpressed =>
    simp only [step]
    cases hposted : s.posted with
    | nil => exact ⟨s,rfl,h⟩
    | cons call posted =>
      refine expressInterest_spec (h.with_ids _ _) _ fun hmem => ?_
      have hid := hids call.1
      have hpending := count_pos_iff.mpr hmem
      simp only [ids,hposted,count_append,map_cons,count_cons_self] at hid hpending
      split_ifs at hid <;> omega
  | receiveInterest interest =>
    refine processIncomingInterest_spec h interest fun hmem => ?_
    have hid := hids (s.lastId + 1)
    have hpending := count_pos_iff.mpr hmem
    rw [if_neg (by omega),ids,count_append,count_append] at hid
    omega
  | receiveNack nack =>
    obtain ⟨s',out,hs',h'⟩ := nackPendingInterests_spec h he
    exact ⟨s',by rw [step,hs',Option.map_some],h'⟩
  | putData data =>
    refine ⟨_,rfl,?_⟩
    have hremoved := h.removeIf (fun entry => entry.interest.matchesData data)
      (fun _ => .data data) fun _ _ _ => True.intro
    unfold Face.putData
    dsimp only
    split_ifs
    · exact hremoved.with_sent _
    · exact hremoved
  | putNack filter nack =>
    obtain ⟨s',out,hs',h'⟩ := nackPendingInterests_spec h he
    have hstep : step s (.putNack filter nack) =
        some { s' with sent := s'.sent ++ (out.map Sent.nack).toList } := by
      rw [step,Face.putNack,hs',Option.map_some]
    exact ⟨_,hstep,h'.with_sent _⟩
  | removePendingInterest id =>
    exact ⟨_,rfl,fun entry hentry => h.counted entry (mem_of_mem_filter hentry),h.filters,
      h.filterIds,h.justified⟩
  | removeAllPendingInterests =>
    exact ⟨_,rfl,forall_mem_nil _,h.filters,h.filterIds,h.justified⟩
  | setInterestFilter allowsLoopback filterMatches =>
    refine ⟨_,rfl,h.counted,?_,forall_mem_append.mpr ⟨fun filter hfilter =>
      (h.filterIds filter hfilter).trans (Nat.le_succ _),
      forall_mem_singleton.mpr (Nat.le_refl _)⟩,h.justified⟩
    rw [map_append]
    refine nodup_append_comm.mp (nodup_cons.mpr ⟨fun hmem => ?_,h.filters⟩)
    obtain ⟨filter,hfilter,heq⟩ := mem_map.mp hmem
    have hle := h.filterIds filter hfilter
    rw [heq] at hle
    exact absurd hle (by simp)
  | unsetInterestFilter id =>
    exact ⟨_,rfl,h.counted,h.filters.sublist (filter_sublist.map _),fun filter hfilter =>
      h.filterIds filter (mem_of_mem_filter hfilter),h.justified⟩
  | _ => exact ⟨_,rfl,h.removeIf _ _ fun _ _ _ => True.intro⟩

/-- Each Interest gets at most one callback. As long as Nacks come from destinations that have not
Nacked, no count is negative and the Nack callback is invoked when all destinations have Nacked. -/
theorem run_nackAccounting (events : List Event) :
    (∀ s, run events = some s → (s.callbacks.map fun called => called.1.id).Nodup) ∧
    ((∀ before event after s, events = before ++ event :: after → run before = some s →
      Expected s event) → ∃ s, run events = some s ∧ Accounted s) := by
  have hids : IdsInv ({} : Face) := fun _ => Nat.zero_le _
  constructor
  · intro s hs
    have h : IdsInv s := foldlM_keeps IdsInv (fun _ event _ h => step_ids h event) events hids hs
    refine nodup_iff_count_le_one.mpr fun id => ?_
    have hid := h id
    simp only [ids,count_append] at hid
    split_ifs at hid <;> omega
  · intro hexpected
    obtain ⟨s,hs,_,h⟩ := foldlM_invariant step (fun s => IdsInv s ∧ Inv s) Expected
      (fun s event h he => by
        obtain ⟨s',hs',h'⟩ := step_spec h.2 h.1 event he
        exact ⟨s',hs',step_ids h.1 event hs',h'⟩)
      {} ⟨hids,forall_mem_nil _,nodup_nil,forall_mem_nil _,forall_mem_nil _⟩ events hexpected
    exact ⟨s,hs,fun entry hentry => (h.counted entry hentry).nonnegative,h.justified⟩

end Records

def rootInterest : Interest := { name := [], nonce := [] }

def nackedByBoth : List Event := [.setInterestFilter true fun _ => true,
  .expressInterest rootInterest,.processExpressed,.receiveNack ⟨rootInterest,.noRoute⟩,
  .putNack 1 ⟨rootInterest,.congestion⟩]

theorem run_nackAccounting_both : ∃ s, run nackedByBoth = some s ∧ Accounted s := by
  refine (run_nackAccounting _).2 ?_
  have hall := forall_split (P := fun past event => ∀ s, run past = some s → Expected s event)
    nackedByBoth fun k => ?_
  · exact fun before event after s heq => hall before event after heq s
  · fin_cases k <;> rintro s ⟨⟩
    · exact True.intro
    · exact True.intro
    · exact True.intro
    · exact forall_mem_singleton.mpr fun _ => ⟨by decide,by decide⟩
    · exact forall_mem_singleton.mpr fun _ => ⟨by decide,by decide⟩

/-- A Nack for an Interest that matched no filter makes the count negative. Where an Interest is
expressed twice and the filter Nacks both times, the callbacks are invoked although the forwarder
has not Nacked. -/
theorem run_nacked_early :
    run [.receiveInterest rootInterest,.putNack 1 ⟨rootInterest,.noRoute⟩] = none ∧
    ∃ s, run [.setInterestFilter true fun _ => true,.expressInterest rootInterest,
        .expressInterest rootInterest,.processExpressed,.processExpressed,
        .putNack 1 ⟨rootInterest,.noRoute⟩,.putNack 1 ⟨rootInterest,.noRoute⟩] = some s ∧
      ∃ entry, (entry,.nack (some ⟨rootInterest,.noRoute⟩)) ∈ s.callbacks ∧
        .forwarder ∈ entry.destinations ∧ .forwarder ∉ entry.nacks.map Prod.fst :=
  ⟨rfl,_,rfl,_,mem_cons_self,by decide,by decide⟩

end KiteNdn.Client
