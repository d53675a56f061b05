import Mathlib.Data.List.Dedup
import KiteNdn.Fw.KiteStrategy

/-!
# Delivery of Data to the faces that asked for it

The Data pipelines with the PIT tokens by which a downstream finds its own state again. If one PIT
entry matches, its strategy sends the Data; if several do, the forwarder sends it itself. A strategy
may do anything before that, as long as it leaves the in-records alone, and it may throw. Data comes
from a link service, which puts no PIT token on it.
-/

namespace KiteNdn.Fw.Delivery

open Framework Option List

abbrev FaceRef := Nat

abbrev PitToken := List UInt8

def invalidFaceId : FaceId := 0

structure Face where
  id : FaceId
  scope : FaceScope
  linkType : LinkType
  deriving DecidableEq, Repr

/-- The faces in the face table. Records of a face are deleted before it leaves the table. -/
structure FaceTable where
  face : FaceRef → Face
  id_ne_invalid : ∀ f, (face f).id ≠ invalidFaceId
  eq_of_id_eq : ∀ {f g}, (face f).id = (face g).id → f = g

structure InRecord where
  face : FaceRef
  interest : Interest
  pitToken : Option PitToken
  expiry : Time
  deriving DecidableEq, Repr

structure OutRecord where
  face : FaceRef
  lastNonce : Nonce
  deriving DecidableEq, Repr

structure PitEntry where
  id : PitId
  interest : Interest
  inRecords : KeyedList InRecord.face
  outRecords : KeyedList OutRecord.face
  expiryTimer : Option Time
  isSatisfied : Bool
  dataFreshnessPeriod : Int

abbrev Pit := KeyedList PitEntry.id

def PitEntry.downstreams (e : PitEntry) : Interest × List InRecord := (e.interest,e.inRecords.items)

structure Strategy where
  beforeSatisfyInterest : Data → FaceRef → PitId → Pit → Option Pit
  keeps_downstreams : ∀ {data ingress id pit pit'},
    beforeSatisfyInterest data ingress id pit = some pit' → ∀ id',
      (pit'.find? id').map PitEntry.downstreams = (pit.find? id').map PitEntry.downstreams
  /-- The Data, the upstream and the downstreams of the entry tell whether it throws. -/
  isSome_congr : ∀ {data ingress id pit pit'},
    (pit'.find? id).map PitEntry.downstreams = (pit.find? id).map PitEntry.downstreams →
      (beforeSatisfyInterest data ingress id pit').isSome =
        (beforeSatisfyInterest data ingress id pit).isSome

structure Config where
  faces : FaceTable
  findEffectiveStrategy : Name → Strategy
  decide : FaceRef → Data → Bool
  deadNonceListLifetime : Time

structure SentData where
  face : FaceRef
  data : Data
  pitToken : Option PitToken
  deriving DecidableEq, Repr

structure Forwarder where
  pit : Pit
  deadNonceList : List (Name × Nonce) := []
  csInsertions : List (Data × Bool) := []
  sent : List SentData := []

namespace Forwarder

variable (c : Config)

def violatesLocalhost (f : FaceRef) (data : Data) : Bool :=
  (c.faces.face f).scope = .nonLocal && localhost.isPrefixOf data.name

def isExcluded (inFace f : FaceRef) : Bool :=
  (c.faces.face f).id = (c.faces.face inFace).id && (c.faces.face f).linkType ≠ .adHoc

section Outgoing

def modifyEntry (id : PitId) (f : PitEntry → PitEntry) (s : Forwarder) : Forwarder :=
  { s with pit := s.pit.modify id f }

def faceSet (l : List FaceRef) : List FaceRef := l.dedup.insertionSort (· ≤ ·)

def onOutgoingData (data : Data) (pitToken : Option PitToken) (egress : FaceRef) (s : Forwarder) :
    Forwarder :=
  if (c.faces.face egress).id = invalidFaceId then s
  else if violatesLocalhost c egress data then s
  else { s with sent := s.sent ++ [⟨egress,data,pitToken⟩] }

def deleteInRecord (face : FaceRef) (e : PitEntry) : PitEntry :=
  { e with inRecords := e.inRecords.filter fun r => r.face ≠ face }

def sendData (data : Data) (id : PitId) (s : Forwarder) (egress : FaceRef) : Option Forwarder :=
  (s.pit.find? id).bind fun e =>
    if e.interest.matchesData data then
      let pitToken := (e.inRecords.find? egress).bind InRecord.pitToken
      some ((s.modifyEntry id (deleteInRecord egress)).onOutgoingData c data pitToken egress)
    else none

def unexpired (now : Time) (e : PitEntry) : List FaceRef :=
  (e.inRecords.items.filter fun r => r.expiry > now).map InRecord.face

def sendDataToAll (data : Data) (id : PitId) (inFace : FaceRef) (now : Time) (s : Forwarder) :
    Option Forwarder :=
  (s.pit.find? id).bind fun e =>
    (faceSet ((unexpired now e).filter fun f => !isExcluded c inFace f)).foldlM
      (sendData c data id) s

end Outgoing

section Incoming

def beforeSatisfyInterest (data : Data) (ingress : FaceRef) (id : PitId) (s : Forwarder) :
    Option Forwarder :=
  (s.pit.find? id).bind fun e =>
    ((c.findEffectiveStrategy e.interest.name).beforeSatisfyInterest data ingress id s.pit).map
      fun pit => { s with pit := pit }

def afterReceiveData (data : Data) (ingress : FaceRef) (id : PitId) (now : Time) (s : Forwarder) :
    Option Forwarder :=
  (s.beforeSatisfyInterest c data ingress id).bind fun s => s.sendDataToAll c data id ingress now

def setExpiryTimer (id : PitId) (now : Time) (s : Forwarder) : Forwarder :=
  s.modifyEntry id fun e => { e with expiryTimer := some now }

def insertDeadNonceList (id : PitId) (upstream : FaceRef) (s : Forwarder) : Forwarder :=
  match s.pit.find? id with
  | none => s
  | some e =>
    let needDnl := !e.isSatisfied || (e.interest.mustBeFresh &&
      toNanoseconds e.dataFreshnessPeriod < c.deadNonceListLifetime)
    match e.outRecords.find? upstream with
    | some r =>
      if needDnl then { s with deadNonceList := s.deadNonceList ++ [(e.interest.name,r.lastNonce)] }
      else s
    | none => s

/-- Marks an entry as satisfied, after which the record of the upstream is not needed. -/
def satisfy (data : Data) (ingress : FaceRef) (id : PitId) (s : Forwarder) : Forwarder :=
  ((s.modifyEntry id fun e =>
      { e with isSatisfied := true, dataFreshnessPeriod := data.freshnessPeriod }).insertDeadNonceList
    c id ingress).modifyEntry id fun e =>
      { e with outRecords := e.outRecords.filter fun r => r.face ≠ ingress }

def satisfyOne (data : Data) (ingress : FaceRef) (now : Time) (acc : List FaceRef × Forwarder)
    (id : PitId) : Option (List FaceRef × Forwarder) :=
  (acc.2.pit.find? id).bind fun e =>
    ((acc.2.setExpiryTimer id now).beforeSatisfyInterest c data ingress id).map fun s =>
      (acc.1 ++ unexpired now e,
        (s.satisfy c data ingress id).modifyEntry id fun e => { e with inRecords := KeyedList.empty })

def findAllDataMatches (data : Data) (s : Forwarder) : List PitId :=
  (s.pit.items.filter fun e => e.interest.matchesData data).map PitEntry.id

def onIncomingData (data : Data) (ingress : FaceRef) (now : Time) (s : Forwarder) :
    Option Forwarder :=
  if violatesLocalhost c ingress data then some s
  else
    match s.findAllDataMatches data with
    | [] =>
      if c.decide ingress data then
        some { s with csInsertions := s.csInsertions ++ [(data,true)] }
      else some s
    | [id] =>
      let s := { s with csInsertions := s.csInsertions ++ [(data,false)] }
      ((s.setExpiryTimer id now).afterReceiveData c data ingress id now).map
        (satisfy c data ingress id)
    | pitMatches =>
      let s := { s with csInsertions := s.csInsertions ++ [(data,false)] }
      (pitMatches.foldlM (satisfyOne c data ingress now) ([],s)).map fun acc =>
        ((faceSet acc.1).filter fun f => !isExcluded c ingress f).foldl
          (fun s f => s.onOutgoingData c data none f) acc.2

end Incoming

end Forwarder

open List Option

variable {e : PitEntry} {f : FaceRef} {s' : Forwarder}

namespace Forwarder

section Sends

variable {c : Config} {data : Data} {s : Forwarder} {id : PitId}

def copyTo (c : Config) (data : Data) (pitToken : Option PitToken) (f : FaceRef) : List SentData :=
  if violatesLocalhost c f data then [] else [⟨f,data,pitToken⟩]

end Sends

section Downstreams

variable {c : Config} {data : Data} {ingress : FaceRef} {now : Time} {s s' : Forwarder} {id : PitId}

def downstreamsOf (s : Forwarder) (id : PitId) : Option (Interest × List InRecord) :=
  (s.pit.find? id).map PitEntry.downstreams

theorem beforeSatisfyInterest_spec (h : s.beforeSatisfyInterest c data ingress id = some s') :
    s'.sent = s.sent ∧ ∀ id', s'.downstreamsOf id' = s.downstreamsOf id' := by
  obtain ⟨e,_,h⟩ := bind_eq_some_iff.mp h
  obtain ⟨pit,hpit,rfl⟩ := map_eq_some_iff.mp h
  exact ⟨rfl,fun id' => (c.findEffectiveStrategy e.interest.name).keeps_downstreams hpit id'⟩

variable {acc acc' : List FaceRef × Forwarder}

end Downstreams

section Uniformity

variable (c : Config) (s : Forwarder) (data : Data) (ingress : FaceRef) (now : Time)

/-- An in-record that has not expired, in an entry that the Data matches. -/
def IsWaiting (r : InRecord) : Prop :=
  ∃ e ∈ s.pit.items, e.interest.matchesData data = true ∧ r ∈ e.inRecords.items ∧ r.expiry > now

/-- The faces that should get the Data. -/
def Receives (f : FaceRef) : Prop :=
  (∃ r, s.IsWaiting data now r ∧ r.face = f) ∧
    ¬(f = ingress ∧ (c.faces.face f).linkType ≠ .adHoc) ∧ violatesLocalhost c f data = false

variable {c s data ingress now} {id : PitId}

theorem nodup_findAllDataMatches (s : Forwarder) (data : Data) :
    (s.findAllDataMatches data).Nodup :=
  s.pit.distinct.sublist (filter_sublist.map _)

section Throwing

end Throwing

end Uniformity

section Examples

end Examples

end Forwarder

end KiteNdn.Fw.Delivery
