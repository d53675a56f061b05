import KiteNdn.Framework.KeyedList
import KiteNdn.Kite.Request

/-!
# The forwarder's tables and outgoing pipelines

PIT, FIB, and the measurements table in which the strategy keeps what it knows about mobile
producers. PIT entries are named by numbers that are not reused, so a weak pointer to an entry is
its number, and it can be locked as long as the entry is in the table. A record renewed by another
Interest keeps the strategy's information and, on the outgoing side, the Nack that came back before.

`History` is not part of the program. It keeps what the packets seen so far call for. Producers are
told apart by their measurements entries.
-/

namespace KiteNdn.Fw

open Framework Function

abbrev PitId := Nat

inductive InterestRetrasmissionStage where
  | straightForward
  | rv
  deriving DecidableEq, Repr

structure KiteInterestStatus where
  retrasmissionStage : InterestRetrasmissionStage
  rvName : Name := []
  mpName : Name := []
  deriving DecidableEq, Repr

structure InRecord where
  face : FaceId
  interest : Interest
  expiry : Time
  info : Option KiteInterestStatus
  deriving DecidableEq, Repr

structure OutRecord where
  face : FaceId
  lastNonce : Nonce
  expiry : Time
  incomingNack : Option NackReason
  info : Option KiteInterestStatus
  deriving DecidableEq, Repr

structure PitEntry where
  id : PitId
  interest : Interest
  inRecords : KeyedList InRecord.face
  outRecords : KeyedList OutRecord.face
  expiryTimer : Option Time
  isSatisfied : Bool

/-- Lifetimes are cut at ten days, in milliseconds. -/
def maxLifetime : Int := 864000000

def recordExpiry (i : Interest) (now : Time) : Time :=
  addDuration now (toNanoseconds (min i.interestLifetime maxLifetime))

namespace PitEntry

def new (id : PitId) (i : Interest) : PitEntry :=
  ⟨id,i,KeyedList.empty,KeyedList.empty,none,false⟩

def name (e : PitEntry) : Name := e.interest.name

def canMatch (e : PitEntry) (i : Interest) : Bool := e.interest.matchesInterest i

def getInRecord (e : PitEntry) (face : FaceId) : Option InRecord := e.inRecords.find? face

def getOutRecord (e : PitEntry) (face : FaceId) : Option OutRecord := e.outRecords.find? face

def insertOrUpdateInRecord (face : FaceId) (i : Interest) (now : Time) (e : PitEntry) : PitEntry :=
  { e with inRecords :=
      e.inRecords.putFront ⟨face,i,recordExpiry i now,(e.getInRecord face).bind InRecord.info⟩ }

def insertOrUpdateOutRecord (face : FaceId) (i : Interest) (now : Time) (e : PitEntry) : PitEntry :=
  { e with outRecords :=
      e.outRecords.putFront ⟨face,i.nonce,recordExpiry i now,
        (e.getOutRecord face).bind OutRecord.incomingNack,
        (e.getOutRecord face).bind OutRecord.info⟩ }

def deleteInRecord (face : FaceId) (e : PitEntry) : PitEntry :=
  { e with inRecords := e.inRecords.filter fun r => r.face ≠ face }

def deleteOutRecord (face : FaceId) (e : PitEntry) : PitEntry :=
  { e with outRecords := e.outRecords.filter fun r => r.face ≠ face }

def clearInRecords (e : PitEntry) : PitEntry := { e with inRecords := KeyedList.empty }

def duplicateNonceInSame : Nat := 1
def duplicateNonceInOther : Nat := 2
def duplicateNonceOutSame : Nat := 4
def duplicateNonceOutOther : Nat := 8

def findDuplicateNonce (e : PitEntry) (nonce : Nonce) (face : FaceId) : Nat :=
  let dnw := e.inRecords.items.foldl (fun dnw r =>
    if r.interest.nonce = nonce then
      dnw ||| (if r.face = face then duplicateNonceInSame else duplicateNonceInOther)
    else dnw) 0
  e.outRecords.items.foldl (fun dnw r =>
    if r.lastNonce = nonce then
      dnw ||| (if r.face = face then duplicateNonceOutSame else duplicateNonceOutOther)
    else dnw) dnw

def hasPendingOutRecords (e : PitEntry) (now : Time) : Bool :=
  e.outRecords.items.any fun r => now ≤ r.expiry && r.incomingNack.isNone

def lastExpiry (e : PitEntry) : Option Time := (e.inRecords.items.map InRecord.expiry).max?

end PitEntry

inductive FaceScope where
  | isLocal | nonLocal
  deriving DecidableEq, Repr

inductive LinkType where
  | pointToPoint | multiAccess | adHoc
  deriving DecidableEq, Repr

def localhost : Name := [Component.generic [108,111,99,97,108,104,111,115,116]]

def localhop : Name := [Component.generic [108,111,99,97,108,104,111,112]]

/-- What does not change during a run: the faces, the names for which the strategy is effective, and
the configuration. -/
structure Config where
  scope : FaceId → FaceScope
  linkType : FaceId → LinkType
  hasFace : FaceId → Bool
  isEffective : Name → Bool
  isInProducerRegion : List Name → Bool
  defaultHopLimit : Nat

structure KiteMobileProducerInfo where
  pitEntrys : KeyedList (Prod.fst : Name × PitId → Name)
  faceIds : List FaceId

structure MeasurementsEntry where
  expiry : Time
  info : Option KiteMobileProducerInfo

inductive Action where
  | interest (id : PitId) (i : Interest) (face : FaceId)
  | data (d : Data) (face : FaceId)
  | nack (nack : Nack) (face : FaceId)
  | slAnnounce (pa : PrefixAnnouncement) (face : FaceId) (maxLifetime : Int)
  | slRenew (name : Name) (face : FaceId) (maxLifetime : Int)
  deriving DecidableEq, Repr

/-- An Interest that was sent to `face` because of a route to the mobile producer `mpName`. -/
structure Transmission where
  id : PitId
  face : FaceId
  nonce : Nonce
  mpName : Name
  deriving DecidableEq, Repr

/-- The reaction to a new face of a mobile producer: the entries that waited for it, and those that
were sent. -/
structure Retransmission where
  mpName : Name
  face : FaceId
  pending : List PitId
  sent : List PitId
  deriving DecidableEq, Repr

structure History where
  /-- The entries forwarded to a producer and not answered since. -/
  pending : List (PitId × Name) := []
  /-- The entries put into the producer's table and not answered since. -/
  recorded : List (PitId × Name) := []
  /-- The names and producers of recorded entries that were answered and not recorded again. -/
  answered : List (Name × Name) := []
  transmissions : List Transmission := []
  retransmissions : List Retransmission := []

structure Forwarder where
  pit : KeyedList PitEntry.id
  nextId : PitId
  fib : Name → Option (List FaceId)
  measurements : Name → Option MeasurementsEntry
  now : Time
  actions : List Action
  history : History

namespace Forwarder

def empty : Forwarder := ⟨KeyedList.empty,0,fun _ => none,fun _ => none,0,[],{}⟩

section Tables

def modifyEntry (id : PitId) (f : PitEntry → PitEntry) (s : Forwarder) : Forwarder :=
  { s with pit := s.pit.modify id f }

def isAlive (s : Forwarder) (id : PitId) : Bool := (s.pit.find? id).isSome

def findPitEntry (s : Forwarder) (i : Interest) : Option PitEntry :=
  s.pit.items.find? fun e => e.canMatch i

def findAllDataMatches (s : Forwarder) (d : Data) : List PitId :=
  (s.pit.items.filter fun e => e.interest.matchesData d).map PitEntry.id

def findLongestPrefixMatch (s : Forwarder) (name : Name) : Name × List FaceId :=
  ((name :: Name.properPrefixes name).findSome? fun p => (s.fib p).map fun l => (p,l)).getD ([],[])

/-- Delegations that start with the KITE keyword are not looked up. -/
def isKiteDelegation (d : Name) : Bool := d.head? = some Kite.kiteKeyword

def lookupFib (s : Forwarder) (e : PitEntry) : Name × List FaceId :=
  let delegations := e.interest.forwardingHint.filter fun d => !isKiteDelegation d
  match delegations.find? fun d => (s.findLongestPrefixMatch d).2 ≠ [] with
  | some d => s.findLongestPrefixMatch d
  | none =>
    match delegations.getLast? with
    | some d => s.findLongestPrefixMatch d
    | none => s.findLongestPrefixMatch e.name

def initialLifetime : Time := 4000 * nanosecondsPerMillisecond

def measurementsName (name : Name) : Name := name.take maxNameDepth

def modifyMeasurements (name : Name) (f : MeasurementsEntry → MeasurementsEntry) (s : Forwarder) :
    Forwarder :=
  let key := measurementsName name
  { s with measurements := update s.measurements key ((s.measurements key).map f) }

def getMeasurements (name : Name) (s : Forwarder) : Forwarder :=
  let key := measurementsName name
  match s.measurements key with
  | some _ => s
  | none =>
    let entry : MeasurementsEntry := ⟨s.now + initialLifetime,none⟩
    { s with measurements := update s.measurements key (some entry) }

def getMobileProducerInfo (s : Forwarder) (name : Name) : Option KiteMobileProducerInfo :=
  (s.measurements (measurementsName name)).bind MeasurementsEntry.info

def modifyMobileProducerInfo (name : Name) (f : KiteMobileProducerInfo → KiteMobileProducerInfo)
    (s : Forwarder) : Forwarder :=
  s.modifyMeasurements name fun e => { e with info := e.info.map f }

def insertMobileProducerInfo (name : Name) (s : Forwarder) : Forwarder :=
  s.modifyMeasurements name fun e => { e with info := some (e.info.getD ⟨KeyedList.empty,[]⟩) }

def extendLifetime (name : Name) (lifetime : Time) (s : Forwarder) : Forwarder :=
  s.modifyMeasurements name fun e => { e with expiry := max e.expiry (addDuration s.now lifetime) }

def setExpiryTimer (id : PitId) (duration : Int) (s : Forwarder) : Forwarder :=
  s.modifyEntry id fun e =>
    { e with expiryTimer := some (s.now + max duration 0 * nanosecondsPerMillisecond) }

end Tables

section Pipelines

variable (c : Config)

def act (a : Action) (s : Forwarder) : Forwarder := { s with actions := s.actions ++ [a] }

/-- Fails where the source returns a null pointer. -/
def onOutgoingInterest (i : Interest) (egress : FaceId) (id : PitId) (s : Forwarder) :
    Option Forwarder :=
  if i.hopLimit = some 0 ∧ c.scope egress = .nonLocal then none
  else some ((s.modifyEntry id (PitEntry.insertOrUpdateOutRecord egress i s.now)).act
    (.interest id i egress))

def sendInterest (i : Interest) (egress : FaceId) (id : PitId) (s : Forwarder) : Forwarder :=
  (s.onOutgoingInterest c i egress id).getD s

def violatesLocalhost (face : FaceId) (name : Name) : Bool :=
  c.scope face = .nonLocal && localhost.isPrefixOf name

def onOutgoingData (d : Data) (egress : FaceId) (s : Forwarder) : Forwarder :=
  if violatesLocalhost c egress d.name then s else s.act (.data d egress)

def sendData (d : Data) (egress : FaceId) (id : PitId) (s : Forwarder) : Forwarder :=
  (s.modifyEntry id (PitEntry.deleteInRecord egress)).onOutgoingData c d egress

def sendNack (reason : NackReason) (egress : FaceId) (id : PitId) (s : Forwarder) : Forwarder :=
  match (s.pit.find? id).bind fun e => e.getInRecord egress with
  | some r =>
    if c.linkType egress = .pointToPoint then
      (s.modifyEntry id (PitEntry.deleteInRecord egress)).act (.nack ⟨r.interest,reason⟩ egress)
    else s
  | none => s

def sendNacks (reason : NackReason) (id : PitId) (s : Forwarder) : Forwarder :=
  match s.pit.find? id with
  | some e => e.inRecords.items.foldl (fun s r => s.sendNack c reason r.face id) s
  | none => s

def sendDataToAll (d : Data) (inFace : FaceId) (id : PitId) (s : Forwarder) : Forwarder :=
  match s.pit.find? id with
  | some e =>
    let pendingDownstreams := e.inRecords.items.filter fun r =>
      r.expiry > s.now && !(r.face = inFace && c.linkType r.face ≠ .adHoc)
    pendingDownstreams.foldl (fun s r => s.sendData c d r.face id) s
  | none => s

end Pipelines

section Records

def settle (id : PitId) (s : Forwarder) : Forwarder :=
  { s with history := { s.history with pending := s.history.pending.filter fun p => p.1 ≠ id } }

def answer (id : PitId) (s : Forwarder) : Forwarder :=
  match s.pit.find? id with
  | some e =>
    { s with history := { s.history with
        answered := ((s.history.recorded.filter fun p => p.1 = id).map fun p => (e.name,p.2)) ++
          s.history.answered
        recorded := s.history.recorded.filter fun p => p.1 ≠ id } }
  | none => s

end Records

end Forwarder

end KiteNdn.Fw
