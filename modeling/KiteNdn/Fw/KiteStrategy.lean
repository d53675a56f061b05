import KiteNdn.Fw.Forwarder

/-!
# The KITE strategy

Interests with a KITE delegation go to the mobile producer if there is a route to it and to the
rendezvous otherwise. Those sent to the producer are remembered in its measurements entry, to be
sent again when the producer is reachable on a new face. A step fails where the source reads through
a null pointer or throws.
-/

namespace KiteNdn.Fw

/-- The names of the KITE delegations without the keyword, one after the other. -/
def kiteHint (i : Interest) : Name :=
  (i.forwardingHint.filter fun d => Forwarder.isKiteDelegation d).flatMap fun d => d.drop 1

def wouldViolateScope (c : Config) (inFace : FaceId) (i : Interest) (outFace : FaceId) : Bool :=
  if c.scope outFace = .isLocal then false
  else if localhost.isPrefixOf i.name then true
  else if localhop.isPrefixOf i.name then c.scope inFace ≠ .isLocal
  else false

def isNextHopEligible (c : Config) (inFace : FaceId) (i : Interest) (outFace : FaceId) : Bool :=
  !((outFace = inFace && c.linkType outFace ≠ .adHoc) || wouldViolateScope c inFace i outFace)

def announceLifetime : Int := 300000

def sentOn (face : FaceId) (actions : List Action) : List PitId :=
  actions.filterMap fun a =>
    match a with
    | .interest id _ f => if f = face then some id else none
    | _ => none

namespace Forwarder

variable (c : Config)

def transmitted (t : Transmission) (s : Forwarder) : Forwarder :=
  { s with history := { s.history with transmissions := t :: s.history.transmissions } }

section Forward

def setInStatus (rvName : Name) (face : FaceId) (e : PitEntry) : PitEntry :=
  { e with inRecords := e.inRecords.modify face fun r =>
      { r with info := some { r.info.getD { retrasmissionStage := .straightForward } with
          retrasmissionStage := .straightForward, rvName := rvName } } }

def setOutStatus (mpName : Name) (face : FaceId) (e : PitEntry) : PitEntry :=
  { e with outRecords := e.outRecords.modify face fun r =>
      { r with info := some { r.info.getD { retrasmissionStage := .straightForward } with
          retrasmissionStage := .straightForward, mpName := mpName } } }

def sendToProducer (i : Interest) (id : PitId) (mpName : Name) (s : Forwarder) (outFace : FaceId) :
    Option Forwarder :=
  (s.onOutgoingInterest c i outFace id).map fun s =>
    (s.modifyEntry id (setOutStatus mpName outFace)).transmitted ⟨id,outFace,i.nonce,mpName⟩

def listed (s : Forwarder) (key name : Name) : Option PitId :=
  (((s.measurements key).bind MeasurementsEntry.info).bind fun i => i.pitEntrys.find? name).map
    Prod.snd

def insertPitEntry (mpName name : Name) (id : PitId) (s : Forwarder) : Forwarder :=
  let key := measurementsName mpName
  let s := s.modifyMobileProducerInfo mpName fun i =>
    { i with pitEntrys := i.pitEntrys.insertNew (name,id) }
  if s.listed key name = some id then
    { s with history := { s.history with
        pending := (id,key) :: s.history.pending
        recorded := (id,key) :: s.history.recorded
        answered := s.history.answered.filter fun p => p ≠ (name,key) } }
  else { s with history := { s.history with pending := (id,key) :: s.history.pending } }

def recordPitEntry (mpName name : Name) (id : PitId) (s : Forwarder) : Option Forwarder :=
  let s := s.getMeasurements mpName
  if c.isEffective (measurementsName mpName) then
    some ((s.insertMobileProducerInfo mpName).insertPitEntry mpName name id)
  else none

def rejectInterest (ingress : FaceId) (id : PitId) (s : Forwarder) : Forwarder :=
  (s.sendNack c .noRoute ingress id).setExpiryTimer id 0

def sendToAll (i : Interest) (id : PitId) (nextHops : List FaceId) (s : Forwarder) : Forwarder :=
  nextHops.foldl (fun s f => s.sendInterest c i f id) s

def producerHops (i : Interest) (ingress : FaceId) (s : Forwarder) (e : PitEntry) :
    Name × List FaceId :=
  ((s.lookupFib e).1,(s.lookupFib e).2.filter fun f => isNextHopEligible c ingress i f)

def afterReceiveInterest (i : Interest) (ingress : FaceId) (id : PitId) (s : Forwarder) :
    Option Forwarder :=
  (s.pit.find? id).bind fun e =>
    if kiteHint i ≠ [] then
      let (mpName,hops) := s.producerHops c i ingress e
      if hops ≠ [] then
        let s := s.modifyEntry id (setInStatus (kiteHint i) ingress)
        (hops.foldlM (sendToProducer c i id mpName) s).bind fun s =>
          s.recordPitEntry c mpName i.name id
      else
        let rvHops := (s.findLongestPrefixMatch (kiteHint i)).2.filter fun f =>
          isNextHopEligible c ingress i f
        if rvHops ≠ [] then some (s.sendToAll c i id rvHops)
        else some (s.rejectInterest c ingress id)
    else
      let nextHops := (s.lookupFib e).2
      let s := if nextHops = [] then s.rejectInterest c ingress id else s
      let hops := nextHops.filter fun f => isNextHopEligible c ingress i f
      if hops ≠ [] then some (s.sendToAll c i id hops)
      else some (s.rejectInterest c ingress id)

end Forward

section Producers

def resend (mpName : Name) (face : FaceId) (s : Forwarder) (item : Name × PitId) : Forwarder :=
  match s.pit.find? item.2 with
  | some e =>
    match s.onOutgoingInterest c e.interest face e.id with
    | some s => s.transmitted ⟨e.id,face,e.interest.nonce,mpName⟩
    | none => s
  | none => s

def retransmit (mpName : Name) (face : FaceId) (s : Forwarder) : Forwarder :=
  match s.getMobileProducerInfo mpName with
  | some info =>
    if face ∈ info.faceIds then s
    else
      let s' := info.pitEntrys.items.foldl (resend c mpName face)
        (s.modifyMobileProducerInfo mpName fun i => { i with faceIds := face :: i.faceIds })
      { s' with history := { s'.history with
          retransmissions := s'.history.retransmissions ++ [⟨mpName,face,
            (s.history.pending.filter fun p =>
              p.2 = measurementsName mpName ∧ s.isAlive p.1).map Prod.fst,
            sentOn face (s'.actions.drop s.actions.length)⟩] } }
  | none => s

def registPrefix (pa : PrefixAnnouncement) : List InRecord → Forwarder → Forwarder
  | [], s => s
  | r :: records, s =>
    if c.scope r.face ≠ .isLocal ∧ r.expiry > s.now then
      let s := (s.act (.slAnnounce pa r.face announceLifetime)).getMeasurements pa.announcedName
      if c.isEffective (measurementsName pa.announcedName) then
        let s := s.extendLifetime pa.announcedName (toNanoseconds pa.expiration)
        registPrefix pa records (s.retransmit c pa.announcedName r.face)
      else s
    else registPrefix pa records s

def removePrefix (name : Name) (inFaceId : FaceId) (s : Forwarder) : Option Forwarder :=
  let s := (s.act (.slRenew name inFaceId 0)).getMeasurements name
  if c.isEffective (measurementsName name) then
    some (s.modifyMobileProducerInfo name fun i =>
      { i with faceIds := i.faceIds.filter fun f => f ≠ inFaceId })
  else none

def eraseMeasurement (r : OutRecord) (interestName : Name) (s : Forwarder) : Option Forwarder :=
  match r.info with
  | some status =>
    let s := s.getMeasurements status.mpName
    if c.isEffective (measurementsName status.mpName) then
      some (s.modifyMobileProducerInfo status.mpName fun i =>
        { i with pitEntrys := i.pitEntrys.filter fun p => p.1 ≠ interestName })
    else none
  | none => some s

/-- `Ack ack(data)` throws. -/
def failsAck (d : Data) : Bool :=
  d.contentType = Kite.contentTypeKiteAck && !(Kite.Ack.ofData d).isOk

def beforeSatisfyInterest (d : Data) (ingress : FaceId) (id : PitId) (s : Forwarder) :
    Option Forwarder :=
  (s.pit.find? id).bind fun e =>
    if d.contentType = Kite.contentTypeKiteAck then
      match Kite.Ack.ofData d with
      | .ok ack => some (s.registPrefix c ack.prefixAnnouncement e.inRecords.items)
      | .error _ => none
    else
      match e.getOutRecord ingress with
      | some r => s.eraseMeasurement c r e.name
      | none => some s

end Producers

section Nacks

def setInStage (stage : InterestRetrasmissionStage) (face : FaceId) (e : PitEntry) : PitEntry :=
  { e with inRecords := e.inRecords.modify face fun r =>
      { r with info := r.info.map fun status => { status with retrasmissionStage := stage } } }

/-- A next hop of the rendezvous that is neither a downstream nor an upstream. -/
def isUnused (s : Forwarder) (id : PitId) (face : FaceId) : Bool :=
  (s.pit.find? id).any fun e => (e.getInRecord face).isNone && (e.getOutRecord face).isNone

def sendIfUnused (i : Interest) (id : PitId) (s : Forwarder × Bool) (face : FaceId) :
    Forwarder × Bool :=
  if s.1.isUnused id face then (s.1.sendInterest c i face id,true) else s

def dealNack (id : PitId) (inFace : FaceId) (s : Forwarder) : Forwarder × Bool :=
  match s.pit.find? id with
  | none => (s,false)
  | some e =>
    match (e.getInRecord inFace).bind InRecord.info with
    | none => (s,false)
    | some status =>
      if status.retrasmissionStage = .straightForward then
        let nextHops := (s.findLongestPrefixMatch status.rvName).2
        nextHops.foldl (sendIfUnused c e.interest id) (s.modifyEntry id (setInStage .rv inFace),false)
      else (s,false)

def dealNacks (id : PitId) : List FaceId → Forwarder → Forwarder × Bool
  | [], s => (s,false)
  | f :: faces, s =>
    let (s,dealt) := s.dealNack c id f
    if dealt then (s,true) else dealNacks id faces s

def settleIfIdle (id : PitId) (s : Forwarder) : Forwarder :=
  if (s.pit.find? id).all fun e => e.inRecords.items.isEmpty then s.settle id else s

def answerIfIdle (id : PitId) (s : Forwarder) : Forwarder :=
  if (s.pit.find? id).all fun e => e.inRecords.items.isEmpty then s.answer id else s

def eraseWith (find : PitEntry → Option OutRecord) (id : PitId) (s : Forwarder) :
    Option Forwarder :=
  (s.pit.find? id).bind fun e =>
    match find e with
    | some r => s.eraseMeasurement c r e.name
    | none => some s

def sendNackForProcessNackTraits (id : PitId) (outFace : FaceId) (reason : NackReason)
    (s : Forwarder) : Option Forwarder :=
  let (s,dealt) := s.dealNack c id outFace
  if dealt then some s
  else
    ((s.sendNack c reason outFace id).eraseWith c (fun e => e.getOutRecord outFace) id).map
      (settleIfIdle id)

def sendNacksForProcessNackTraits (id : PitId) (reason : NackReason) (s : Forwarder) :
    Option Forwarder :=
  (s.pit.find? id).bind fun e =>
    let (s,dealt) := s.dealNacks c id (e.inRecords.items.map InRecord.face)
    if dealt then some s
    else
      ((s.sendNacks c reason id).eraseWith c (fun e => e.outRecords.items.head?) id).map
        fun s => (s.answerIfIdle id).settleIfIdle id

def leastSevereReason (records : List OutRecord) : NackReason :=
  records.foldl (fun least r =>
    match r.incomingNack with
    | some reason => if reason.isLessSevere least then reason else least
    | none => least) .none

def processNack (id : PitId) (s : Forwarder) : Option Forwarder :=
  (s.pit.find? id).bind fun e =>
    let notNacked := e.outRecords.items.filter fun r => r.incomingNack.isNone
    let outNack := leastSevereReason e.outRecords.items
    match notNacked with
    | [] => s.sendNacksForProcessNackTraits c id outNack
    | [r] =>
      if (e.getInRecord r.face).isSome then s.sendNackForProcessNackTraits c id r.face outNack
      else some s
    | _ => some s

def afterReceiveNack (ingress : FaceId) (id : PitId) (s : Forwarder) : Option Forwarder :=
  (s.pit.find? id).bind fun e =>
    (match (e.getOutRecord ingress).bind OutRecord.info with
      | some status =>
        if status.retrasmissionStage = InterestRetrasmissionStage.straightForward then
          s.removePrefix c status.mpName ingress
        else some s
      | none => some s).bind (processNack c id)

end Nacks

end Forwarder

/-- A Data that acknowledges a request and announces a prefix. -/
def acknowledgment (name announced : Name) (expiration : List UInt8) : Data where
  name := name
  contentType := Kite.contentTypeKiteAck
  content := .ok [.data (.ok {
    name := announced ++ [PrefixAnnouncement.keywordComponent,
      ⟨Component.versionNameComponent,[1]⟩,⟨Component.segmentNameComponent,[0]⟩]
    contentType := PrefixAnnouncement.contentTypePrefixAnn
    content := .ok [.expirationPeriod expiration] })]

end KiteNdn.Fw
