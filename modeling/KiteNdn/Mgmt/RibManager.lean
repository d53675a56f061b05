import KiteNdn.Rib.UpdateQueue
import KiteNdn.Rib.Structure

/-!
# The RIB manager

Registration commands, prefix announcements and their renewal become RIB updates. A route with a
lifetime gets an expiration event from the scheduler before its update is queued. Cancelling happens
in the RIB and in the FIB updater, which log the events they cancel.

The renewal of a learned route looks at the name itself and at the nearest entry above, whatever
routes this entry has.
-/

namespace KiteNdn.Routing

open Option

def durationMax : Int := 2^63-1

def paRouteCost : Nat := 2048

/-- `computeExpiration` for an announcement, with the steady and the system clock. -/
def computeExpiration (ann : PrefixAnnouncement) (now wallClock : Time) : Time :=
  let validityEnd := match ann.validityPeriod with
    | none => durationMax
    | some (notBefore,notAfter) =>
      if notBefore ≤ wallClock ∧ wallClock ≤ notAfter then notAfter - wallClock else 0
  addDuration now (min validityEnd (toNanoseconds ann.expiration))

def Route.ofAnnouncement (ann : PrefixAnnouncement) (faceId : FaceId) (now wallClock : Time) :
    Route :=
  { faceId := faceId
    origin := routeOriginPrefixAnn
    cost := paRouteCost
    flags := routeFlagChildInherit
    expires := some (computeExpiration ann now wallClock)
    announcement := some ann
    annExpires := computeExpiration ann now wallClock }

def Rib.findLongestPrefix (rib : Rib) (pfx : Name) (route : Route) : Option Route :=
  match rib.findRoute pfx route with
  | some existing => some existing
  | none => (rib.findParent pfx).bind fun p => rib.findRoute (rib.heap p).name route

/-- A call of `Rib::onRouteExpiration` that the scheduler holds. -/
structure ExpirationEvent where
  time : Time
  name : Name
  route : Route
  deriving DecidableEq, Repr

/-- The events are numbered in the order in which they are scheduled. `expirations` lists the
batches that executed events have asked for. -/
structure RibManager where
  queue : UpdateQueue
  scheduled : List ExpirationEvent
  executed : List EventId
  expirations : List Nat

namespace RibManager

def empty : RibManager := ⟨UpdateQueue.empty,[],[],[]⟩

def now (s : RibManager) : Time := s.queue.now

def beginRibUpdate (nth : NthElement) (s : RibManager) (update : RibUpdate) : Option RibManager :=
  (s.queue.beginApplyUpdate nth update).map fun queue => { s with queue := queue }

/-- The expiration time and the lifetime that `beginAddRoute` works with. -/
def lifetime (s : RibManager) (route : Route) : Option Time → Option Time × Option Time
  | some d => (some (addDuration s.now d),some d)
  | none => (route.expires,route.expires.map fun t => addDuration t (-s.now))

def beginAddRoute (nth : NthElement) (s : RibManager) (name : Name) (route : Route)
    (expires : Option Time) : Option RibManager :=
  let (expiration,expires) := s.lifetime route expires
  let route := { route with expires := expiration }
  match expires with
  | none => s.beginRibUpdate nth ⟨.register,name,route⟩
  | some d =>
    if d ≤ 0 then s.beginRibUpdate nth ⟨.unregister,name,route⟩
    else
      beginRibUpdate nth { s with scheduled := s.scheduled ++ [⟨addDuration s.now d,name,route⟩] }
        ⟨.register,name,{ route with expirationEvent := some s.scheduled.length }⟩

def beginRemoveRoute (nth : NthElement) (s : RibManager) (name : Name) (route : Route) :
    Option RibManager :=
  s.beginRibUpdate nth ⟨.unregister,name,route⟩

/-- The parameters of a command. Face 0 stands for the face that the command arrived on. -/
structure ControlParameters where
  name : Name
  faceId : FaceId
  origin : RouteOrigin
  cost : Nat
  flags : Nat
  expirationPeriod : Option Nat
  deriving DecidableEq, Repr

def setFaceForSelfRegistration (incomingFaceId : FaceId) (parameters : ControlParameters) :
    ControlParameters :=
  if parameters.faceId = 0 then { parameters with faceId := incomingFaceId } else parameters

def registerEntry (nth : NthElement) (s : RibManager) (incomingFaceId : FaceId)
    (parameters : ControlParameters) : Option RibManager :=
  if parameters.name.length > maxNameDepth then some s
  else
    let parameters := setFaceForSelfRegistration incomingFaceId parameters
    let route : Route := { faceId := parameters.faceId
                           origin := parameters.origin
                           cost := parameters.cost
                           flags := parameters.flags }
    let period := parameters.expirationPeriod.map fun p => Framework.wrap64 p
    s.beginAddRoute nth parameters.name route
      ((period.filter fun p => p ≠ durationMax).map toNanoseconds)

def unregisterEntry (nth : NthElement) (s : RibManager) (incomingFaceId : FaceId)
    (parameters : ControlParameters) : Option RibManager :=
  let parameters := setFaceForSelfRegistration incomingFaceId parameters
  s.beginRemoveRoute nth parameters.name
    { faceId := parameters.faceId, origin := parameters.origin }

/-- `slAnnounce` for an announcement that the validator accepts. -/
def slAnnounce (nth : NthElement) (s : RibManager) (pa : PrefixAnnouncement) (faceId : FaceId)
    (maxLifetime : Int) (wallClock : Time) : Option RibManager :=
  let route := Route.ofAnnouncement pa faceId s.now wallClock
  let expires := min route.annExpires (addDuration s.now (toNanoseconds maxLifetime))
  s.beginAddRoute nth pa.announcedName { route with expires := some expires } none

def slRenew (nth : NthElement) (s : RibManager) (name : Name) (faceId : FaceId)
    (maxLifetime : Int) : Option RibManager :=
  let routeQuery : Route := { faceId := faceId, origin := routeOriginPrefixAnn }
  match s.queue.rib.findLongestPrefix name routeQuery with
  | none => some s
  | some oldRoute =>
    match oldRoute.announcement with
    | none => some s
    | some ann =>
      let expires := min oldRoute.annExpires (addDuration s.now (toNanoseconds maxLifetime))
      s.beginAddRoute nth ann.announcedName { oldRoute with expires := some expires } none

/-- The scheduler executes an event that is due and has not been cancelled. -/
def canExecute (s : RibManager) (id : EventId) (e : ExpirationEvent) : Prop :=
  e.time ≤ s.now ∧ id ∉ s.executed ∧ id ∉ s.queue.cancelledEvents ∧ id ∉ s.queue.rib.cancelledEvents

instance (s : RibManager) (id : EventId) (e : ExpirationEvent) : Decidable (s.canExecute id e) :=
  inferInstanceAs (Decidable (_ ∧ _))

def onRouteExpiration (nth : NthElement) (s : RibManager) (id : EventId) (e : ExpirationEvent) :
    Option RibManager :=
  beginRibUpdate nth
    { s with
      executed := id :: s.executed
      expirations := s.queue.nBatches :: s.expirations }
    ⟨.unregister,e.name,e.route⟩

inductive Event where
  | registerEntry (incomingFaceId : FaceId) (parameters : ControlParameters)
  | unregisterEntry (incomingFaceId : FaceId) (parameters : ControlParameters)
  | slAnnounce (pa : PrefixAnnouncement) (faceId : FaceId) (maxLifetime : Int) (wallClock : Time)
  | slRenew (name : Name) (faceId : FaceId) (maxLifetime : Int)
  | execute (id : EventId)
  | faceDestroyed (faceId : FaceId)
  | removeInvalidFaces (activeFaceIds : List FaceId)
  | respond (i : Nat) (response : Response)
  | elapse (d : Nat)
  deriving DecidableEq, Repr

def queueStep (nth : NthElement) (s : RibManager) (event : UpdateQueue.Event) : Option RibManager :=
  (s.queue.step nth event).map fun queue => { s with queue := queue }

def step (nth : NthElement) (s : RibManager) : Event → Option RibManager
  | .registerEntry incomingFaceId parameters => s.registerEntry nth incomingFaceId parameters
  | .unregisterEntry incomingFaceId parameters => s.unregisterEntry nth incomingFaceId parameters
  | .slAnnounce pa faceId maxLifetime wallClock =>
    s.slAnnounce nth pa faceId maxLifetime wallClock
  | .slRenew name faceId maxLifetime => s.slRenew nth name faceId maxLifetime
  | .execute id =>
    s.scheduled[id]?.bind fun e => if s.canExecute id e then s.onRouteExpiration nth id e else none
  | .faceDestroyed faceId => s.queueStep nth (.removeFace faceId)
  | .removeInvalidFaces activeFaceIds => s.queueStep nth (.removeFailedFaces activeFaceIds)
  | .respond i response => s.queueStep nth (.respond i response)
  | .elapse d => s.queueStep nth (.elapse d)

def run (nth : NthElement) (events : List Event) : Option RibManager :=
  events.foldlM (step nth) empty

end RibManager

open Name

namespace Rib

variable {rib : Rib} {n m : Name} {route r : Route}

end Rib

end KiteNdn.Routing
