import KiteNdn.Transport.Framing

/-!
# The stream transport of a client

An operation that was started on the socket completes later; cancelling the socket, as `pause` does,
makes all of them complete with `operation_canceled`. What was sent, written, received and delivered
since the transport was closed last is kept for the proofs.
-/

namespace KiteNdn.Transport

open Framework Tlv Tlv.Element List Option

inductive Operation where
  | connect
  | write (block : Element)
  | receive

/-- An operation on a socket that is not open is refused. -/
inductive OperationStatus where
  | started
  | cancelled
  | refused
  deriving DecidableEq

structure Pending where
  operation : Operation
  status : OperationStatus

@[simp]
def Operation.isConnect : Operation → Bool
  | .connect => true
  | _ => false

@[simp]
def Operation.isReceive : Operation → Bool
  | .receive => true
  | _ => false

@[simp]
def Operation.write? : Operation → Option Element
  | .write block => some block
  | _ => none

/-- The operation, unless it was cancelled. -/
def Pending.started? (p : Pending) : Option Operation :=
  if p.status = .started then some p.operation else none

/-- The part of the source's object that its handlers use, with the flags of the transport. -/
structure ClientTransport where
  isConnecting : Bool := false
  isConnected : Bool := false
  isReceiving : Bool := false
  isOpen : Bool := false
  connectTimer : Bool := false
  inputBuffer : List UInt8 := []
  transmissionQueue : List Element := []
  pending : List Pending := []
  sent : List Element := []
  written : List Element := []
  octets : List UInt8 := []
  delivered : List Element := []

inductive Outcome where
  | success (octets : List UInt8)
  | failure

inductive Event where
  | connect
  | close
  | pause
  | resume
  | send (block : Element)
  | connectTimeout
  | complete (i : Nat) (outcome : Outcome)

variable {i : Nat} {t' : ClientTransport} {p : Pending} {outcome : Outcome}

namespace ClientTransport

section Operations

variable (t : ClientTransport)

@[simps]
def start (operation : Operation) : ClientTransport :=
  { t with pending := t.pending ++ [⟨operation,if t.isOpen then .started else .refused⟩] }

/-- `m_socket.cancel()`, which throws if the socket is not open. -/
@[simps]
def cancelSocket : ClientTransport :=
  { t with pending :=
      if t.isOpen then
        t.pending.map fun p => if p.status = .started then { p with status := .cancelled } else p
      else t.pending }

def connect : ClientTransport :=
  if t.isConnecting then t
  -- Opening a socket that is open already throws.
  else if t.isOpen then { t with isConnecting := true, connectTimer := true }
  else start { t with isConnecting := true, connectTimer := true, isOpen := true } .connect

@[simps]
def close : ClientTransport :=
  { t.cancelSocket with
    isConnecting := false
    connectTimer := false
    isOpen := false
    isConnected := false
    isReceiving := false
    transmissionQueue := []
    sent := []
    written := []
    octets := []
    delivered := [] }

def pause : ClientTransport :=
  if t.isConnecting then t
  else if t.isReceiving then cancelSocket { t with isReceiving := false }
  else t

def resume : ClientTransport :=
  if t.isConnecting then t
  else if t.isReceiving then t
  else start { t with isReceiving := true, inputBuffer := [] } .receive

def asyncWrite : ClientTransport :=
  match t.transmissionQueue with
  | [] => t
  | block :: _ => t.start (.write block)

@[simps]
def push (block : Element) : ClientTransport :=
  { t with transmissionQueue := t.transmissionQueue ++ [block], sent := t.sent ++ [block] }

def send (block : Element) : ClientTransport :=
  if (t.push block).isConnected ∧ (t.push block).transmissionQueue.length = 1 then
    (t.push block).asyncWrite
  else t.push block

@[simps]
def setConnected (isConnected : Bool) : ClientTransport :=
  { t with isConnecting := false, connectTimer := false, isConnected := isConnected }

def connectHandler (isError : Bool) : ClientTransport :=
  if isError then (t.setConnected false).close
  else if t.transmissionQueue ≠ [] then (t.setConnected true).resume.asyncWrite
  else t.setConnected true

@[simps]
def pop (block : Element) : ClientTransport :=
  { t with transmissionQueue := t.transmissionQueue.tail, written := t.written ++ [block] }

def writeHandler (block : Element) : ClientTransport :=
  if t.isConnected = false then t else (t.pop block).asyncWrite

@[simps]
def deliver (chunk : List UInt8) : ClientTransport :=
  { t with
    inputBuffer := (handleReceived (t.inputBuffer ++ chunk)).2.1
    octets := t.octets ++ chunk
    delivered := t.delivered ++ (handleReceived (t.inputBuffer ++ chunk)).1 }

def receiveHandler (chunk : List UInt8) : ClientTransport :=
  if (handleReceived (t.inputBuffer ++ chunk)).2.2 then (t.deliver chunk).close
  else (t.deliver chunk).start .receive

@[simps]
def remove (i : Nat) : ClientTransport := { t with pending := t.pending.eraseIdx i }

def onCancelled : Operation → ClientTransport
  | .connect => t.connectHandler true
  | _ => t

def onFailure : Operation → ClientTransport
  | .connect => t.connectHandler true
  | _ => t.close

def onSuccess (chunk : List UInt8) : Operation → Option ClientTransport
  | .connect => some (t.connectHandler false)
  | .write block => some (t.writeHandler block)
  | .receive =>
    if chunk ≠ [] ∧ t.inputBuffer.length + chunk.length ≤ maxNdnPacketSize then
      some (t.receiveHandler chunk)
    else none

def complete (i : Nat) (outcome : Outcome) : Option ClientTransport :=
  t.pending[i]?.bind fun p =>
    match p.status, outcome with
    | .cancelled, _ => some ((t.remove i).onCancelled p.operation)
    | .started, .success chunk => (t.remove i).onSuccess chunk p.operation
    | _, _ => some ((t.remove i).onFailure p.operation)

def step : Event → Option ClientTransport
  | .connect => some t.connect
  | .close => some t.close
  | .pause => some t.pause
  | .resume => some t.resume
  | .send block => some (t.send block)
  | .connectTimeout => if t.connectTimer then some t.close else none
  | .complete i outcome => t.complete i outcome

end Operations

def run (events : List Event) : Option ClientTransport := events.foldlM step {}

section Outstanding

def outstanding (pending : List Pending) : List Operation := pending.filterMap Pending.started?

variable {t : ClientTransport}

theorem outstanding_start (operation : Operation) : outstanding (t.start operation).pending =
    outstanding t.pending ++ if t.isOpen then [operation] else [] := by
  simp only [outstanding,start_pending,filterMap_append]
  cases t.isOpen <;> simp [Pending.started?]

theorem outstanding_start_of_closed (h : t.isOpen = false → outstanding t.pending = [])
    (operation : Operation) (hclosed : (t.start operation).isOpen = false) :
    outstanding (t.start operation).pending = [] := by
  rw [start_isOpen] at hclosed
  rw [outstanding_start,h hclosed,hclosed]
  rfl

theorem outstanding_cancelSocket (h : t.isOpen = false → outstanding t.pending = []) :
    outstanding t.cancelSocket.pending = [] := by
  cases hopen : t.isOpen with
  | false => simpa [hopen] using h hopen
  | true =>
    simp only [outstanding,cancelSocket_pending,hopen,if_true,filterMap_map,filterMap_eq_nil_iff]
    intro p _
    simp only [Function.comp_apply]
    split_ifs with hp <;> simp [Pending.started?,hp]

theorem outstanding_remove (h : t.pending[i]? = some p) :
    ∃ front back, outstanding t.pending = front ++ p.started?.toList ++ back ∧
      outstanding (t.remove i).pending = front ++ back := by
  obtain ⟨hi,rfl⟩ := List.getElem?_eq_some_iff.mp h
  refine ⟨outstanding (t.pending.take i),outstanding (t.pending.drop (i + 1)),?_,?_⟩
  · conv_lhs => rw [← take_append_drop i t.pending,drop_eq_getElem_cons hi]
    rw [outstanding,filterMap_append,filterMap_cons,append_assoc]
    cases t.pending[i].started? <;> rfl
  · rw [outstanding,remove_pending,eraseIdx_eq_take_drop_succ,filterMap_append]
    rfl

/-- What the completion of an operation leads to. -/
theorem complete_cases (h : t.complete i outcome = some t') : ∃ p, t.pending[i]? = some p ∧
      (t' = (t.remove i).close ∨ p.status = .cancelled ∧ t' = t.remove i ∨
      p = ⟨.connect,.started⟩ ∧ t' = (t.remove i).connectHandler false ∨
      (∃ block, p = ⟨.write block,.started⟩ ∧ t' = (t.remove i).writeHandler block) ∨
      p = ⟨.receive,.started⟩ ∧ ∃ chunk, t.inputBuffer.length + chunk.length ≤ maxNdnPacketSize ∧
        t' = (t.remove i).receiveHandler chunk) := by
  unfold complete at h
  obtain ⟨⟨operation,status⟩,hp,h⟩ := bind_eq_some_iff.mp h
  refine ⟨_,hp,?_⟩
  have hfailure : some ((t.remove i).onFailure operation) = some t' → t' = (t.remove i).close := by
    intro h
    cases operation <;> exact (some.inj h).symm
  cases status with
  | cancelled =>
    cases operation with
    | connect => exact .inl (some.inj h).symm
    | _ => exact .inr (.inl ⟨rfl,(some.inj h).symm⟩)
  | refused => exact .inl (hfailure h)
  | started =>
    cases outcome with
    | failure => exact .inl (hfailure h)
    | success chunk =>
      simp only [onSuccess,remove_inputBuffer] at h
      grind

end Outstanding

section Transmission

def writes (pending : List Pending) : List Element :=
  (outstanding pending).filterMap Operation.write?

def connects (pending : List Pending) : Nat := (outstanding pending).countP Operation.isConnect

/-- While the transport is connected, the front of the queue is being written and nothing else.
What was sent is in the queue or has been written, in order. -/
structure Transmits (t : ClientTransport) : Prop where
  outstanding_of_closed : t.isOpen = false → outstanding t.pending = []
  open_of_connected : t.isConnected = true → t.isOpen = true
  connects_le : connects t.pending ≤ if t.isConnected then 0 else 1
  writes_eq : writes t.pending = if t.isConnected then t.transmissionQueue.head?.toList else []
  sent_eq : t.sent = t.written ++ t.transmissionQueue

/-- The socket is not cancelled while a packet is being written. -/
def PausesIdle (t : ClientTransport) : Event → Prop
  | .pause => t.isConnecting = false → t.isReceiving = true → t.isConnected = true →
      t.transmissionQueue = []
  | _ => True

variable {t : ClientTransport}

theorem writes_start (operation : Operation) : writes (t.start operation).pending =
    writes t.pending ++ if t.isOpen then operation.write?.toList else [] := by
  rw [writes,outstanding_start,filterMap_append,writes]
  cases operation <;> cases t.isOpen <;> rfl

theorem connects_start (operation : Operation) : connects (t.start operation).pending =
    connects t.pending + if t.isOpen then operation.isConnect.toNat else 0 := by
  rw [connects,outstanding_start,countP_append,connects]
  cases operation <;> cases t.isOpen <;> rfl

theorem transmits_of_outstanding_nil (h : outstanding t.pending = [])
    (hconnected : t.isConnected = true → t.isOpen = true ∧ t.transmissionQueue = [])
    (hsent : t.sent = t.written ++ t.transmissionQueue) : Transmits t where
  outstanding_of_closed _ := h
  open_of_connected hc := (hconnected hc).1
  connects_le := by simp [connects,h]
  writes_eq := by
    rw [writes,h]
    split_ifs with hc
    · simp [(hconnected hc).2]
    · rfl
  sent_eq := hsent

theorem transmits_close (h : t.isOpen = false → outstanding t.pending = []) : Transmits t.close :=
  transmits_of_outstanding_nil (outstanding_cancelSocket h) (by simp) rfl

theorem Transmits.start_receive (h : Transmits t) : Transmits (t.start .receive) where
  outstanding_of_closed := outstanding_start_of_closed h.outstanding_of_closed .receive
  open_of_connected := h.open_of_connected
  connects_le := by
    rw [connects_start]
    simpa using h.connects_le
  writes_eq := by
    rw [writes_start]
    simpa using h.writes_eq
  sent_eq := h.sent_eq

theorem resume_transmission (t : ClientTransport) : t.resume.isOpen = t.isOpen ∧
    t.resume.isConnected = t.isConnected ∧ writes t.resume.pending = writes t.pending ∧
    connects t.resume.pending = connects t.pending ∧
    (t.resume.sent = t.resume.written ++ t.resume.transmissionQueue ↔
      t.sent = t.written ++ t.transmissionQueue) := by
  unfold ClientTransport.resume
  split_ifs
  · simp
  · simp
  · rw [writes_start,connects_start]
    simp

theorem Transmits.resume (h : Transmits t) : Transmits t.resume := by
  unfold ClientTransport.resume
  split_ifs
  · exact h
  · exact h
  · apply Transmits.start_receive
    exact ⟨h.1,h.2,h.3,h.4,h.5⟩

theorem transmits_asyncWrite (hopen : t.isOpen = true) (hconnected : t.isConnected = true)
    (hconnects : connects t.pending = 0) (hwrites : writes t.pending = [])
    (hsent : t.sent = t.written ++ t.transmissionQueue) : Transmits t.asyncWrite := by
  unfold asyncWrite
  split
  · rename_i hqueue
    exact ⟨by simp [hopen],fun _ => hopen,by simp [hconnects],by simp [hwrites,hqueue],hsent⟩
  · rename_i block rest hqueue
    refine ⟨by simp [hopen],fun _ => hopen,?_,?_,hsent⟩
    · rw [connects_start,hconnects]
      simp
    · rw [writes_start,hwrites]
      simp [hopen,hconnected,hqueue]

theorem Transmits.connect (h : Transmits t) : Transmits t.connect := by
  unfold ClientTransport.connect
  split_ifs with hconnecting hopen
  · exact h
  · exact ⟨h.1,h.2,h.3,h.4,h.5⟩
  · have hnone : outstanding t.pending = [] := h.outstanding_of_closed (by simpa using hopen)
    have hconnected : t.isConnected = false := by simpa using mt h.open_of_connected hopen
    refine ⟨by simp,by simp,?_,?_,h.sent_eq⟩
    · rw [connects_start,connects,hnone]
      simp [hconnected]
    · rw [writes_start,writes,hnone]
      simp [hconnected]

theorem Transmits.pause (h : Transmits t) (hidle : PausesIdle t .pause) : Transmits t.pause := by
  unfold ClientTransport.pause
  split_ifs with hconnecting hreceiving
  · exact h
  · refine transmits_of_outstanding_nil (outstanding_cancelSocket h.outstanding_of_closed) ?_
      h.sent_eq
    intro hconnected
    exact ⟨h.open_of_connected hconnected,hidle (by simpa using hconnecting) hreceiving hconnected⟩
  · exact h

theorem Transmits.send (h : Transmits t) (block : Element) : Transmits (t.send block) := by
  have hsent : (t.push block).sent = (t.push block).written ++ (t.push block).transmissionQueue := by
    simp [h.sent_eq]
  unfold ClientTransport.send
  split_ifs with hfirst
  · have hqueue : t.transmissionQueue = [] := by simpa using hfirst.2
    have hconnected : t.isConnected = true := hfirst.1
    have hwrites := h.writes_eq
    have hconnects := h.connects_le
    rw [if_pos hconnected] at hwrites hconnects
    rw [hqueue] at hwrites
    exact transmits_asyncWrite (h.open_of_connected hconnected) hconnected
      (Nat.le_zero.mp hconnects) hwrites hsent
  · refine ⟨h.outstanding_of_closed,h.open_of_connected,h.connects_le,?_,hsent⟩
    refine h.writes_eq.trans ?_
    cases hconnected : t.isConnected with
    | false => simp [hconnected]
    | true =>
      cases hqueue : t.transmissionQueue with
      | nil => exact absurd ⟨hconnected,by simp [hqueue]⟩ hfirst
      | cons first rest => simp [hconnected,hqueue]

theorem outstanding_of_remove (h : t.isOpen = false → outstanding t.pending = [])
    (hp : t.pending[i]? = some p) (hclosed : t.isOpen = false) :
    outstanding (t.remove i).pending = [] := by
  obtain ⟨front,back,hall,hleft⟩ := outstanding_remove hp
  have hnil := h hclosed
  rw [hall] at hnil
  simp only [append_eq_nil_iff] at hnil
  rw [hleft,hnil.1.1,hnil.2,append_nil]

theorem Transmits.remove (h : Transmits t) (hp : t.pending[i]? = some p)
    (hreceive : ∀ operation ∈ p.started?, operation = .receive) : Transmits (t.remove i) := by
  obtain ⟨front,back,hall,hleft⟩ := outstanding_remove hp
  have hlist : p.started?.toList.filterMap Operation.write? = [] ∧
      p.started?.toList.countP Operation.isConnect = 0 := by
    cases hs : p.started? with
    | none => simp
    | some operation => simp [hreceive operation hs]
  refine ⟨outstanding_of_remove h.outstanding_of_closed hp,h.open_of_connected,?_,?_,h.sent_eq⟩
  · refine le_trans (le_of_eq ?_) h.connects_le
    rw [connects,connects,hall,hleft]
    simp [hlist.2]
  · refine Eq.trans ?_ h.writes_eq
    rw [writes,writes,hall,hleft]
    simp [hlist.1]

theorem Transmits.connected (h : Transmits t) (hp : t.pending[i]? = some ⟨.connect,.started⟩) :
    Transmits ((t.remove i).connectHandler false) := by
  obtain ⟨front,back,hall,hleft⟩ := outstanding_remove hp
  have hopen : t.isOpen = true := by
    by_contra hclosed
    have hnil := h.outstanding_of_closed (by simpa using hclosed)
    simp [hall,Pending.started?] at hnil
  have hle := h.connects_le
  have hwrites := h.writes_eq
  rw [connects,hall] at hle
  rw [writes,hall] at hwrites
  have hconnected : t.isConnected = false := by
    by_contra hc
    simp [Bool.eq_true_of_not_eq_false hc,Pending.started?] at hle
  have hconnects' : connects (t.remove i).pending = 0 := by
    simp only [hconnected,Pending.started?,if_true,toList_some,countP_append,
      countP_singleton,Operation.isConnect,Bool.false_eq_true,if_false] at hle
    rw [connects,hleft,countP_append]
    omega
  have hwrites' : writes (t.remove i).pending = [] := by
    rw [writes,hleft]
    simpa [hconnected,Pending.started?] using hwrites
  have hsent : t.sent = t.written ++ t.transmissionQueue := h.sent_eq
  unfold connectHandler
  rw [if_neg Bool.false_ne_true]
  split_ifs with hqueue
  · obtain ⟨hopen',hconnected',hwrites'',hconnects'',hsent'⟩ :=
      resume_transmission ((t.remove i).setConnected true)
    apply transmits_asyncWrite (hopen'.trans hopen) hconnected'
    · exact hconnects''.trans hconnects'
    · exact hwrites''.trans hwrites'
    · exact hsent'.mpr hsent
  · have hnil : t.transmissionQueue = [] := by simpa using hqueue
    refine ⟨by simp [hopen],fun _ => hopen,?_,?_,hsent⟩
    · simpa using hconnects'
    · simpa [hnil] using hwrites'

theorem Transmits.wrote (h : Transmits t) {block : Element}
    (hp : t.pending[i]? = some ⟨.write block,.started⟩) :
    Transmits ((t.remove i).writeHandler block) := by
  obtain ⟨front,back,hall,hleft⟩ := outstanding_remove hp
  have hwrites : front.filterMap Operation.write? ++ [block] ++ back.filterMap Operation.write? =
      if t.isConnected then t.transmissionQueue.head?.toList else [] := by
    rw [← h.writes_eq,writes,hall]
    simp [Pending.started?]
  cases hconnected : t.isConnected with
  | false => simp [hconnected] at hwrites
  | true =>
    cases hqueue : t.transmissionQueue with
    | nil => simp [hconnected,hqueue] at hwrites
    | cons first rest =>
      obtain ⟨hfront,hblock,hback⟩ : front.filterMap Operation.write? = [] ∧ block = first ∧
          back.filterMap Operation.write? = [] := by
        rw [hconnected,hqueue] at hwrites
        simp [append_eq_singleton_iff,-filterMap_eq_nil_iff] at hwrites
        exact ⟨hwrites.1,hwrites.2.1,hwrites.2.2⟩
      have hle := h.connects_le
      rw [connects,hall,hconnected,countP_append,countP_append] at hle
      unfold writeHandler
      rw [if_neg (by simp [hconnected])]
      refine transmits_asyncWrite (h.open_of_connected hconnected) hconnected ?_ ?_ ?_
      · rw [connects,pop_pending,hleft,countP_append]
        simp only [if_true] at hle
        omega
      · rw [writes,pop_pending,hleft,filterMap_append,hfront,hback]
        rfl
      · simp [h.sent_eq,hqueue,hblock]

theorem Transmits.complete (h : Transmits t) (hcomplete : t.complete i outcome = some t') :
    Transmits t' := by
  obtain ⟨p,hp,rfl | ⟨hstatus,rfl⟩ | ⟨rfl,rfl⟩ | ⟨block,rfl,rfl⟩ | ⟨rfl,chunk,-,rfl⟩⟩ :=
    complete_cases hcomplete
  · exact transmits_close (outstanding_of_remove h.outstanding_of_closed hp)
  · exact h.remove hp (by simp [Pending.started?,hstatus])
  · exact h.connected hp
  · exact h.wrote hp
  · have hremove := h.remove hp (by simp [Pending.started?])
    unfold receiveHandler
    split_ifs
    · exact transmits_close hremove.outstanding_of_closed
    · apply Transmits.start_receive
      exact ⟨hremove.1,hremove.2,hremove.3,hremove.4,hremove.5⟩

theorem Transmits.step (h : Transmits t) {e : Event} (hidle : PausesIdle t e)
    (hstep : t.step e = some t') : Transmits t' := by
  cases e with
  | connect => exact some.inj hstep ▸ h.connect
  | close => exact some.inj hstep ▸ transmits_close h.outstanding_of_closed
  | pause => exact some.inj hstep ▸ h.pause hidle
  | resume => exact some.inj hstep ▸ h.resume
  | send block => exact some.inj hstep ▸ h.send block
  | connectTimeout =>
    simp only [ClientTransport.step] at hstep
    split_ifs at hstep
    exact some.inj hstep ▸ transmits_close h.outstanding_of_closed
  | complete i outcome => exact h.complete hstep

/-- As long as the socket is never cancelled for a pause while a packet is being written, one write
of the queue's front is outstanding whenever the transport is connected and has something to write,
and packets are written in the order in which they were sent. -/
theorem run_transmits (events : List Event) (t : ClientTransport) (hrun : run events = some t)
    (hidle : ∀ past e future s, events = past ++ e :: future → run past = some s → PausesIdle s e) :
    (t.isConnected = true → writes t.pending = t.transmissionQueue.head?.toList) ∧
      t.sent = t.written ++ t.transmissionQueue := by
  have hstart : Transmits {} := transmits_of_outstanding_nil rfl (by simp) rfl
  have h := foldlM_invariant_of_some ClientTransport.step Transmits PausesIdle
    (fun s e s' h hidle hstep => h.step hidle hstep) {} hstart events hidle hrun
  exact ⟨fun hconnected => by simpa [hconnected] using h.writes_eq,h.sent_eq⟩

def packet : Element := .encoded ⟨6,[0]⟩ ⟨by decide,by decide,by decide⟩

theorem run_transmits_packet :
    ∃ t, run [.connect,.send packet,.complete 0 (.success [])] = some t ∧ t.isConnected = true ∧
      writes t.pending = [packet] := by
  refine ⟨_,rfl,rfl,?_⟩
  apply (run_transmits [.connect,.send packet,.complete 0 (.success [])] _ rfl ?_).1 rfl
  intro past e future s hevents _
  have hmem : e ∈ [Event.connect,.send packet,.complete 0 (.success [])] := by simp [hevents]
  simp only [mem_cons,not_mem_nil,or_false] at hmem
  rcases hmem with rfl | rfl | rfl <;> trivial

/-- A pause cancels the write of a packet, and nothing starts it again: neither the next packet nor
the next time the transport receives. -/
theorem pause_cancels_write :
    ∃ t, run [.connect,.complete 0 (.success []),.resume,.send packet,.pause,.complete 0 .failure,
        .complete 0 .failure,.send packet,.resume] = some t ∧ t.isConnected = true ∧
      t.transmissionQueue = [packet,packet] ∧ t.pending = [⟨.receive,.started⟩] :=
  ⟨_,rfl,rfl,rfl,rfl⟩

end Transmission

section Reception

def receives (pending : List Pending) : Nat := (outstanding pending).countP Operation.isReceive

def undelivered (t : ClientTransport) : List UInt8 := if t.isReceiving then t.inputBuffer else []

/-- There is never more than one receive. What was received since the last close is cut into the
blocks that were delivered and the octets in the buffer. -/
structure Receives (t : ClientTransport) : Prop where
  outstanding_of_closed : t.isOpen = false → outstanding t.pending = []
  receives_le : receives t.pending ≤ if t.isReceiving then 1 else 0
  cut : Cut maxNdnPacketSize t.octets t.delivered t.undelivered
  lt : t.undelivered.length < maxNdnPacketSize

/-- Receiving is not interrupted inside a packet. -/
def PausesBetween (t : ClientTransport) : Event → Prop
  | .pause => t.isConnecting = false → t.isReceiving = true → t.inputBuffer = []
  | _ => True

variable {t : ClientTransport}

theorem receives_start (operation : Operation) : receives (t.start operation).pending =
    receives t.pending + if t.isOpen then operation.isReceive.toNat else 0 := by
  rw [receives,outstanding_start,countP_append,receives]
  cases operation <;> cases t.isOpen <;> rfl

theorem receives_remove (h : t.pending[i]? = some p) :
    receives t.pending = receives (t.remove i).pending +
      p.started?.toList.countP Operation.isReceive := by
  obtain ⟨front,back,hall,hleft⟩ := outstanding_remove h
  simp only [receives,hall,hleft,countP_append]
  omega

theorem receives_of_outstanding_nil (h : outstanding t.pending = []) (hstop : t.isReceiving = false)
    (hcut : Cut maxNdnPacketSize t.octets t.delivered []) : Receives t where
  outstanding_of_closed _ := h
  receives_le := by simp [receives,h]
  cut := by simpa [undelivered,hstop] using hcut
  lt := by simp [undelivered,hstop,maxNdnPacketSize]

theorem receives_close (h : t.isOpen = false → outstanding t.pending = []) : Receives t.close :=
  receives_of_outstanding_nil (outstanding_cancelSocket h) rfl (cut_nil _)

theorem Receives.start (h : Receives t) {operation : Operation}
    (hoperation : operation.isReceive = false) : Receives (t.start operation) where
  outstanding_of_closed := outstanding_start_of_closed h.outstanding_of_closed operation
  receives_le := by
    rw [receives_start,hoperation]
    simpa using h.receives_le
  cut := h.cut
  lt := h.lt

theorem receives_start_receive (hclosed : t.isOpen = false → outstanding t.pending = [])
    (hnone : receives t.pending = 0) (hreceiving : t.isReceiving = true)
    (hcut : Cut maxNdnPacketSize t.octets t.delivered t.inputBuffer)
    (hlt : t.inputBuffer.length < maxNdnPacketSize) : Receives (t.start .receive) where
  outstanding_of_closed := outstanding_start_of_closed hclosed .receive
  receives_le := by
    rw [receives_start,hnone,start_isReceiving,hreceiving]
    cases t.isOpen <;> simp
  cut := by simpa [undelivered,hreceiving] using hcut
  lt := by simpa [undelivered,hreceiving] using hlt

theorem Receives.resume (h : Receives t) : Receives t.resume := by
  unfold ClientTransport.resume
  split_ifs with hconnecting hreceiving
  · exact h
  · exact h
  · have hle := h.receives_le
    have hcut := h.cut
    rw [if_neg hreceiving] at hle
    rw [undelivered,if_neg hreceiving] at hcut
    exact receives_start_receive h.outstanding_of_closed (Nat.le_zero.mp hle) rfl hcut
      (by simp [maxNdnPacketSize])

theorem Receives.asyncWrite (h : Receives t) : Receives t.asyncWrite := by
  unfold ClientTransport.asyncWrite
  split
  · exact h
  · exact h.start rfl

theorem Receives.connect (h : Receives t) : Receives t.connect := by
  unfold ClientTransport.connect
  split_ifs with hconnecting hopen
  · exact h
  · exact ⟨h.1,h.2,h.3,h.4⟩
  · apply Receives.start _ rfl
    exact ⟨fun _ => h.outstanding_of_closed (by simpa using hopen),h.2,h.3,h.4⟩

theorem Receives.pause (h : Receives t) (hbetween : PausesBetween t .pause) :
    Receives t.pause := by
  unfold ClientTransport.pause
  split_ifs with hconnecting hreceiving
  · exact h
  · have hcut := h.cut
    rw [undelivered,if_pos hreceiving,hbetween (by simpa using hconnecting) hreceiving] at hcut
    exact receives_of_outstanding_nil (outstanding_cancelSocket h.outstanding_of_closed) rfl hcut
  · exact h

theorem Receives.remove (h : Receives t) (hp : t.pending[i]? = some p) : Receives (t.remove i) where
  outstanding_of_closed := outstanding_of_remove h.outstanding_of_closed hp
  receives_le := by
    have hle := h.receives_le
    rw [receives_remove hp] at hle
    exact (Nat.le_add_right _ _).trans hle
  cut := h.cut
  lt := h.lt

theorem Receives.received (h : Receives t) {chunk : List UInt8}
    (hp : t.pending[i]? = some ⟨.receive,.started⟩)
    (hchunk : t.inputBuffer.length + chunk.length ≤ maxNdnPacketSize) :
    Receives ((t.remove i).receiveHandler chunk) := by
  have hle := h.receives_le
  rw [receives_remove hp] at hle
  simp only [Pending.started?,if_true,toList_some,countP_singleton,
    Operation.isReceive] at hle
  have hreceiving : t.isReceiving = true := by
    by_contra hno
    rw [if_neg hno] at hle
    omega
  rw [if_pos hreceiving] at hle
  have hcut := h.cut
  rw [undelivered,if_pos hreceiving] at hcut
  have hbuffer : (t.inputBuffer ++ chunk).length ≤ maxNdnPacketSize := by
    rw [length_append]
    exact hchunk
  obtain ⟨hnew,hfull⟩ := handleReceived_spec hbuffer
  have hclosed := outstanding_of_remove h.outstanding_of_closed hp
  unfold receiveHandler
  split_ifs with hisFull
  · exact receives_close hclosed
  · have hne := mt hfull.mpr hisFull
    have hlt := lt_of_le_of_ne (hnew.length_le.trans hbuffer) hne
    exact receives_start_receive hclosed (by simpa using hle) hreceiving (hcut.append hnew) hlt

theorem Receives.complete (h : Receives t) (hcomplete : t.complete i outcome = some t') :
    Receives t' := by
  obtain ⟨p,hp,rfl | ⟨-,rfl⟩ | ⟨rfl,rfl⟩ | ⟨block,rfl,rfl⟩ | ⟨rfl,chunk,hchunk,rfl⟩⟩ :=
    complete_cases hcomplete
  · exact receives_close (h.remove hp).outstanding_of_closed
  · exact h.remove hp
  · have hremove := h.remove hp
    have hset : Receives ((t.remove i).setConnected true) :=
      ⟨hremove.1,hremove.2,hremove.3,hremove.4⟩
    unfold connectHandler
    rw [if_neg Bool.false_ne_true]
    split_ifs
    · exact hset.resume.asyncWrite
    · exact hset
  · have hremove := h.remove hp
    unfold writeHandler
    split_ifs
    · exact hremove
    · exact Receives.asyncWrite ⟨hremove.1,hremove.2,hremove.3,hremove.4⟩
  · exact h.received hp hchunk

theorem Receives.step (h : Receives t) {e : Event} (hbetween : PausesBetween t e)
    (hstep : t.step e = some t') : Receives t' := by
  cases e with
  | connect => exact some.inj hstep ▸ h.connect
  | close => exact some.inj hstep ▸ receives_close h.outstanding_of_closed
  | pause => exact some.inj hstep ▸ h.pause hbetween
  | resume => exact some.inj hstep ▸ h.resume
  | send block =>
    have hpush : Receives (t.push block) := ⟨h.1,h.2,h.3,h.4⟩
    simp only [ClientTransport.step,ClientTransport.send] at hstep
    split_ifs at hstep
    · exact some.inj hstep ▸ hpush.asyncWrite
    · exact some.inj hstep ▸ hpush
  | connectTimeout =>
    simp only [ClientTransport.step] at hstep
    split_ifs at hstep
    exact some.inj hstep ▸ receives_close h.outstanding_of_closed
  | complete i outcome => exact h.complete hstep

end Reception

end ClientTransport

end KiteNdn.Transport
