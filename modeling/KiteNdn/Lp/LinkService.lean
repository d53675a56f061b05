import KiteNdn.Lp.Fragmenter

/-!
# The space for link layer fields

`GenericLinkService::sendNetPacket` cuts a packet so that a TxSequence and a congestion mark still
fit. `sendLpPacket` fills what is left with Acks, adds the mark, and drops a packet that is over the
MTU then; the Acks in it are gone.
-/

namespace KiteNdn.Lp

open Framework Tlv Fragmenter List Option Packet

def congestionMarkType : Nat := 832

def ackType : Nat := 836

def txSequenceType : Nat := 840

def congestionMarkField (mark : Nat) : Block := ⟨congestionMarkType,writeNonNegativeInteger mark⟩

def ackField (sequence : Sequence) : Block := ⟨ackType,toBytes 8 sequence.toNat⟩

def txSequenceField (sequence : Sequence) : Block := ⟨txSequenceType,toBytes 8 sequence.toNat⟩

namespace LinkService

def maxNdnPacketSize : Nat := 8800

def mtuUnlimited : Int := -1

def reservedHeaderSpace : Nat := sizeOfVarNumber txSequenceType + sizeOfVarNumber 8 + 8

def congestionMarkSize : Nat :=
  sizeOfVarNumber congestionMarkType + sizeOfVarNumber 8 + sizeOfNonNegativeInteger (2^64 - 1)

structure Options where
  isReliable : Bool
  allowCongestionMarking : Bool
  allowFragmentation : Bool
  fragmenter : Fragmenter.Options
  congestionThreshold : Nat
  baseCongestionMarkingInterval : Nat
  /-- The interval after a number of marked packets. -/
  markingInterval : Nat → Nat

structure State where
  ackQueue : List Sequence
  nextMarkTime : Option Nat := none
  nMarkedSinceInMarkingState : Nat := 0

/-- The send queue of the transport, negative if unknown, and the clock. -/
structure Reading where
  sendQueueLength : Int
  now : Nat

def checkCongestionLevel (o : Options) (r : Reading) (s : State) : Bool × State :=
  if r.sendQueueLength < 0 then (false,s)
  else if r.sendQueueLength > o.congestionThreshold then
    match s.nextMarkTime with
    | none => (false,{ s with nextMarkTime := some (r.now + o.baseCongestionMarkingInterval) })
    | some time =>
      if r.now ≥ time then
        (true,{ s with
          nMarkedSinceInMarkingState := s.nMarkedSinceInMarkingState + 1
          nextMarkTime := some (time + o.markingInterval (s.nMarkedSinceInMarkingState + 1)) })
      else (false,s)
  else if s.nextMarkTime ≠ none then
    (false,{ s with nextMarkTime := none, nMarkedSinceInMarkingState := 0 })
  else (false,s)

def addAcks : Int → Packet → List Sequence → Packet × List Sequence
  | _, pkt, [] => (pkt,[])
  | remainingSpace, pkt, ack :: acks =>
    let ackSize : Nat := sizeOfVarNumber ackType + sizeOfVarNumber 8 + 8
    if ackSize > remainingSpace then (pkt,ack :: acks)
    else addAcks (remainingSpace - ackSize) (pkt.add (ackField ack)) acks

def piggyback (mtu : Int) (pktSize : Nat) (pkt : Packet) (acks : List Sequence) :
    Packet × List Sequence :=
  let reservedSpace : Int := (sizeOfVarNumber maxNdnPacketSize : Int) - sizeOfVarNumber pktSize
  addAcks ((if mtu = mtuUnlimited then (maxNdnPacketSize : Int) else mtu) - reservedSpace - pktSize)
    pkt acks

def withAcks (o : Options) (mtu : Int) (pkt : Packet) (acks : List Sequence) :
    Except String (Packet × List Sequence) :=
  if o.isReliable then pkt.wireEncode.map fun wire => piggyback mtu wire.size pkt acks
  else .ok (pkt,acks)

def mark (o : Options) (r : Reading) (s : State) : Bool × State :=
  if o.allowCongestionMarking then checkCongestionLevel o r s else (false,s)

def sendLpPacket (o : Options) (mtu : Int) (r : Reading) (pkt : Packet) (s : State) :
    Except String (Option Block × State) :=
  (withAcks o mtu pkt s.ackQueue).bind fun (pkt,ackQueue) =>
    let (isMarked,s) := mark o r { s with ackQueue := ackQueue }
    (if isMarked then pkt.set (congestionMarkField 1) else pkt).wireEncode.map fun block =>
      if mtu ≠ mtuUnlimited ∧ block.size > mtu.toNat then (none,s) else (some block,s)

def reserveMtu (o : Options) (mtu : Int) : Int :=
  let mtu := if o.isReliable ∧ mtu ≠ mtuUnlimited then mtu - reservedHeaderSpace else mtu
  if o.allowCongestionMarking ∧ mtu ≠ mtuUnlimited then mtu - congestionMarkSize else mtu

def assignNumbers (o : Options) (lastSeqNo lastTxSeqNo : Sequence) (frags : List Packet) :
    List Packet :=
  let frags := if o.isReliable ∨ frags.length > 1 then (assignSequences lastSeqNo frags).1 else frags
  if o.isReliable then
    frags.mapIdx fun i frag => frag.set (txSequenceField (lastTxSeqNo + 1 + UInt64.ofNat i))
  else frags

def prepareFragments (o : Options) (mtu : Int) (lastSeqNo lastTxSeqNo : Sequence) (pkt : Packet) :
    Except String (List Packet) :=
  let mtu := reserveMtu o mtu
  if ¬(mtu = mtuUnlimited ∨ mtu ≥ 0) then .error "assertion: mtu == MTU_UNLIMITED || mtu >= 0"
  else if o.allowFragmentation ∧ mtu ≠ mtuUnlimited then
    (fragmentPacket o.fragmenter pkt mtu.toNat).map (assignNumbers o lastSeqNo lastTxSeqNo)
  else .ok (assignNumbers o lastSeqNo lastTxSeqNo [pkt])

def sendNetPacket (o : Options) (mtu : Int) (lastSeqNo lastTxSeqNo : Sequence) (pkt : Packet)
    (readings : Nat → Reading) (s : State) : Except String (List (Option Block) × State) :=
  (prepareFragments o mtu lastSeqNo lastTxSeqNo pkt).bind fun frags =>
    frags.zipIdx.foldlM (fun (sent,s) (frag,i) =>
      (sendLpPacket o mtu (readings i) frag s).map fun (block,s) => (sent ++ [block],s)) ([],s)

def requestIdlePacket (o : Options) (mtu : Int) (r : Reading) (s : State) :
    Except String (Option Block × State) := sendLpPacket o mtu r Packet.empty s

/-- The callback of the idle Ack timer. -/
def idleAckLoop (o : Options) (mtu : Int) (readings : Nat → Reading) : Nat → State → Option State
  | 0, s => if s.ackQueue = [] then some s else none
  | fuel + 1, s =>
    if s.ackQueue = [] then some s
    else
      match requestIdlePacket o mtu (readings fuel) s with
      | .ok (_,s') => idleAckLoop o mtu readings fuel s'
      | .error _ => none

section Sizes

def contentSize (p : Packet) : Nat := (p.elements.flatMap Block.encode).length

def lpSize (content : Nat) : Nat := 1 + sizeOfVarNumber content + content

theorem contentSize_eq (p : Packet) : contentSize p =
    p.headerSize + (p.fragment.map fun payload => Block.size ⟨fragmentType,payload⟩).getD 0 := by
  rw [contentSize,length_flatMap_encode,Packet.elements,map_append,sum_append,
    Packet.headerSize]
  cases p.fragment <;> simp

theorem size_lpPacket (p : Packet) :
    Block.size ⟨lpPacketType,p.elements.flatMap Block.encode⟩ = lpSize (contentSize p) := by
  rw [Block.size_eq]
  rfl

theorem size_sequence_field {type : Nat} (htype : sizeOfVarNumber type = 3) (sequence : Sequence) :
    Block.size ⟨type,toBytes 8 sequence.toNat⟩ = 12 := by
  rw [Block.size_eq]
  simp only [htype,length_toBytes]
  decide

theorem size_congestionMarkField : (congestionMarkField 1).size = 5 := by decide

theorem contentSize_add (p : Packet) (b : Block) : contentSize (p.add b) = b.size + contentSize p := by
  rw [contentSize_eq,contentSize_eq,headerSize_add,Nat.add_assoc]
  rfl

theorem lpSize_le (content : Nat) : lpSize content ≤ 10 + content := by
  have hle := sizeOfVarNumber_le content
  unfold lpSize
  omega

def IsLpPacket (p : Packet) : Prop := p.header ≠ [] ∨ p.fragment = none

theorem wireEncode_of_isLpPacket {p : Packet} (h : IsLpPacket p) :
    ∃ wire, p.wireEncode = .ok wire ∧ wire.size = lpSize (contentSize p) := by
  refine ⟨_,?_,size_lpPacket p⟩
  rcases h with h | h
  · exact wireEncode_of_header h
  · unfold Packet.wireEncode
    split
    · rename_i hf
      exact absurd (h.symm.trans hf) (by simp)
    · rfl

theorem contentSize_set_le (p : Packet) (b : Block) :
    contentSize (p.set b) ≤ b.size + contentSize p := by
  have hle := p.headerSize_set_le b
  rw [contentSize_eq,contentSize_eq]
  show _ + (p.fragment.map _).getD 0 ≤ _
  omega

theorem contentSize_set_add (p : Packet) {b c : Block} (h : b.type ≠ c.type) :
    contentSize ((p.add b).set c) = b.size + contentSize (p.set c) := by
  have hclear : ((p.add b).clear c.type).headerSize = b.size + (p.clear c.type).headerSize := by
    have hperm := ((perm_insertField b p.header).filter fun a => a.type ≠ c.type).map
      Block.size
    have hsum := hperm.sum_eq
    rw [filter_cons_of_pos (by simpa using h),map_cons,sum_cons] at hsum
    exact hsum
  simp only [contentSize_eq,Packet.set,headerSize_add,hclear]
  show _ + (p.fragment.map _).getD 0 = _ + (_ + (p.fragment.map _).getD 0)
  omega

end Sizes

section Acks

def marked (isMarked : Bool) (p : Packet) : Packet :=
  if isMarked then p.set (congestionMarkField 1) else p

theorem isLpPacket_marked {p : Packet} (h : IsLpPacket p) (isMarked : Bool) :
    IsLpPacket (marked isMarked p) := by
  cases isMarked with
  | false => exact h
  | true => exact .inl (p.header_set_ne_nil _)

theorem addAcks_spec (space : Int) (pkt : Packet) (acks : List Sequence) :
    ∃ p, ∃ n ≤ acks.length, addAcks space pkt acks = (p,acks.drop n) ∧
      (n ≠ 0 → 12 * (n : Int) ≤ space) ∧
      (n < acks.length → space < 12 * ((n : Int) + 1)) ∧
      (n = 0 → p = pkt) ∧ (IsLpPacket pkt → IsLpPacket p) ∧
      ∀ isMarked, contentSize (marked isMarked p) = contentSize (marked isMarked pkt) + 12 * n := by
  induction acks generalizing space pkt with
  | nil => exact ⟨pkt,0,le_rfl,rfl,by simp,by simp,fun _ => rfl,id,fun _ => rfl⟩
  | cons ack acks ih =>
    have hsize : sizeOfVarNumber ackType + sizeOfVarNumber 8 + 8 = 12 := by decide
    by_cases hspace : (12 : Int) > space
    · have hadd : addAcks space pkt (ack :: acks) = (pkt,ack :: acks) := by
        simp only [addAcks,hsize]
        exact if_pos hspace
      exact ⟨pkt,0,by simp,hadd,by simp,by simpa using hspace,fun _ => rfl,id,fun _ => rfl⟩
    · have hadd : addAcks space pkt (ack :: acks) =
          addAcks (space - 12) (pkt.add (ackField ack)) acks := by
        simp only [addAcks,hsize]
        exact if_neg hspace
      obtain ⟨p,n,hn,hrest,htaken,hleft,_,hlp,hcontent⟩ :=
        ih (space - 12) (pkt.add (ackField ack))
      have hack : (ackField ack).size = 12 := size_sequence_field (by decide) ack
      refine ⟨p,n + 1,by simpa using hn,hadd.trans hrest,fun _ => ?_,fun hlt => ?_,by simp,?_,?_⟩
      · by_cases hzero : n = 0
        · rw [hzero]
          push_cast
          omega
        · have hle := htaken hzero
          push_cast
          omega
      · have hle := hleft (by simpa using hlt)
        push_cast
        omega
      · intro _
        apply hlp
        left
        intro hnil
        have hperm := perm_insertField (ackField ack) pkt.header
        rw [show Packet.insertField (ackField ack) pkt.header = [] from hnil] at hperm
        exact absurd hperm.nil_eq.symm (cons_ne_nil _ _)
      · intro isMarked
        rw [hcontent]
        cases isMarked with
        | false =>
          have h := contentSize_add pkt (ackField ack)
          simp only [marked,Bool.false_eq_true,if_false]
          omega
        | true =>
          have h : contentSize ((pkt.add (ackField ack)).set (congestionMarkField 1)) = _ :=
            contentSize_set_add pkt (show ackType ≠ congestionMarkType by decide)
          simp only [marked,if_true]
          omega

end Acks

section Budget

variable {o : Options} {mtu : Nat} {pkt : Packet}

/-- What is known of a packet before Acks and a mark are added. -/
structure Budgeted (o : Options) (mtu : Nat) (pkt : Packet) : Prop where
  wire : ∃ wire, pkt.wireEncode = .ok wire ∧ wire.size ≤ mtu
  content : 10 + contentSize pkt + (if o.allowCongestionMarking then 12 else 0) ≤ mtu
  isLpPacket : o.isReliable = true → IsLpPacket pkt

theorem reserveMtu_eq (o : Options) (h : 64 ≤ mtu) : ∃ m : Nat, reserveMtu o mtu = m ∧
    m + (if o.isReliable then 12 else 0) + (if o.allowCongestionMarking then 12 else 0) = mtu := by
  have hreserved : reservedHeaderSpace = 12 ∧ congestionMarkSize = 12 := by decide
  refine ⟨mtu - (if o.isReliable then 12 else 0) - (if o.allowCongestionMarking then 12 else 0),?_,?_⟩
  · simp only [reserveMtu,hreserved.1,hreserved.2,mtuUnlimited]
    cases o.isReliable <;> cases o.allowCongestionMarking <;> simp <;> omega
  · split_ifs <;> omega

theorem budgeted_empty (h : 64 ≤ mtu) : Budgeted o mtu Packet.empty where
  wire := ⟨_,rfl,by rw [size_lpPacket]; exact le_trans (by decide) h⟩
  content := by
    have hzero : contentSize Packet.empty = 0 := rfl
    rw [hzero]
    split_ifs <;> omega
  isLpPacket _ := .inr rfl

theorem budgeted_of_le {payload : List UInt8} (hheader : pkt.header ≠ [])
    (hf : pkt.fragment = some payload) (hle : 20 + pkt.headerSize + payload.length +
      (if o.allowCongestionMarking then 12 else 0) ≤ mtu) : Budgeted o mtu pkt := by
  have hfragment := size_fragment_le payload
  have hcontent : contentSize pkt = pkt.headerSize + Block.size ⟨fragmentType,payload⟩ := by
    rw [contentSize_eq,hf]
    rfl
  obtain ⟨wire,hwire,hsize⟩ := wireEncode_of_isLpPacket (.inl hheader)
  have hlp := lpSize_le (contentSize pkt)
  exact ⟨⟨wire,hwire,by omega⟩,by omega,fun _ => .inl hheader⟩

theorem headerSize_makeFragment_le (packet : Packet) (fragCount fragIndex : Nat)
    (payload : List UInt8) : (makeFragment packet fragCount fragIndex payload).headerSize ≤
      20 + if fragIndex = 0 then packet.headerSize else 0 := by
  have hindex := size_fragIndexField_le fragIndex
  have hcount := size_fragCountField_le fragCount
  have hbase : (if fragIndex = 0 then packet else Packet.empty).headerSize =
      if fragIndex = 0 then packet.headerSize else 0 := by
    split_ifs <;> rfl
  show ((Packet.add _ _).add _).headerSize ≤ _
  rw [headerSize_add,headerSize_add,hbase]
  omega

variable {frags : List Packet}

theorem fragment_le {packet : Packet} {netPkt : Block} (hnet : IsNetPacket packet netPkt) {m : Nat}
    (hok : fragmentPacket o.fragmenter packet m = .ok frags) {frag : Packet}
    (hfrag : frag ∈ frags) :
    ∃ payload, frag.fragment = some payload ∧ 30 + frag.headerSize + payload.length ≤ m := by
  rcases fragmentPacket_ok hnet hok with ⟨rfl,hle⟩ | ⟨payloads,hcut,rfl⟩
  · rw [mem_singleton.mp hfrag]
    unfold maxSingleFragOverhead Block.size at hle
    exact ⟨_,hnet.fragment,by omega⟩
  · obtain ⟨i,hi,rfl⟩ := mem_mapIdx.mp hfrag
    have hfits := hcut.fits i payloads[i] (getElem?_eq_getElem hi)
    have hheader := headerSize_makeFragment_le packet payloads.length i payloads[i]
    unfold Fits maxFragOverhead at hfits
    exact ⟨_,rfl,by omega⟩

theorem exists_of_mem_assignSequences {lastSeqNo : Sequence} {pkt : Packet}
    (h : pkt ∈ (assignSequences lastSeqNo frags).1) :
    ∃ frag ∈ frags, ∃ sequence, pkt = frag.set (sequenceField sequence) := by
  obtain ⟨i,hi⟩ := mem_iff_getElem?.mp h
  rw [getElem?_assignSequences] at hi
  obtain ⟨frag,hfrag,heq⟩ := map_eq_some_iff.mp hi
  exact ⟨frag,mem_of_getElem? hfrag,_,heq.symm⟩

/-- The packets that `sendNetPacket` has cut are within the budget. -/
theorem budgeted_of_prepareFragments {packet : Packet} {netPkt : Block} (h : 64 ≤ mtu)
    (hnet : IsNetPacket packet netPkt) (hcuts : o.allowFragmentation = true)
    {lastSeqNo lastTxSeqNo : Sequence} {pkts : List Packet}
    (hok : prepareFragments o mtu lastSeqNo lastTxSeqNo packet = .ok pkts) (hpkt : pkt ∈ pkts) :
    Budgeted o mtu pkt := by
  obtain ⟨m,hm,hbudget⟩ := reserveMtu_eq o h
  simp only [prepareFragments,hm,mtuUnlimited] at hok
  rw [if_neg (by omega),if_pos ⟨hcuts,by omega⟩,Int.toNat_natCast] at hok
  obtain ⟨frags,hfrags,rfl⟩ : ∃ frags, fragmentPacket o.fragmenter packet m = .ok frags ∧
      assignNumbers o lastSeqNo lastTxSeqNo frags = pkts := by
    cases hfrags : fragmentPacket o.fragmenter packet m with
    | error message =>
      rw [hfrags] at hok
      cases hok
    | ok frags =>
      rw [hfrags] at hok
      exact ⟨frags,rfl,Except.ok.inj hok⟩
  have hset : ∀ (p : Packet) (b : Block) {payload : List UInt8},p.fragment = some payload →
      20 + b.size + p.headerSize + payload.length +
        (if o.allowCongestionMarking then 12 else 0) ≤ mtu → Budgeted o mtu (p.set b) := by
    intro p b payload hf hle
    have hheader := p.headerSize_set_le b
    exact budgeted_of_le (p.header_set_ne_nil b) hf (by omega)
  unfold assignNumbers at hpkt
  cases hreliable : o.isReliable with
  | true =>
    simp only [hreliable,true_or,if_true] at hpkt hbudget
    obtain ⟨i,hi,rfl⟩ := mem_mapIdx.mp hpkt
    obtain ⟨frag,hfrag,sequence,heq⟩ := exists_of_mem_assignSequences (getElem_mem hi)
    obtain ⟨payload,hf,hle⟩ := fragment_le hnet hfrags hfrag
    have hheader := frag.headerSize_set_le (sequenceField sequence)
    rw [size_sequenceField] at hheader
    rw [heq]
    apply hset (frag.set (sequenceField sequence)) _ hf
    rw [show (txSequenceField _).size = 12 from size_sequence_field (by decide) _]
    omega
  | false =>
    simp only [hreliable,Bool.false_eq_true,false_or,if_false] at hpkt hbudget
    split_ifs at hpkt with hmany
    · obtain ⟨frag,hfrag,sequence,rfl⟩ := exists_of_mem_assignSequences hpkt
      obtain ⟨payload,hf,hle⟩ := fragment_le hnet hfrags hfrag
      apply hset _ _ hf
      rw [size_sequenceField]
      omega
    · obtain ⟨payload,hf,hle⟩ := fragment_le hnet hfrags hpkt
      rcases fragmentPacket_ok hnet hfrags with ⟨rfl,hsingle⟩ | ⟨payloads,hcut,rfl⟩
      · obtain rfl := mem_singleton.mp hpkt
        by_cases hheader : pkt.header = []
        · have hfragment := size_fragment_le netPkt.encode
          refine ⟨⟨netPkt,wireEncode_bare hheader hnet.valid hnet.fragment,by omega⟩,?_,
            by simp [hreliable]⟩
          rw [contentSize_eq,hnet.fragment]
          simp only [map_some,getD_some]
          unfold maxSingleFragOverhead Block.size at *
          omega
        · exact budgeted_of_le hheader hf (by omega)
      · have htwo := hcut.two_le
        rw [length_mapIdx] at hmany
        omega

end Budget

section Sending

def ackSpace (mtu : Int) (pktSize : Nat) : Int :=
  (if mtu = mtuUnlimited then (maxNdnPacketSize : Int) else mtu) -
    ((sizeOfVarNumber maxNdnPacketSize : Int) - sizeOfVarNumber pktSize) - pktSize

/-- The number of Acks that a packet takes from the queue, twelve octets each. -/
def acksTaken (o : Options) (mtu : Int) (pkt : Packet) (acks : List Sequence) : Nat :=
  if o.isReliable then min acks.length ((ackSpace mtu (lpSize (contentSize pkt))).toNat / 12) else 0

variable {o : Options} {mtu : Nat} {pkt : Packet}

theorem mark_withQueue (o : Options) (r : Reading) (s : State) (acks : List Sequence) :
    mark o r { s with ackQueue := acks } =
      ((mark o r s).1,{ (mark o r s).2 with ackQueue := acks }) := by
  obtain ⟨ackQueue,nextMarkTime,nMarked⟩ := s
  unfold mark checkCongestionLevel
  split_ifs
  · rfl
  · cases nextMarkTime with
    | none => rfl
    | some time =>
      dsimp only
      split_ifs <;> rfl
  · rfl
  · rfl
  · rfl

theorem natCast_ne_mtuUnlimited (mtu : Nat) : (mtu : Int) ≠ mtuUnlimited := by
  unfold mtuUnlimited
  omega

theorem withAcks_spec (h : Budgeted o mtu pkt) (acks : List Sequence) :
    ∃ p, withAcks o mtu pkt acks = .ok (p,acks.drop (acksTaken o mtu pkt acks)) ∧
      (acksTaken o mtu pkt acks = 0 → p = pkt) ∧
      (acksTaken o mtu pkt acks ≠ 0 → IsLpPacket p ∧
        lpSize (contentSize pkt) + 12 * acksTaken o mtu pkt acks + sizeOfVarNumber maxNdnPacketSize ≤
          mtu + sizeOfVarNumber (lpSize (contentSize pkt))) ∧
      ∀ isMarked, contentSize (marked isMarked p) =
        contentSize (marked isMarked pkt) + 12 * acksTaken o mtu pkt acks := by
  cases hreliable : o.isReliable with
  | false => exact ⟨pkt,by simp [withAcks,acksTaken,hreliable]⟩
  | true =>
    obtain ⟨wire,hwire,hsize⟩ := wireEncode_of_isLpPacket (h.isLpPacket hreliable)
    obtain ⟨p,n,hn,hadd,htaken,hleft,hzero,hlp,hcontent⟩ := addAcks_spec
      (ackSpace mtu (lpSize (contentSize pkt))) pkt acks
    have hacks : withAcks o mtu pkt acks = .ok (p,acks.drop n) := by
      rw [withAcks,if_pos hreliable,hwire,← hadd,← hsize]
      rfl
    have hcount : acksTaken o mtu pkt acks = n := by
      rw [acksTaken,if_pos hreliable]
      omega
    rw [hcount]
    refine ⟨p,hacks,hzero,fun hne => ⟨hlp (h.isLpPacket hreliable),?_⟩,hcontent⟩
    have hle := htaken hne
    rw [ackSpace,if_neg (natCast_ne_mtuUnlimited mtu)] at hle
    omega

/-- The packet is sent or dropped by its size with the mark, and its Acks leave the queue. -/
theorem sendLpPacket_eq (h : Budgeted o mtu pkt) (r : Reading) (s : State) :
    ∃ block, sendLpPacket o mtu r pkt s = .ok (block,{ (mark o r s).2 with
        ackQueue := s.ackQueue.drop (acksTaken o mtu pkt s.ackQueue) }) ∧
      (block.isSome = true ↔ acksTaken o mtu pkt s.ackQueue = 0 ∨
        lpSize (contentSize (marked (mark o r s).1 pkt) + 12 * acksTaken o mtu pkt s.ackQueue) ≤
          mtu) := by
  obtain ⟨p,hacks,hzero,hlp,hcontent⟩ := withAcks_spec h s.ackQueue
  generalize acksTaken o mtu pkt s.ackQueue = n at *
  have hmark := mark_withQueue o r s (s.ackQueue.drop n)
  have hunlimited := natCast_ne_mtuUnlimited mtu
  have hsent : ∀ wire, (marked (mark o r s).1 p).wireEncode = .ok wire →
      ∃ block, sendLpPacket o mtu r pkt s =
          .ok (block,{ (mark o r s).2 with ackQueue := s.ackQueue.drop n }) ∧
        (block.isSome = true ↔ wire.size ≤ mtu) := by
    intro wire hwire
    unfold marked at hwire
    simp only [sendLpPacket,hacks,Except.bind,hmark,hwire,Except.map,Int.toNat_natCast]
    by_cases hle : wire.size ≤ mtu
    · rw [if_neg (by simpa [hunlimited] using hle)]
      exact ⟨some wire,rfl,iff_of_true rfl hle⟩
    · rw [if_pos ⟨hunlimited,not_le.mp hle⟩]
      exact ⟨none,rfl,iff_of_false nofun hle⟩
  by_cases hn : n = 0
  · rw [hzero hn] at hsent
    obtain ⟨wire,hwire,hle⟩ : ∃ wire, (marked (mark o r s).1 pkt).wireEncode = .ok wire ∧
        wire.size ≤ mtu := by
      cases hmarked : (mark o r s).1 with
      | false => exact h.wire
      | true =>
        have hallowed : o.allowCongestionMarking = true := by
          by_contra hno
          simp [mark,hno] at hmarked
        have hset := contentSize_set_le pkt (congestionMarkField 1)
        have hbudget := h.content
        rw [size_congestionMarkField] at hset
        rw [if_pos hallowed] at hbudget
        have hform : IsLpPacket (pkt.set (congestionMarkField 1)) := .inl (pkt.header_set_ne_nil _)
        obtain ⟨wire,hwire,hsize⟩ := wireEncode_of_isLpPacket hform
        have hle := lpSize_le (contentSize (pkt.set (congestionMarkField 1)))
        exact ⟨wire,hwire,by omega⟩
    obtain ⟨block,hsend,hblock⟩ := hsent wire hwire
    exact ⟨block,hsend,iff_of_true (hblock.mpr hle) (.inl hn)⟩
  · obtain ⟨wire,hwire,hsize⟩ := wireEncode_of_isLpPacket (isLpPacket_marked (hlp hn).1 _)
    obtain ⟨block,hsend,hblock⟩ := hsent wire hwire
    refine ⟨block,hsend,?_⟩
    rw [hblock,hsize,hcontent,or_iff_right hn]

theorem sendLpPacket_iff (h : Budgeted o mtu pkt) (r : Reading) (s : State) :
    (∃ block s', sendLpPacket o mtu r pkt s = .ok (some block,s')) ↔
      acksTaken o mtu pkt s.ackQueue = 0 ∨ lpSize (contentSize (marked (mark o r s).1 pkt) +
          12 * acksTaken o mtu pkt s.ackQueue) ≤ mtu := by
  obtain ⟨block,hsend,hblock⟩ := sendLpPacket_eq h r s
  rw [hsend,← hblock]
  cases block with
  | none => simp
  | some block => exact iff_of_true ⟨block,_,rfl⟩ rfl

/-- Acks alone do not bring a packet over the MTU, unless its length is about to need two octets
more or the MTU is beyond lengths of two octets. -/
theorem lpSize_acks_le {content n : Nat} (hn : n ≠ 0) (hsize : lpSize content ∉ [253,254])
    (hmtu : mtu ≤ 65538) (h : lpSize content + 12 * n + sizeOfVarNumber maxNdnPacketSize ≤
      mtu + sizeOfVarNumber (lpSize content)) : lpSize (content + 12 * n) ≤ mtu := by
  have hmax : sizeOfVarNumber maxNdnPacketSize = 3 := by decide
  have hshort : ∀ x ≤ 65535, sizeOfVarNumber x = if x < 253 then 1 else 3 := by
    intro x hx
    rw [sizeOfVarNumber,if_pos hx]
  have hlp : lpSize content = 1 + sizeOfVarNumber content + content := rfl
  have hbound : lpSize content ≤ 65535 := by
    have hle := sizeOfVarNumber_le (lpSize content)
    omega
  simp only [mem_cons,not_mem_nil,or_false,not_or] at hsize
  rw [hmax,hshort _ hbound] at h
  rw [hshort content (by omega)] at hlp
  have hlong : content + 12 * n ≤ 65535 := by split_ifs at h hlp <;> omega
  rw [lpSize,hshort _ hlong]
  split_ifs at h hlp ⊢ <;> omega

theorem Budgeted.fits (h : Budgeted o mtu pkt) {r : Reading} {s : State}
    (hmark : (mark o r s).1 = false) (hsize : lpSize (contentSize pkt) ∉ [253,254])
    (hmtu : mtu ≤ 65538) : acksTaken o mtu pkt s.ackQueue = 0 ∨
      lpSize (contentSize (marked (mark o r s).1 pkt) + 12 * acksTaken o mtu pkt s.ackQueue) ≤
        mtu := by
  obtain ⟨_,_,_,hlp,_⟩ := withAcks_spec h s.ackQueue
  rw [hmark]
  by_cases hn : acksTaken o mtu pkt s.ackQueue = 0
  · exact .inl hn
  · exact .inr (lpSize_acks_le hn hsize hmtu (hlp hn).2)

private theorem sendAll_spec {pkts : List (Packet × Nat)} (hpkts : ∀ p ∈ pkts, Budgeted o mtu p.1)
    (readings : Nat → Reading) (sent : List (Option Block)) (s : State) :
    ∃ blocks s', pkts.foldlM (fun (sent,s) (frag,i) =>
        (sendLpPacket o mtu (readings i) frag s).map fun (block,s) => (sent ++ [block],s)) (sent,s) =
        Except.ok (sent ++ blocks,s') ∧ blocks.length = pkts.length ∧
      (s.ackQueue = [] ∨ o.allowCongestionMarking = false ∧ mtu ≤ 65538 ∧
          (∀ p ∈ pkts, lpSize (contentSize p.1) ∉ [253,254]) →
        ∀ block ∈ blocks, block.isSome = true) := by
  induction pkts generalizing sent s with
  | nil => exact ⟨[],s,by simp [pure,Except.pure],rfl,by simp⟩
  | cons p pkts ih =>
    obtain ⟨hp,hrest⟩ := forall_mem_cons.mp hpkts
    obtain ⟨block,hsend,hblock⟩ := sendLpPacket_eq hp (readings p.2) s
    obtain ⟨blocks,s',hfold,hlength,hall⟩ := ih hrest (sent ++ [block])
      { (mark o (readings p.2) s).2 with
        ackQueue := s.ackQueue.drop (acksTaken o mtu p.1 s.ackQueue) }
    refine ⟨block :: blocks,s',?_,by rw [length_cons,length_cons,hlength],fun hfits => ?_⟩
    · rw [foldlM_cons]
      dsimp only
      rw [hsend]
      simpa [bind,Except.bind,Except.map] using hfold
    · refine forall_mem_cons.mpr ⟨hblock.mpr ?_,hall ?_⟩
      · rcases hfits with hnil | ⟨hunmarked,hmtu,hsizes⟩
        · left
          rw [acksTaken,hnil]
          split_ifs <;> simp
        · exact hp.fits (by simp [mark,hunmarked]) (hsizes p mem_cons_self) hmtu
      · refine hfits.imp (fun hnil => ?_) fun ⟨hunmarked,hmtu,hsizes⟩ =>
          ⟨hunmarked,hmtu,fun p' hp' => hsizes p' (mem_cons_of_mem p hp')⟩
        rw [hnil,drop_nil]

/-- The fragments of a network packet are handed to the transport one by one, all of them if there
are no Acks for them, or no marks and no sizes at the limit of short lengths. -/
theorem sendNetPacket_sends {packet : Packet} {netPkt : Block} (h : 64 ≤ mtu)
    (hnet : IsNetPacket packet netPkt) (hcuts : o.allowFragmentation = true)
    {lastSeqNo lastTxSeqNo : Sequence} {pkts : List Packet}
    (hok : prepareFragments o mtu lastSeqNo lastTxSeqNo packet = .ok pkts)
    (readings : Nat → Reading) (s : State) :
    ∃ sent s', sendNetPacket o mtu lastSeqNo lastTxSeqNo packet readings s = .ok (sent,s') ∧
      sent.length = pkts.length ∧
      (s.ackQueue = [] ∨ o.allowCongestionMarking = false ∧ mtu ≤ 65538 ∧
          (∀ pkt ∈ pkts, lpSize (contentSize pkt) ∉ [253,254]) →
        ∀ block ∈ sent, block.isSome = true) := by
  have hmem : ∀ p ∈ pkts.zipIdx, p.1 ∈ pkts := fun p hp => fst_mem_of_mem_zipIdx hp
  obtain ⟨sent,s',hfold,hlength,hall⟩ := sendAll_spec (fun p hp =>
    budgeted_of_prepareFragments h hnet hcuts hok (hmem p hp)) readings [] s
  refine ⟨sent,s',?_,by rw [hlength,length_zipIdx],fun hfits => hall (hfits.imp_right
    fun ⟨hunmarked,hmtu,hsizes⟩ => ⟨hunmarked,hmtu,fun p hp => hsizes p.1 (hmem p hp)⟩)⟩
  rw [sendNetPacket,hok]
  exact hfold

/-- A fragment or an idle packet that takes no Acks is sent. One that takes some is sent exactly if
they leave enough for the mark and for a longer length, in particular if there is no mark, its size
is not at the limit of short lengths and the MTU is not huge. -/
theorem sendLpPacket_sent_iff (o : Options) (mtu : Nat) (h : 64 ≤ mtu) (pkt : Packet)
    (hpkt : pkt = Packet.empty ∨ ∃ packet netPkt lastSeqNo lastTxSeqNo pkts,
      IsNetPacket packet netPkt ∧ o.allowFragmentation = true ∧
        prepareFragments o mtu lastSeqNo lastTxSeqNo packet = .ok pkts ∧ pkt ∈ pkts)
    (r : Reading) (s : State) :
    ((∃ block s', sendLpPacket o mtu r pkt s = .ok (some block,s')) ↔
      acksTaken o mtu pkt s.ackQueue = 0 ∨ lpSize (contentSize (marked (mark o r s).1 pkt) +
          12 * acksTaken o mtu pkt s.ackQueue) ≤ mtu) ∧
      ((mark o r s).1 = false → lpSize (contentSize pkt) ∉ [253,254] → mtu ≤ 65538 →
        ∃ block s', sendLpPacket o mtu r pkt s = .ok (some block,s')) := by
  have hbudget : Budgeted o mtu pkt := by
    rcases hpkt with rfl | ⟨packet,netPkt,lastSeqNo,lastTxSeqNo,pkts,hnet,hcuts,hok,hmem⟩
    · exact budgeted_empty h
    · exact budgeted_of_prepareFragments h hnet hcuts hok hmem
  have hiff := sendLpPacket_iff hbudget r s
  exact ⟨hiff,fun hmark hsize hmtu => hiff.mpr (hbudget.fits hmark hsize hmtu)⟩

def allFeatures : Options where
  isReliable := true
  allowCongestionMarking := true
  allowFragmentation := true
  fragmenter := ⟨400,by decide⟩
  congestionThreshold := 65536
  baseCongestionMarkingInterval := 100
  markingInterval := fun _ => 50

theorem sendLpPacket_sent_idle : acksTaken allFeatures 64 Packet.empty [1,2] = 2 ∧
    ∃ block s', sendLpPacket allFeatures 64 ⟨0,7⟩ Packet.empty ⟨[1,2],none,0⟩ =
      .ok (some block,s') := by
  have h := sendLpPacket_sent_iff allFeatures 64 le_rfl Packet.empty (.inl rfl) ⟨0,7⟩ ⟨[1,2],none,0⟩
  exact ⟨by decide,h.2 (by decide) (by decide) (by decide)⟩

def smallData : Block := ⟨6,replicate 225 0⟩

/-- An idle packet with five Acks is dropped for its mark. Without marks, a packet of 253 octets is
dropped with two Acks, since its length then takes two octets more. -/
theorem sendLpPacket_drops_acks :
    (∃ s', sendLpPacket allFeatures 64 ⟨65537,7⟩ Packet.empty ⟨[1,2,3,4,5],some 7,0⟩ =
      .ok (none,s') ∧ s'.ackQueue = []) ∧
    ((prepareFragments { allFeatures with allowCongestionMarking := false } 277 0 0
      (Packet.empty.setFragment smallData.encode)).toOption.any fun pkts => pkts.any fun pkt =>
        (sendLpPacket { allFeatures with allowCongestionMarking := false } 277 ⟨0,7⟩ pkt
          ⟨[1,2],none,0⟩).toOption.any fun (block,s') => block = none && s'.ackQueue = []) = true := by
  refine ⟨⟨_,rfl,rfl⟩,?_⟩
  decide +kernel

end Sending

section SmallMtu

variable {o : Options}

def idleSpace (mtu : Int) : Int := (if mtu = mtuUnlimited then (maxNdnPacketSize : Int) else mtu) - 4

theorem requestIdlePacket_queue (h : o.isReliable = true) (mtu : Int) (r : Reading) (s : State) :
    ∃ block s' n, requestIdlePacket o mtu r s = .ok (block,s') ∧ s'.ackQueue = s.ackQueue.drop n ∧
      (idleSpace mtu < 12 → n = 0) ∧ (12 ≤ idleSpace mtu → s.ackQueue ≠ [] → n ≠ 0) := by
  have hwire : Packet.empty.wireEncode = .ok ⟨lpPacketType,[]⟩ := rfl
  have hspace : (if mtu = mtuUnlimited then (maxNdnPacketSize : Int) else mtu) -
      ((sizeOfVarNumber maxNdnPacketSize : Int) - sizeOfVarNumber (Block.size ⟨lpPacketType,[]⟩)) -
        (Block.size ⟨lpPacketType,[]⟩ : Int) = idleSpace mtu := by
    have hsizes : (sizeOfVarNumber maxNdnPacketSize : Int) -
        sizeOfVarNumber (Block.size ⟨lpPacketType,[]⟩) = 2 ∧
          (Block.size ⟨lpPacketType,[]⟩ : Int) = 2 := by decide
    unfold idleSpace
    omega
  obtain ⟨p,n,_,hadd,htaken,hleft,_,hlp,_⟩ :=
    addAcks_spec (idleSpace mtu) Packet.empty s.ackQueue
  have hacks : withAcks o mtu Packet.empty s.ackQueue = .ok (p,s.ackQueue.drop n) := by
    simp only [withAcks,h,if_true,hwire,Except.map,piggyback,hspace,hadd]
  obtain ⟨wire,hfinal,_⟩ :=
    wireEncode_of_isLpPacket (isLpPacket_marked (hlp (.inr rfl)) (mark o r s).1)
  have hmark := mark_withQueue o r s (s.ackQueue.drop n)
  have hsend : ∃ block, requestIdlePacket o mtu r s =
      .ok (block,{ (mark o r s).2 with ackQueue := s.ackQueue.drop n }) := by
    unfold marked at hfinal
    simp only [requestIdlePacket,sendLpPacket,hacks,Except.bind,hmark,hfinal,Except.map]
    split_ifs <;> exact ⟨_,rfl⟩
  obtain ⟨block,hsend⟩ := hsend
  refine ⟨block,_,n,hsend,rfl,?_,?_⟩
  · intro hlt
    by_contra hne
    have hle := htaken hne
    omega
  · intro hle hne hzero
    have hlt := hleft (by rw [hzero]; exact length_pos_iff.mpr hne)
    rw [hzero] at hlt
    omega

theorem idleAckLoop_ends (h : o.isReliable = true) {mtu : Int} (hspace : 12 ≤ idleSpace mtu)
    (readings : Nat → Reading) (fuel : Nat) (s : State) (hfuel : s.ackQueue.length ≤ fuel) :
    ∃ s', idleAckLoop o mtu readings fuel s = some s' := by
  induction fuel generalizing s with
  | zero => exact ⟨s,if_pos (eq_nil_of_length_eq_zero (Nat.le_zero.mp hfuel))⟩
  | succ fuel ih =>
    by_cases hnil : s.ackQueue = []
    · exact ⟨s,if_pos hnil⟩
    · obtain ⟨block,s',n,hidle,hqueue,_,htakes⟩ :=
        requestIdlePacket_queue h mtu (readings fuel) s
      have hn := htakes hspace hnil
      have hpos := length_pos_iff.mpr hnil
      rw [idleAckLoop,if_neg hnil,hidle]
      exact ih s' (by rw [hqueue,length_drop]; omega)

theorem idleAckLoop_stuck (h : o.isReliable = true) {mtu : Int} (hspace : idleSpace mtu < 12)
    (readings : Nat → Reading) (fuel : Nat) (s : State) (hne : s.ackQueue ≠ []) :
    idleAckLoop o mtu readings fuel s = none := by
  induction fuel generalizing s with
  | zero => exact if_neg hne
  | succ fuel ih =>
    obtain ⟨block,s',n,hidle,hqueue,hstays,_⟩ := requestIdlePacket_queue h mtu (readings fuel) s
    rw [idleAckLoop,if_neg hne,hidle]
    apply ih
    rwa [hqueue,hstays hspace]

/-- The space for feature fields is taken off correctly exactly if it is there, and the idle Ack
timer gets through its queue exactly if an Ack fits into an empty packet. -/
theorem smallMtu_iff (o : Options) (mtu : Int) :
    ((reserveMtu o mtu = mtuUnlimited ∨ reserveMtu o mtu ≥ 0) ∧
        (reserveMtu o mtu = mtuUnlimited → mtu = mtuUnlimited) ↔
      mtu = mtuUnlimited ∨ (if o.isReliable then (reservedHeaderSpace : Int) else 0) +
        (if o.allowCongestionMarking then (congestionMarkSize : Int) else 0) ≤ mtu) ∧
    (o.isReliable = true → ∀ readings s, (∃ fuel s', idleAckLoop o mtu readings fuel s = some s') ↔
        s.ackQueue = [] ∨ mtu = mtuUnlimited ∨ 16 ≤ mtu) := by
  constructor
  · have hreserved : reservedHeaderSpace = 12 ∧ congestionMarkSize = 12 := by decide
    simp only [reserveMtu,hreserved.1,hreserved.2,mtuUnlimited]
    cases o.isReliable <;> cases o.allowCongestionMarking <;> simp <;> split_ifs <;> omega
  · intro h readings s
    have hspace : 12 ≤ idleSpace mtu ↔ mtu = mtuUnlimited ∨ 16 ≤ mtu := by
      simp only [idleSpace,mtuUnlimited,maxNdnPacketSize]
      split_ifs <;> omega
    constructor
    · rintro ⟨fuel,s',hends⟩
      rw [← hspace]
      by_contra hno
      rw [not_or,not_le] at hno
      rw [idleAckLoop_stuck h hno.2 readings fuel s hno.1] at hends
      cases hends
    · rintro (hnil | hbig)
      · exact ⟨0,s,if_pos hnil⟩
      · obtain ⟨s',hends⟩ := idleAckLoop_ends h (hspace.mpr hbig) readings _ s le_rfl
        exact ⟨_,s',hends⟩

/-- With an MTU of 0 the assertion does not hold, one of 11 is taken for unlimited, and with one of
15 the timer never gets through its queue. -/
theorem smallMtu_fails : (∀ pkt, prepareFragments allFeatures 0 0 0 pkt =
      .error "assertion: mtu == MTU_UNLIMITED || mtu >= 0") ∧
    reserveMtu allFeatures 11 = mtuUnlimited ∧
    ∀ fuel, idleAckLoop allFeatures 15 (fun _ => ⟨0,0⟩) fuel ⟨[1],none,0⟩ = none :=
  ⟨fun _ => rfl,by decide,fun fuel => idleAckLoop_stuck rfl (by decide) _ fuel _ (by simp)⟩

end SmallMtu

end LinkService

end KiteNdn.Lp
