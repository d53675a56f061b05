import Mathlib.Algebra.Order.BigOperators.Group.List
import KiteNdn.Encoding.Element
import KiteNdn.Framework.Chunks

/-!
# NDNLP packets and the fragmenter

The fields of a link protocol packet: header fields in the order of their types, then the fragment.
A packet with a fragment and nothing else is encoded as the network packet that the fragment holds.
-/

namespace KiteNdn.Lp

open Framework Tlv List

abbrev Sequence := UInt64

def lpPacketType : Nat := 100

def fragmentType : Nat := 80

def sequenceType : Nat := 81

def fragIndexType : Nat := 82

def fragCountType : Nat := 83

structure Packet where
  header : List Block
  fragment : Option (List UInt8)
  sorted : header.Pairwise fun a b => a.type ≤ b.type

namespace Packet

def empty : Packet := ⟨[],none,List.Pairwise.nil⟩

section Fields

def insertField (b : Block) : List Block → List Block
  | [] => [b]
  | a :: l => if a.type ≤ b.type then a :: insertField b l else b :: a :: l

theorem perm_insertField (b : Block) (l : List Block) : (insertField b l).Perm (b :: l) := by
  induction l with
  | nil => exact List.Perm.refl _
  | cons a l ih =>
    unfold insertField
    split_ifs
    · exact (ih.cons a).trans (List.Perm.swap b a l)
    · exact List.Perm.refl _

theorem insertField_sorted (b : Block) {l : List Block}
    (h : l.Pairwise fun a b => a.type ≤ b.type) :
    (insertField b l).Pairwise fun a b => a.type ≤ b.type := by
  induction l with
  | nil => exact List.pairwise_singleton _ b
  | cons a l ih =>
    have hcons := pairwise_cons.mp h
    unfold insertField
    split_ifs with hle
    · apply pairwise_cons.mpr
      refine ⟨?_,ih hcons.2⟩
      intro c hc
      rcases mem_cons.mp ((perm_insertField b l).mem_iff.mp hc) with hcb | hcl
      · rw [hcb]
        exact hle
      · exact hcons.1 c hcl
    · have hlt : b.type ≤ a.type := by omega
      apply pairwise_cons.mpr
      refine ⟨?_,h⟩
      intro c hc
      rcases mem_cons.mp hc with hca | hcl
      · rw [hca]
        exact hlt
      · exact hlt.trans (hcons.1 c hcl)

def add (p : Packet) (b : Block) : Packet :=
  { p with header := insertField b p.header, sorted := insertField_sorted b p.sorted }

def clear (p : Packet) (type : Nat) : Packet :=
  { p with header := p.header.filter fun b => b.type ≠ type, sorted := p.sorted.filter _ }

def set (p : Packet) (b : Block) : Packet := (p.clear b.type).add b

def setFragment (p : Packet) (payload : List UInt8) : Packet := { p with fragment := some payload }

def getFragment (p : Packet) : Except String (List UInt8) :=
  match p.fragment with
  | none => .error "lp::Packet::get: index out of range"
  | some [] => .error "NDNLP field of TLV-TYPE 80 cannot be empty"
  | some payload => .ok payload

def elements (p : Packet) : List Block :=
  p.header ++ (p.fragment.map fun payload => ⟨fragmentType,payload⟩).toList

def wireEncode (p : Packet) : Except String Block :=
  match p.header, p.fragment with
  | [], some payload => (Tlv.parse payload).bind fun elements =>
    match elements with
    | [] => .error "no element"
    | b :: _ => .ok b
  | _, _ => .ok ⟨lpPacketType,p.elements.flatMap Block.encode⟩

end Fields

section Reads

theorem getFragment_eq_ok {p : Packet} {payload : List UInt8} (hp : p.fragment = some payload)
    (hne : payload ≠ []) : p.getFragment = .ok payload := by
  unfold getFragment
  rw [hp]
  cases payload with
  | nil => exact absurd rfl hne
  | cons octet payload => rfl

end Reads

section Sizes

def headerSize (p : Packet) : Nat := (p.header.map Block.size).sum

theorem headerSize_add (p : Packet) (b : Block) : (p.add b).headerSize = b.size + p.headerSize := by
  unfold headerSize add
  dsimp only
  rw [((perm_insertField b p.header).map Block.size).sum_eq,map_cons,List.sum_cons]

theorem headerSize_clear_le (p : Packet) (type : Nat) : (p.clear type).headerSize ≤ p.headerSize :=
  ((List.filter_sublist).map Block.size).sum_le_sum fun _ _ => Nat.zero_le _

theorem headerSize_set_le (p : Packet) (b : Block) : (p.set b).headerSize ≤ b.size + p.headerSize := by
  rw [set,headerSize_add]
  exact Nat.add_le_add_left (p.headerSize_clear_le b.type) _

theorem length_flatMap_encode (l : List Block) :
    (l.flatMap Block.encode).length = (l.map Block.size).sum := by
  rw [List.length_flatMap]
  rfl

theorem header_set_ne_nil (p : Packet) (b : Block) : (p.set b).header ≠ [] := by
  intro hnil
  have hperm := perm_insertField b (p.clear b.type).header
  have hempty : insertField b (p.clear b.type).header = [] := hnil
  rw [hempty] at hperm
  exact absurd hperm.nil_eq.symm (List.cons_ne_nil _ _)

variable {p : Packet}

theorem wireEncode_of_header (hp : p.header ≠ []) :
    p.wireEncode = .ok ⟨lpPacketType,p.elements.flatMap Block.encode⟩ := by
  unfold wireEncode
  split
  · next _ _ hnil _ => exact absurd hnil hp
  · rfl

theorem wireEncode_bare (hp : p.header = []) {netPkt : Block} (hvalid : netPkt.Valid)
    (hf : p.fragment = some netPkt.encode) : p.wireEncode = .ok netPkt := by
  have hparse : Tlv.parse netPkt.encode = .ok [netPkt] := by
    have h := parse_flatMap_encode [netPkt] (by simpa using hvalid)
    rwa [List.flatMap_singleton] at h
  unfold wireEncode
  rw [hp,hf]
  dsimp only
  rw [hparse]
  rfl

theorem size_lpPacket_le (value : List UInt8) :
    Block.size ⟨lpPacketType,value⟩ ≤ 10 + value.length := by
  have hlength := sizeOfVarNumber_le value.length
  have htype : sizeOfVarNumber lpPacketType = 1 := by decide
  rw [Block.size_eq]
  dsimp only
  omega

theorem size_fragment_le (payload : List UInt8) :
    Block.size ⟨fragmentType,payload⟩ ≤ 10 + payload.length := by
  have hlength := sizeOfVarNumber_le payload.length
  have htype : sizeOfVarNumber fragmentType = 1 := by decide
  rw [Block.size_eq]
  dsimp only
  omega

theorem length_elements {payload : List UInt8} (hf : p.fragment = some payload) :
    (p.elements.flatMap Block.encode).length = p.headerSize + Block.size ⟨fragmentType,payload⟩ := by
  rw [length_flatMap_encode,elements,hf,map_append,List.sum_append]
  rfl

end Sizes

end Packet

section FieldValues

def sequenceField (sequence : Sequence) : Block := ⟨sequenceType,toBytes 8 sequence.toNat⟩

def fragIndexField (fragIndex : Nat) : Block := ⟨fragIndexType,writeNonNegativeInteger fragIndex⟩

def fragCountField (fragCount : Nat) : Block := ⟨fragCountType,writeNonNegativeInteger fragCount⟩

theorem size_sequenceField (sequence : Sequence) : (sequenceField sequence).size = 10 := by
  rw [Block.size_eq]
  simp only [sequenceField,length_toBytes]
  decide

private theorem size_nonNegativeInteger_le {type : Nat} (htype : sizeOfVarNumber type = 1)
    (integer : Nat) : Block.size ⟨type,writeNonNegativeInteger integer⟩ ≤ 10 := by
  have hle := sizeOfNonNegativeInteger_le integer
  have hone : sizeOfVarNumber (sizeOfNonNegativeInteger integer) = 1 := if_pos (by omega)
  rw [Block.size_eq]
  dsimp only
  rw [writeNonNegativeInteger,length_toBytes,htype,hone]
  omega

theorem size_fragIndexField_le (fragIndex : Nat) : (fragIndexField fragIndex).size ≤ 10 :=
  size_nonNegativeInteger_le (by decide) fragIndex

theorem size_fragCountField_le (fragCount : Nat) : (fragCountField fragCount).size ≤ 10 :=
  size_nonNegativeInteger_le (by decide) fragCount

end FieldValues

namespace Fragmenter

structure Options where
  nMaxFragments : Nat
  lt : nMaxFragments < 2^64

/-- LpPacket and Fragment with their lengths, and a Sequence. -/
def maxSingleFragOverhead : Nat := (1 + 9) + (1 + 1 + 8) + (1 + 9)

/-- A FragIndex and a FragCount in addition. -/
def maxFragOverhead : Nat := (1 + 9) + (1 + 1 + 8) + (1 + 1 + 8) + (1 + 1 + 8) + (1 + 9)

def firstHeaderSize (packet : Packet) (packetWire : Block) : Nat :=
  if packetWire.type = lpPacketType then
    ((packet.elements.filter fun element => element.type ≠ fragmentType).map Block.size).sum
  else 0

def makeFragment (packet : Packet) (fragCount fragIndex : Nat) (payload : List UInt8) : Packet :=
  (((if fragIndex = 0 then packet else Packet.empty).add (fragIndexField fragIndex)).add
    (fragCountField fragCount)).setFragment payload

def cutPayloads (netPkt : List UInt8) (firstPayloadSize payloadSize : Nat) : List (List UInt8) :=
  netPkt.take firstPayloadSize :: chunks payloadSize (netPkt.drop firstPayloadSize)

def fragmentPacket (options : Options) (packet : Packet) (mtu : Nat) :
    Except String (List Packet) := do
  let packetWire ← packet.wireEncode
  if maxSingleFragOverhead + packetWire.size ≤ mtu then .ok [packet]
  else
    let netPkt ← packet.getFragment
    let firstHeaderSize := firstHeaderSize packet packetWire
    if maxFragOverhead + firstHeaderSize + 1 > mtu then
      .error "fragmentation error, MTU too small for first fragment: DROP"
    else
      let firstPayloadSize := min netPkt.length (mtu - firstHeaderSize - maxFragOverhead)
      let payloadSize := mtu - maxFragOverhead
      let fragCount := 1 + chunkCount payloadSize (netPkt.length - firstPayloadSize)
      if fragCount > options.nMaxFragments then
        .error "fragmentation error, FragCount over limit: DROP"
      else
        .ok ((cutPayloads netPkt firstPayloadSize payloadSize).mapIdx
          (makeFragment packet fragCount))

def assignSequences (lastSeqNo : Sequence) : List Packet → List Packet × Sequence
  | [] => ([],lastSeqNo)
  | pkt :: pkts =>
    let sequence := lastSeqNo + 1
    let assigned := assignSequences sequence pkts
    (pkt.set (sequenceField sequence) :: assigned.1,assigned.2)

structure IsNetPacket (packet : Packet) (netPkt : Block) : Prop where
  valid : netPkt.Valid
  fragment : packet.fragment = some netPkt.encode
  header : ∀ b ∈ packet.header, b.type ∉ [fragmentType,fragIndexType,fragCountType]

section Sequences

theorem getElem?_assignSequences (lastSeqNo : Sequence) (pkts : List Packet) (i : Nat) :
    (assignSequences lastSeqNo pkts).1[i]? =
      pkts[i]?.map fun pkt => pkt.set (sequenceField (lastSeqNo + 1 + UInt64.ofNat i)) := by
  induction pkts generalizing lastSeqNo i with
  | nil => rfl
  | cons pkt pkts ih =>
    rw [assignSequences]
    cases i with
    | zero => simp
    | succ i =>
      have hshift : lastSeqNo + 1 + 1 + UInt64.ofNat i =
          lastSeqNo + 1 + UInt64.ofNat (i + 1) := by
        rw [UInt64.ofNat_add,UInt64.add_comm (UInt64.ofNat i),← UInt64.add_assoc]
        rfl
      dsimp only
      rw [getElem?_cons_succ,getElem?_cons_succ,ih,hshift]

end Sequences

section Fragments

variable {packet : Packet} {netPkt : Block}

theorem firstHeaderSize_eq (hnet : IsNetPacket packet netPkt) {packetWire : Block}
    (hwire : packet.wireEncode = .ok packetWire) :
    firstHeaderSize packet packetWire = packet.headerSize := by
  have hfilter : packet.elements.filter (fun element => element.type ≠ fragmentType) =
      packet.header := by
    rw [Packet.elements,filter_append,hnet.fragment]
    have hheader : packet.header.filter (fun element => element.type ≠ fragmentType) =
        packet.header := by
      apply List.filter_eq_self.mpr
      intro b hb
      have hne := hnet.header b hb
      simp only [mem_cons,not_or] at hne
      simpa using hne.1
    rw [hheader]
    simp
  unfold firstHeaderSize
  split_ifs with htype
  · rw [hfilter]
    rfl
  · by_cases hempty : packet.header = []
    · simp [Packet.headerSize,hempty]
    · rw [Packet.wireEncode_of_header hempty] at hwire
      cases hwire
      exact absurd rfl htype

theorem wireEncode_size (hnet : IsNetPacket packet netPkt) :
    ∃ packetWire, packet.wireEncode = .ok packetWire ∧
      packet.headerSize + netPkt.size ≤ packetWire.size ∧
      packetWire.size ≤ packet.headerSize + netPkt.size + 20 := by
  by_cases hempty : packet.header = []
  · refine ⟨netPkt,Packet.wireEncode_bare hempty hnet.valid hnet.fragment,?_⟩
    rw [Packet.headerSize,hempty]
    simp
  · refine ⟨_,Packet.wireEncode_of_header hempty,?_⟩
    have hlength := Packet.length_elements hnet.fragment
    have hwire := Packet.size_lpPacket_le (packet.elements.flatMap Block.encode)
    have hfragment := Packet.size_fragment_le netPkt.encode
    have hwireEq := Block.size_eq ⟨lpPacketType,packet.elements.flatMap Block.encode⟩
    have hfragmentEq := Block.size_eq ⟨fragmentType,netPkt.encode⟩
    dsimp only at hwireEq hfragmentEq
    rw [hlength] at hwire hwireEq
    unfold Block.size at *
    omega

/-- Each fragment leaves room for its fields in the MTU. -/
def Fits (packet : Packet) (mtu fragIndex : Nat) (payload : List UInt8) : Prop :=
  payload.length + (if fragIndex = 0 then packet.headerSize else 0) + maxFragOverhead ≤ mtu

structure Cut (options : Options) (packet : Packet) (netPkt : Block) (mtu : Nat)
    (payloads : List (List UInt8)) : Prop where
  flatten : payloads.flatten = netPkt.encode
  two_le : 2 ≤ payloads.length
  le_max : payloads.length ≤ options.nMaxFragments
  ne_nil : ∀ payload ∈ payloads, payload ≠ []
  fits : ∀ i payload, payloads[i]? = some payload → Fits packet mtu i payload

variable {payloadSize : Nat}

theorem length_cutPayloads (octets : List UInt8) (firstPayloadSize : Nat)
    (hsize : 0 < payloadSize) : (cutPayloads octets firstPayloadSize payloadSize).length =
      1 + chunkCount payloadSize (octets.length - firstPayloadSize) := by
  rw [cutPayloads,length_cons,length_chunks hsize,length_drop,Nat.add_comm]

variable {firstPayloadSize : Nat}

theorem two_le_length_cutPayloads {octets : List UInt8}
    (hsize : 0 < payloadSize) (hrest : firstPayloadSize < octets.length) :
    2 ≤ (cutPayloads octets firstPayloadSize payloadSize).length := by
  rw [cutPayloads,length_cons]
  apply Nat.succ_le_succ
  apply List.length_pos_iff.mpr
  intro hnil
  have hflatten := flatten_chunks hsize (octets.drop firstPayloadSize)
  rw [hnil] at hflatten
  have hlength := congrArg List.length hflatten
  rw [length_drop] at hlength
  simp at hlength
  omega

variable {mtu : Nat}

theorem cut_cutPayloads {options : Options}
    (hroom : maxFragOverhead + packet.headerSize + 1 ≤ mtu)
    (hlong : mtu < packet.headerSize + netPkt.size + maxFragOverhead)
    (hfirst : firstPayloadSize = mtu - packet.headerSize - maxFragOverhead)
    (hpayload : payloadSize = mtu - maxFragOverhead)
    (hmax : (cutPayloads netPkt.encode firstPayloadSize payloadSize).length ≤
      options.nMaxFragments) :
    Cut options packet netPkt mtu (cutPayloads netPkt.encode firstPayloadSize payloadSize) := by
  have hsize : 0 < payloadSize := by omega
  have hrest : firstPayloadSize < netPkt.encode.length := by
    unfold Block.size at hlong
    omega
  constructor
  case flatten => rw [cutPayloads,flatten_cons,flatten_chunks hsize,take_append_drop]
  case two_le => exact two_le_length_cutPayloads hsize hrest
  case le_max => exact hmax
  case ne_nil =>
      intro payload hmem
      rcases mem_cons.mp hmem with hhead | htail
      · rw [hhead]
        apply ne_nil_of_length_pos
        rw [length_take]
        omega
      · exact (mem_chunks hsize htail).1
  case fits =>
      intro i payload hi
      unfold Fits
      cases i with
      | zero =>
        cases hi
        have htake := List.length_take_le firstPayloadSize netPkt.encode
        rw [if_pos rfl]
        omega
      | succ i =>
        have hlength := (mem_chunks hsize (List.mem_of_getElem? hi)).2
        rw [if_neg (by omega)]
        omega

theorem encode_ne_nil (b : Block) : b.encode ≠ [] := by
  apply ne_nil_of_length_pos
  have := b.two_le_length_encode
  omega

theorem fragmentPacket_slow (options : Options) (hnet : IsNetPacket packet netPkt)
    {packetWire : Block} (hwire : packet.wireEncode = .ok packetWire)
    (hslow : ¬maxSingleFragOverhead + packetWire.size ≤ mtu)
    (hroom : ¬maxFragOverhead + packet.headerSize + 1 > mtu)
    (hlong : mtu < packet.headerSize + netPkt.size + maxFragOverhead)
    {payloads : List (List UInt8)} (hpayloads : payloads = cutPayloads netPkt.encode
      (mtu - packet.headerSize - maxFragOverhead) (mtu - maxFragOverhead)) :
    fragmentPacket options packet mtu =
      if payloads.length > options.nMaxFragments then
        .error "fragmentation error, FragCount over limit: DROP"
      else .ok (payloads.mapIdx (makeFragment packet payloads.length)) := by
  have hfirst : min netPkt.encode.length (mtu - packet.headerSize - maxFragOverhead) =
      mtu - packet.headerSize - maxFragOverhead := by
    unfold Block.size at hlong
    omega
  unfold fragmentPacket
  rw [hwire,Packet.getFragment_eq_ok hnet.fragment (encode_ne_nil netPkt)]
  dsimp only [bind,Except.bind]
  rw [firstHeaderSize_eq hnet hwire,if_neg hslow,if_neg hroom,hfirst,
    ← length_cutPayloads _ _ (by omega),← hpayloads]

theorem fragmentPacket_ok (hnet : IsNetPacket packet netPkt) {options : Options}
    {frags : List Packet} (hok : fragmentPacket options packet mtu = .ok frags) :
    (frags = [packet] ∧ packet.headerSize + netPkt.size + maxSingleFragOverhead ≤ mtu) ∨
      ∃ payloads, Cut options packet netPkt mtu payloads ∧
        frags = payloads.mapIdx (makeFragment packet payloads.length) := by
  obtain ⟨packetWire,hwire,hge,hle⟩ := wireEncode_size hnet
  by_cases hfast : maxSingleFragOverhead + packetWire.size ≤ mtu
  · unfold fragmentPacket at hok
    rw [hwire] at hok
    dsimp only [bind,Except.bind] at hok
    rw [if_pos hfast] at hok
    cases hok
    exact .inl ⟨rfl,by omega⟩
  · by_cases hroom : maxFragOverhead + packet.headerSize + 1 > mtu
    · unfold fragmentPacket at hok
      rw [hwire,Packet.getFragment_eq_ok hnet.fragment (encode_ne_nil netPkt)] at hok
      dsimp only [bind,Except.bind] at hok
      rw [if_neg hfast,firstHeaderSize_eq hnet hwire,if_pos hroom] at hok
      cases hok
    · have hlong : mtu < packet.headerSize + netPkt.size + maxFragOverhead := by
        simp only [maxSingleFragOverhead,maxFragOverhead] at *
        omega
      rw [fragmentPacket_slow options hnet hwire hfast hroom hlong rfl] at hok
      split_ifs at hok with hmax
      cases hok
      exact .inr ⟨_,cut_cutPayloads (by omega) hlong rfl rfl (by omega),rfl⟩

/-- The fragments hold the octets of the packet in order and each once, and there are at most as many
as allowed, if any is. -/
theorem flatten_fragmentPacket (hnet : IsNetPacket packet netPkt) {options : Options} {mtu : Nat}
    {frags : List Packet} (hok : fragmentPacket options packet mtu = .ok frags) :
    (frags.filterMap Packet.fragment).flatten = netPkt.encode ∧
      (1 ≤ options.nMaxFragments → frags.length ≤ options.nMaxFragments) := by
  rcases fragmentPacket_ok hnet hok with ⟨rfl,_⟩ | ⟨payloads,hcut,rfl⟩
  · exact ⟨by simp [hnet.fragment],id⟩
  · refine ⟨?_,fun _ => by simpa using hcut.le_max⟩
    simp [← hcut.flatten,makeFragment,Packet.setFragment,List.mapIdx_eq_zipIdx_map,
      List.filterMap_map]

def zeros : Block := ⟨6,replicate 100 0⟩

theorem flatten_fragmentPacket_zeros : ∃ frags, fragmentPacket ⟨400,by decide⟩
      (Packet.empty.setFragment zeros.encode) 110 = .ok frags ∧
    (frags.filterMap Packet.fragment).flatten = zeros.encode ∧ frags.length ≤ 400 := by
  have hnet : IsNetPacket (Packet.empty.setFragment zeros.encode) zeros :=
    ⟨⟨by decide,by decide,by decide⟩,rfl,by simp [Packet.empty,Packet.setFragment]⟩
  obtain ⟨frags,hok⟩ : ∃ frags, fragmentPacket ⟨400,by decide⟩
      (Packet.empty.setFragment zeros.encode) 110 = .ok frags := ⟨_,rfl⟩
  obtain ⟨hflatten,hlength⟩ := flatten_fragmentPacket hnet hok
  exact ⟨frags,hok,hflatten,hlength (by decide)⟩

end Fragments

end Fragmenter

end KiteNdn.Lp
