import KiteNdn.Encoding.Element
import KiteNdn.Framework.Run

/-!
# Blocks in a stream of octets

After each receive the blocks at the front of the buffer are delivered, and the rest is moved there.
The cut of a stream says what is to be delivered: blocks that are not too large, up to a place where
none begins.
-/

namespace KiteNdn.Transport

open Framework Tlv Tlv.Element List Bool

variable {e : Element}

def maxNdnPacketSize : Nat := 8800

section Cut

/-- The stream consists of blocks of at most `limit` octets, followed by octets that do not begin with
such a block. -/
inductive Cut (limit : Nat) : List UInt8 → List Element → List UInt8 → Prop where
  | rest {rest} (h : ∀ e : Element, e.IsFront rest → limit < e.octets.length) :
      Cut limit rest [] rest
  | block {e : Element} {stream blocks rest} (hwire : e.hasWire = true)
      (hle : e.octets.length ≤ limit) (h : Cut limit stream blocks rest) :
      Cut limit (e.octets ++ stream) (e :: blocks) rest

variable {limit : Nat} {stream more rest rest' : List UInt8} {blocks blocks' : List Element}

theorem isFront_append (h : e.hasWire = true) (rest : List UInt8) :
    e.IsFront (e.octets ++ rest) := by
  obtain ⟨wire,hwire⟩ := Option.isSome_iff_exists.mp h
  exact ⟨wire,rest,hwire,by rw [octets_of_wire hwire]⟩

theorem exists_of_isFront (h : e.IsFront stream) :
    e.hasWire = true ∧ ∃ rest, stream = e.octets ++ rest := by
  obtain ⟨wire,rest,hwire,hstream⟩ := h
  exact ⟨by simp [hasWire,hwire],rest,by rw [octets_of_wire hwire,hstream]⟩

theorem Cut.stream_eq (h : Cut limit stream blocks rest) : stream = allOctets blocks ++ rest := by
  induction h with
  | rest => rfl
  | block _ _ _ ih => rw [ih,allOctets_cons,append_assoc]

theorem Cut.length_le (h : Cut limit stream blocks rest) : rest.length ≤ stream.length := by
  rw [h.stream_eq,length_append]
  exact Nat.le_add_left _ _

theorem Cut.no_block (h : Cut limit stream blocks rest) (hfront : e.IsFront rest) :
    limit < e.octets.length := by
  induction h with
  | rest h => exact h e hfront
  | block _ _ _ ih => exact ih hfront

theorem Cut.unique (h : Cut limit stream blocks rest) (h' : Cut limit stream blocks' rest') :
    blocks = blocks' ∧ rest = rest' := by
  induction h generalizing blocks' with
  | rest h =>
    cases h' with
    | rest => exact ⟨rfl,rfl⟩
    | block hwire hle _ => exact absurd (h _ (isFront_append hwire _)) (not_lt.mpr hle)
  | @block e stream blocks rest hwire hle _ ih =>
    generalize hstream : e.octets ++ stream = whole at h'
    cases h' with
    | rest h =>
      exact absurd (h e (hstream ▸ isFront_append hwire stream)) (not_lt.mpr hle)
    | block hwire' _ h' =>
      have hfront := isFront_append hwire stream
      rw [hstream] at hfront
      obtain rfl := hfront.unique (isFront_append hwire' _)
      obtain rfl := append_cancel_left hstream
      obtain ⟨rfl,rfl⟩ := ih h'
      exact ⟨rfl,rfl⟩

theorem exists_cut (limit : Nat) (stream : List UInt8) :
    ∃ blocks rest, Cut limit stream blocks rest := by
  induction hn : stream.length using Nat.strong_induction_on generalizing stream with
  | _ n ih =>
    by_cases hblock : ∃ e : Element, e.IsFront stream ∧ e.octets.length ≤ limit
    · obtain ⟨e,hfront,hle⟩ := hblock
      obtain ⟨hwire,tail,rfl⟩ := exists_of_isFront hfront
      have hpos := length_pos_iff.mpr (octets_ne_nil hwire)
      rw [length_append] at hn
      obtain ⟨blocks,rest,hcut⟩ := ih tail.length (by omega) tail rfl
      exact ⟨e :: blocks,rest,.block hwire hle hcut⟩
    · have hlarge : ∀ e : Element, e.IsFront stream → limit < e.octets.length := by
        simpa using hblock
      exact ⟨[],stream,.rest hlarge⟩

/-- What comes later is cut together with the octets that were left. -/
theorem Cut.append (h : Cut limit stream blocks rest) (h' : Cut limit (rest ++ more) blocks' rest') :
    Cut limit (stream ++ more) (blocks ++ blocks') rest' := by
  induction h with
  | rest => exact h'
  | block hwire hle _ ih =>
    rw [append_assoc]
    exact .block hwire hle (ih h')

theorem Cut.append_of_full (h : Cut limit stream blocks rest) (hfull : limit ≤ rest.length)
    (more : List UInt8) : Cut limit (stream ++ more) blocks (rest ++ more) := by
  have hrest : Cut limit (rest ++ more) [] (rest ++ more) := by
    apply Cut.rest
    intro e hfront
    by_contra hle
    rw [not_lt] at hle
    obtain ⟨hwire,tail,htail⟩ := exists_of_isFront hfront
    have hprefix : e.octets <+: rest :=
      prefix_of_prefix_length_le ⟨tail,htail.symm⟩ (prefix_append _ _) (hle.trans hfull)
    obtain ⟨tail',rfl⟩ := hprefix
    exact absurd (h.no_block (isFront_append hwire tail')) (not_lt.mpr hle)
  simpa using h.append hrest

theorem Cut.prefix_of_append (h : Cut limit stream blocks rest)
    (h' : Cut limit (stream ++ more) blocks' rest') : blocks <+: blocks' := by
  obtain ⟨later,last,hlater⟩ := exists_cut limit (rest ++ more)
  rw [((h.append hlater).unique h').1.symm]
  exact prefix_append _ _

theorem cut_nil (limit : Nat) : Cut limit [] [] [] := by
  apply Cut.rest
  intro e hfront
  obtain ⟨hwire,tail,htail⟩ := exists_of_isFront hfront
  exact absurd (append_eq_nil_iff.mp htail.symm).1 (octets_ne_nil hwire)

theorem cut_allOctets (h : ∀ e ∈ blocks, e.hasWire = true ∧ e.octets.length ≤ limit) :
    Cut limit (allOctets blocks) blocks [] := by
  induction blocks with
  | nil => exact cut_nil limit
  | cons e blocks ih =>
    obtain ⟨he,hblocks⟩ := forall_mem_cons.mp h
    exact .block he.1 he.2 (ih hblocks)

end Cut

section Receiving

def processAllReceived : Nat → List UInt8 → Bool × List Element × List UInt8
  | 0, view => (true,[],view)
  | fuel + 1, view =>
    if view = [] then (true,[],view)
    else
      match fromBuffer view with
      | none => (false,[],view)
      | some element =>
        let (isOk,elements,left) := processAllReceived fuel (view.drop element.size)
        (isOk,element :: elements,left)

/-- A completed receive: what is delivered, what stays in the buffer, and whether the buffer is full
of octets that do not begin with a block. -/
def handleReceived (buffer : List UInt8) : List Element × List UInt8 × Bool :=
  let (isOk,elements,left) := processAllReceived buffer.length buffer
  let offset := buffer.length - left.length
  (elements,left,!isOk && buffer.length == maxNdnPacketSize && offset == 0)

theorem size_eq (h : e.hasWire = true) : e.size = e.octets.length := by
  obtain ⟨wire,hwire⟩ := Option.isSome_iff_exists.mp h
  rw [octets_of_wire hwire,size,hwire]

theorem processAllReceived_spec {fuel limit : Nat} {view : List UInt8} (hfuel : view.length ≤ fuel)
    (hlimit : view.length ≤ limit) :
    Cut limit view (processAllReceived fuel view).2.1 (processAllReceived fuel view).2.2 ∧
      ((processAllReceived fuel view).1 = true ↔ (processAllReceived fuel view).2.2 = []) := by
  induction fuel generalizing view with
  | zero =>
    rw [eq_nil_of_length_eq_zero (Nat.le_zero.mp hfuel)]
    exact ⟨cut_nil limit,by simp [processAllReceived]⟩
  | succ fuel ih =>
    by_cases hview : view = []
    · simp [processAllReceived,hview,cut_nil]
    · cases hread : fromBuffer view with
      | none =>
        simp only [processAllReceived,if_neg hview,hread]
        refine ⟨.rest fun e hfront => ?_,by simp [hview]⟩
        exact absurd (hread.symm.trans (fromBuffer_eq_some.mpr hfront)) (by simp)
      | some e =>
        obtain ⟨hwire,tail,rfl⟩ := exists_of_isFront (fromBuffer_eq_some.mp hread)
        have hpos := length_pos_iff.mpr (octets_ne_nil hwire)
        rw [length_append] at hfuel hlimit
        simp only [processAllReceived,if_neg hview,hread,size_eq hwire,drop_left]
        obtain ⟨hcut,hok⟩ := @ih tail (by omega) (by omega)
        exact ⟨.block hwire (by omega) hcut,hok⟩

theorem handleReceived_spec {buffer : List UInt8} (h : buffer.length ≤ maxNdnPacketSize) :
    Cut maxNdnPacketSize buffer (handleReceived buffer).1 (handleReceived buffer).2.1 ∧
      ((handleReceived buffer).2.2 = true ↔
        (handleReceived buffer).2.1.length = maxNdnPacketSize) := by
  obtain ⟨hcut,hok⟩ := processAllReceived_spec (le_refl buffer.length) h
  unfold handleReceived
  generalize processAllReceived buffer.length buffer = r at hcut hok
  obtain ⟨isOk,elements,left⟩ := r
  dsimp only at hcut hok ⊢
  refine ⟨hcut,?_⟩
  have hle := hcut.length_le
  simp only [and_eq_true,not_eq_true',beq_iff_eq]
  rw [← not_eq_true,hok]
  constructor
  · rintro ⟨⟨_,hfull⟩,hoffset⟩
    omega
  · intro hleft
    refine ⟨⟨?_,by omega⟩,by omega⟩
    rintro rfl
    exact absurd hleft (by decide)

end Receiving

structure StreamTransport where
  receiveBuffer : List UInt8 := []
  received : List Element := []
  isFailed : Bool := false

namespace StreamTransport

/-- The size of the buffer that a receive is started with. -/
def room (t : StreamTransport) : Nat := maxNdnPacketSize - t.receiveBuffer.length

def handleReceive (t : StreamTransport) (chunk : List UInt8) : StreamTransport :=
  let (elements,left,isFailed) := handleReceived (t.receiveBuffer ++ chunk)
  ⟨left,t.received ++ elements,isFailed⟩

def step (t : StreamTransport) (chunk : List UInt8) : Option StreamTransport :=
  if t.isFailed = false ∧ chunk ≠ [] ∧ chunk.length ≤ t.room then some (t.handleReceive chunk)
  else none

def run (chunks : List (List UInt8)) : Option StreamTransport := chunks.foldlM step {}

/-- The stream so far is cut into what was delivered and what is in the buffer, which is full only
when the transport has failed. -/
structure Framing (stream : List UInt8) (t : StreamTransport) : Prop where
  cut : Cut maxNdnPacketSize stream t.received t.receiveBuffer
  le : t.receiveBuffer.length ≤ maxNdnPacketSize
  isFailed_iff : t.isFailed = true ↔ t.receiveBuffer.length = maxNdnPacketSize

variable {stream chunk : List UInt8} {t t' : StreamTransport}

theorem Framing.step (h : Framing stream t) (hstep : t.step chunk = some t') :
    Framing (stream ++ chunk) t' := by
  unfold StreamTransport.step at hstep
  split_ifs at hstep with hchunk
  cases hstep
  have hle := h.le
  have hroom := hchunk.2.2
  unfold room at hroom
  have hbuffer : (t.receiveBuffer ++ chunk).length ≤ maxNdnPacketSize := by
    rw [length_append]
    omega
  obtain ⟨hcut,hfailed⟩ := handleReceived_spec hbuffer
  exact ⟨h.cut.append hcut,hcut.length_le.trans hbuffer,hfailed⟩

theorem framing_run {chunks : List (List UInt8)} (h : run chunks = some t) :
    Framing chunks.flatten t := by
  induction chunks using reverseRecOn generalizing t with
  | nil =>
    cases h
    exact ⟨cut_nil _,by simp,by simp [maxNdnPacketSize]⟩
  | append_singleton chunks chunk ih =>
    obtain ⟨t₁,hrun,hstep⟩ := foldlM_concat h
    rw [flatten_append,flatten_singleton]
    exact (ih hrun).step hstep

/-- A stream has one cut. However it is divided, the blocks of its cut are delivered in order, and
every receive is started with some room. The transport fails exactly if as many octets as the buffer
holds follow these blocks. A stream that consists of packets is cut into them, and nothing
follows. -/
theorem run_framing (stream : List UInt8) : ∃ blocks rest, Cut maxNdnPacketSize stream blocks rest ∧
      (∀ blocks' rest', Cut maxNdnPacketSize stream blocks' rest' → blocks = blocks' ∧ rest = rest') ∧
      (∀ packets, (∀ e ∈ packets, e.hasWire = true ∧ e.octets.length ≤ maxNdnPacketSize) →
        stream = allOctets packets → blocks = packets ∧ rest = []) ∧
      ∀ chunks t, run chunks = some t → chunks.flatten <+: stream →
        t.received <+: blocks ∧ (t.isFailed = false → 0 < t.room) ∧
        (t.isFailed = true → t.received = blocks ∧ maxNdnPacketSize ≤ rest.length) ∧
        (t.isFailed = false → chunks.flatten = stream →
          t.received = blocks ∧ t.receiveBuffer = rest ∧ rest.length < maxNdnPacketSize) := by
  obtain ⟨blocks,rest,hcut⟩ := exists_cut maxNdnPacketSize stream
  refine ⟨blocks,rest,hcut,fun blocks' rest' => hcut.unique,fun packets hpackets hstream => ?_,
    fun chunks t hrun hprefix => ?_⟩
  · subst hstream
    exact hcut.unique (cut_allOctets hpackets)
  · have h := framing_run hrun
    obtain ⟨more,rfl⟩ := hprefix
    have hle := h.le
    have hroom : t.isFailed = false → t.receiveBuffer.length < maxNdnPacketSize := by
      intro hup
      have hne := mt h.isFailed_iff.mpr (by simp [hup])
      omega
    refine ⟨h.cut.prefix_of_append hcut,fun hup => Nat.sub_pos_of_lt (hroom hup),?_,?_⟩
    · intro hfailed
      have hfull := h.isFailed_iff.mp hfailed
      obtain ⟨hblocks,hrest⟩ := (h.cut.append_of_full hfull.ge more).unique hcut
      rw [← hrest,length_append]
      exact ⟨hblocks,by omega⟩
    · intro hup hall
      rw [← hall] at hcut
      obtain ⟨hblocks,hrest⟩ := h.cut.unique hcut
      exact ⟨hblocks,hrest,hrest ▸ hroom hup⟩

/-- No block has the type 0, but a transport that has received no more than such octets waits for
others. -/
theorem run_waits : (∀ more (e : Element),¬e.IsFront ([0,0] ++ more)) ∧
      ∀ chunks t, run chunks = some t → chunks.flatten = [0,0] →
        t.isFailed = false ∧ t.received = [] := by
  have hzero : ∀ more (e : Element),¬e.IsFront ([0,0] ++ more) := by
    intro more e hfront
    have hread : fromBuffer ([0,0] ++ more) = none := rfl
    exact absurd (hread.symm.trans (fromBuffer_eq_some.mpr hfront)) (by simp)
  refine ⟨hzero,fun chunks t hrun hstream => ?_⟩
  have h := framing_run hrun
  rw [hstream] at h
  have hcut : Cut maxNdnPacketSize [0,0] [] [0,0] :=
    .rest fun e hfront => absurd hfront (hzero [] e)
  obtain ⟨hreceived,hbuffer⟩ := h.cut.unique hcut
  have hup := mt h.isFailed_iff.mp (by rw [hbuffer]; decide)
  exact ⟨by simpa using hup,hreceived⟩

end StreamTransport

end KiteNdn.Transport
