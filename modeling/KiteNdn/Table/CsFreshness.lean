import KiteNdn.Kite.Rv
import KiteNdn.Table.ContentStore

/-!
# How long a stored Data is fresh

The freshness period is an unsigned number of milliseconds on the wire, a signed one in the packet
and nanoseconds when it is added to the clock, each of 64 bits.
-/

namespace KiteNdn.Packet

open Framework Tlv Option List

private theorem exists_of_bind {ε α β : Type} {x : Except ε α} {f : α → Except ε β} {b : β}
    (h : x >>= f = .ok b) : ∃ a, x = .ok a ∧ f a = .ok b := by
  cases x with
  | error e => exact nomatch h
  | ok a => exact ⟨a,rfl,h⟩

private theorem exists_of_map {ε α β : Type} {x : Except ε α} {f : α → β} {b : β}
    (h : x.map f = .ok b) : ∃ a, x = .ok a ∧ f a = b := by
  cases x with
  | error e => exact nomatch h
  | ok a => exact ⟨a,rfl,Except.ok.inj h⟩

namespace MetaInfo

/-- The number in the freshness period element, which may only follow the content type. -/
def freshnessCount (elements : List Element) : Nat :=
  match (next TlvType.freshnessPeriod (next TlvType.contentType elements).2).1 with
  | some element => ((readNonNegativeInteger element.value).toOption).getD 0
  | none => 0

def wireFreshness (wire : Element) : Nat :=
  ((Element.parse wire.value).toOption.map freshnessCount).getD 0

theorem wireDecode_freshness {wire : Element} {m m' : MetaInfo}
    (h : wireDecode wire m = .ok m') : m'.freshnessPeriod.toInt = wrap64 (wireFreshness wire) := by
  unfold wireDecode at h
  obtain ⟨elements,helements,h⟩ := exists_of_bind h
  rw [wireFreshness,helements,Except.toOption,map_some,getD_some,freshnessCount]
  generalize next TlvType.contentType elements = contentType at h ⊢
  obtain ⟨contentType,elements⟩ := contentType
  dsimp only at h ⊢
  generalize next TlvType.freshnessPeriod elements = freshness at h ⊢
  obtain ⟨freshness,elements⟩ := freshness
  dsimp only at h ⊢
  -- Whatever the content type and the final block are, the period is what its element says.
  have hperiod : freshness.elim (.ok 0) (fun element => (readNonNegativeInteger element.value).map
      fun count => (UInt64.ofNat count).toInt64) = .ok m'.freshnessPeriod := by
    cases contentType <;> obtain ⟨type,-,h⟩ := exists_of_bind h <;>
      cases freshness <;> obtain ⟨period,hperiod,h⟩ := exists_of_bind h <;>
      split at h <;> obtain ⟨final,-,h⟩ := exists_of_bind h <;> cases h <;> exact hperiod
  cases freshness with
  | none =>
    rw [← Except.ok.inj hperiod]
    rfl
  | some element =>
    obtain ⟨count,hread,hcount⟩ := exists_of_map hperiod
    dsimp only
    rw [← hcount,hread]
    exact toInt_toInt64_ofNat count

end MetaInfo

namespace Data

def freshnessCount (elements : List Element) : Nat :=
  ((elements.find? fun e => e.type = TlvType.metaInfo).map MetaInfo.wireFreshness).getD 0

def wireFreshness (wire : Element) : Nat :=
  ((Element.parse wire.value).toOption.map freshnessCount).getD 0

variable {d d' : Data} {last l : Nat} {e : Element} {es : List Element}

private theorem freshnessCount_cons_of_ne (h : e.type ≠ TlvType.metaInfo) :
    freshnessCount (e :: es) = freshnessCount es := by
  rw [freshnessCount,freshnessCount,find?_cons_of_neg (by simpa using h)]

private theorem decodeElement_metaInfo (h : decodeElement (d,last) e = .ok (d',l)) :
    last ≤ l ∧ (e.type ≠ TlvType.metaInfo ∧ d'.metaInfo = d.metaInfo ∨
      e.type = TlvType.metaInfo ∧ last < 2 ∧ l = 2 ∧
        d.metaInfo.wireDecode e = .ok d'.metaInfo) := by
  unfold decodeElement at h
  dsimp only at h
  split_ifs at h with hmeta hlast
  · obtain ⟨m,hm,heq⟩ := exists_of_map h
    cases heq
    exact ⟨by omega,.inr ⟨hmeta,by omega,rfl,hm⟩⟩
  · cases h
    exact ⟨by omega,.inl ⟨hmeta,rfl⟩⟩
  · obtain ⟨info,-,heq⟩ := exists_of_map h
    cases heq
    exact ⟨by omega,.inl ⟨hmeta,rfl⟩⟩
  · cases h
    exact ⟨by omega,.inl ⟨hmeta,rfl⟩⟩
  · cases h
    exact ⟨le_rfl,.inl ⟨hmeta,rfl⟩⟩

private theorem fold_after_metaInfo (hlast : 2 ≤ last)
    (h : es.foldlM decodeElement (d,last) = .ok (d',l)) : d'.metaInfo = d.metaInfo := by
  induction es generalizing d last with
  | nil =>
    cases h
    rfl
  | cons e es ih =>
    rw [foldlM_cons] at h
    obtain ⟨⟨d₁,l₁⟩,he,h⟩ := exists_of_bind h
    obtain ⟨hle,hcases⟩ := decodeElement_metaInfo he
    rw [ih (hlast.trans hle) h]
    rcases hcases with ⟨_,hkeeps⟩ | ⟨_,hlt,_⟩
    · exact hkeeps
    · omega

private theorem fold_freshness (h : es.foldlM decodeElement (d,last) = .ok (d',l))
    (hd : d.metaInfo.freshnessPeriod = 0) :
    d'.metaInfo.freshnessPeriod.toInt = wrap64 (freshnessCount es) := by
  induction es generalizing d last with
  | nil =>
    cases h
    rw [hd]
    rfl
  | cons e es ih =>
    rw [foldlM_cons] at h
    obtain ⟨⟨d₁,l₁⟩,he,h⟩ := exists_of_bind h
    obtain ⟨-,⟨hne,hkeeps⟩ | ⟨heq,-,hl,hdecode⟩⟩ := decodeElement_metaInfo he
    · rw [freshnessCount_cons_of_ne hne]
      exact ih h (by rw [hkeeps,hd])
    · rw [fold_after_metaInfo hl.ge h,MetaInfo.wireDecode_freshness hdecode,freshnessCount,
        find?_cons_of_pos (by simpa using heq)]
      rfl

theorem wireDecode_freshness {wire : Element} (h : wireDecode wire = .ok d) :
    d.metaInfo.freshnessPeriod.toInt = wrap64 (wireFreshness wire) := by
  obtain ⟨element,elements,name,d',last,hparse,htype,-,hfold,-,rfl⟩ := wireDecode_eq_ok h
  have hne : element.type ≠ TlvType.metaInfo := by
    rw [htype]
    decide
  rw [wireFreshness,hparse,Except.toOption,map_some,getD_some,
    freshnessCount_cons_of_ne hne]
  have hperiod := fold_freshness hfold rfl
  exact hperiod

end Data

end KiteNdn.Packet

namespace KiteNdn.Table.Cs

open Framework Option List

section Runs

variable {κ : Type} [NameComponent κ] {cs cs' : Cs κ} {x : CsEntry κ}

theorem mem_values_of_eraseRef {table table' : CsTable κ} {i : EntryRef}
    (h : table.eraseRef i = some table') (hx : x ∈ table'.values) : x ∈ table.values := by
  obtain ⟨e,-,rfl⟩ := map_eq_some_iff.mp h
  exact (CsTable.mem_erase.mp hx).1

theorem mem_values_of_evictOne (h : cs.evictOne = some cs') (hx : x ∈ cs'.table.values) :
    x ∈ cs.table.values := by
  unfold Cs.evictOne at h
  split at h
  · obtain ⟨i,-,h⟩ := bind_eq_some_iff.mp h
    obtain ⟨cs₁,h₁,h⟩ := bind_eq_some_iff.mp h
    obtain ⟨table,htable,rfl⟩ := map_eq_some_iff.mp h
    rw [← (keepsTable_detachQueue h₁).1]
    exact mem_values_of_eraseRef htable hx
  · obtain ⟨i,-,h⟩ := bind_eq_some_iff.mp h
    obtain ⟨table,htable,rfl⟩ := map_eq_some_iff.mp h
    exact mem_values_of_eraseRef htable hx

theorem mem_values_of_evictLoop {fuel : Nat} (h : evictLoop fuel cs = some cs')
    (hx : x ∈ cs'.table.values) : x ∈ cs.table.values := by
  induction fuel generalizing cs with
  | zero =>
    rw [Cs.evictLoop] at h
    split_ifs at h
    cases h
    exact hx
  | succ fuel ih =>
    rw [Cs.evictLoop] at h
    split_ifs at h
    · obtain ⟨cs₁,h₁,h⟩ := bind_eq_some_iff.mp h
      exact mem_values_of_evictOne h₁ (ih h)
    · cases h
      exact hx

theorem mem_values_of_eraseOne {e : CsEntry κ} (h : cs.eraseOne e = some cs')
    (hx : x ∈ cs'.table.values) : x ∈ cs.table.values := by
  obtain ⟨cs₁,h₁,h⟩ := bind_eq_some_iff.mp h
  obtain ⟨table,htable,rfl⟩ := map_eq_some_iff.mp h
  rw [← (keepsTable_beforeErase h₁).1]
  exact mem_values_of_eraseRef htable hx

theorem mem_values_of_afterInsert {i : EntryRef} {now : Time} (h : cs.afterInsert i now = some cs')
    (hx : x ∈ cs'.table.values) : x ∈ cs.table.values := by
  obtain ⟨cs₁,h₁,h⟩ := bind_eq_some_iff.mp h
  have htable : cs₁.table = cs.table := by
    split at h₁
    · exact (keepsTable_attachQueue h₁).1
    · exact (keepsTable_insertToQueue h₁).1
  rw [← htable]
  exact mem_values_of_evictLoop h hx

def keyOf (data : Data κ) : CsKey κ := toLex (data.name,⟨Component.implicitSha256Digest,data.digest⟩)

def Op.stores (key : CsKey κ) : Op κ → Bool
  | .insert data _ _ _ _ => keyOf data = key
  | _ => false

theorem mem_values_of_insert {data : Data κ} {isUnsolicited noCache : Bool} {now later : Time}
    (h : cs.insert data isUnsolicited noCache now later = some cs') (hx : x ∈ cs'.table.values) :
    x ∈ cs.table.values ∧ (x.key = keyOf data → (!cs.shouldAdmit || cs.limit = 0 || noCache) = true) ∨
      (cs.shouldAdmit = true ∧ cs.limit ≠ 0 ∧ noCache = false) ∧ x.key = keyOf data ∧
        x.freshUntil = addDuration now (toNanoseconds x.data.freshnessPeriod) := by
  unfold Cs.insert at h
  split_ifs at h with hadmits hcache
  · cases h
    exact .inl ⟨hx,fun _ => by rw [hadmits,Bool.true_or]⟩
  · cases h
    exact .inl ⟨hx,fun _ => by rw [hcache,Bool.or_true]⟩
  · have hadmitted : cs.shouldAdmit = true ∧ cs.limit ≠ 0 ∧ noCache = false := by
      simpa [and_assoc] using And.intro hadmits hcache
    dsimp only at h
    split at h
    · rename_i e hfind
      rw [(keepsTable_afterRefresh h).1] at hx
      have hkey := (CsTable.find?_eq_some_iff.mp hfind).2
      rcases CsTable.mem_put.mp hx with rfl | ⟨hx,hne⟩
      · right
        split_ifs <;> exact ⟨hadmitted,hkey,rfl⟩
      · refine .inl ⟨hx,fun heq => absurd (heq.trans ?_) hne⟩
        split_ifs <;> exact hkey.symm
    · rcases CsTable.mem_put.mp (mem_values_of_afterInsert h hx) with rfl | ⟨hx,hne⟩
      · exact .inr ⟨hadmitted,rfl,rfl⟩
      · exact .inl ⟨hx,fun heq => absurd heq hne⟩

theorem mem_values_of_step {op : Op κ} (h : cs.step op = some cs') (hx : x ∈ cs'.table.values)
    (hop : op.stores x.key = false) : x ∈ cs.table.values := by
  cases op with
  | insert data isUnsolicited noCache now later =>
    rcases mem_values_of_insert h hx with ⟨hx,-⟩ | ⟨-,hkey,-⟩
    · exact hx
    · exact absurd hkey.symm (of_decide_eq_false hop)
  | find interest now =>
    obtain ⟨found,-,h⟩ := bind_eq_some_iff.mp h
    cases found with
    | none => exact some.inj h ▸ hx
    | some e => exact (keepsTable_beforeUse h).1 ▸ hx
  | erase pfx limit =>
    obtain ⟨range,-,h⟩ := bind_eq_some_iff.mp h
    refine foldlM_keeps (fun s : Cs κ => x ∈ s.table.values → x ∈ cs.table.values)
      (fun s e s' hs hstep hx => hs (mem_values_of_eraseOne hstep hx)) _ (fun hx => hx) h hx
  | setLimit nMaxPackets =>
    change evictLoop _ { cs with limit := nMaxPackets } = some cs' at h
    have hx := mem_values_of_evictLoop h hx
    exact hx
  | setPolicy name =>
    change evictLoop _ { cs with policy := Policy.create name } = some cs' at h
    have hx := mem_values_of_evictLoop h hx
    exact hx
  | fire event => exact (keepsTable_fire h).1 ▸ hx
  | _ =>
    cases h
    exact hx

theorem mem_values_of_run {ops : List (Op κ)} (h : ops.foldlM step cs = some cs')
    (hx : x ∈ cs'.table.values) (hops : ∀ op ∈ ops, op.stores x.key = false) :
    x ∈ cs.table.values := by
  induction ops generalizing cs with
  | nil => exact some.inj h ▸ hx
  | cons op ops ih =>
    rw [foldlM_cons] at h
    obtain ⟨cs₁,h₁,h⟩ := bind_eq_some_iff.mp h
    apply mem_values_of_step h₁
    · exact ih h fun op hop => hops op (mem_cons_of_mem _ hop)
    · exact hops op mem_cons_self

/-- The insertion that made or last updated an entry, and that was admitted. -/
theorem exists_insert_of_run {ops : List (Op κ)} (h : ops.foldlM step cs = some cs')
    (hx : x ∈ cs'.table.values) (hnew : x ∉ cs.table.values) :
    ∃ past data isUnsolicited t later future cs₀,
      ops = past ++ .insert data isUnsolicited false t later :: future ∧
      past.foldlM step cs = some cs₀ ∧ cs₀.shouldAdmit = true ∧ cs₀.limit ≠ 0 ∧
      keyOf data = x.key := by
  induction ops generalizing cs with
  | nil => exact absurd (some.inj h ▸ hx) hnew
  | cons op ops ih =>
    rw [foldlM_cons] at h
    obtain ⟨cs₁,h₁,h⟩ := bind_eq_some_iff.mp h
    by_cases hx₁ : x ∈ cs₁.table.values
    · -- The entry is there after the first operation.
      have hstores : op.stores x.key = true := by
        by_contra hno
        exact hnew (mem_values_of_step h₁ hx₁ (Bool.eq_false_of_not_eq_true hno))
      cases op with
      | insert data isUnsolicited noCache t later =>
        rcases mem_values_of_insert h₁ hx₁ with ⟨hold,-⟩ | ⟨⟨hadmitted,hlimit,rfl⟩,hkey,-⟩
        · exact absurd hold hnew
        · exact ⟨[],data,isUnsolicited,t,later,ops,cs,rfl,rfl,hadmitted,hlimit,hkey.symm⟩
      | _ => exact nomatch hstores
    · obtain ⟨past,data,isUnsolicited,t,later,future,cs₀,rfl,hpast,hinsert⟩ := ih h hx₁
      refine ⟨op :: past,data,isUnsolicited,t,later,future,cs₀,rfl,?_,hinsert⟩
      rw [foldlM_cons,h₁]
      exact hpast

/-- After any run the store is within its limit, and what a lookup finds satisfies the Interest and
has been inserted under its full name when the store admitted it. -/
theorem findMatch_inserted (nMaxPackets : Nat) (ops : List (Op κ))
    (h : run nMaxPackets ops = some cs) :
    cs.size ≤ cs.limit ∧ ∀ interest now x, cs.findMatch interest now = some (some x) →
      x.canSatisfy now interest = true ∧
      ∃ past data isUnsolicited t later future cs₀,
        ops = past ++ .insert data isUnsolicited false t later :: future ∧
        run nMaxPackets past = some cs₀ ∧ cs₀.shouldAdmit = true ∧ cs₀.limit ≠ 0 ∧
        keyOf data = x.key := by
  refine ⟨size_le_limit h,fun interest now x hx => ?_⟩
  obtain ⟨hmem,hsat⟩ := mem_of_findMatch hx
  exact ⟨hsat,exists_insert_of_run h hmem (fun hold => nomatch hold)⟩

theorem findMatch_inserted_digest : ∃ cs x, run 1 [storesDigest] = some cs ∧
    cs.findMatch { name := [letterA], nonce := [] } 0 = some (some x) ∧ cs.size ≤ 1 ∧
    ∃ past data isUnsolicited t later future cs₀,
      [storesDigest] = past ++ .insert data isUnsolicited false t later :: future ∧
      run 1 past = some cs₀ ∧ cs₀.shouldAdmit = true ∧ cs₀.limit ≠ 0 ∧ keyOf data = x.key := by
  obtain ⟨hsize,hfound⟩ := findMatch_inserted 1 [storesDigest] rfl
  refine ⟨_,_,rfl,rfl,hsize,?_⟩
  exact (hfound { name := [letterA], nonce := [] } 0 _ rfl).2

end Runs

section Freshness

variable {x : CsEntry}

theorem isFresh_of_updated {wire : Tlv.Element} {d : Packet.Data} {t now : Time}
    (hd : Packet.Data.wireDecode wire = .ok d)
    (hperiod : x.data.freshnessPeriod = d.metaInfo.freshnessPeriod.toInt)
    (hx : x.freshUntil = addDuration t (toNanoseconds x.data.freshnessPeriod)) :
    x.isFresh now = true ↔
      now ≤ wrap64 (t + Packet.Data.wireFreshness wire * nanosecondsPerMillisecond) := by
  rw [CsEntry.isFresh,decide_eq_true_eq,hx,hperiod,Packet.Data.wireDecode_freshness hd,addDuration,
    toNanoseconds,wrap64_wrap64_mul,wrap64_add_wrap64,ge_iff_le]

private theorem le_wrap64_iff_lt (t period now : Int) (ht : 0 ≤ t) (hperiod : 0 ≤ period)
    (hnow : now < 2^63) :
    (now ≤ wrap64 (t + period) ↔ now < t + period) ↔
      (t + period < 2^63 ∧ now ≠ t + period) ∨ (2^63 ≤ t + period ∧ now ≤ wrap64 (t + period)) := by
  by_cases h : t + period < 2^63
  · rw [wrap64_of_fits (by omega) h]
    omega
  · have hlt : now < t + period := by omega
    simp only [hlt,iff_true,h,false_and,false_or,show 2^63 ≤ t + period by omega,true_and]

/-- A packet from the wire is inserted or refreshed at `t` and its entry is still in the store after
further operations. At a later time, the entry is fresh exactly if its period is not over in the
following two cases: the end of the period can be told in 64 bits and it is not just now, or it
cannot and the time has not reached what is left of it. -/
theorem isFresh_iff_within (decodeValidity : Tlv.Element → Except String (Time × Time))
    (wire : Tlv.Element) (d : Packet.Data) (hd : Packet.Data.wireDecode wire = .ok d)
    (digest : List UInt8) (cs₀ cs₁ cs₂ : Cs) (data : Data) (isUnsolicited : Bool)
    (t later now : Time) (ops : List Op) (hadmits : cs₀.shouldAdmit = true) (hlimit : cs₀.limit ≠ 0)
    (hinsert : cs₀.insert data isUnsolicited false t later = some cs₁)
    (hrun : ops.foldlM step cs₁ = some cs₂) (hops : ∀ op ∈ ops, op.stores (keyOf data) = false)
    (x : CsEntry) (hx : x ∈ cs₂.table.values) (hkey : x.key = keyOf data)
    (hdata : x.data = { Data.ofPacket decodeValidity d with digest := digest })
    (ht : 0 ≤ t) (hnow : now < 2^63) :
    let period := Packet.Data.wireFreshness wire * nanosecondsPerMillisecond
    (x.isFresh now = true ↔ now < t + period) ↔
      (t + period < 2^63 ∧ now ≠ t + period) ∨ (2^63 ≤ t + period ∧ now ≤ wrap64 (t + period)) := by
  have hx₁ := mem_values_of_run hrun hx (hkey ▸ hops)
  rcases mem_values_of_insert hinsert hx₁ with ⟨-,hrefused⟩ | ⟨-,-,hfresh⟩
  · simp [hadmits,hlimit] at hrefused
    exact absurd hkey hrefused
  · intro period
    rw [isFresh_of_updated hd (by rw [hdata]; rfl) hfresh]
    exact le_wrap64_iff_lt t period now ht (Int.mul_nonneg (Int.natCast_nonneg _) (by decide)) hnow

def packetA (freshness : List UInt8) : List UInt8 :=
  [6,UInt8.ofNat (19 + freshness.length),7,3,8,1,65,20,UInt8.ofNat (2 + freshness.length),
    25,UInt8.ofNat freshness.length] ++ freshness ++ [21,0,22,3,27,1,0,23,1,0]

private theorem exists_decodedA (freshness : List UInt8) (period : Nat)
    (h : ((Tlv.Element.ofSpan (packetA freshness)).toOption.any fun wire =>
      (Packet.Data.wireDecode wire).toOption.isSome &&
        Packet.Data.wireFreshness wire = period) = true) :
    ∃ wire d, Packet.Data.wireDecode wire = .ok d ∧ Packet.Data.wireFreshness wire = period := by
  obtain ⟨wire,-,h⟩ := (any_eq_true _ _).mp h
  obtain ⟨hdecode,hperiod⟩ := (Bool.and_eq_true _ _).mp h
  cases hd : Packet.Data.wireDecode wire with
  | error message =>
    rw [hd] at hdecode
    exact nomatch hdecode
  | ok d => exact ⟨wire,d,hd,of_decide_eq_true hperiod⟩

private theorem exists_stored (data : Data) (t later : Time) : ∃ cs x,
    (empty 1).insert data false false t later = some cs ∧ x ∈ cs.table.values ∧ x.data = data ∧
      x.key = keyOf data ∧
      x.freshUntil = addDuration t (toNanoseconds data.freshnessPeriod) :=
  ⟨_,⟨0,data,false,_⟩,rfl,mem_singleton_self _,rfl,rfl,rfl⟩

theorem isFresh_within_millisecond : ∃ wire d cs x,
    Packet.Data.wireDecode wire = .ok d ∧ Packet.Data.wireFreshness wire = 1 ∧
      (empty 1).insert { Data.ofPacket (fun _ => .error "") d with digest := [] } false false 0 0 =
        some cs ∧ x ∈ cs.table.values ∧ x.isFresh 999999 = true := by
  obtain ⟨wire,d,hd,hperiod⟩ := exists_decodedA [1] 1 (by decide +kernel)
  obtain ⟨cs,x,hinsert,hx,hdata,hkey,-⟩ :=
    exists_stored { Data.ofPacket (fun _ => .error "") d with digest := [] } 0 0
  have hfresh := isFresh_iff_within _ wire d hd [] (empty 1) cs cs _ false 0 0 999999 [] rfl
    (by decide) hinsert rfl (fun _ h => nomatch h) x hx hkey hdata (by decide) (by decide)
  rw [hperiod] at hfresh
  exact ⟨wire,d,cs,x,hd,hperiod,hinsert,hx,(hfresh.mpr (by decide)).mpr (by decide)⟩

/-- A period of 2^63 milliseconds, the sum of which is just now: the Data is stale at once. -/
theorem stale_at_once : ∃ wire d cs x,
    Packet.Data.wireDecode wire = .ok d ∧ Packet.Data.wireFreshness wire = 2^63 ∧
      (empty 1).insert { Data.ofPacket (fun _ => .error "") d with digest := [] } false false 0 0 =
        some cs ∧ x ∈ cs.table.values ∧
      x.data = { Data.ofPacket (fun _ => .error "") d with digest := [] } ∧
      x.isFresh 1 = false := by
  obtain ⟨wire,d,hd,hperiod⟩ := exists_decodedA [128,0,0,0,0,0,0,0] (2^63)
    (by decide +kernel)
  obtain ⟨cs,x,hinsert,hx,hdata,-,hfresh⟩ :=
    exists_stored { Data.ofPacket (fun _ => .error "") d with digest := [] } 0 0
  refine ⟨wire,d,cs,x,hd,hperiod,hinsert,hx,hdata,?_⟩
  have hiff : x.isFresh 1 = true ↔ _ := isFresh_of_updated hd (by rw [hdata]; rfl) (hdata ▸ hfresh)
  rw [hperiod] at hiff
  exact Bool.eq_false_iff.mpr fun h => absurd (hiff.mp h) (by decide)

end Freshness

end KiteNdn.Table.Cs
