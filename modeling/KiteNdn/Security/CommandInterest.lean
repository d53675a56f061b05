import KiteNdn.Name.Uri
import KiteNdn.Packet.Interest

/-!
# Command Interests and their timestamps

The policy compares the timestamp of an Interest with the last one of its key when the Interest
arrives, and records it when the validation has succeeded. Interests of a key that are validated at
the same time are compared with the same record.
-/

namespace KiteNdn.Security

open Packet Tlv List Option

section Errors

inductive ErrorCode where
  | invalidSignature
  | cannotRetrieveCert
  | expiredCert
  | loopDetected
  | exceededDepthLimit
  | invalidKeyLocator
  | policyError
  | implementationError
  deriving DecidableEq, Repr

/-- A validation fails with an error, or an exception leaves the validator. -/
inductive Refusal where
  | failed (code : ErrorCode) (info : String)
  | thrown (message : String)

def uriText (n : Name) : String := String.ofList (n.toUri .alternate)

end Errors

section KeyLocators

def digestSha256Identity : Name :=
  [['l','o','c','a','l','h','o','s','t'],['i','d','e','n','t','i','t','y'],
    ['d','i','g','e','s','t','-','s','h','a','2','5','6']].map fun text =>
      .generic (text.map Char.toUInt8)

def digestSha256 : UInt16 := 0

def blockFromValue (value : List UInt8) : Except String Element :=
  if value = [] then .error "Cannot construct block from empty TLV-VALUE"
  else
    match Iterator.contiguous.readHeader value with
    | .error message => .error message
    | .ok (_,length,rest) =>
      if length ≠ rest.length then .error "TLV-LENGTH does not match buffer size"
      else Element.ofSpan value

def keyLocatorName (si : SignatureInfo) : Except Refusal Name :=
  if si.type = some digestSha256 then .ok digestSha256Identity
  else
    match si.keyLocator with
    | none => .error (.failed .invalidKeyLocator "KeyLocator is missing")
    | some (.name n) => .ok n.toName
    | some _ => .error (.failed .invalidKeyLocator "KeyLocator type is not Name")

/-- The format v0.3 if the packet has signature information, else v0.2 with the information in the
last component of the name but one. -/
def getKeyLocatorName (i : Packet.Interest) : Except Refusal Name :=
  match i.getSignatureInfo with
  | .error message => .error (.thrown message)
  | .ok (some si) => keyLocatorName si
  | .ok none =>
    match i.name.reverse with
    | _ :: info :: _ =>
      match (blockFromValue info.value).bind fun e => SignatureInfo.ofElement e .data with
      | .error message =>
        .error (.failed .invalidKeyLocator ("Invalid signed Interest: " ++ message))
      | .ok si => keyLocatorName si
    | _ => .error (.failed .invalidKeyLocator "Invalid signed Interest: name too short")

end KeyLocators

section Timestamps

/-- Nanoseconds in a signed integer of 64 bits. -/
def fromUnixTimestamp (milliseconds : Nat) : Int := (milliseconds * 1000000 : Int).bmod (2^64)

def commandTimestamp (i : Packet.Interest) : Except Refusal Int :=
  match i.getSignatureInfo with
  | .error message => .error (.thrown message)
  | .ok (some si) =>
    match si.otherTlvs.find? fun e => e.type = TlvType.signatureTime with
    | none => .error (.failed .policyError ("Signed Interest `" ++ uriText i.name.toName ++
        "` doesn't include required SignatureTime element"))
    | some e =>
      match readNonNegativeInteger e.value with
      | .error message => .error (.thrown message)
      | .ok milliseconds => .ok (fromUnixTimestamp milliseconds)
  | .ok none =>
    match i.name.toName.reverse with
    | _ :: _ :: _ :: timestamp :: _ =>
      if timestamp.isNumber then .ok (fromUnixTimestamp timestamp.toNumber)
      else .error (.failed .policyError ("Command interest `" ++ uriText i.name.toName ++
        "` doesn't include timestamp component"))
    | _ => .error (.failed .policyError ("Command interest name `" ++ uriText i.name.toName ++
        "` is too short"))

def parseCommandInterest (i : Packet.Interest) : Except Refusal (Name × Int) := do
  let timestamp ← commandTimestamp i
  let keyName ← getKeyLocatorName i
  return (keyName,timestamp)

end Timestamps

section Records

structure LastTimestampRecord where
  keyName : Name
  timestamp : Int
  lastRefreshed : Int
  deriving DecidableEq, Repr

/-- Times are in nanoseconds. -/
structure Options where
  gracePeriod : Int := 120000000000
  maxRecords : Int := 1000
  recordLifetime : Int := 3600000000000

/-- The records in the order of their last use, one for each key. -/
structure Records where
  queue : List LastTimestampRecord
  distinct : (queue.map LastTimestampRecord.keyName).Nodup

def dropOld (o : Options) (now : Int) : List LastTimestampRecord → List LastTimestampRecord
  | [] => []
  | r :: queue =>
    if r.lastRefreshed ≤ now - o.recordLifetime ∨
        (0 ≤ o.maxRecords ∧ o.maxRecords < (queue.length + 1 : Nat)) then dropOld o now queue
    else r :: queue

theorem dropOld_suffix (o : Options) (now : Int) (queue : List LastTimestampRecord) :
    dropOld o now queue <:+ queue := by
  induction queue with
  | nil => exact suffix_rfl
  | cons r queue ih =>
    rw [dropOld]
    split_ifs
    · exact ih.trans (suffix_cons r queue)
    · exact suffix_rfl

theorem distinct_of_suffix {queue l : List LastTimestampRecord} (h : l <:+ queue)
    (hdistinct : (queue.map LastTimestampRecord.keyName).Nodup) :
    (l.map LastTimestampRecord.keyName).Nodup :=
  (h.sublist.map LastTimestampRecord.keyName).nodup hdistinct

theorem distinct_refreshed {queue : List LastTimestampRecord} (record : LastTimestampRecord)
    (hdistinct : (queue.map LastTimestampRecord.keyName).Nodup) :
    ((queue.filter (·.keyName ≠ record.keyName) ++ [record]).map
      LastTimestampRecord.keyName).Nodup := by
  rw [map_append,map_singleton]
  apply nodup_append.mpr
  refine ⟨(filter_sublist.map _).nodup hdistinct,by simp,?_⟩
  intro key hkey other hother
  obtain ⟨r,hr,rfl⟩ := mem_map.mp hkey
  rw [mem_singleton.mp hother]
  simpa using (mem_filter.mp hr).2

namespace Records

def find (keyName : Name) (r : Records) : Option Int :=
  (r.queue.find? (·.keyName = keyName)).map LastTimestampRecord.timestamp

def cleanup (o : Options) (now : Int) (r : Records) : Records :=
  ⟨dropOld o now r.queue,distinct_of_suffix (dropOld_suffix o now r.queue) r.distinct⟩

def insertNewRecord (keyName : Name) (timestamp now : Int) (r : Records) : Records :=
  ⟨r.queue.filter (·.keyName ≠ keyName) ++ [⟨keyName,timestamp,now⟩],
    distinct_refreshed ⟨keyName,timestamp,now⟩ r.distinct⟩

theorem find_cleanup {o : Options} {now t : Int} {r : Records} {keyName : Name}
    (h : (r.cleanup o now).find keyName = some t) : r.find keyName = some t := by
  obtain ⟨record,hrecord,rfl⟩ := map_eq_some_iff.mp h
  obtain ⟨front,hqueue⟩ := dropOld_suffix o now r.queue
  have hkey : record.keyName = keyName := by simpa using find?_some hrecord
  have hfront : front.find? (·.keyName = keyName) = none := by
    apply find?_eq_none.mpr
    intro other hother hsame
    have hdistinct := r.distinct
    rw [← hqueue,map_append] at hdistinct
    apply (nodup_append.mp hdistinct).2.2 _ (mem_map_of_mem hother) _
      (mem_map_of_mem (mem_of_find?_eq_some hrecord))
    rw [of_decide_eq_true hsame,hkey]
  rw [find,← hqueue,find?_append,hfront,Option.none_or]
  exact h

theorem find_insertNewRecord (keyName key : Name) (timestamp now : Int) (r : Records) :
    (r.insertNewRecord keyName timestamp now).find key =
      if key = keyName then some timestamp else r.find key := by
  rw [find,insertNewRecord,find?_append]
  split_ifs with h
  · have hnone : (r.queue.filter (·.keyName ≠ keyName)).find? (·.keyName = key) = none :=
      find?_eq_none.mpr fun a ha => by simpa [h] using (mem_filter.mp ha).2
    rw [hnone,Option.none_or,find?_singleton,h]
    simp
  · have hother : (fun a : LastTimestampRecord =>
        decide (decide (a.keyName ≠ keyName) = true ∧ decide (a.keyName = key) = true)) =
          fun a => decide (a.keyName = key) := by
      funext a
      by_cases ha : a.keyName = key
      · simp [ha,h]
      · simp [ha]
    rw [find?_filter,hother]
    simp [find,Ne.symm h]

end Records

def checkTimestamp (o : Options) (records : Records) (keyName : Name) (timestamp now : Int) :
    Except Refusal Unit :=
  if timestamp < now - max o.gracePeriod 0 ∨ timestamp > now + max o.gracePeriod 0 then
    .error (.failed .policyError ("Timestamp is outside the grace period for key " ++
      uriText keyName))
  else if (records.find keyName).any (timestamp ≤ ·) then
    .error (.failed .policyError ("Timestamp is reordered for key " ++ uriText keyName))
  else .ok ()

theorem lt_of_checkTimestamp {o : Options} {records : Records} {keyName : Name}
    {timestamp now t : Int} (h : checkTimestamp o records keyName timestamp now = .ok ())
    (hfind : records.find keyName = some t) : t < timestamp := by
  rw [checkTimestamp,hfind] at h
  split_ifs at h with hgrace hreordered
  simpa using hreordered

end Records

structure Validation where
  interest : Packet.Interest
  keyName : Name
  timestamp : Int
  parsed : parseCommandInterest interest = .ok (keyName,timestamp)

/-- The policy of one validator, the validations in progress, and the Interests that were accepted,
in the order of their acceptance. -/
structure CommandPolicy where
  options : Options
  records : Records := ⟨[],nodup_nil⟩
  validating : List Validation := []
  accepted : List Validation := []

namespace CommandPolicy

inductive Event where
  | receive (interest : Packet.Interest) (steady system : Int)
  | finish (index : Nat) (success : Bool) (steady : Int)

def receive (i : Packet.Interest) (steady system : Int) (s : CommandPolicy) : CommandPolicy :=
  match h : parseCommandInterest i with
  | .error _ => s
  | .ok (keyName,timestamp) =>
    let records := s.records.cleanup s.options steady
    match checkTimestamp s.options records keyName timestamp system with
    | .error _ => { s with records := records }
    | .ok _ => { s with
        records := records
        validating := s.validating ++ [⟨i,keyName,timestamp,h⟩] }

/-- The success callback of the caller is the first that runs, then the record is made. -/
def finish (index : Nat) (success : Bool) (steady : Int) (s : CommandPolicy) : CommandPolicy :=
  match s.validating[index]? with
  | none => s
  | some v =>
    if success then { s with
      validating := s.validating.eraseIdx index
      accepted := s.accepted ++ [v]
      records := s.records.insertNewRecord v.keyName v.timestamp steady }
    else { s with validating := s.validating.eraseIdx index }

def step (s : CommandPolicy) : Event → CommandPolicy
  | .receive interest steady system => s.receive interest steady system
  | .finish index success steady => s.finish index success steady

/-- No Interest of the key arrives while another one is being validated. -/
def Alone (keyName : Name) (s : CommandPolicy) (e : Event) : Prop :=
  ∀ i steady system timestamp, e = .receive i steady system →
    parseCommandInterest i = .ok (keyName,timestamp) → ∀ v ∈ s.validating, v.keyName ≠ keyName

/-- The record of the key is not dropped for its age or for the number of records. -/
def Keeps (keyName : Name) (s : CommandPolicy) (e : Event) : Prop :=
  (s.records.find keyName).isSome = true → ((s.step e).records.find keyName).isSome = true

/-- At most one Interest of the key is being validated, and it is later than the record. -/
structure Ordered (keyName : Name) (s : CommandPolicy) : Prop where
  single : (s.validating.filter (·.keyName = keyName)).length ≤ 1
  fresh : ∀ v ∈ s.validating, v.keyName = keyName →
    ∀ t, s.records.find keyName = some t → t < v.timestamp

/-- What happens to the Interests of a key while its record is kept. -/
structure Advance (keyName : Name) (s s' : CommandPolicy) (new : List Validation) : Prop where
  accepted : s'.accepted = s.accepted ++ new
  increasing : (new.filter (·.keyName = keyName)).Pairwise (·.timestamp < ·.timestamp)
  later : ∀ v ∈ new, v.keyName = keyName → ∀ t, s.records.find keyName = some t → t < v.timestamp
  recorded : ∀ v ∈ new, v.keyName = keyName →
    ∃ t, s'.records.find keyName = some t ∧ v.timestamp ≤ t
  monotone : ∀ t, s.records.find keyName = some t → ∃ t', s'.records.find keyName = some t' ∧ t ≤ t'

variable {keyName : Name} {s s' s'' : CommandPolicy} {new new' : List Validation}

theorem Advance.nothing (haccepted : s'.accepted = s.accepted)
    (hmonotone : ∀ t, s.records.find keyName = some t →
      ∃ t', s'.records.find keyName = some t' ∧ t ≤ t') : Advance keyName s s' [] where
  accepted := by rw [haccepted,append_nil]
  increasing := List.Pairwise.nil
  later _ hv := absurd hv not_mem_nil
  recorded _ hv := absurd hv not_mem_nil
  monotone := hmonotone

theorem Advance.trans (h : Advance keyName s s' new) (h' : Advance keyName s' s'' new') :
    Advance keyName s s'' (new ++ new') where
  accepted := by rw [h'.accepted,h.accepted,append_assoc]
  increasing := by
    rw [filter_append]
    refine pairwise_append.mpr ⟨h.increasing,h'.increasing,?_⟩
    intro v hv w hw
    simp only [mem_filter,decide_eq_true_eq] at hv hw
    obtain ⟨t,ht,hle⟩ := h.recorded v hv.1 hv.2
    exact hle.trans_lt (h'.later w hw.1 hw.2 t ht)
  later v hv hkey t ht := by
    rcases mem_append.mp hv with hv | hv
    · exact h.later v hv hkey t ht
    · obtain ⟨t',ht',hle⟩ := h.monotone t ht
      exact hle.trans_lt (h'.later v hv hkey t' ht')
  recorded v hv hkey := by
    rcases mem_append.mp hv with hv | hv
    · obtain ⟨t,ht,hle⟩ := h.recorded v hv hkey
      obtain ⟨t',ht',hle'⟩ := h'.monotone t ht
      exact ⟨t',ht',hle.trans hle'⟩
    · exact h'.recorded v hv hkey
  monotone t ht := by
    obtain ⟨t',ht',hle⟩ := h.monotone t ht
    obtain ⟨t'',ht'',hle'⟩ := h'.monotone t' ht'
    exact ⟨t'',ht'',hle.trans hle'⟩

theorem receive_cases (i : Packet.Interest) (steady system : Int) (s : CommandPolicy) :
    (s.receive i steady system).accepted = s.accepted ∧
      (∀ key t, (s.receive i steady system).records.find key = some t →
        s.records.find key = some t) ∧
      ((s.receive i steady system).validating = s.validating ∨ ∃ v : Validation, v.interest = i ∧
          (s.receive i steady system).validating = s.validating ++ [v] ∧
          ∀ t, (s.receive i steady system).records.find v.keyName = some t → t < v.timestamp) := by
  unfold receive
  split
  · exact ⟨rfl,fun _ _ h => h,Or.inl rfl⟩
  · rename_i key timestamp hparse
    dsimp only
    cases hcheck : checkTimestamp s.options (s.records.cleanup s.options steady) key timestamp
        system with
    | error refusal => exact ⟨rfl,fun _ _ h => Records.find_cleanup h,Or.inl rfl⟩
    | ok _ =>
      exact ⟨rfl,fun _ _ h => Records.find_cleanup h,
        Or.inr ⟨⟨i,key,timestamp,hparse⟩,rfl,rfl,fun _ ht => lt_of_checkTimestamp hcheck ht⟩⟩

private theorem exists_split {α : Type} {l : List α} {index : Nat} {a : α}
    (h : l[index]? = some a) : ∃ l₁ l₂, l = l₁ ++ a :: l₂ ∧ l.eraseIdx index = l₁ ++ l₂ := by
  induction l generalizing index with
  | nil => exact absurd h (by simp)
  | cons b l ih =>
    cases index with
    | zero => exact ⟨[],l,by simpa using h,rfl⟩
    | succ index =>
      obtain ⟨l₁,l₂,rfl,hrest⟩ := ih (by simpa using h)
      exact ⟨b :: l₁,l₂,rfl,by rw [eraseIdx_cons_succ,hrest,cons_append]⟩

theorem Ordered.receive (h : Ordered keyName s) {i : Packet.Interest} {steady system : Int}
    (halone : Alone keyName s (.receive i steady system)) :
    Ordered keyName (s.receive i steady system) := by
  obtain ⟨-,hfind,hsame | ⟨v,hi,hadded,hlater⟩⟩ := receive_cases i steady system s
  · exact ⟨by rw [hsame]; exact h.single,fun w hw hkey t ht =>
      h.fresh w (hsame ▸ hw) hkey t (hfind keyName t ht)⟩
  · constructor
    · rw [hadded,filter_append]
      by_cases hkey : v.keyName = keyName
      · have hnone : s.validating.filter (·.keyName = keyName) = [] :=
          filter_eq_nil_iff.mpr fun w hw => by
            simpa using halone i steady system v.timestamp rfl (hi ▸ hkey ▸ v.parsed) w hw
        rw [hnone,nil_append]
        exact length_filter_le _ [v]
      · rw [filter_singleton]
        simpa [hkey] using h.single
    · intro w hw hkey t ht
      rw [hadded] at hw
      rcases mem_append.mp hw with hw | hw
      · exact h.fresh w hw hkey t (hfind keyName t ht)
      · rw [mem_singleton.mp hw] at hkey ⊢
        exact hlater t (hkey ▸ ht)

theorem Ordered.finish (h : Ordered keyName s) (index : Nat) (success : Bool) (steady : Int) :
    Ordered keyName (s.finish index success steady) := by
  unfold CommandPolicy.finish
  cases hget : s.validating[index]? with
  | none => exact h
  | some v =>
    obtain ⟨l₁,l₂,hsplit,herase⟩ := exists_split hget
    have hsingle := h.single
    rw [hsplit,filter_append,filter_cons] at hsingle
    have hmem : ∀ w ∈ l₁ ++ l₂, w ∈ s.validating := by
      intro w hw
      rw [hsplit]
      simp only [mem_append,mem_cons] at hw ⊢
      exact hw.elim Or.inl fun hw => Or.inr (Or.inr hw)
    have hless : ((l₁ ++ l₂).filter (·.keyName = keyName)).length ≤ 1 := by
      rw [filter_append,length_append]
      rw [length_append] at hsingle
      split_ifs at hsingle
      · rw [length_cons] at hsingle
        omega
      · exact hsingle
    dsimp only
    rw [herase]
    cases success with
    | false => exact ⟨hless,fun w hw => h.fresh w (hmem w hw)⟩
    | true =>
      refine ⟨hless,fun w hw hkey t ht => ?_⟩
      rw [if_pos rfl] at hw ht
      dsimp only at hw ht
      rw [Records.find_insertNewRecord] at ht
      split_ifs at ht with hv
      · -- the Interest that has finished was the only one of its key
        have hpos : 0 < ((l₁ ++ l₂).filter (·.keyName = keyName)).length :=
          length_pos_of_mem (mem_filter.mpr ⟨hw,by simpa using hkey⟩)
        rw [if_pos (by simpa using hv.symm),length_append,length_cons] at hsingle
        rw [filter_append,length_append] at hpos
        omega
      · exact h.fresh w (hmem w hw) hkey t ht

theorem Ordered.step (h : Ordered keyName s) {e : Event} (halone : Alone keyName s e) :
    Ordered keyName (s.step e) := by
  cases e with
  | receive interest steady system => exact h.receive halone
  | finish index success steady => exact h.finish index success steady

theorem Ordered.advance (h : Ordered keyName s) {e : Event} (hkeeps : Keeps keyName s e) :
    ∃ new, Advance keyName s (s.step e) new := by
  have hsome : ∀ t, s.records.find keyName = some t →
      ∃ t', (s.step e).records.find keyName = some t' := fun t ht =>
    isSome_iff_exists.mp (hkeeps (by rw [ht]; rfl))
  cases e with
  | receive i steady system =>
    obtain ⟨haccepted,hfind,-⟩ := receive_cases i steady system s
    refine ⟨[],Advance.nothing haccepted fun t ht => ?_⟩
    obtain ⟨t',ht'⟩ := hsome t ht
    have heq := (hfind keyName t' ht').symm.trans ht
    exact ⟨t',ht',(some.inj heq).ge⟩
  | finish index success steady =>
    clear hsome hkeeps
    show ∃ new, Advance keyName s (s.finish index success steady) new
    unfold CommandPolicy.finish
    cases hget : s.validating[index]? with
    | none => exact ⟨[],Advance.nothing rfl fun t ht => ⟨t,ht,le_rfl⟩⟩
    | some v =>
      have hv := mem_of_getElem? hget
      cases success with
      | false => exact ⟨[],Advance.nothing rfl fun t ht => ⟨t,ht,le_rfl⟩⟩
      | true =>
        have hfind := s.records.find_insertNewRecord v.keyName keyName v.timestamp steady
        refine ⟨[v],rfl,?_,?_,?_,?_⟩
        · exact (pairwise_singleton _ v).filter _
        · intro w hw hkey t ht
          rw [mem_singleton.mp hw] at hkey ⊢
          exact h.fresh v hv hkey t ht
        · intro w hw hkey
          rw [mem_singleton.mp hw] at hkey ⊢
          exact ⟨v.timestamp,hfind.trans (if_pos hkey.symm),le_rfl⟩
        · intro t ht
          by_cases hkey : keyName = v.keyName
          · exact ⟨v.timestamp,hfind.trans (if_pos hkey),(h.fresh v hv hkey.symm t ht).le⟩
          · exact ⟨t,hfind.trans ((if_neg hkey).trans ht),le_rfl⟩

variable {events : List Event}

def genericComponent (value : List UInt8) : EncodedComponent where
  toElement := .ofValue 8 value
  valid _ := (by decide : 0 < 8 ∧ 8 ≤ 65535)

def command (milliseconds : UInt8) : Packet.Interest :=
  { name := [[milliseconds],[],[22,10,27,1,1,28,5,7,3,8,1,75],[]].map genericComponent }

end CommandPolicy

end KiteNdn.Security
