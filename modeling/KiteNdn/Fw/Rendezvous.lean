import KiteNdn.Framework.Run
import KiteNdn.Fw.Evolution
import KiteNdn.Fw.FibLookup

/-!
# The rendezvous name

The strategy appends the KITE delegations of an Interest to one name, and looks it up if there is no
route to the producer.
-/

namespace KiteNdn.Fw

open Framework Forwarder List Option

section Names

/-- The parts after the keyword that are not empty. -/
def rendezvousNames (i : Interest) : List Name :=
  ((i.forwardingHint.filter fun d => isKiteDelegation d).map fun d => d.drop 1).filter
    fun n => n ≠ []

theorem mem_rendezvousNames {i : Interest} {n : Name} : n ∈ rendezvousNames i ↔
    (∃ d ∈ i.forwardingHint, isKiteDelegation d = true ∧ d.drop 1 = n) ∧ n ≠ [] := by
  simp only [rendezvousNames,List.mem_filter,List.mem_map,decide_eq_true_iff,and_assoc]

theorem kiteHint_eq_flatten (i : Interest) : kiteHint i = (rendezvousNames i).flatten := by
  rw [rendezvousNames,flatten_filter_ne_nil,← flatMap_def]
  rfl

/-- An Interest has a rendezvous name if a delegation is the keyword and a name. -/
theorem kiteHint_ne_nil_iff (i : Interest) : kiteHint i ≠ [] ↔
    ∃ d ∈ i.forwardingHint, isKiteDelegation d = true ∧ d.drop 1 ≠ [] := by
  rw [kiteHint_eq_flatten,Ne,flatten_eq_nil_iff]
  constructor
  · intro h
    push Not at h
    obtain ⟨n,hn,hne⟩ := h
    obtain ⟨⟨d,hd,hkite,rfl⟩,_⟩ := mem_rendezvousNames.mp hn
    exact ⟨d,hd,hkite,hne⟩
  · rintro ⟨d,hd,hkite,hne⟩ h
    exact hne (h _ (mem_rendezvousNames.mpr ⟨⟨d,hd,hkite,rfl⟩,hne⟩))

private theorem length_lt_flatten {names : List Name} (hne : ∀ n ∈ names, n ≠ [])
    (htwo : 1 < names.length) {n : Name} (hn : n ∈ names) : n.length < names.flatten.length := by
  obtain ⟨before,after,rfl⟩ := append_of_mem hn
  obtain ⟨m,hm⟩ : ∃ m, m ∈ before ++ after := by
    apply exists_mem_of_ne_nil
    rintro hnil
    simp [append_eq_nil_iff.mp hnil] at htwo
  have hpos : 0 < m.length := length_pos_iff.mpr (hne m (by
    rcases mem_append.mp hm with hm | hm <;> simp [hm]))
  have hle := (sublist_flatten_of_mem hm).length_le
  simp only [flatten_append,flatten_cons,length_append] at hle ⊢
  omega

theorem single_rendezvous (i : Interest) :
    (kiteHint i ≠ [] → ∃ d ∈ i.forwardingHint, isKiteDelegation d = true ∧ kiteHint i = d.drop 1) ↔
      (rendezvousNames i).length ≤ 1 := by
  have hone : (kiteHint i ≠ [] → ∃ d ∈ i.forwardingHint, isKiteDelegation d = true ∧
      kiteHint i = d.drop 1) ↔ (kiteHint i ≠ [] → kiteHint i ∈ rendezvousNames i) := by
    refine forall_congr' fun hhint => ?_
    rw [mem_rendezvousNames,and_iff_left hhint]
    simp only [eq_comm]
  rw [hone,kiteHint_eq_flatten]
  constructor
  · intro h
    by_contra! htwo
    have hlt := fun {n} => length_lt_flatten (fun n hn => (mem_rendezvousNames.mp hn).2) htwo (n := n)
    obtain ⟨n,hn⟩ := exists_mem_of_length_pos (by omega : 0 < (rendezvousNames i).length)
    have hhint : (rendezvousNames i).flatten ≠ [] := by
      apply ne_nil_of_length_pos
      have := hlt hn
      omega
    exact absurd (hlt (h hhint)) (lt_irrefl _)
  · intro hle hhint
    match hnames : rendezvousNames i with
    | [] => rw [hnames] at hhint; exact absurd rfl hhint
    | [n] => simp
    | n :: m :: rest => rw [hnames] at hle; simp at hle

end Names

namespace Forwarder

variable {c : Config} {s s' : Forwarder} {i : Interest} {ingress face : FaceId} {id : PitId}

/-- The name that an in-record keeps for the fallback to the rendezvous. -/
def storedRendezvous (s : Forwarder) (id : PitId) (face : FaceId) : Option Name :=
  ((s.pit.find? id).bind fun e => (e.getInRecord face).bind InRecord.info).map
    KiteInterestStatus.rvName

def toRendezvous (c : Config) (i : Interest) (ingress : FaceId) (id : PitId) (rvName : Name)
    (s : Forwarder) : Forwarder :=
  let rvHops := (s.findLongestPrefixMatch rvName).2.filter fun f => isNextHopEligible c ingress i f
  if rvHops ≠ [] then s.sendToAll c i id rvHops else s.rejectInterest c ingress id

private theorem storedRendezvous_modifyEntry {id' : PitId} {f : PitEntry → PitEntry}
    (hid : ∀ e, (f e).id = e.id) (hin : ∀ e, (f e).inRecords = e.inRecords) :
    (s.modifyEntry id' f).storedRendezvous id face = s.storedRendezvous id face := by
  unfold storedRendezvous
  rw [find_modifyEntry s id' hid]
  split_ifs with h
  · subst h
    cases s.pit.find? id with
    | none => rfl
    | some e =>
      simp only [map_some,bind_some,PitEntry.getInRecord,hin]
  · rfl

private theorem storedRendezvous_sendToProducer {mpName : Name} {outFace : FaceId}
    (h : s.sendToProducer c i id mpName outFace = some s') :
    s'.storedRendezvous id face = s.storedRendezvous id face := by
  obtain ⟨s₁,hs₁,rfl⟩ := map_eq_some_iff.mp h
  unfold onOutgoingInterest at hs₁
  split_ifs at hs₁
  cases hs₁
  have hsent : (s.modifyEntry id (PitEntry.insertOrUpdateOutRecord outFace i
      s.now)).storedRendezvous id face = s.storedRendezvous id face :=
    storedRendezvous_modifyEntry (fun _ => rfl) fun _ => rfl
  exact (storedRendezvous_modifyEntry (f := setOutStatus mpName outFace) (fun _ => rfl)
    fun _ => rfl).trans hsent

theorem storedRendezvous_afterReceiveInterest {e : PitEntry} {r : InRecord}
    (he : s.pit.find? id = some e) (hr : e.getInRecord ingress = some r) (hhint : kiteHint i ≠ [])
    (hhops : (s.producerHops c i ingress e).2 ≠ [])
    (h : s.afterReceiveInterest c i ingress id = some s') :
    s'.storedRendezvous id ingress = some (kiteHint i) := by
  rw [afterReceiveInterest,he,bind_some,if_pos hhint] at h
  dsimp only at h
  rw [if_pos hhops] at h
  obtain ⟨s₁,hs₁,h⟩ := bind_eq_some_iff.mp h
  have hstored : (s.modifyEntry id (setInStatus (kiteHint i) ingress)).storedRendezvous id ingress =
      some (kiteHint i) := by
    rw [storedRendezvous,find_modifyEntry (f := setInStatus (kiteHint i) ingress) s id
      (fun _ => rfl),if_pos rfl,he]
    have hrecord : (setInStatus (kiteHint i) ingress e).getInRecord ingress = some { r with
        info := some { r.info.getD { retrasmissionStage := .straightForward } with
          retrasmissionStage := .straightForward, rvName := kiteHint i } } := by
      rw [PitEntry.getInRecord,setInStatus,KeyedList.find?_modify _ (by intro; rfl),if_pos rfl]
      exact congrArg (Option.map _) hr
    rw [map_some,bind_some,hrecord]
    rfl
  have hsent : s₁.storedRendezvous id ingress = some (kiteHint i) :=
    foldlM_keeps (fun t : Forwarder => t.storedRendezvous id ingress = some (kiteHint i))
      (fun _ _ _ ht hs => (storedRendezvous_sendToProducer hs).trans ht) _ hstored hs₁
  rw [storedRendezvous,(performs_recordPitEntry h).1.find]
  exact hsent

theorem afterReceiveInterest_toRendezvous {e : PitEntry} (he : s.pit.find? id = some e)
    (hhint : kiteHint i ≠ []) (hhops : (s.producerHops c i ingress e).2 = []) :
    s.afterReceiveInterest c i ingress id = some (s.toRendezvous c i ingress id (kiteHint i)) := by
  rw [afterReceiveInterest,he,bind_some,if_pos hhint]
  dsimp only
  rw [if_neg (not_not.mpr hhops),toRendezvous]
  split_ifs <;> rfl

/-- `rvName` is the name that the strategy looks up for an Interest without a route to the producer,
and stores with its in-record otherwise. -/
def UsesRendezvous (i : Interest) (rvName : Name) : Prop :=
  ∀ (c : Config) (s : Forwarder) (ingress : FaceId) (id : PitId) (e : PitEntry) (r : InRecord),
    s.pit.find? id = some e → e.getInRecord ingress = some r →
      ((s.producerHops c i ingress e).2 = [] →
        s.afterReceiveInterest c i ingress id = some (s.toRendezvous c i ingress id rvName)) ∧
      ((s.producerHops c i ingress e).2 ≠ [] → ∀ s' ∈ s.afterReceiveInterest c i ingress id,
        s'.storedRendezvous id ingress = some rvName)

section Stored

def localFaces : Config where
  scope _ := .isLocal
  linkType _ := .pointToPoint
  hasFace _ := true
  isEffective _ := true
  isInProducerRegion _ := false
  defaultHopLimit := 0

def arrived (i : Interest) : Forwarder :=
  { oneRoute [] 2 with pit := KeyedList.empty.put ((PitEntry.new 0 i).insertOrUpdateInRecord 1 i 0) }

private theorem find_arrived (i : Interest) : (arrived i).pit.find? 0 =
    some ((PitEntry.new 0 i).insertOrUpdateInRecord 1 i 0) := rfl

private theorem lookupFib_arrived (i : Interest) (e : PitEntry) :
    (arrived i).lookupFib e = ([],[2]) := by
  have hroute : ∀ name, (arrived i).findLongestPrefixMatch name = ([],[2]) := by
    intro name
    rcases findLongestPrefixMatch_cases (arrived i) name with ⟨p,l,hl,heq⟩ | ⟨hnone,_⟩
    · dsimp only [arrived,oneRoute] at hl
      split_ifs at hl with hp
      cases hl
      rw [heq,hp]
    · simp [arrived,oneRoute] at hnone
  unfold lookupFib
  dsimp only
  split
  · exact hroute _
  · split
    · exact hroute _
    · exact hroute _

private theorem isEligible_arrived (i : Interest) : isNextHopEligible localFaces 1 i 2 = true := by
  simp [isNextHopEligible,wouldViolateScope,localFaces]

private theorem producerHops_arrived (i : Interest) (e : PitEntry) :
    (arrived i).producerHops localFaces i 1 e = ([],[2]) := by
  rw [producerHops,lookupFib_arrived,filter_cons_of_pos (isEligible_arrived i)]
  rfl

private theorem exists_afterReceiveInterest (i : Interest) : ∃ s',
    (arrived i).afterReceiveInterest localFaces i 1 0 = some s' ∧
      (kiteHint i = [] → s'.storedRendezvous 0 1 = none) := by
  have hsent : ∀ t : Forwarder, t.onOutgoingInterest localFaces i 2 0 =
      some ((t.modifyEntry 0 (PitEntry.insertOrUpdateOutRecord 2 i t.now)).act (.interest 0 i 2)) :=
    fun t => if_neg fun h => nomatch h.2
  rw [afterReceiveInterest,find_arrived,bind_some,producerHops_arrived,lookupFib_arrived]
  dsimp only
  rw [filter_cons_of_pos (isEligible_arrived i),filter_nil]
  by_cases hhint : kiteHint i = []
  · refine ⟨_,by rw [if_neg (not_not.mpr hhint),if_pos (cons_ne_nil 2 [])],fun _ => ?_⟩
    rw [if_neg (cons_ne_nil 2 []),sendToAll,foldl_cons,foldl_nil,sendInterest,hsent,getD_some]
    exact storedRendezvous_modifyEntry (fun _ => rfl) fun _ => rfl
  · rw [if_pos hhint,if_pos (cons_ne_nil 2 []),foldlM_cons,sendToProducer,hsent]
    exact ⟨_,rfl,fun h => absurd h hhint⟩

end Stored

/-- The name that is used is put together from the KITE delegations. -/
theorem usesRendezvous_iff {i : Interest} {n : Name} (hn : n ≠ []) :
    UsesRendezvous i n ↔ n = kiteHint i := by
  constructor
  · intro h
    obtain ⟨s',hs',hnone⟩ := exists_afterReceiveInterest i
    have hhops : ((arrived i).producerHops localFaces i 1
        ((PitEntry.new 0 i).insertOrUpdateInRecord 1 i 0)).2 ≠ [] := by
      rw [producerHops_arrived]
      exact cons_ne_nil 2 []
    have hstored := (h localFaces (arrived i) 1 0 _ _ (find_arrived i) rfl).2 hhops s' hs'
    have hhint : kiteHint i ≠ [] := by
      intro hnil
      rw [hnone hnil] at hstored
      exact nomatch hstored
    rw [storedRendezvous_afterReceiveInterest (find_arrived i) rfl hhint hhops hs'] at hstored
    exact (some.inj hstored).symm
  · rintro rfl
    intro c s ingress id e r he hr
    exact ⟨afterReceiveInterest_toRendezvous he hn,
      fun hhops s' h => storedRendezvous_afterReceiveInterest he hr hn hhops h⟩

/-- Every rendezvous name is the part after the keyword of a single KITE delegation, and there is one
if and only if a KITE delegation has such a part. -/
structure SelectsRendezvous (i : Interest) : Prop where
  single : ∀ n, n ≠ [] → UsesRendezvous i n →
    ∃ d ∈ i.forwardingHint, isKiteDelegation d = true ∧ n = d.drop 1
  exists_iff : (∃ n, n ≠ [] ∧ UsesRendezvous i n) ↔
    ∃ d ∈ i.forwardingHint, isKiteDelegation d = true ∧ d.drop 1 ≠ []

/-- The rendezvous name is selected from the delegations exactly if at most one KITE delegation has a
name after the keyword. -/
theorem selectsRendezvous_iff (i : Interest) :
    SelectsRendezvous i ↔ (rendezvousNames i).length ≤ 1 := by
  have hused : (∀ n, n ≠ [] → UsesRendezvous i n →
      ∃ d ∈ i.forwardingHint, isKiteDelegation d = true ∧ n = d.drop 1) ↔ (kiteHint i ≠ [] →
        ∃ d ∈ i.forwardingHint, isKiteDelegation d = true ∧ kiteHint i = d.drop 1) := by
    constructor
    · intro h hhint
      exact h _ hhint ((usesRendezvous_iff hhint).mpr rfl)
    · intro h n hn hu
      obtain rfl := (usesRendezvous_iff hn).mp hu
      exact h hn
  rw [← single_rendezvous,← hused]
  constructor
  · exact SelectsRendezvous.single
  · intro h
    refine ⟨h,Iff.trans ?_ (kiteHint_ne_nil_iff i)⟩
    constructor
    · rintro ⟨n,hn,hu⟩
      rw [← (usesRendezvous_iff hn).mp hu]
      exact hn
    · exact fun hhint => ⟨_,hhint,(usesRendezvous_iff hhint).mpr rfl⟩

def twoRendezvous : Interest :=
  { producerInterest with
    forwardingHint := [[Kite.kiteKeyword,Component.generic [97]],
      [Kite.kiteKeyword,Component.generic [98]]] }

/-- The name kept for the fallback is `/a/b`. -/
theorem rendezvous_put_together : ∃ s, run fourFaces [.updateFib producerName [2],
      .interest twoRendezvous 1 false false] = some s ∧
    s.storedRendezvous 0 1 = some [Component.generic [97],Component.generic [98]] ∧
    ¬∃ d ∈ twoRendezvous.forwardingHint, isKiteDelegation d = true ∧
      [Component.generic [97],Component.generic [98]] = d.drop 1 :=
  ⟨_,rfl,by decide +kernel,by decide +kernel⟩

end Forwarder

end KiteNdn.Fw
