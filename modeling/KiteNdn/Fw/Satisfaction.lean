import KiteNdn.Fw.Quiet
import KiteNdn.Framework.Run

/-!
# Satisfying entries

What a Data does to the entries that it matches: each is forgotten under the producer that the mark
on the ingress face's out-record names, and is answered from then on.
-/

namespace KiteNdn.Fw.Forwarder

open Framework List Option

variable {c : Config} {s s₁ s₂ s' : Forwarder} {id : PitId} {pitMatches : List PitId}

/-- The measurements entry that a mark names. -/
def markedKey (status : Option KiteInterestStatus) : Option Name :=
  status.map fun st => measurementsName st.mpName

/-- A Data answers the entries `ids`. -/
structure Answers (d : Data) (ingress : FaceId) (ids : List PitId) (s s' : Forwarder) : Prop
    extends KeepsEntries s s' where
  /-- Names are forgotten only under the marks of the ingress face. -/
  listed : ∀ k n, s'.listed k n = s.listed k n ∨
    s'.listed k n = none ∧ d.contentType ≠ Kite.contentTypeKiteAck ∧
      ∃ id ∈ ids, ∃ e, s.pit.find? id = some e ∧ markedKey (e.outStatus ingress) = some k ∧
        e.name = n
  pending : ∀ p ∈ s'.history.pending, p ∈ s.history.pending ∧ p.1 ∉ ids
  retransmissions : d.contentType ≠ Kite.contentTypeKiteAck →
    s'.history.retransmissions = s.history.retransmissions
  recorded : ∀ p ∈ s'.history.recorded, p ∈ s.history.recorded
  answered : ∀ p ∈ s'.history.answered, p ∈ s.history.answered ∨
    ∃ id ∈ ids, (id,p.2) ∈ s.history.recorded ∧ ∃ i, s.interestOf id = some i ∧ p.1 = i.name
  erased : d.contentType ≠ Kite.contentTypeKiteAck → ∀ id ∈ ids, ∀ e, s.pit.find? id = some e →
    ∀ key, markedKey (e.outStatus ingress) = some key → s'.listed key e.name = none
  others : d.contentType ≠ Kite.contentTypeKiteAck → ∀ id ∉ ids, s'.pit.find? id = s.pit.find? id

variable {d : Data} {ingress : FaceId}

theorem Answers.nil (s : Forwarder) : Answers d ingress [] s s where
  toKeepsEntries := keepsEntries_of_pit rfl rfl
  listed := fun _ _ => Or.inl rfl
  pending := fun _ h => ⟨h,not_mem_nil⟩
  retransmissions := fun _ => rfl
  recorded := fun _ h => h
  answered := fun _ h => Or.inl h
  erased := fun _ _ h => absurd h not_mem_nil
  others := fun _ _ _ => rfl

theorem Answers.listed_none {ids : List PitId} (h : Answers d ingress ids s s') {k n : Name}
    (hn : s.listed k n = none) : s'.listed k n = none := by
  rcases h.listed k n with heq | hnone
  · exact heq.trans hn
  · exact hnone.1

theorem Answers.cons {ids : List PitId} (h : Answers d ingress [id] s s₁)
    (h' : Answers d ingress ids s₁ s₂) (hid : id ∉ ids) (hids : ∀ id ∈ ids, id < s.nextId) :
    Answers d ingress (id :: ids) s s₂ where
  toKeepsEntries := h.toKeepsEntries.trans h'.toKeepsEntries
  listed := by
    intro k n
    rcases h'.listed k n with heq | ⟨hnone,hd,id',hid',e,he,hmark⟩
    · rw [heq]
      rcases h.listed k n with heq | ⟨hnone,hd,id',hid',he⟩
      · exact Or.inl heq
      · exact Or.inr ⟨hnone,hd,id',mem_cons.mpr (Or.inl (mem_singleton.mp hid')),he⟩
    · have hne : id' ∉ [id] := fun hm => hid (mem_singleton.mp hm ▸ hid')
      rw [h.others hd id' hne] at he
      exact Or.inr ⟨hnone,hd,id',mem_cons_of_mem id hid',e,he,hmark⟩
  pending := by
    intro p hp
    obtain ⟨hp,hne'⟩ := h'.pending p hp
    obtain ⟨hp,hne⟩ := h.pending p hp
    refine ⟨hp,fun hm => ?_⟩
    rcases mem_cons.mp hm with heq | hm
    · exact hne (mem_singleton.mpr heq)
    · exact hne' hm
  retransmissions := fun hd => (h'.retransmissions hd).trans (h.retransmissions hd)
  recorded := fun p hp => h.recorded p (h'.recorded p hp)
  answered := by
    intro p hp
    rcases h'.answered p hp with hp | ⟨id',hid',hrec,i,hi,hname⟩
    · rcases h.answered p hp with hp | ⟨id',hid',hrec⟩
      · exact Or.inl hp
      · exact Or.inr ⟨id',mem_cons.mpr (Or.inl (mem_singleton.mp hid')),hrec⟩
    · rw [h.entries id' (hids id' hid')] at hi
      exact Or.inr ⟨id',mem_cons_of_mem id hid',h.recorded _ hrec,i,hi,hname⟩
  erased := by
    intro hd id' hid' e he key hkey
    by_cases heq : id' = id
    · exact h'.listed_none (h.erased hd id' (mem_singleton.mpr heq) e he key hkey)
    · have hmem : id' ∈ ids := (mem_cons.mp hid').resolve_left heq
      have hsame := h.others hd id' (fun hm => heq (mem_singleton.mp hm))
      exact h'.erased hd id' hmem e (hsame.trans he) key hkey
  others := by
    intro hd id' hid'
    have hne : id' ≠ id ∧ id' ∉ ids := by
      rw [mem_cons,not_or] at hid'
      exact hid'
    rw [h'.others hd id' hne.2]
    exact h.others hd id' fun hm => hne.1 (mem_singleton.mp hm)

theorem answers_foldlM {satisfy : Forwarder → PitId → Option Forwarder}
    (hsatisfy : ∀ s id s', id < s.nextId → satisfy s id = some s' → Answers d ingress [id] s s')
    (ids : List PitId) (hnodup : ids.Nodup) (hids : ∀ id ∈ ids, id < s.nextId)
    (hs : ids.foldlM satisfy s = some s') : Answers d ingress ids s s' := by
  induction ids generalizing s with
  | nil =>
    cases hs
    exact .nil _
  | cons id ids ih =>
    rw [foldlM_cons] at hs
    obtain ⟨s₁,hs₁,hs⟩ := bind_eq_some_iff.mp hs
    have hone := hsatisfy s id s₁ (hids id mem_cons_self) hs₁
    have hlt : ∀ id ∈ ids, id < s.nextId := fun id' h => hids id' (mem_cons_of_mem id h)
    obtain ⟨hid,hnodup⟩ := nodup_cons.mp hnodup
    exact hone.cons (ih hnodup (fun id' h => (hlt id' h).trans_le hone.nextId) hs) hid hlt

private theorem find_modifyEntry_other {f : PitEntry → PitEntry} (hf : ∀ e, (f e).id = e.id)
    {id' : PitId} (h : id' ≠ id) : (s.modifyEntry id f).pit.find? id' = s.pit.find? id' := by
  rw [find_modifyEntry s id hf,if_neg h]

private theorem find_sendDataToAll {id' : PitId} (h : id' ≠ id) :
    (s.sendDataToAll c d ingress id).pit.find? id' = s.pit.find? id' := by
  unfold sendDataToAll
  split
  · refine foldl_keeps (fun t : Forwarder => t.pit.find? id' = s.pit.find? id') ?_ _ rfl
    intro t r ht
    rw [sendData,pit_onOutgoingData]
    exact (find_modifyEntry_other (by intro; rfl) h).trans ht
  · rfl

private structure Forgotten (d : Data) (ingress : FaceId) (e : PitEntry) (s s' : Forwarder) : Prop
    extends KeepsEntries s s' where
  listed : ∀ k n, s'.listed k n = s.listed k n ∨
    s'.listed k n = none ∧ d.contentType ≠ Kite.contentTypeKiteAck ∧
      markedKey (e.outStatus ingress) = some k ∧ e.name = n
  pending : ∀ p ∈ s'.history.pending, p ∈ s.history.pending
  recorded : s'.history.recorded = s.history.recorded
  answered : s'.history.answered = s.history.answered
  retransmissions : d.contentType ≠ Kite.contentTypeKiteAck →
    s'.history.retransmissions = s.history.retransmissions
  erased : d.contentType ≠ Kite.contentTypeKiteAck →
    ∀ key, markedKey (e.outStatus ingress) = some key → s'.listed key e.name = none
  pit : d.contentType ≠ Kite.contentTypeKiteAck → s'.pit = s.pit

private theorem forgotten_beforeSatisfyInterest
    (h : s.beforeSatisfyInterest c d ingress id = some s') :
    ∃ e, s.pit.find? id = some e ∧ Forgotten d ingress e s s' := by
  obtain ⟨e,he,hsat⟩ := beforeSatisfyInterest_cases h
  refine ⟨e,he,?_⟩
  cases hsat with
  | ack ack hack _ =>
    have hquiet := quiet_registPrefix (c := c) ack.prefixAnnouncement e.inRecords.items s
    exact ⟨hquiet.toKeepsEntries,fun k n => Or.inl (hquiet.listed k n),hquiet.pending,
      hquiet.recorded,hquiet.answered,fun hd => absurd hack hd,fun hd => absurd hack hd,
      fun hd => absurd hack hd⟩
  | erase r hd hr herase =>
    have hforgets := forgets_eraseMeasurement herase
    have hstatus : e.outStatus ingress = r.info := by rw [PitEntry.outStatus,hr,bind_some]
    refine ⟨hforgets.keepsEntries,fun k n => ?_,?_,by rw [hforgets.history],
      by rw [hforgets.history],fun _ => by rw [hforgets.history],fun _ key hkey => ?_,
      fun _ => hforgets.pit⟩
    · rw [hforgets.listed]
      split_ifs with hmark
      · rw [hstatus]
        exact Or.inr ⟨rfl,hd,hmark.1,hmark.2.symm⟩
      · exact Or.inl rfl
    · rw [hforgets.history]
      exact fun _ hp => hp
    · rw [hstatus] at hkey
      rw [hforgets.listed,if_pos ⟨hkey,rfl⟩]
  | other _ hr =>
    have hstatus : e.outStatus ingress = none := by rw [PitEntry.outStatus,hr,bind_none]
    refine ⟨keepsEntries_of_pit rfl rfl,fun _ _ => Or.inl rfl,fun _ hp => hp,rfl,rfl,fun _ => rfl,
      fun _ key hkey => ?_,fun _ => rfl⟩
    rw [hstatus] at hkey
    cases hkey

private def satisfied (ingress : FaceId) (e : PitEntry) : PitEntry :=
  PitEntry.deleteOutRecord ingress { e with isSatisfied := true }

private theorem interestOf_satisfied (ingress : FaceId) (id' : PitId) :
    (s.modifyEntry id (satisfied ingress)).interestOf id' = s.interestOf id' :=
  interestOf_modifyEntry (f := satisfied ingress) (fun _ => rfl) (fun _ => rfl) id'

theorem answer_answered {p : Name × Name} (h : p ∈ (s.answer id).history.answered) :
    p ∈ s.history.answered ∨
      (id,p.2) ∈ s.history.recorded ∧ ∃ i, s.interestOf id = some i ∧ p.1 = i.name := by
  unfold answer at h
  split at h
  · next e he =>
    rcases mem_append.mp h with h | h
    · obtain ⟨q,hq,rfl⟩ := mem_map.mp h
      obtain ⟨hq,hqid⟩ := mem_filter.mp hq
      refine Or.inr ⟨?_,e.interest,interestOf_of_find he,rfl⟩
      rw [← of_decide_eq_true hqid]
      exact hq
    · exact Or.inl h
  · exact Or.inl h

private theorem answer_recorded {p : PitId × Name} (h : p ∈ (s.answer id).history.recorded) :
    p ∈ s.history.recorded := by
  unfold answer at h
  split at h
  · exact (mem_filter.mp h).1
  · exact h

theorem find_setExpiryTimer {e : PitEntry}
    (h : (s.setExpiryTimer id 0).pit.find? id = some e) :
    ∃ e₀, s.pit.find? id = some e₀ ∧ e.name = e₀.name ∧
      ∀ face, e.outStatus face = e₀.outStatus face := by
  rw [setExpiryTimer,find_modifyEntry s id (by intro; rfl),if_pos rfl] at h
  obtain ⟨e₀,he₀,rfl⟩ := map_eq_some_iff.mp h
  exact ⟨e₀,he₀,rfl,fun _ => rfl⟩

private theorem answers_markSatisfied
    (hbefore : (s.setExpiryTimer id 0).beforeSatisfyInterest c d ingress id = some s₁)
    (hsteady : Steady s₁ s₂) (hothers : ∀ id' ≠ id, s₂.pit.find? id' = s₁.pit.find? id')
    (hid : id < s.nextId) : Answers d ingress [id] s (s₂.markSatisfied ingress id) := by
  have htimer : Steady s (s.setExpiryTimer id 0) := steady_setExpiryTimer id 0
  obtain ⟨e,he,hforgotten⟩ := forgotten_beforeSatisfyInterest hbefore
  obtain ⟨e₀,he₀,hname,hstatus⟩ := find_setExpiryTimer he
  have hkeeps := (htimer.quiet.toKeepsEntries.trans hforgotten.toKeepsEntries).trans
    hsteady.quiet.toKeepsEntries
  have hmodify : Steady s₂ (s₂.modifyEntry id (satisfied ingress)) :=
    steady_modifyEntry (fun _ => rfl) fun _ => rfl
  have hmarked : KeepsListed s₁ (s₂.markSatisfied ingress id) :=
    ((hsteady.trans hmodify).quiet.toKeepsListed.trans (keepsListed_answer id)).trans
      (steady_settle id).quiet.toKeepsListed
  constructor
  · exact (htimer.quiet.toKeepsEntries.trans hforgotten.toKeepsEntries).trans hmarked.toKeepsEntries
  · intro k n
    rw [hmarked.listed]
    rcases hforgotten.listed k n with heq | ⟨hnone,hd,hmark,hn⟩
    · exact Or.inl (heq.trans (htimer.quiet.listed k n))
    · rw [hstatus] at hmark
      exact Or.inr ⟨hnone,hd,id,mem_singleton_self id,e₀,he₀,hmark,hname.symm.trans hn⟩
  · intro p hp
    obtain ⟨hp',hne⟩ := mem_filter.mp hp
    refine ⟨htimer.pending p (hforgotten.pending p (hmarked.pending p hp)),fun hm => ?_⟩
    exact of_decide_eq_true hne (mem_singleton.mp hm)
  · intro hd
    have hanswer : (s₂.markSatisfied ingress id).history.retransmissions =
        s₂.history.retransmissions := answer_retransmissions id
    rw [hanswer,hsteady.retransmissions,hforgotten.retransmissions hd,htimer.retransmissions]
  · intro p hp
    have hp := answer_recorded hp
    exact htimer.recorded ▸ hforgotten.recorded ▸ hsteady.recorded ▸ hp
  · intro p hp
    rcases answer_answered hp with hp | ⟨hp,i,hi,hpname⟩
    · exact Or.inl (htimer.answered ▸ hforgotten.answered ▸ hsteady.answered ▸ hp)
    · have hi : s₂.interestOf id = some i := (interestOf_satisfied ingress id).symm.trans hi
      rw [hkeeps.entries id hid] at hi
      exact Or.inr ⟨id,mem_singleton_self id,
        htimer.recorded ▸ hforgotten.recorded ▸ hsteady.recorded ▸ hp,i,hi,hpname⟩
  · intro hd id' hid' e' he' key hkey
    cases mem_singleton.mp hid'
    rw [he₀] at he'
    cases he'
    rw [hmarked.listed,← hname]
    apply hforgotten.erased hd
    rw [hstatus]
    exact hkey
  · intro hd id' hid'
    have hne : id' ≠ id := fun heq => hid' (mem_singleton.mpr heq)
    have hpit : (s₂.markSatisfied ingress id).pit = (s₂.modifyEntry id (satisfied ingress)).pit :=
      answer_pit id
    rw [hpit,find_modifyEntry_other (by intro; rfl) hne,hothers id' hne,hforgotten.pit hd]
    exact find_modifyEntry_other (by intro; rfl) hne

private theorem answers_satisfyOnly (hid : id < s.nextId)
    (h : s.satisfyOnly c d ingress id = some s') : Answers d ingress [id] s s' := by
  obtain ⟨s₁,hs₁,rfl⟩ := map_eq_some_iff.mp h
  exact answers_markSatisfied hs₁ (steady_sendDataToAll d ingress id)
    (fun _ hne => find_sendDataToAll hne) hid

private theorem answers_satisfyOne (hid : id < s.nextId)
    (h : s.satisfyOne c d ingress id = some s') : Answers d ingress [id] s s' := by
  obtain ⟨s₁,hs₁,rfl⟩ := map_eq_some_iff.mp h
  have hsatisfied := answers_markSatisfied hs₁ (Steady.refl s₁) (fun _ _ => rfl) hid
  have hclear : Steady (s₁.markSatisfied ingress id)
      ((s₁.markSatisfied ingress id).modifyEntry id PitEntry.clearInRecords) :=
    steady_modifyEntry (fun _ => rfl) fun _ => rfl
  exact {
    toKeepsEntries := hsatisfied.toKeepsEntries.trans hclear.quiet.toKeepsEntries
    listed := hsatisfied.listed
    pending := hsatisfied.pending
    retransmissions := hsatisfied.retransmissions
    recorded := hsatisfied.recorded
    answered := hsatisfied.answered
    erased := hsatisfied.erased
    others := fun hd id' hid' => by
      have hne : id' ≠ id := fun heq => hid' (mem_singleton.mpr heq)
      exact (find_modifyEntry_other (by intro; rfl) hne).trans (hsatisfied.others hd id' hid') }

/-- If nothing ends the pipeline before, then the entries are satisfied in one of two ways, and the
Data may go out. -/
theorem onIncomingData_cases {nOthers : Nat}
    (h : s.onIncomingData c d ingress pitMatches nOthers = some s') :
    Steady s s' ∨
      violatesLocalhost c ingress d.name = false ∧ failsAck d = false ∧ ∃ s₁, Steady s₁ s' ∧
        (pitMatches.foldlM (fun s id => s.satisfyOnly c d ingress id) s = some s₁ ∨
          pitMatches.foldlM (satisfyOne c d ingress) s = some s₁) := by
  unfold onIncomingData at h
  split_ifs at h with hscope hfails
  · cases h
    exact Or.inl (.refl s)
  · cases h
    cases pitMatches with
    | nil => exact Or.inl (.refl s)
    | cons id _ => exact Or.inl (steady_setExpiryTimer id 0)
  · exact Or.inr ⟨Bool.eq_false_of_not_eq_true hscope,Bool.eq_false_of_not_eq_true hfails,s',
      .refl s',Or.inl h⟩
  · obtain ⟨s₁,hs₁,rfl⟩ := map_eq_some_iff.mp h
    exact Or.inr ⟨Bool.eq_false_of_not_eq_true hscope,Bool.eq_false_of_not_eq_true hfails,s₁,
      (sends_onOutgoingDatas (Q := Routine) d _).steady,Or.inr hs₁⟩

theorem answers_of_satisfied (hnodup : pitMatches.Nodup) (hids : ∀ id ∈ pitMatches, id < s.nextId)
    (h : pitMatches.foldlM (fun s id => s.satisfyOnly c d ingress id) s = some s' ∨
      pitMatches.foldlM (satisfyOne c d ingress) s = some s') :
    Answers d ingress pitMatches s s' := by
  rcases h with h | h
  · exact answers_foldlM (fun _ _ _ hid hsat => answers_satisfyOnly hid hsat) _ hnodup hids h
  · exact answers_foldlM (fun _ _ _ hid hsat => answers_satisfyOne hid hsat) _ hnodup hids h

theorem onIncomingInterest_steady {i : Interest} {inDnl csHit : Bool}
    (h : s.onIncomingInterest c i ingress inDnl csHit = some s') : Steady s s' ∨
      ∃ s₀ i₁ id e s₁, s.admitInterest c i ingress inDnl csHit = .dispatched s₀ i₁ id ∧
        Admits c ingress s (.dispatched s₀ i₁ id) ∧ s₀.pit.find? id = some e ∧
        Steady s s₁ ∧ Forwards c i₁ ingress id e s₀ s₁ s' := by
  rcases onIncomingInterest_cases h with hadmits | ⟨s₀,i₁,id,hs₀,hadmits,h⟩
  · exact Or.inl (steady_admits hadmits)
  · have hsteady : Steady s s₀ := steady_admits hadmits
    obtain ⟨e,he,⟨s₁,hforwards⟩ | hrelays⟩ := afterReceiveInterest_cases h
    · exact Or.inr ⟨s₀,i₁,id,e,s₁,hs₀,hadmits,he,hsteady.trans
        (sends_forwards (P := fun _ _ => True) hforwards fun _ _ _ => trivial).steady,hforwards⟩
    · exact Or.inl (hsteady.trans
        (sends_relays (P := fun _ _ => True) (fun _ _ _ => trivial) hrelays).steady)

section Bounds

theorem Bounded.interest (hb : s.Bounded) {i : Interest} {inDnl csHit : Bool}
    (h : s.onIncomingInterest c i ingress inDnl csHit = some s') : s'.Bounded := by
  rcases onIncomingInterest_steady h with hsteady | ⟨_,_,_,_,s₁,_,_,_,hsteady,hforwards⟩
  · exact hb.keepsEntries hsteady.quiet.toKeepsEntries
  · exact (hb.keepsEntries hsteady.quiet.toKeepsEntries).keepsEntries
      (records_recordPitEntry hforwards.recorded).toKeepsEntries

theorem Bounded.data (hb : s.Bounded) {nOthers : Nat} (hnodup : pitMatches.Nodup)
    (hmatches : ∀ id ∈ pitMatches, s.isAlive id = true)
    (h : s.onIncomingData c d ingress pitMatches nOthers = some s') : s'.Bounded := by
  rcases onIncomingData_cases h with hsteady | ⟨_,_,s₁,hsteady,hfold⟩
  · exact hb.keepsEntries hsteady.quiet.toKeepsEntries
  · have hanswers := answers_of_satisfied hnodup (fun id hid => hb id (hmatches id hid)) hfold
    exact (hb.keepsEntries hanswers.toKeepsEntries).keepsEntries hsteady.quiet.toKeepsEntries

theorem Bounded.nack (hb : s.Bounded) {nack : Nack}
    (h : s.onIncomingNack c nack ingress = some s') : s'.Bounded := by
  rcases onIncomingNack_cases h with ⟨_,rfl⟩ | ⟨e,s₁,s₂,_,hs₁,hs₂,hs'⟩
  · exact hb
  obtain ⟨e₁,he₁,_⟩ := bind_eq_some_iff.mp hs₂
  have hb₂ := (hb.keepsEntries (quiet_noted hs₁).toKeepsEntries).keepsEntries
    (keepsEntries_processesNack (processNack_cases he₁ hs₂))
  rcases hs' with rfl | rfl
  · exact hb₂
  · exact hb₂.keepsEntries (steady_setExpiryTimer e.id 0).quiet.toKeepsEntries

theorem Bounded.step (hb : s.Bounded) {event : Event} (h : s.step c event = some s') :
    s'.Bounded := by
  cases step_cases h with
  | interest h => exact hb.interest h
  | data hnodup halive h => exact hb.data hnodup halive h
  | nack h => exact hb.nack h
  | finalize id => exact hb.finalize id
  | removeFace face =>
    intro id ha
    rw [isAlive_iff,interestOf_cleanupOnFaceRemoval,← isAlive_iff] at ha
    exact hb id ha
  | _ => exact hb

end Bounds

end KiteNdn.Fw.Forwarder
