import KiteNdn.Fw.Quiet

/-!
# Hop limits of what the strategy sends

An Interest that has used up its hop limit is dropped on its way out to a face that is not local,
and the strategy is given a null pointer in place of the out-record. The loop over the next hops of
a producer goes on with it.
-/

namespace KiteNdn.Fw

open Option List

def passesHopLimit (c : Config) (i : Interest) (egress : FaceId) : Bool :=
  !(i.hopLimit = some 0 && c.scope egress = .nonLocal)

namespace Forwarder

variable {c : Config} {s t : Forwarder} {id : PitId} {ingress : FaceId}

theorem onOutgoingInterest_eq_none {i : Interest} {egress : FaceId} :
    s.onOutgoingInterest c i egress id = none ↔ passesHopLimit c i egress = false := by
  unfold onOutgoingInterest passesHopLimit
  split_ifs with hhop
  · simp [hhop]
  · simpa using hhop

private theorem scope_cases (c : Config) (f : FaceId) :
    c.scope f = .isLocal ∨ c.scope f = .nonLocal := by
  cases c.scope f
  · exact Or.inl rfl
  · exact Or.inr rfl

section HopLimit

/-- The loop over the next hops of the producer gets to one for which the outgoing pipeline drops the
Interest, and goes on with the null pointer. -/
def UsesDropped (c : Config) (s : Forwarder) (i : Interest) (ingress : FaceId) (id : PitId) : Prop :=
  kiteHint i ≠ [] ∧ ∃ e past f future t, s.pit.find? id = some e ∧
    (s.producerHops c i ingress e).2 = past ++ f :: future ∧
    past.foldlM (sendToProducer c i id (s.producerHops c i ingress e).1)
      (s.modifyEntry id (setInStatus (kiteHint i) ingress)) = some t ∧
    t.onOutgoingInterest c i f id = none

variable {i i' : Interest}

private theorem onContentStoreMiss_dispatched {id' : PitId} {isNew : Bool}
    (h : s.onContentStoreMiss c i ingress id isNew = .dispatched t i' id') :
    i' = attachHopLimit c i := by
  obtain ⟨_,_,_,hcases⟩ := onContentStoreMiss_cases (c := c) s i ingress id isNew
  rcases hcases with ⟨_,heq⟩ | heq | ⟨_,_,_,heq⟩
  · rw [heq] at h
    cases h
    rfl
  · rw [heq] at h
    exact nomatch h
  · rw [heq] at h
    exact nomatch h

private theorem dispatched_interest {inDnl csHit : Bool}
    (h : s.admitInterest c i ingress inDnl csHit = .dispatched t i' id) :
    i.hopLimit ≠ some 0 ∧ ∃ hint, i' = attachHopLimit c
      { i with hopLimit := i.hopLimit.map fun n => n - 1, forwardingHint := hint } := by
  unfold admitInterest at h
  dsimp only at h
  split_ifs at h with hzero _ _ hregion
  · refine ⟨hzero,[],?_⟩
    split at h
    · cases h
    · split_ifs at h
      exact onContentStoreMiss_dispatched h
  · refine ⟨hzero,i.forwardingHint,?_⟩
    split at h
    · cases h
    · split_ifs at h
      exact onContentStoreMiss_dispatched h

private theorem hopLimit_dispatched {inDnl csHit : Bool}
    (h : s.admitInterest c i ingress inDnl csHit = .dispatched t i' id) :
    i'.hopLimit = some 0 ↔ i.hopLimit = some 1 := by
  obtain ⟨hzero,hint,rfl⟩ := dispatched_interest h
  unfold attachHopLimit
  cases hlimit : i.hopLimit with
  | none =>
    simp only [map_none,and_true]
    split_ifs with hdefault
    · simp [hdefault.ne']
    · simp
  | some n =>
    rw [hlimit] at hzero
    have hn : n ≠ 0 := fun hn => hzero (congrArg some hn)
    simp only [map_some,reduceCtorEq,and_false,if_false,some.injEq]
    omega

private theorem exists_sentToProducer (id : PitId) (mpName : Name)
    {hops : List FaceId} (h : ∀ f ∈ hops, passesHopLimit c i f = true) (s : Forwarder) :
    ∃ t, hops.foldlM (sendToProducer c i id mpName) s = some t := by
  induction hops generalizing s with
  | nil => exact ⟨s,rfl⟩
  | cons f hops ih =>
    have hsome : s.onOutgoingInterest c i f id ≠ none := by
      rw [Ne,onOutgoingInterest_eq_none,h f mem_cons_self]
      simp
    obtain ⟨t,ht⟩ := ne_none_iff_exists'.mp hsome
    obtain ⟨u,hu⟩ := ih (fun g hg => h g (mem_cons_of_mem _ hg))
      ((t.modifyEntry id (setOutStatus mpName f)).transmitted ⟨id,f,i.nonce,mpName⟩)
    refine ⟨u,?_⟩
    rw [foldlM_cons,sendToProducer,ht]
    exact hu

/-- For an Interest that the strategy gets, a dropped Interest's out-record is not used exactly if
an Interest that arrives with a hop limit of one and a KITE delegation has only local next hops
towards the producer. -/
theorem not_usesDropped_iff {i i' : Interest} {ingress : FaceId} {inDnl csHit : Bool}
    (h : s.admitInterest c i ingress inDnl csHit = .dispatched t i' id) :
    ¬ t.UsesDropped c i' ingress id ↔
      (i.hopLimit = some 1 → kiteHint i' ≠ [] → ∀ e, t.pit.find? id = some e →
        ∀ f ∈ (t.lookupFib e).2, isNextHopEligible c ingress i' f = true →
          c.scope f = .isLocal) := by
  have hdropped : ∀ f, passesHopLimit c i' f = false ↔
      i.hopLimit = some 1 ∧ c.scope f = .nonLocal := by
    intro f
    rw [← hopLimit_dispatched h,passesHopLimit]
    simp
  constructor
  · intro hno hlimit hkite e he f hf helig
    refine (scope_cases c f).resolve_right fun hnonLocal => hno ⟨hkite,e,?_⟩
    have hmem : f ∈ (t.producerHops c i' ingress e).2 := mem_filter.mpr ⟨hf,helig⟩
    -- the first next hop for which the Interest is dropped
    obtain ⟨g,hg⟩ : ∃ g, (t.producerHops c i' ingress e).2.find?
        (fun f => !passesHopLimit c i' f) = some g := by
      rw [← isSome_iff_exists,List.find?_isSome]
      exact ⟨f,hmem,by rw [(hdropped f).mpr ⟨hlimit,hnonLocal⟩]; rfl⟩
    obtain ⟨hdrop,past,future,hsplit,hpast⟩ := List.find?_eq_some_iff_append.mp hg
    obtain ⟨u,hu⟩ := exists_sentToProducer id (t.producerHops c i' ingress e).1
      (fun f hf => by simpa using hpast f hf)
      (t.modifyEntry id (setInStatus (kiteHint i') ingress))
    exact ⟨past,g,future,u,he,hsplit,hu,onOutgoingInterest_eq_none.mpr (by simpa using hdrop)⟩
  · rintro hlocal ⟨hkite,e,past,f,future,u,he,hsplit,_,hnone⟩
    obtain ⟨hlimit,hnonLocal⟩ := (hdropped f).mp (onOutgoingInterest_eq_none.mp hnone)
    have hmem : f ∈ (t.producerHops c i' ingress e).2 := by
      rw [hsplit]
      simp
    obtain ⟨hf,helig⟩ := mem_filter.mp hmem
    rw [hlocal hlimit hkite e he f hf helig] at hnonLocal
    exact nomatch hnonLocal

theorem not_usesDropped_two : ∃ s t i', run fourFaces [.updateFib producerName [2]] = some s ∧
      s.admitInterest fourFaces { producerInterest with hopLimit := some 2 } 1 false false =
        .dispatched t i' 0 ∧ ¬ t.UsesDropped fourFaces i' 1 0 := by
  obtain ⟨s,hs⟩ : ∃ s, run fourFaces [.updateFib producerName [2]] = some s := ⟨_,rfl⟩
  obtain ⟨t,i',h⟩ : ∃ t i', s.admitInterest fourFaces { producerInterest with hopLimit := some 2 } 1
      false false = .dispatched t i' 0 := by
    cases hs
    exact ⟨_,_,rfl⟩
  exact ⟨s,t,i',hs,h,(not_usesDropped_iff h).mpr fun hlimit => absurd hlimit (by decide)⟩

/-- A remote Interest with a hop limit of one and a KITE delegation, and a route to the producer over
another remote face: the null pointer is used. -/
theorem usesDropped_one : ∃ s t i', run fourFaces [.updateFib producerName [2]] = some s ∧
      s.admitInterest fourFaces { producerInterest with hopLimit := some 1 } 1 false false =
        .dispatched t i' 0 ∧ t.UsesDropped fourFaces i' 1 0 ∧
      s.onIncomingInterest fourFaces { producerInterest with hopLimit := some 1 } 1 false false =
        none := by
  obtain ⟨s,hs⟩ : ∃ s, run fourFaces [.updateFib producerName [2]] = some s := ⟨_,rfl⟩
  obtain rfl := some.inj hs
  exact ⟨_,_,_,hs,rfl,⟨by decide,_,[],2,[],_,rfl,by decide,rfl,rfl⟩,rfl⟩

end HopLimit

end Forwarder

end KiteNdn.Fw
