import KiteNdn.Fw.Pipeline

/-!
# FIB lookup with its assertions

`lookupFib` skips the KITE delegations of the forwarding hint. Its assertions are from the time when
there were none: an entry without next hops has to be the root.
-/

namespace KiteNdn.Fw.Forwarder

open List Option

variable {c : Config} {s : Forwarder} {e : PitEntry} {fibEntry : Option (Name × List FaceId)}
  {entry : Name × List FaceId}

/-- After the loop. `none` is a failed assertion. -/
def lookupLast (s : Forwarder) (e : PitEntry) (fibEntry : Option (Name × List FaceId)) :
    Option (Name × List FaceId) :=
  let fibEntry := fibEntry.getD (s.findLongestPrefixMatch e.name)
  if fibEntry.1 = [] then some fibEntry else none

def lookupDelegations (s : Forwarder) (e : PitEntry) :
    List Name → Option (Name × List FaceId) → Option (Name × List FaceId)
  | [], fibEntry => s.lookupLast e fibEntry
  | delegation :: delegations, fibEntry =>
    if isKiteDelegation delegation then lookupDelegations s e delegations fibEntry
    else
      let fibEntry := s.findLongestPrefixMatch delegation
      if fibEntry.2 ≠ [] then some fibEntry
      else if fibEntry.1 = [] then lookupDelegations s e delegations (some fibEntry)
      else none

def lookupFibChecked (c : Config) (s : Forwarder) (e : PitEntry) : Option (Name × List FaceId) :=
  if e.interest.forwardingHint = [] then some (s.findLongestPrefixMatch e.name)
  else if c.isInProducerRegion e.interest.forwardingHint then none
  else lookupDelegations s e e.interest.forwardingHint none

/-- Only the root may lack next hops. -/
def HasNextHops (s : Forwarder) : Prop := ∀ p l, s.fib p = some l → p ≠ [] → l ≠ []

def rootEntry (s : Forwarder) : Name × List FaceId := ([],(s.fib []).getD [])

/-- What the lookup is for: the first delegation with a route, the name itself if all delegations
are for KITE, and the root otherwise. -/
def intendedEntry (s : Forwarder) (e : PitEntry) : Name × List FaceId :=
  let delegations := e.interest.forwardingHint.filter fun d => !isKiteDelegation d
  match delegations.find? fun d => (s.findLongestPrefixMatch d).2 ≠ [] with
  | some d => s.findLongestPrefixMatch d
  | none => if delegations = [] then s.findLongestPrefixMatch e.name else s.rootEntry

theorem findLongestPrefixMatch_cases (s : Forwarder) (name : Name) :
    (∃ p l, s.fib p = some l ∧ s.findLongestPrefixMatch name = (p,l)) ∨
      s.fib [] = none ∧ s.findLongestPrefixMatch name = ([],[]) := by
  unfold findLongestPrefixMatch
  cases hfound : (name :: Name.properPrefixes name).findSome? fun p =>
      (s.fib p).map fun l => (p,l) with
  | some entry =>
    obtain ⟨p,_,hp⟩ := exists_of_findSome?_eq_some hfound
    obtain ⟨l,hl,rfl⟩ := map_eq_some_iff.mp hp
    exact .inl ⟨p,l,hl,rfl⟩
  | none =>
    have hroot : [] ∈ name :: Name.properPrefixes name := by
      cases name with
      | nil => exact mem_cons_self
      | cons component rest =>
        exact mem_cons_of_mem _ (Name.mem_properPrefixes.mpr ⟨List.nil_prefix,nofun⟩)
    exact .inr ⟨map_eq_none_iff.mp (findSome?_eq_none_iff.mp hfound [] hroot),rfl⟩

theorem findLongestPrefixMatch_of_nil (h : s.HasNextHops) {name : Name}
    (hnil : (s.findLongestPrefixMatch name).2 = []) :
    s.findLongestPrefixMatch name = ([],[]) ∧ s.rootEntry = ([],[]) := by
  rcases findLongestPrefixMatch_cases s name with ⟨p,l,hl,heq⟩ | ⟨hnone,heq⟩
  · rw [heq] at hnil
    dsimp only at hnil
    subst hnil
    obtain rfl : p = [] := by
      by_contra hne
      exact h p [] hl hne rfl
    exact ⟨heq,by rw [rootEntry,hl]; rfl⟩
  · exact ⟨heq,by rw [rootEntry,hnone]; rfl⟩

private theorem lookupDelegations_eq (h : s.HasNextHops) (delegations : List Name)
    (hfound : ∀ x ∈ fibEntry, x = ([],[])) :
    lookupDelegations s e delegations fibEntry =
      match (delegations.filter fun d => !isKiteDelegation d).find? fun d =>
          (s.findLongestPrefixMatch d).2 ≠ [] with
      | some d => some (s.findLongestPrefixMatch d)
      | none =>
        if (delegations.filter fun d => !isKiteDelegation d) = [] then
          s.lookupLast e fibEntry
        else some ([],[]) := by
  induction delegations generalizing fibEntry with
  | nil => rfl
  | cons d delegations ih =>
    rw [lookupDelegations]
    by_cases hkite : isKiteDelegation d = true
    · rw [if_pos hkite,filter_cons_of_neg (by simpa using hkite)]
      exact ih hfound
    · rw [if_neg hkite,filter_cons_of_pos (by simpa using hkite)]
      dsimp only
      by_cases hroute : (s.findLongestPrefixMatch d).2 = []
      · obtain ⟨hroot,_⟩ := findLongestPrefixMatch_of_nil h hroute
        rw [if_neg (not_not.mpr hroute),if_pos (by rw [hroot]),
          ih (fun x hx => (mem_some_iff.mp hx).symm.trans hroot),
          find?_cons_of_neg (by simpa using hroute),hroot]
        split
        · rfl
        · rw [if_neg (cons_ne_nil d _)]
          split_ifs <;> rfl
      · rw [if_pos hroute,find?_cons_of_pos (by simpa using hroute)]

/-- The lookup passes its assertions and finds the intended entry exactly if the hint has a
delegation that is not for KITE, or the name itself leads to the root. -/
theorem lookupFibChecked_iff (c : Config) (s : Forwarder) (e : PitEntry) (h : s.HasNextHops)
    (hhint : e.interest.forwardingHint ≠ [])
    (hregion : c.isInProducerRegion e.interest.forwardingHint = false) :
    lookupFibChecked c s e = some (s.intendedEntry e) ↔
      ((∀ d ∈ e.interest.forwardingHint, isKiteDelegation d = true) →
        (s.findLongestPrefixMatch e.name).1 = []) := by
  have hall : (e.interest.forwardingHint.filter fun d => !isKiteDelegation d) = [] ↔
      ∀ d ∈ e.interest.forwardingHint, isKiteDelegation d = true := by
    simp
  rw [lookupFibChecked,if_neg hhint,if_neg (by simp [hregion]),
    lookupDelegations_eq h _ (fun x hx => absurd hx (not_mem_none x)),intendedEntry,← hall]
  generalize hds : (e.interest.forwardingHint.filter fun d => !isKiteDelegation d) = delegations
  cases hfind : delegations.find? fun d => (s.findLongestPrefixMatch d).2 ≠ [] with
  | some d =>
    have hne : delegations ≠ [] := ne_nil_of_mem (mem_of_find?_eq_some hfind)
    simp [hne]
  | none =>
    cases delegations with
    | nil => simp [lookupLast]
    | cons d delegations =>
      have hroute : (s.findLongestPrefixMatch d).2 = [] := by
        simpa using find?_eq_none.mp hfind d mem_cons_self
      simp [(findLongestPrefixMatch_of_nil h hroute).2]

private theorem lookup_of_delegations {delegations : List Name}
    (h : lookupDelegations s e delegations fibEntry = some entry) :
    (match (delegations.filter fun d => !isKiteDelegation d).find? fun d =>
        (s.findLongestPrefixMatch d).2 ≠ [] with
      | some d => s.findLongestPrefixMatch d
      | none =>
        match (delegations.filter fun d => !isKiteDelegation d).getLast? with
        | some d => s.findLongestPrefixMatch d
        | none => fibEntry.getD (s.findLongestPrefixMatch e.name)) = entry := by
  induction delegations generalizing fibEntry with
  | nil =>
    rw [lookupDelegations,lookupLast] at h
    split_ifs at h
    exact some.inj h
  | cons d delegations ih =>
    rw [lookupDelegations] at h
    by_cases hkite : isKiteDelegation d = true
    · rw [if_pos hkite] at h
      rw [filter_cons_of_neg (by simpa using hkite)]
      exact ih h
    · rw [if_neg hkite] at h
      dsimp only at h
      rw [filter_cons_of_pos (by simpa using hkite)]
      split_ifs at h with hroute hroot
      · rw [find?_cons_of_pos (by simpa using hroute)]
        exact some.inj h
      · rw [find?_cons_of_neg (by simpa using hroute),getLast?_cons]
        have hrest := ih h
        cases hlast : (delegations.filter fun d => !isKiteDelegation d).getLast? <;>
          rw [hlast] at hrest <;> exact hrest

def mixedHint : Interest :=
  { producerInterest with
    forwardingHint := producerInterest.forwardingHint ++ [[Component.generic [114]]] }

def oneRoute (p : Name) (face : FaceId) : Forwarder :=
  { empty with fib := fun name => if name = p then some [face] else none }

private theorem hasNextHops_oneRoute (p : Name) (face : FaceId) : (oneRoute p face).HasNextHops := by
  intro name l hl _
  dsimp only [oneRoute] at hl
  split_ifs at hl
  cases hl
  exact cons_ne_nil face []

theorem lookupFibChecked_iff_mixed :
    lookupFibChecked fourFaces (oneRoute [Component.generic [114]] 5) (.new 0 mixedHint) =
      some ([Component.generic [114]],[5]) :=
  (lookupFibChecked_iff fourFaces (oneRoute [Component.generic [114]] 5) (.new 0 mixedHint)
    (hasNextHops_oneRoute _ _) (by decide) rfl).mpr fun hall => absurd hall (by decide)

/-- Where no assertion fails, the lookup is the one of the strategy's model. -/
theorem lookupFib_of_checked (h : lookupFibChecked c s e = some entry) : s.lookupFib e = entry := by
  unfold lookupFibChecked at h
  split_ifs at h with hhint
  · unfold lookupFib
    rw [hhint]
    exact some.inj h
  · exact lookup_of_delegations h

theorem lookupFib_of_checked_mixed : (oneRoute [Component.generic [114]] 5).lookupFib
    (.new 0 mixedHint) = ([Component.generic [114]],[5]) :=
  lookupFib_of_checked (show lookupFibChecked fourFaces _ _ = _ by decide +kernel)

/-- The only delegation is for KITE, and there is a route to the producer: an assertion fails. -/
theorem lookup_asserts_root : (oneRoute producerName 2).HasNextHops ∧
    producerInterest.forwardingHint.all isKiteDelegation = true ∧
    fourFaces.isInProducerRegion producerInterest.forwardingHint = false ∧
    (oneRoute producerName 2).intendedEntry (.new 0 producerInterest) = (producerName,[2]) ∧
    lookupFibChecked fourFaces (oneRoute producerName 2) (.new 0 producerInterest) = none :=
  ⟨hasNextHops_oneRoute _ _,by decide,rfl,by decide +kernel,by decide +kernel⟩

end KiteNdn.Fw.Forwarder
