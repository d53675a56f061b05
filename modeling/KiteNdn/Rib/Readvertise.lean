import Mathlib.Data.Fintype.Basic
import Mathlib.Tactic.FinCases
import KiteNdn.Framework.KeyedList
import KiteNdn.Framework.Run
import KiteNdn.Name.Basic

/-!
# Readvertised routes

`Readvertise` keeps a record for each readvertised name, counts the routes of the RIB behind it and
sends commands to the destination. Commands that have not completed and retry events keep iterators
to the records. A step fails where an assertion does and where a record is gone.
-/

namespace KiteNdn.Rib.Readvertise

open Framework List Function Option

abbrev RrId := Nat

inductive Command where
  | advertise
  | withdraw
  deriving DecidableEq

structure ReadvertisedRoute where
  name : Name
  nRibRoutes : Nat
  retryEvt : Option Command

structure State (ρ : Type) where
  rrs : RrId → Option ReadvertisedRoute
  nextId : RrId
  routeToRr : KeyedList (Prod.fst : ρ × RrId → ρ)
  isAvailable : Bool
  commands : List (Command × RrId)
  /-- `nRibRoutes` of the records that were erased, at that time; nothing reads it. -/
  erased : List Nat

variable {ρ : Type}

def initial : State ρ := ⟨fun _ => none,0,KeyedList.empty,false,[],[]⟩

namespace State

def set (s : State ρ) (id : RrId) (rr : ReadvertisedRoute) : State ρ :=
  { s with rrs := update s.rrs id (some rr) }

def erase (s : State ρ) (id : RrId) (rr : ReadvertisedRoute) : State ρ :=
  { s with rrs := update s.rrs id none, erased := s.erased ++ [rr.nRibRoutes] }

def send (s : State ρ) (command : Command) (id : RrId) : State ρ :=
  { s with commands := s.commands ++ [(command,id)] }

def advertise (s : State ρ) (id : RrId) : Option (State ρ) :=
  (s.rrs id).bind fun rr =>
    if rr.nRibRoutes = 0 then none
    else some (if s.isAvailable then s.send .advertise id else s)

def withdraw (s : State ρ) (id : RrId) : Option (State ρ) :=
  (s.rrs id).bind fun rr =>
    if rr.nRibRoutes ≠ 0 then none
    else some (if s.isAvailable then s.send .withdraw id else s.erase id rr)

def emplace (s : State ρ) (name : Name) : RrId × State ρ :=
  match (List.range s.nextId).find? fun id => (s.rrs id).any fun rr => rr.name = name with
  | some id => (id,s)
  | none => (s.nextId,{ s.set s.nextId ⟨name,0,none⟩ with nextId := s.nextId + 1 })

/-- The name is up to the policy. -/
def afterAddRoute [DecidableEq ρ] (s : State ρ) (ribRoute : ρ) : Option Name → Option (State ρ)
  | none => some s
  | some name =>
    let (id,s) := s.emplace name
    if (s.routeToRr.find? ribRoute).isSome then none
    else (s.rrs id).bind fun rr =>
      let s := { s.set id { rr with nRibRoutes := rr.nRibRoutes + 1 } with
        routeToRr := s.routeToRr.put (ribRoute,id) }
      if rr.nRibRoutes > 0 then some s else s.advertise id

def beforeRemoveRoute [DecidableEq ρ] (s : State ρ) (ribRoute : ρ) : Option (State ρ) :=
  match s.routeToRr.find? ribRoute with
  | none => some s
  | some (_,id) =>
    (s.rrs id).bind fun rr =>
      let s := { s.set id { rr with nRibRoutes := rr.nRibRoutes - 1 } with
        routeToRr := s.routeToRr.filter fun e => e.1 ≠ ribRoute }
      if rr.nRibRoutes - 1 > 0 then some s else s.withdraw id

def setAvailability (s : State ρ) (isAvailable : Bool) : Option (State ρ) :=
  if s.isAvailable = isAvailable then some s
  else if isAvailable then
    ((List.range s.nextId).filter fun id => (s.rrs id).isSome).foldlM advertise
      { s with isAvailable := true }
  else
    let erased := (List.range s.nextId).filterMap fun id =>
      (s.rrs id).bind fun rr => if rr.nRibRoutes > 0 then none else some rr.nRibRoutes
    some { s with
      isAvailable := false
      rrs := fun id => (s.rrs id).bind fun rr =>
        if rr.nRibRoutes > 0 then some { rr with retryEvt := none } else none
      erased := s.erased ++ erased }

def complete (s : State ρ) (command : Command) (id : RrId) (isSuccess : Bool) : Option (State ρ) :=
  if (command,id) ∉ s.commands then some s
  else
    let s := { s with commands := s.commands.erase (command,id) }
    (s.rrs id).map fun rr =>
      if command = .withdraw ∧ isSuccess then s.erase id rr
      else s.set id { rr with retryEvt := some command }

/-- An erased record has cancelled its event. -/
def retry (s : State ρ) (id : RrId) : Option (State ρ) :=
  match s.rrs id with
  | none => some s
  | some rr =>
    let s := s.set id { rr with retryEvt := none }
    match rr.retryEvt with
    | none => some s
    | some .advertise => s.advertise id
    | some .withdraw => s.withdraw id

end State

inductive Event (ρ : Type) where
  | addRoute (ribRoute : ρ) (action : Option Name)
  | removeRoute (ribRoute : ρ)
  | setAvailability (isAvailable : Bool)
  | complete (command : Command) (id : RrId) (isSuccess : Bool)
  | retry (id : RrId)

def step [DecidableEq ρ] (s : State ρ) : Event ρ → Option (State ρ)
  | .addRoute ribRoute action => s.afterAddRoute ribRoute action
  | .removeRoute ribRoute => s.beforeRemoveRoute ribRoute
  | .setAvailability isAvailable => s.setAvailability isAvailable
  | .complete command id isSuccess => s.complete command id isSuccess
  | .retry id => s.retry id

def run [DecidableEq ρ] (events : List (Event ρ)) : Option (State ρ) := events.foldlM step initial

def nReferring (s : State ρ) (id : RrId) : Nat := s.routeToRr.items.countP fun e => e.2 = id

/-- Routes refer to records that exist and are counted there; a record was erased only when its
count was zero. -/
structure Consistent (s : State ρ) : Prop where
  refers : ∀ e ∈ s.routeToRr.items, (s.rrs e.2).isSome = true
  counts : ∀ id rr, s.rrs id = some rr → rr.nRibRoutes = nReferring s id
  erased : ∀ n ∈ s.erased, n = 0

/-- The RIB reports each route once. No route appears for a record that is being withdrawn, the last
route disappears when no advertise command is under way, a record is refreshed only while it has
routes, and the destination does not disappear while it is to withdraw a record. -/
def Orderly [DecidableEq ρ] (s : State ρ) : Event ρ → Prop
  | .addRoute ribRoute action => s.routeToRr.find? ribRoute = none ∧ ∀ name, action = some name →
    ∀ id rr, s.rrs id = some rr → rr.name = name → 0 < rr.nRibRoutes
  | .removeRoute ribRoute => ∀ id rr, s.routeToRr.find? ribRoute = some (ribRoute,id) →
    s.rrs id = some rr → rr.nRibRoutes = 1 → (.advertise,id) ∉ s.commands
  | .setAvailability isAvailable => isAvailable = false → ∀ id, (.withdraw,id) ∉ s.commands
  | .complete _ _ _ => True
  | .retry id => ∀ rr, s.rrs id = some rr → rr.retryEvt = some .advertise → 0 < rr.nRibRoutes

section Invariant

variable {s : State ρ} {id : RrId} {rr : ReadvertisedRoute}

/-- What holds of a place in memory, the number of routes that refer to it and the numbers of
commands for it. A record without routes is being withdrawn, by a command or by a retry event. -/
def Cell (isAvailable : Bool) : Option ReadvertisedRoute → Nat → Nat → Nat → Prop
  | none, routes, advertising, withdrawing => routes = 0 ∧ advertising = 0 ∧ withdrawing = 0
  | some rr, routes, advertising, withdrawing => rr.nRibRoutes = routes ∧
    (0 < advertising → 0 < rr.nRibRoutes) ∧ (0 < withdrawing → rr.nRibRoutes = 0) ∧
    withdrawing ≤ 1 ∧
    (rr.retryEvt = some .withdraw → rr.nRibRoutes = 0 ∧ withdrawing = 0) ∧
    (isAvailable = false → 0 < rr.nRibRoutes)

def CellAt (s : State ρ) (id : RrId) : Prop :=
  Cell s.isAvailable (s.rrs id) (nReferring s id) (s.commands.count (.advertise,id))
    (s.commands.count (.withdraw,id))

structure Inv (s : State ρ) : Prop where
  fresh : ∀ id ≥ s.nextId, s.rrs id = none
  cells : ∀ id, CellAt s id
  erased : ∀ n ∈ s.erased, n = 0

theorem Inv.cell (h : Inv s) (hrr : s.rrs id = some rr) :
    Cell s.isAvailable (some rr) (nReferring s id) (s.commands.count (.advertise,id))
      (s.commands.count (.withdraw,id)) := by
  rw [← hrr]
  exact h.cells id

theorem Inv.consistent (h : Inv s) : Consistent s where
  refers e he := by
    have hpos : 0 < nReferring s e.2 := countP_pos_iff.mpr ⟨e,he,by simp⟩
    have hcell := h.cells e.2
    unfold CellAt at hcell
    cases hrr : s.rrs e.2 with
    | none =>
      rw [hrr] at hcell
      exact absurd hcell.1 (by omega)
    | some rr => rfl
  counts id rr hrr := (h.cell hrr).1
  erased := h.erased

theorem inv_initial : Inv (initial : State ρ) :=
  ⟨fun _ _ => rfl,fun _ => ⟨rfl,rfl,rfl⟩,by simp [initial]⟩

/-- The invariant but for one place. -/
structure InvBut (s : State ρ) (id : RrId) : Prop where
  fresh : ∀ other ≥ s.nextId, s.rrs other = none
  cells : ∀ other ≠ id, CellAt s other
  erased : ∀ n ∈ s.erased, n = 0

theorem Inv.but (h : Inv s) (id : RrId) : InvBut s id :=
  ⟨h.fresh,fun other _ => h.cells other,h.erased⟩

theorem InvBut.inv (h : InvBut s id) (hcell : CellAt s id) : Inv s :=
  ⟨h.fresh,fun other => (eq_or_ne other id).elim (fun heq => heq ▸ hcell) (h.cells other),h.erased⟩

theorem InvBut.lt (h : InvBut s id) (hrr : s.rrs id = some rr) : id < s.nextId := by
  refine lt_of_not_ge fun hge => ?_
  rw [h.fresh id hge] at hrr
  cases hrr

theorem InvBut.update (h : InvBut s id) (hid : id < s.nextId) (v : Option ReadvertisedRoute)
    {erased : List Nat} (herased : ∀ n ∈ erased, n = 0) :
    InvBut { s with rrs := update s.rrs id v, erased } id := by
  refine ⟨fun other hother => ?_,fun other hne => ?_,herased⟩
  · exact (update_of_ne (hid.trans_le hother).ne' _ _).trans (h.fresh other hother)
  · have hcell := h.cells other hne
    unfold CellAt at hcell ⊢
    rw [← update_of_ne hne v s.rrs] at hcell
    exact hcell

theorem InvBut.commands (h : InvBut s id) {commands : List (Command × RrId)}
    (hsame : ∀ other ≠ id, ∀ c, commands.count (c,other) = s.commands.count (c,other)) :
    InvBut { s with commands } id := by
  refine ⟨h.fresh,fun other hne => ?_,h.erased⟩
  have hcell := h.cells other hne
  unfold CellAt at hcell ⊢
  rw [← hsame other hne,← hsame other hne] at hcell
  exact hcell

theorem InvBut.routeToRr (h : InvBut s id) {routeToRr : KeyedList (Prod.fst : ρ × RrId → ρ)}
    (hsame : ∀ other ≠ id, nReferring { s with routeToRr } other = nReferring s other) :
    InvBut { s with routeToRr } id := by
  refine ⟨h.fresh,fun other hne => ?_,h.erased⟩
  have hcell := h.cells other hne
  unfold CellAt at hcell ⊢
  rw [← hsame other hne] at hcell
  exact hcell

private theorem count_concat (l : List (Command × RrId)) (c c' : Command) (id id' : RrId) :
    (l ++ [(c,id)]).count (c',id') = l.count (c',id') + if c = c' ∧ id = id' then 1 else 0 := by
  rw [count_append,count_singleton]
  simp

theorem InvBut.send (h : InvBut s id) (c : Command) : InvBut (s.send c id) id := by
  refine h.commands fun other hne c' => ?_
  rw [count_concat,if_neg fun heq => hne heq.2.symm,Nat.add_zero]

theorem advertise_spec (h : Inv s) (hrr : s.rrs id = some rr) (hpos : 0 < rr.nRibRoutes) :
    ∃ s', s.advertise id = some s' ∧ Inv s' ∧ s'.rrs = s.rrs := by
  have hstep : s.advertise id = some (if s.isAvailable then s.send .advertise id else s) := by
    simp [State.advertise,hrr,hpos.ne']
  refine ⟨_,hstep,?_⟩
  split_ifs
  · refine ⟨((h.but id).send _).inv ?_,rfl⟩
    obtain ⟨hroutes,_,hrest⟩ := h.cell hrr
    simp only [CellAt,State.send,hrr,count_concat]
    exact ⟨hroutes,fun _ => hpos,by simpa using hrest⟩
  · exact ⟨h,rfl⟩

/-- A record is withdrawn once it has lost its last route, or once more. -/
theorem withdraw_spec (h : InvBut s id) (hrr : s.rrs id = some rr) (hzero : rr.nRibRoutes = 0)
    (hroutes : nReferring s id = 0) (hretry : rr.retryEvt ≠ some .withdraw)
    (hnone : ∀ c, s.commands.count (c,id) = 0) : ∃ s', s.withdraw id = some s' ∧ Inv s' := by
  have hstep : s.withdraw id =
      some (if s.isAvailable then s.send .withdraw id else s.erase id rr) := by
    simp [State.withdraw,hrr,hzero]
  refine ⟨_,hstep,?_⟩
  split_ifs with hon
  · refine (h.send _).inv ?_
    simp only [CellAt,State.send,hrr,count_concat,hnone]
    exact ⟨hzero.trans hroutes.symm,by simp,fun _ => hzero,by simp,fun hw => absurd hw hretry,
      fun hoff => by rw [hon] at hoff; cases hoff⟩
  · refine (h.update (h.lt hrr) none (forall_mem_append.mpr
      ⟨h.erased,forall_mem_singleton.mpr hzero⟩)).inv ?_
    simp only [CellAt,update_self]
    exact ⟨hroutes,hnone _,hnone _⟩

private theorem advertiseAll_spec (ids : List RrId) (h : Inv s)
    (hids : ∀ id ∈ ids, ∃ rr, s.rrs id = some rr ∧ 0 < rr.nRibRoutes) :
    ∃ s', ids.foldlM State.advertise s = some s' ∧ Inv s' := by
  induction ids generalizing s with
  | nil => exact ⟨s,rfl,h⟩
  | cons id ids ih =>
    obtain ⟨rr,hrr,hpos⟩ := hids id mem_cons_self
    obtain ⟨s',hs',h',hrrs⟩ := advertise_spec h hrr hpos
    rw [foldlM_cons,hs']
    exact ih h' fun other hother => hrrs ▸ hids other (mem_cons_of_mem id hother)

theorem setAvailability_spec (h : Inv s) {isAvailable : Bool}
    (hquiet : isAvailable = false → ∀ id, (.withdraw,id) ∉ s.commands) :
    ∃ s', s.setAvailability isAvailable = some s' ∧ Inv s' := by
  unfold State.setAvailability
  split_ifs with hsame hon
  · exact ⟨s,rfl,h⟩
  · -- Records without routes were erased when the destination disappeared.
    have hoff : s.isAvailable = false := by
      subst hon
      exact eq_false_of_ne_true hsame
    refine advertiseAll_spec _ ⟨h.fresh,fun id => ?_,h.erased⟩ fun id hid => ?_
    · have hcell := h.cells id
      unfold CellAt at hcell ⊢
      dsimp only at hcell ⊢
      cases hrr : s.rrs id with
      | none =>
        rw [hrr] at hcell
        exact hcell
      | some rr =>
        rw [hrr] at hcell
        obtain ⟨h₁,h₂,h₃,h₄,h₅,_⟩ := hcell
        exact ⟨h₁,h₂,h₃,h₄,h₅,nofun⟩
    · obtain ⟨rr,hrr⟩ := isSome_iff_exists.mp (mem_filter.mp hid).2
      exact ⟨rr,hrr,(h.cell hrr).2.2.2.2.2 hoff⟩
  · refine ⟨_,rfl,fun id hid => ?_,fun id => ?_,?_⟩
    · dsimp only
      rw [h.fresh id hid]
      rfl
    · have hcell := h.cells id
      have hwithdraw : s.commands.count (.withdraw,id) = 0 :=
        count_eq_zero.mpr (hquiet (eq_false_of_ne_true hon) id)
      unfold CellAt at hcell ⊢
      dsimp only at hcell ⊢
      cases hrr : s.rrs id with
      | none =>
        rw [hrr] at hcell
        exact hcell
      | some rr =>
        rw [hrr] at hcell
        obtain ⟨h₁,h₂,h₃,h₄,h₅,_⟩ := hcell
        rw [bind_some]
        split_ifs with hpos
        · exact ⟨h₁,h₂,h₃,h₄,nofun,fun _ => hpos⟩
        · exact ⟨h₁.symm.trans (by omega),by omega,hwithdraw⟩
    · refine forall_mem_append.mpr ⟨h.erased,fun n hn => ?_⟩
      obtain ⟨id,_,hid⟩ := mem_filterMap.mp hn
      obtain ⟨rr,_,hrr⟩ := bind_eq_some_iff.mp hid
      split_ifs at hrr with hpos
      cases hrr
      omega

theorem complete_spec (h : Inv s) (command : Command) (id : RrId) (isSuccess : Bool) :
    ∃ s', s.complete command id isSuccess = some s' ∧ Inv s' := by
  by_cases hmem : (command,id) ∈ s.commands
  swap
  · exact ⟨s,by simp [State.complete,hmem],h⟩
  have hpos := count_pos_iff.mpr hmem
  have hbut : InvBut { s with commands := s.commands.erase (command,id) } id :=
    (h.but id).commands fun other hne c => count_erase_of_ne fun heq => hne (Prod.mk.inj heq).2
  have hself : (s.commands.erase (command,id)).count (command,id) =
      s.commands.count (command,id) - 1 := count_erase_self
  have hle : ∀ c, (s.commands.erase (command,id)).count (c,id) ≤ s.commands.count (c,id) :=
    fun c => erase_sublist.count_le _
  have ha := hle .advertise
  have hw := hle .withdraw
  cases hrr : s.rrs id with
  | none =>
    have hcell := h.cells id
    unfold CellAt at hcell
    rw [hrr] at hcell
    cases command <;> exact absurd hpos (by simp [hcell.2.1,hcell.2.2])
  | some rr =>
    obtain ⟨h₁,h₂,h₃,h₄,h₅,h₆⟩ := h.cell hrr
    have hstep : s.complete command id isSuccess = some
        (if command = .withdraw ∧ isSuccess then
          State.erase { s with commands := s.commands.erase (command,id) } id rr
        else State.set { s with commands := s.commands.erase (command,id) } id
          { rr with retryEvt := some command }) := by
      simp [State.complete,hmem,hrr]
    refine ⟨_,hstep,?_⟩
    split_ifs with hdone
    · obtain ⟨rfl,_⟩ := hdone
      have hzero := h₃ hpos
      refine (hbut.update (hbut.lt hrr) none (forall_mem_append.mpr
        ⟨h.erased,forall_mem_singleton.mpr hzero⟩)).inv ?_
      simp only [CellAt,update_self]
      exact ⟨h₁.symm.trans hzero,by omega,by omega⟩
    · refine (hbut.update (hbut.lt hrr) _ h.erased).inv ?_
      simp only [CellAt,update_self]
      refine ⟨h₁,fun hadvertise => h₂ (by omega),fun hwithdraw => h₃ (by omega),by omega,?_,h₆⟩
      rintro ⟨⟩
      exact ⟨h₃ hpos,by omega⟩

theorem retry_spec (h : Inv s)
    (hpositive : ∀ rr, s.rrs id = some rr → rr.retryEvt = some .advertise → 0 < rr.nRibRoutes) :
    ∃ s', s.retry id = some s' ∧ Inv s' := by
  unfold State.retry
  split
  · exact ⟨s,rfl,h⟩
  · next rr hrr =>
    obtain ⟨h₁,h₂,h₃,h₄,h₅,h₆⟩ := h.cell hrr
    have hbut := (h.but id).update ((h.but id).lt hrr) (some { rr with retryEvt := none }) h.erased
    have hset : Inv (s.set id { rr with retryEvt := none }) := by
      refine hbut.inv ?_
      simp only [CellAt,update_self]
      exact ⟨h₁,h₂,h₃,h₄,nofun,h₆⟩
    have hnew : (s.set id { rr with retryEvt := none }).rrs id =
        some { rr with retryEvt := none } := update_self ..
    dsimp only
    split
    · exact ⟨_,rfl,hset⟩
    · next hretry =>
      obtain ⟨s',hs',h',_⟩ := advertise_spec hset hnew (hpositive rr hrr hretry)
      exact ⟨s',hs',h'⟩
    · next hretry =>
      obtain ⟨hzero,hnone⟩ := h₅ hretry
      refine withdraw_spec hbut hnew hzero (h₁.symm.trans hzero) (by simp) fun c => ?_
      cases c with
      | withdraw => exact hnone
      | advertise =>
        show s.commands.count (.advertise,id) = 0
        omega

end Invariant

section Routes

variable {s : State ρ}

private theorem emplace_spec (h : Inv s) (name : Name)
    (hpositive : ∀ id rr, s.rrs id = some rr → rr.name = name → 0 < rr.nRibRoutes) :
    ∃ id s₁ rr, s.emplace name = (id,s₁) ∧ s₁.routeToRr = s.routeToRr ∧ s₁.rrs id = some rr ∧
      rr.retryEvt ≠ some .withdraw ∧ s₁.commands.count (.withdraw,id) = 0 ∧
      rr.nRibRoutes = nReferring s₁ id ∧ InvBut s₁ id := by
  unfold State.emplace
  cases hfind : (List.range s.nextId).find? fun id => (s.rrs id).any fun rr => rr.name = name with
  | some id =>
    have hname := find?_some hfind
    cases hrr : s.rrs id with
    | none => simp [hrr] at hname
    | some rr =>
      obtain ⟨h₁,_,h₃,_,h₅,_⟩ := h.cell hrr
      have hpos := hpositive id rr hrr (by simpa [hrr] using hname)
      exact ⟨id,s,rr,rfl,rfl,hrr,fun hw => by have := (h₅ hw).1; omega,by omega,h₁,h.but id⟩
  | none =>
    have hcell := h.cells s.nextId
    unfold CellAt at hcell
    rw [h.fresh s.nextId (Nat.le_refl _)] at hcell
    have hbut : InvBut { s with nextId := s.nextId + 1 } s.nextId :=
      ⟨fun other hother => h.fresh other (Nat.le_of_succ_le hother),(h.but _).cells,h.erased⟩
    exact ⟨_,_,_,rfl,rfl,update_self ..,by simp,hcell.2.2,hcell.1.symm,
      hbut.update (Nat.lt_succ_self _) _ h.erased⟩

variable [DecidableEq ρ] {ribRoute : ρ}

theorem afterAddRoute_spec (h : Inv s) (hnew : s.routeToRr.find? ribRoute = none) (name : Name)
    (hpositive : ∀ id rr, s.rrs id = some rr → rr.name = name → 0 < rr.nRibRoutes) :
    ∃ s', s.afterAddRoute ribRoute (some name) = some s' ∧ Inv s' := by
  obtain ⟨id,s₁,rr,heq,hroutes,hrr,hretry,hwithdraw,hcount,hbut⟩ := emplace_spec h name hpositive
  let t : State ρ := { s₁.set id { rr with nRibRoutes := rr.nRibRoutes + 1 } with
    routeToRr := s₁.routeToRr.put (ribRoute,id) }
  have hreferring : ∀ other, nReferring t other =
      nReferring s₁ other + if id = other then 1 else 0 := by
    intro other
    have hkeep : s₁.routeToRr.filter (fun e => e.1 ≠ ribRoute) = s₁.routeToRr := by
      refine s₁.routeToRr.filter_eq_self fun e he => decide_eq_true ?_
      exact (s₁.routeToRr.find?_eq_none.mp (hroutes ▸ hnew)) e he
    have hput := s₁.routeToRr.countP_put (ribRoute,id) fun e => decide (e.2 = other)
    rw [hkeep] at hput
    exact hput.trans (by simp [nReferring])
  have hinv : Inv t := by
    have hset := hbut.update (hbut.lt hrr)
      (some { rr with nRibRoutes := rr.nRibRoutes + 1 }) hbut.erased
    refine (hset.routeToRr fun other hne => ?_).inv ?_
    · exact (hreferring other).trans (by rw [if_neg (Ne.symm hne)]; rfl)
    · simp only [CellAt,update_self,hwithdraw]
      have hself := hreferring id
      rw [if_pos rfl,← hcount] at hself
      exact ⟨hself.symm,fun _ => Nat.succ_pos _,nofun,by omega,fun hw => absurd hw hretry,
        fun _ => Nat.succ_pos _⟩
  have hstep : s.afterAddRoute ribRoute (some name) =
      if rr.nRibRoutes > 0 then some t else t.advertise id := by
    simp [State.afterAddRoute,heq,hroutes,hnew,hrr,t]
  rw [hstep]
  split_ifs
  · exact ⟨t,rfl,hinv⟩
  · obtain ⟨s',hs',h',_⟩ := advertise_spec hinv
      (show t.rrs id = some _ from update_self ..) (Nat.succ_pos _)
    exact ⟨s',hs',h'⟩

theorem beforeRemoveRoute_spec (h : Inv s) (hquiet : ∀ id rr,
      s.routeToRr.find? ribRoute = some (ribRoute,id) → s.rrs id = some rr → rr.nRibRoutes = 1 →
      (.advertise,id) ∉ s.commands) :
    ∃ s', s.beforeRemoveRoute ribRoute = some s' ∧ Inv s' := by
  unfold State.beforeRemoveRoute
  cases hfind : s.routeToRr.find? ribRoute with
  | none => exact ⟨s,rfl,h⟩
  | some e =>
    obtain ⟨route,id⟩ := e
    obtain rfl : route = ribRoute := s.routeToRr.find?_key hfind
    obtain ⟨rr,hrr⟩ := isSome_iff_exists.mp
      (h.consistent.refers _ (s.routeToRr.find?_eq_some.mp hfind).1)
    let t : State ρ := { s.set id { rr with nRibRoutes := rr.nRibRoutes - 1 } with
      routeToRr := s.routeToRr.filter fun e => e.1 ≠ route }
    have hreferring : ∀ other, nReferring s other =
        nReferring t other + if id = other then 1 else 0 := by
      intro other
      exact (s.routeToRr.countP_of_find? hfind fun e => decide (e.2 = other)).trans
        (by simp [nReferring,t])
    obtain ⟨h₁,_,h₃,h₄,h₅,_⟩ := h.cell hrr
    have hself : rr.nRibRoutes = nReferring t id + 1 := by rw [h₁,hreferring,if_pos rfl]
    have hset := (h.but id).update ((h.but id).lt hrr)
      (some { rr with nRibRoutes := rr.nRibRoutes - 1 }) h.erased
    have hbut : InvBut t id := hset.routeToRr fun other hne =>
      ((hreferring other).trans (by rw [if_neg (Ne.symm hne)]; rfl)).symm
    have htrr : t.rrs id = some { rr with nRibRoutes := rr.nRibRoutes - 1 } := update_self ..
    simp only [hrr,bind_some]
    split_ifs with hpos
    · refine ⟨t,rfl,hbut.inv ?_⟩
      unfold CellAt
      rw [htrr]
      exact ⟨by dsimp only; omega,fun _ => hpos,fun hw => by have := h₃ hw; omega,h₄,
        fun hw => by have := (h₅ hw).1; omega,fun _ => hpos⟩
    · refine withdraw_spec hbut htrr (by dsimp only; omega) (show nReferring t id = 0 by omega)
        (fun hw => by have := (h₅ hw).1; omega) fun c => ?_
      cases c with
      | withdraw =>
        refine Nat.eq_zero_of_not_pos fun hw => ?_
        have hn := h₃ hw
        omega
      | advertise => exact count_eq_zero.mpr (hquiet id rr hfind hrr (by omega))

theorem step_spec (h : Inv s) (event : Event ρ) (ho : Orderly s event) :
    ∃ s', step s event = some s' ∧ Inv s' := by
  cases event with
  | addRoute ribRoute action =>
    cases action with
    | none => exact ⟨s,rfl,h⟩
    | some name => exact afterAddRoute_spec h ho.1 name (ho.2 name rfl)
  | removeRoute ribRoute => exact beforeRemoveRoute_spec h ho
  | setAvailability isAvailable => exact setAvailability_spec h ho
  | complete command id isSuccess => exact complete_spec h command id isSuccess
  | retry id => exact retry_spec h ho

/-- As long as the events come in order, every step succeeds, a record counts the routes that refer
to it, and it is erased when there are none. -/
theorem run_consistent (events : List (Event ρ))
    (horderly : ∀ before event after s, events = before ++ event :: after →
      run before = some s → Orderly s event) :
    ∃ s, run events = some s ∧ Consistent s := by
  obtain ⟨s,hs,h⟩ := foldlM_invariant step Inv Orderly (fun _ event h => step_spec h event)
    initial inv_initial events horderly
  exact ⟨s,hs,h.consistent⟩

end Routes

theorem run_consistent_once : ∃ s, run [.setAvailability true,.addRoute 0 (some []),
    .complete .advertise 0 true,.removeRoute 0,.complete .withdraw 0 true] = some s ∧
      Consistent s := by
  refine run_consistent _ ?_
  have hall := forall_split (P := fun past event => ∀ s : State Nat, run past = some s →
      Orderly s event) [.setAvailability true,.addRoute 0 (some []),
    .complete .advertise 0 true,.removeRoute 0,.complete .withdraw 0 true] fun k => ?_
  · exact fun before event after s heq => hall before event after heq s
  · fin_cases k <;> rintro s ⟨⟩
    · exact nofun
    · exact ⟨rfl,nofun⟩
    · exact True.intro
    · exact fun _ _ _ _ _ => not_mem_nil
    · exact True.intro

/-- A second route appears while the record of the first is being withdrawn: the record is erased
although it counts a route. A route disappears while it is being advertised: the record is erased
while a command refers to it. -/
theorem run_erases_referred :
    (∃ s, run [.setAvailability true,.addRoute 0 (some []),.complete .advertise 0 true,
        .removeRoute 0,.addRoute 1 (some []),.complete .withdraw 0 true] = some s ∧
      s.erased = [1] ∧ (1,0) ∈ s.routeToRr.items ∧ s.rrs 0 = none ∧ ¬ Consistent s) ∧
    run [.setAvailability true,.addRoute 0 (some []),.removeRoute 0,
      .complete .withdraw 0 true,.complete .advertise 0 true] = none := by
  refine ⟨⟨_,rfl,rfl,mem_singleton.mpr rfl,rfl,fun h => ?_⟩,rfl⟩
  exact absurd (h.erased 1 mem_cons_self) (by decide)

end KiteNdn.Rib.Readvertise
