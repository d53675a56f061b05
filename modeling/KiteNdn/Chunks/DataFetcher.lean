import KiteNdn.Chunks.Pipeline
import KiteNdn.Framework.Run

/-!
# Fetching one segment

After a Congestion Nack a `DataFetcher` sends its Interest again later. The time is a power of two
of the number of such Nacks in a row, but sending the Interest clears the number.
-/

namespace KiteNdn.Chunks

open Option List Bool

structure DataFetcher where
  isStopped : Bool := false
  hasError : Bool := false
  nNacks : Int := 0
  nTimeouts : Int := 0
  isBackingOff : Bool := false
  deriving DecidableEq, Repr

namespace DataFetcher

def isRunning (f : DataFetcher) : Bool := !f.isStopped && !f.hasError

def cancel (f : DataFetcher) : DataFetcher :=
  if f.isRunning then { f with isStopped := true, isBackingOff := false } else f

def handleNack (maxNackRetries : Int) (segmentNo : Nat) (reason : NackReason) (f : DataFetcher) :
    DataFetcher × Option Failure :=
  let f := if maxNackRetries ≠ maxRetriesInfinite then { f with nNacks := f.nNacks + 1 } else f
  if f.nNacks ≤ maxNackRetries ∨ maxNackRetries = maxRetriesInfinite then
    match reason with
    | .duplicate => (f,none)
    | .congestion => ({ f with isBackingOff := true },none)
    | .none | .noRoute => ({ f with hasError := true },some (.nack segmentNo reason))
  else ({ f with hasError := true },some (.nackRetries segmentNo))

def handleTimeout (maxTimeoutRetries : Int) (segmentNo : Nat) (f : DataFetcher) :
    DataFetcher × Option Failure :=
  let f := if maxTimeoutRetries ≠ maxRetriesInfinite then { f with nTimeouts := f.nTimeouts + 1 }
    else f
  if f.nTimeouts ≤ maxTimeoutRetries ∨ maxTimeoutRetries = maxRetriesInfinite then (f,none)
  else ({ f with hasError := true },some (.timeoutRetries segmentNo))

end DataFetcher

def maxCongestionBackoffTime : Nat := 10000

/-- The times of all backoffs are kept, in milliseconds. -/
structure CongestionFetcher extends DataFetcher where
  nCongestionRetries : Nat := 0
  backoffTimes : List Nat := []

namespace CongestionFetcher

def expressInterest (f : CongestionFetcher) : CongestionFetcher :=
  { f with nCongestionRetries := 0, isBackingOff := false }

def backOff (f : CongestionFetcher) : CongestionFetcher :=
  let backoffTime := 2^f.nCongestionRetries
  if backoffTime > maxCongestionBackoffTime then
    { f with isBackingOff := true, backoffTimes := f.backoffTimes ++ [maxCongestionBackoffTime] }
  else { f with
    nCongestionRetries := f.nCongestionRetries + 1
    isBackingOff := true
    backoffTimes := f.backoffTimes ++ [backoffTime] }

def handleNack (maxNackRetries : Int) (segmentNo : Nat) (reason : NackReason)
    (f : CongestionFetcher) : CongestionFetcher :=
  let f := { f with toDataFetcher := (f.toDataFetcher.handleNack maxNackRetries segmentNo reason).1 }
  if f.hasError then f else if reason = .congestion then f.backOff else f.expressInterest

def handleTimeout (maxTimeoutRetries : Int) (segmentNo : Nat) (f : CongestionFetcher) :
    CongestionFetcher :=
  let f := { f with toDataFetcher := (f.toDataFetcher.handleTimeout maxTimeoutRetries segmentNo).1 }
  if f.hasError then f else f.expressInterest

inductive Event where
  | data
  | nack (reason : NackReason)
  | timeout
  | resend
  | cancel

section Runs

variable (maxNackRetries maxTimeoutRetries : Int) (segmentNo : Nat)

/-- The Interest is not pending during a backoff. A fetcher that does not run ignores answers. -/
def step (f : CongestionFetcher) : Event → Option CongestionFetcher
  | .cancel => some { f with toDataFetcher := f.cancel }
  | .resend => if f.isBackingOff then some f.expressInterest else none
  | e =>
    if f.isBackingOff then none
    else if !f.isRunning then some f
    else
      match e with
      | .nack reason => some (f.handleNack maxNackRetries segmentNo reason)
      | .timeout => some (f.handleTimeout maxTimeoutRetries segmentNo)
      | _ => some { f with isStopped := true }

def run (events : List Event) : Option CongestionFetcher :=
  events.foldlM (step maxNackRetries maxTimeoutRetries segmentNo) {}

end Runs

variable {maxNackRetries maxTimeoutRetries : Int} {segmentNo : Nat} {f f' : CongestionFetcher}

/-- The number is clear whenever the Interest is pending, and all backoffs are the first one. -/
structure Restarts (f : CongestionFetcher) : Prop where
  cleared : f.isBackingOff = false → f.isRunning = true → f.nCongestionRetries = 0
  times : ∀ t ∈ f.backoffTimes, t = 1

theorem Restarts.expressInterest (h : f.Restarts) : f.expressInterest.Restarts :=
  ⟨fun _ _ => rfl,h.times⟩

theorem backOff_of_cleared (hzero : f.nCongestionRetries = 0) : f.backOff = { f with
    nCongestionRetries := 1
    isBackingOff := true
    backoffTimes := f.backoffTimes ++ [1] } := by
  simp [backOff,hzero,maxCongestionBackoffTime]

theorem Restarts.step (h : f.Restarts) {e : Event}
    (hstep : f.step maxNackRetries maxTimeoutRetries segmentNo e = some f') : f'.Restarts := by
  have herror : ∀ g : DataFetcher, g.hasError = true →
      Restarts { f with toDataFetcher := g } := fun g hg =>
    ⟨fun _ hr => by simp [DataFetcher.isRunning,hg] at hr,h.times⟩
  cases e with
  | cancel =>
    cases hstep
    refine ⟨fun hpending hrunning => ?_,h.times⟩
    unfold DataFetcher.cancel at hpending hrunning
    split_ifs at hpending hrunning
    · simp [DataFetcher.isRunning] at hrunning
    · exact h.cleared hpending hrunning
  | resend =>
    simp only [CongestionFetcher.step] at hstep
    split_ifs at hstep
    exact some.inj hstep ▸ h.expressInterest
  | data =>
    simp only [CongestionFetcher.step] at hstep
    split_ifs at hstep
    · exact some.inj hstep ▸ h
    · exact some.inj hstep ▸ ⟨fun _ hr => by simp [DataFetcher.isRunning] at hr,h.times⟩
  | timeout =>
    simp only [CongestionFetcher.step,handleTimeout] at hstep
    split_ifs at hstep with _ _ hg
    · exact some.inj hstep ▸ h
    · exact some.inj hstep ▸ herror _ hg
    · exact some.inj hstep ▸ ⟨fun _ _ => rfl,h.times⟩
  | nack reason =>
    simp only [CongestionFetcher.step,handleNack] at hstep
    split_ifs at hstep with hpending hrunning hg hreason
    · exact some.inj hstep ▸ h
    · exact some.inj hstep ▸ herror _ hg
    · have hzero := h.cleared (by simpa using hpending) (by simpa using hrunning)
      rw [← some.inj hstep,backOff_of_cleared]
      · refine ⟨fun hno => by simp at hno,fun t ht => ?_⟩
        exact (mem_append.mp ht).elim (h.times t) mem_singleton.mp
      · exact hzero
    · exact some.inj hstep ▸ ⟨fun _ _ => rfl,h.times⟩

theorem run_restarts {events : List Event}
    (hrun : run maxNackRetries maxTimeoutRetries segmentNo events = some f) : f.Restarts :=
  Framework.foldlM_keeps Restarts (fun _ _ _ h hstep => h.step hstep) events
    ⟨fun _ _ => rfl,fun _ h => absurd h not_mem_nil⟩ hrun

def congestionNacks : Nat → List Event
  | 0 => []
  | n + 1 => .nack .congestion :: .resend :: congestionNacks n

private theorem handleNack_congestion {f : DataFetcher}
    (h : f.nNacks + 1 ≤ maxNackRetries ∨ maxNackRetries = maxRetriesInfinite) :
    (f.handleNack maxNackRetries segmentNo .congestion).1 = { f with
      nNacks := if maxNackRetries ≠ maxRetriesInfinite then f.nNacks + 1 else f.nNacks
      isBackingOff := true } := by
  unfold DataFetcher.handleNack
  by_cases hinfinite : maxNackRetries = maxRetriesInfinite
  · simp [hinfinite]
  · simp [hinfinite,h.resolve_right hinfinite]

theorem foldlM_congestionNacks (n : Nat) (hrunning : f.isRunning = true)
    (hpending : f.isBackingOff = false) (hzero : f.nCongestionRetries = 0)
    (hlimit : maxNackRetries = maxRetriesInfinite ∨ f.nNacks + n ≤ maxNackRetries) :
    ∃ f', (congestionNacks n).foldlM (step maxNackRetries maxTimeoutRetries segmentNo) f = some f' ∧
      f'.isRunning = true ∧ f'.backoffTimes = f.backoffTimes ++ replicate n 1 := by
  induction n generalizing f with
  | zero => exact ⟨f,rfl,hrunning,(append_nil _).symm⟩
  | succ n ih =>
    let nNacks := if maxNackRetries ≠ maxRetriesInfinite then f.nNacks + 1 else f.nNacks
    have hnack : f.step maxNackRetries maxTimeoutRetries segmentNo (.nack .congestion) =
        some { f with
          nNacks := nNacks
          nCongestionRetries := 1
          isBackingOff := true
          backoffTimes := f.backoffTimes ++ [1] } := by
      have hcounted : f.nNacks + 1 ≤ maxNackRetries ∨ maxNackRetries = maxRetriesInfinite := by
        omega
      have herror : f.hasError = false := by
        simp only [DataFetcher.isRunning,and_eq_true,not_eq_true'] at hrunning
        exact hrunning.2
      simp only [step,handleNack,handleNack_congestion hcounted,hpending,hrunning,herror,
        Bool.false_eq_true,Bool.not_true,if_false,if_true]
      exact congrArg some (backOff_of_cleared hzero)
    obtain ⟨f',hf',hrunning',htimes⟩ := @ih { f with
      nNacks := nNacks
      nCongestionRetries := 0
      isBackingOff := false
      backoffTimes := f.backoffTimes ++ [1] } hrunning rfl rfl
        (by simp only [nNacks]; split_ifs <;> push_cast at hlimit <;> omega)
    refine ⟨f',?_,hrunning',?_⟩
    · rw [congestionNacks,foldlM_cons,hnack]
      exact hf'
    · rw [htimes,append_assoc]
      rfl

/-- After a run, a pending Interest and its retransmissions are answered by Congestion Nacks. The
backoffs are the powers of two up to the limit if and only if there is one such Nack at most. -/
theorem run_congestionNacks (maxNackRetries maxTimeoutRetries : Int) (segmentNo : Nat)
    (past : List Event) (f : CongestionFetcher)
    (hpast : run maxNackRetries maxTimeoutRetries segmentNo past = some f)
    (hrunning : f.isRunning = true) (hpending : f.isBackingOff = false) (n : Nat)
    (hlimit : maxNackRetries = maxRetriesInfinite ∨ f.nNacks + n ≤ maxNackRetries) :
    ∃ f', run maxNackRetries maxTimeoutRetries segmentNo (past ++ congestionNacks n) = some f' ∧
      f'.isRunning = true ∧
      (f'.backoffTimes = f.backoffTimes ++
        (List.range n).map (fun k => min (2^k) maxCongestionBackoffTime) ↔ n ≤ 1) := by
  have hzero := (run_restarts hpast).cleared hpending hrunning
  obtain ⟨f',hf',hrunning',htimes⟩ := foldlM_congestionNacks n hrunning hpending hzero hlimit
  refine ⟨f',?_,hrunning',?_⟩
  · rw [run,foldlM_append]
    rw [run] at hpast
    rw [hpast]
    exact hf'
  · rw [htimes,List.append_cancel_left_eq]
    constructor
    · intro heq
      by_contra hlt
      have hsecond := congrArg (fun l => l[1]?) heq
      simp [not_le.mp hlt,maxCongestionBackoffTime] at hsecond
    · intro hle
      rcases Nat.le_one_iff_eq_zero_or_eq_one.mp hle with rfl | rfl <;> rfl

theorem run_congestionNacks_first :
    ∃ f', run 15 15 0 ([] ++ congestionNacks 1) = some f' ∧ f'.isRunning = true ∧
      (f'.backoffTimes = [1] ↔ 1 ≤ 1) :=
  run_congestionNacks 15 15 0 [] {} rfl rfl rfl 1 (Or.inr (by decide))

/-- The second backoff is as short as the first. -/
theorem second_backoff : (run 15 15 0 (congestionNacks 2)).map backoffTimes = some [1,1] := rfl

end CongestionFetcher

end KiteNdn.Chunks
