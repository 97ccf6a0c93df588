import Mathlib.Algebra.BigOperators.Group.List.Basic
import Mathlib.Data.List.Infix
import Mathlib.Data.Rat.Defs
import Mathlib.Tactic.NormNum

namespace Puma

variable {τ : Type} [DecidableEq τ]

/-- `offsetKeyOnce` is whether `_makeTimeKey` has run; the value of `timeOffsetKey` is one in each
thread, `none` for `NULL` or the content of the cell that it points to. -/
structure TimeOffsets (τ : Type) where
  offsetKeyOnce : Bool
  timeOffsetKey : τ → Option ℚ

/-- Before the first call. -/
def TimeOffsets.start : TimeOffsets τ := ⟨false, fun _ => none⟩

/-- A call of `executeOnThreadPool`: the thread that makes it, and `timeSeconds` of each worker of its
pool when `doneBarrier` lets the caller go on. -/
structure ExecuteCall (τ : Type) where
  caller : τ
  threadsInfo : List ℚ

/-- `tp->timeSeconds`, as the loop over the workers leaves it. -/
def ExecuteCall.timeSeconds (call : ExecuteCall τ) : ℚ :=
  call.threadsInfo.foldl (fun timeSeconds info => max info timeSeconds) 0

/-- `_makeTimeKey`: a new key is `NULL` in every thread. -/
def makeTimeKey (self : τ) (offsets : TimeOffsets τ) : TimeOffsets τ :=
  { offsets with timeOffsetKey := Function.update (fun _ => none) self (some 0) }

/-- `pthread_once(&offsetKeyOnce, &_makeTimeKey)`. -/
def onceMakeTimeKey (self : τ) (offsets : TimeOffsets τ) : TimeOffsets τ :=
  if offsets.offsetKeyOnce then offsets else { makeTimeKey self offsets with offsetKeyOnce := true }

/-- The end of `executeOnThreadPool`, behind the barriers; `none` if it dereferences `NULL`. -/
def executeOnThreadPool (offsets : TimeOffsets τ) (call : ExecuteCall τ) : Option (TimeOffsets τ) := do
  let offsets := onceMakeTimeKey call.caller offsets
  let timeOffset ← offsets.timeOffsetKey call.caller
  pure { offsets with
    timeOffsetKey := Function.update offsets.timeOffsetKey call.caller (some (timeOffset + call.timeSeconds)) }

def pumaGetTimeWaitedForPool (offsets : TimeOffsets τ) (self : τ) : ℚ := (offsets.timeOffsetKey self).getD 0

/-- The calls in their order, one after the other. -/
def executeCalls (calls : List (ExecuteCall τ)) : Option (TimeOffsets τ) :=
  calls.foldlM executeOnThreadPool .start

/-- What thread `self` has waited for in its own calls. -/
def waited (calls : List (ExecuteCall τ)) (self : τ) : ℚ :=
  ((calls.filter fun call => call.caller = self).map ExecuteCall.timeSeconds).sum

/-- Only thread `t` has a cell. -/
def TimeOffsets.owned (t : τ) (timeOffset : ℚ) : TimeOffsets τ :=
  ⟨true, Function.update (fun _ => none) t (some timeOffset)⟩

theorem getTimeWaited_owned (t self : τ) (timeOffset : ℚ) :
    pumaGetTimeWaitedForPool (.owned t timeOffset) self = if self = t then timeOffset else 0 := by
  by_cases same : self = t
  · simp [pumaGetTimeWaitedForPool, TimeOffsets.owned, same]
  · simp [pumaGetTimeWaitedForPool, TimeOffsets.owned, same]

/-- The first call makes a cell for its own thread and for no other. -/
theorem executeOnThreadPool_start (call : ExecuteCall τ) :
    executeOnThreadPool .start call = some (.owned call.caller call.timeSeconds) := by
  simp [executeOnThreadPool, onceMakeTimeKey, makeTimeKey, TimeOffsets.start, TimeOffsets.owned]

/-- Every later call finds the cell of its thread only if that is the thread of the first call. -/
theorem executeOnThreadPool_owned (t : τ) (timeOffset : ℚ) (call : ExecuteCall τ) :
    executeOnThreadPool (.owned t timeOffset) call =
      if call.caller = t then some (.owned t (timeOffset + call.timeSeconds)) else none := by
  by_cases same : call.caller = t
  · simp [executeOnThreadPool, onceMakeTimeKey, TimeOffsets.owned, same]
  · simp [executeOnThreadPool, onceMakeTimeKey, TimeOffsets.owned, same]

/-- The calls behind the first one. -/
theorem executeCalls_owned (t : τ) (timeOffset : ℚ) (calls : List (ExecuteCall τ)) :
    calls.foldlM executeOnThreadPool (.owned t timeOffset) =
      if ∀ call ∈ calls, call.caller = t then some (.owned t (timeOffset + (calls.map ExecuteCall.timeSeconds).sum))
      else none := by
  induction calls generalizing timeOffset with
  | nil => simp
  | cons call calls ih =>
    rw [List.foldlM_cons, executeOnThreadPool_owned]
    by_cases same : call.caller = t
    · rw [if_pos same]
      refine (ih (timeOffset + call.timeSeconds)).trans ?_
      simp only [List.forall_mem_cons, same, true_and, List.map_cons, List.sum_cons, add_assoc]
    · simp [same]

theorem executeCalls_cons (first : ExecuteCall τ) (calls : List (ExecuteCall τ)) :
    executeCalls (first :: calls) = if ∀ call ∈ calls, call.caller = first.caller then
      some (.owned first.caller (first.timeSeconds + (calls.map ExecuteCall.timeSeconds).sum)) else none := by
  rw [executeCalls, List.foldlM_cons, executeOnThreadPool_start]
  exact executeCalls_owned first.caller first.timeSeconds calls

/-- The calls return just when all of them are made by one thread. -/
theorem executeCalls_isSome_iff (calls : List (ExecuteCall τ)) :
    (executeCalls calls).isSome ↔ ∀ call ∈ calls, ∀ call' ∈ calls, call.caller = call'.caller := by
  cases calls with
  | nil => simp [executeCalls]
  | cons first calls =>
    rw [executeCalls_cons]
    split
    · rename_i same
      have all : ∀ call ∈ first :: calls, call.caller = first.caller := List.forall_mem_cons.mpr ⟨rfl, same⟩
      exact iff_of_true rfl fun call member call' member' => (all call member).trans (all call' member').symm
    · rename_i other
      refine iff_of_false (by simp) fun same => other fun call member => ?_
      exact same call (List.mem_cons_of_mem _ member) first (List.mem_cons_self ..)

/-- Once calls by one thread have returned, every thread is told what it has waited for. -/
theorem executeCalls_waited {calls : List (ExecuteCall τ)} {offsets : TimeOffsets τ} (run : executeCalls calls = some offsets)
    (self : τ) : pumaGetTimeWaitedForPool offsets self = waited calls self := by
  cases calls with
  | nil =>
    cases run
    rfl
  | cons first calls =>
    rw [executeCalls_cons] at run
    split at run
    · rename_i same
      cases run
      have all : ∀ call ∈ first :: calls, call.caller = first.caller := List.forall_mem_cons.mpr ⟨rfl, same⟩
      rw [getTimeWaited_owned]
      split
      · rename_i own
        have kept : (first :: calls).filter (fun call => call.caller = self) = first :: calls :=
          List.filter_eq_self.mpr fun call member => decide_eq_true ((all call member).trans own.symm)
        rw [waited, kept, List.map_cons, List.sum_cons]
      · rename_i other
        have gone : (first :: calls).filter (fun call => call.caller = self) = [] :=
          List.filter_eq_nil_iff.mpr fun call member own => other ((of_decide_eq_true own).symm.trans (all call member))
        rw [waited, gone]
        rfl
    · cases run

/-- Every call finds its cell, and every thread is told the time of its own calls, in just those runs in
which one thread makes all calls. -/
theorem executeCalls_waited_iff (calls : List (ExecuteCall τ)) :
    (∀ done, done <+: calls → ∃ offsets, executeCalls done = some offsets ∧
      ∀ self, pumaGetTimeWaitedForPool offsets self = waited done self) ↔
      ∀ call ∈ calls, ∀ call' ∈ calls, call.caller = call'.caller := by
  constructor
  · intro every
    obtain ⟨offsets, run, _⟩ := every calls (List.prefix_refl calls)
    exact (executeCalls_isSome_iff calls).mp (by rw [run]; rfl)
  · intro same done before
    have returns : (executeCalls done).isSome := (executeCalls_isSome_iff done).mpr fun call member call' member' =>
      same call (before.subset member) call' (before.subset member')
    obtain ⟨offsets, run⟩ := Option.isSome_iff_exists.mp returns
    exact ⟨offsets, run, executeCalls_waited run⟩

/-- The second of two threads finds no cell. -/
theorem twoCallers_no_cell : ¬ ∀ done : List (ExecuteCall Nat), done <+: [⟨0, [1]⟩, ⟨1, [1]⟩] →
    ∃ offsets, executeCalls done = some offsets ∧
      ∀ self, pumaGetTimeWaitedForPool offsets self = waited done self := by
  intro every
  obtain ⟨offsets, run, _⟩ := every _ (List.prefix_refl _)
  rw [executeCalls_cons, if_neg (by decide)] at run
  cases run

end Puma
