import Mathlib.Data.List.Perm.Basic
import Puma.PoolRefinement

namespace Puma

open Refinement

variable {N : Nat} {C F A S : Type}

/-- A call run in a loop over the threads. -/
def loopThreads (act : F → A → Fin N → S → S) (workFunction : F) (arg : A) (s : S) : S :=
  (List.finRange N).foldl (fun s i => act workFunction arg i s) s

/-- What runs of the work functions make of the state, in their order. A worker that has read a null
pointer does nothing here. -/
def runWorkers (act : F → A → Fin N → S → S) (runs : List (Fin N × Option F × Option A)) (s : S) : S :=
  runs.foldl (fun s run => match run with
    | (i, some workFunction, some arg) => act workFunction arg i s
    | _ => s) s

section Loops

variable {act : F → A → Fin N → S → S}

/-- A whole round does what the loop does. -/
theorem Round.Whole.runWorkers {r : Round N C F A} (whole : r.Whole)
    (independent : ∀ f a i j s, act f a i (act f a j s) = act f a j (act f a i s)) (s : S) :
    runWorkers act r.runs s = loopThreads act r.workFunction r.arg s := by
  have commutes : RightCommutative fun s i => act r.workFunction r.arg i s := ⟨fun s i j => independent _ _ j i s⟩
  rw [Puma.runWorkers, Round.runs, List.foldl_map]
  exact whole.foldl_eq s

theorem runWorkers_rounds {rounds : List (Round N C F A)} (whole : ∀ r ∈ rounds, r.Whole)
    (independent : ∀ f a i j s, act f a i (act f a j s) = act f a j (act f a i s)) (s : S) :
    runWorkers act (rounds.flatMap Round.runs) s =
      rounds.foldl (fun s r => loopThreads act r.workFunction r.arg s) s := by
  induction rounds generalizing s with
  | nil => rfl
  | cons r rounds ih =>
    rw [List.forall_mem_cons] at whole
    rw [List.flatMap_cons, runWorkers, List.foldl_append, List.foldl_cons, ← whole.1.runWorkers independent]
    exact ih whole.2 _

end Loops

section Callers

variable [DecidableEq C]

/-- The calls of one caller. -/
def callsBy (c : C) (calls : List (C × F × A)) : List (F × A) := (calls.filter fun call => call.1 = c).map Prod.snd

theorem roundsOf_eq (c : C) (rounds : List (Round N C F A)) :
    roundsOf c rounds = callsBy c (rounds.map fun r => (r.caller, r.workFunction, r.arg)) := by
  induction rounds with
  | nil => rfl
  | cons r rounds ih =>
    by_cases same : r.caller = c <;> simp_all [roundsOf, callsBy]

/-- Whenever no caller is inside the pool, the runs are those of whole rounds, one for each call. -/
theorem PoolMove.idleRounds {s : PoolState N C F A} {events : List (PoolEvent N C F A)} (threads : 1 ≤ N)
    (run : Run PoolMove .start events s) (idle : ∀ c, s.caller c = .idle) :
    ∃ rounds : List (Round N C F A), (∀ r ∈ rounds, r.Whole) ∧
      events.filterMap PoolEvent.run? = rounds.flatMap Round.runs ∧
      ∀ c, callsBy c (rounds.map fun r => (r.caller, r.workFunction, r.arg)) = events.filterMap (PoolEvent.call? c) := by
  obtain ⟨t, rounds, order, shown, inv⟩ := PoolMove.rounds threads run
  have outside (c : C) : t.caller c = .idle := by
    have seen := shown.caller c
    rwa [idle c] at seen
  have quiet : t.current = none := by
    cases here : t.current with
    | none => rfl
    | some taken =>
      have seen := inv.callers taken.1
      rw [outside, JoinState.currentOf_some here, if_pos rfl] at seen
      cases seen.1
  refine ⟨rounds, inv.whole, ?_, fun c => ?_⟩
  · have ran := inv.ran
    rwa [quiet, Option.elim_none, List.append_nil] at ran
  · have seen := inv.callers c
    rw [outside] at seen
    rw [← roundsOf_eq, ← seen.2.1]

/-- Whenever no caller is inside the pool, the calls have been run as in a sequential program: there is an order of
all of them, each caller's calls in their own order, in which loops over the threads give the same state. -/
theorem PoolMove.sequential {s : PoolState N C F A} {events : List (PoolEvent N C F A)} (threads : 1 ≤ N)
    (run : Run PoolMove .start events s) (idle : ∀ c, s.caller c = .idle) :
    ∃ calls : List (C × F × A), (∀ c, callsBy c calls = events.filterMap (PoolEvent.call? c)) ∧
      ∀ act : F → A → Fin N → S → S, (∀ f a i j s, act f a i (act f a j s) = act f a j (act f a i s)) →
        ∀ s₀, runWorkers act (events.filterMap PoolEvent.run?) s₀ =
          calls.foldl (fun s call => loopThreads act call.2.1 call.2.2 s) s₀ := by
  obtain ⟨rounds, whole, ran, calls⟩ := PoolMove.idleRounds threads run idle
  refine ⟨_, calls, fun act independent s₀ => ?_⟩
  rw [ran, runWorkers_rounds whole independent, List.foldl_map]

/-- Overlapping calls of two callers, where a worker adds the product of the function's number and the argument. -/
theorem twoWorkers_sequential : ∃ calls : List (Bool × Nat × Nat), callsBy false calls = [(7, 8)] ∧
    callsBy true calls = [(9, 10)] ∧
    ∀ s₀ : Nat, runWorkers (fun workFunction arg (_ : Fin 2) s => s + workFunction * arg)
      [(1, some 7, some 8), (0, some 7, some 8), (0, some 9, some 10), (1, some 9, some 10)] s₀ =
        calls.foldl (fun s call => loopThreads (fun workFunction arg (_ : Fin 2) s => s + workFunction * arg)
          call.2.1 call.2.2 s) s₀ := by
  obtain ⟨s, run, idle⟩ := twoWorkers_moves
  obtain ⟨calls, own, loops⟩ := PoolMove.sequential (by decide) run idle
  exact ⟨calls, own false, own true, loops _ fun _ _ _ _ _ => Nat.add_right_comm ..⟩

end Callers

end Puma
