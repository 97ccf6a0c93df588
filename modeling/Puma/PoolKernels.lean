import Puma.CurrentThread
import Puma.PoolLoop

namespace Puma

open Refinement

variable {α κ β M C F A : Type} [AddCommMonoid M] {N : Nat}

/-- What runs of work functions make of a set, in their order: each calls `runKernelCurrentThread` with
the kernel for its argument. A null function cannot be called. -/
def runKernelWorkFunctions (set : PumaSet) (stageOf : F → A → Stage α M) (extraDataDetails : PumaExtraKernelData κ M β)
    (oracles : Nat → Oracle) : List (Fin N × Option F × Option A) → Heap α → Option (Heap α)
  | [], h => some h
  | (thread, workFunction, arg) :: runs, h => do
    let workFunction ← workFunction
    let arg ← arg
    let (h, _) ← runKernelCurrentThread set h thread (stageOf workFunction arg).kernel (some extraDataDetails)
      (oracles runs.length)
    runKernelWorkFunctions set stageOf extraDataDetails oracles runs h

/-- A whole round has one run of each worker. -/
theorem callsBy_rounds {rounds : List (Round N C F A)} (whole : ∀ r ∈ rounds, r.Whole) (i : Fin N) :
    callsBy i (rounds.flatMap fun r => r.order.map fun j => (j, r.workFunction, r.arg)) =
      rounds.map fun r => (r.workFunction, r.arg) := by
  induction rounds with
  | nil => rfl
  | cons r rounds ih =>
    rw [List.forall_mem_cons] at whole
    have once : r.order.filter (· = i) = [i] := by
      rw [List.filter_eq, whole.1.count_eq, List.count_finRange, List.replicate_one]
    have own : callsBy i (r.order.map fun j => (j, r.workFunction, r.arg)) = [(r.workFunction, r.arg)] := by
      rw [callsBy, List.filter_map]
      exact congrArg (fun order => (order.map fun j => (j, r.workFunction, r.arg)).map Prod.snd) once
    rw [List.flatMap_cons, List.map_cons, ← ih whole.2, ← List.singleton_append, ← own]
    simp only [callsBy, List.filter_append, List.map_append]

section Sets

variable {set : CreatedSet} {h : Heap α} {init : M} {oracles : Nat → Oracle}

/-- Without the balancer the runs of a thread are passes over its own list, whatever the others do in between. -/
theorem runKernelWorkFunctions_bags (off : set.autoBalance = false) (setOk : SetOk h set.tidToThreadList)
    (stageOf : F → A → Stage α M) (extraDataDetails : PumaExtraKernelData κ M β)
    (constructs : extraDataDetails.extraDataConstructor extraDataDetails.constructorData = some init)
    (enough : ∀ left, h.blocks.card < (oracles left).turns) (calls : List (Fin set.tidToThreadList.length × F × A)) :
    ∃ h', runKernelWorkFunctions set.toPumaSet stageOf extraDataDetails oracles
        (calls.map fun call => (call.1, some call.2.1, some call.2.2)) h = some h' ∧
      SetOk h' set.tidToThreadList ∧ ∀ i : Fin set.tidToThreadList.length, h'.bag set.tidToThreadList[i] =
        (h.bag set.tidToThreadList[i]).map (Stage.through ((callsBy i calls).map fun call => stageOf call.1 call.2)) := by
  induction calls generalizing h with
  | nil => exact ⟨h, rfl, setOk, fun i => (Multiset.map_id _).symm⟩
  | cons first calls ih =>
    obtain ⟨thread, workFunction, arg⟩ := first
    have atThread : set.tidToThreadList[thread.val]? = some set.tidToThreadList[thread] :=
      List.getElem?_eq_getElem thread.isLt
    obtain ⟨h₁, h₂, left, xs, balanced, _, call, setOk₂, blocks, before, after, others, _⟩ :=
      setOk.runKernelCurrentThread atThread (stageOf workFunction arg).kernel extraDataDetails (enough calls.length)
    rw [constructs, Stage.runEach_kernel] at after
    rw [balanceThreadLoad, off] at balanced
    cases balanced
    obtain ⟨h', rest, setOk', bags⟩ := ih setOk₂ fun left => (Finset.card_le_card blocks).trans_lt (enough left)
    refine ⟨h', ?_, setOk', fun i => ?_⟩
    · simp only [List.map_cons, runKernelWorkFunctions, List.length_map, call, Option.bind_eq_bind, Option.bind_some]
      exact rest
    · rw [bags i]
      by_cases same : thread = i
      · subst same
        rw [after, before]
        simp [callsBy, Stage.through, Function.comp_def]
      · have other : set.tidToThreadList[i] ≠ set.tidToThreadList[thread] :=
          set.list_ne (List.getElem?_eq_getElem i.isLt) atThread fun eq => same (Fin.ext eq.symm)
        rw [others _ other]
        simp [callsBy, same]

variable [Inhabited α] [DecidableEq C] {allowed : Allowed α}

/-- Whenever no caller is inside the pool, the set is as after passes of the kernels of all calls, one after the
other: each caller's calls in their own order. -/
theorem Reachable.poolKernels (off : set.autoBalance = false) (safe : ∀ g l, allowed g l → AllocSafe g l)
    (reachable : Reachable set allowed h) (stageOf : F → A → Stage α M) (extraDataDetails : PumaExtraKernelData κ M β)
    (constructs : extraDataDetails.extraDataConstructor extraDataDetails.constructorData = some init)
    (enough : ∀ left, h.blocks.card < (oracles left).turns)
    {s : PoolState set.tidToThreadList.length C F A} {events : List (PoolEvent set.tidToThreadList.length C F A)}
    (run : Run PoolMove .start events s) (idle : ∀ c, s.caller c = .idle) :
    ∃ (calls : List (C × F × A)) (h' : Heap α), (∀ c, callsBy c calls = events.filterMap (PoolEvent.call? c)) ∧
      runKernelWorkFunctions set.toPumaSet stageOf extraDataDetails oracles (events.filterMap PoolEvent.run?) h = some h' ∧
      ∀ l ∈ set.tidToThreadList, h'.bag l =
        (h.bag l).map (Stage.through (calls.map fun call => stageOf call.2.1 call.2.2)) := by
  obtain ⟨rounds, whole, ran, calls⟩ := PoolMove.idleRounds (List.length_pos_of_ne_nil set.threads) run idle
  obtain ⟨h', result, _, bags⟩ := runKernelWorkFunctions_bags off (reachable.ok safe) stageOf extraDataDetails constructs
    enough (rounds.flatMap fun r => r.order.map fun i => (i, r.workFunction, r.arg))
  refine ⟨_, h', calls, ?_, fun l member => ?_⟩
  · have runs (r : Round set.tidToThreadList.length C F A) : r.runs =
        (r.order.map fun i => (i, r.workFunction, r.arg)).map fun call => (call.1, some call.2.1, some call.2.2) := by
      rw [Round.runs, List.map_map]
      rfl
    rwa [ran, funext runs, ← List.map_flatMap]
  · obtain ⟨i, inside, rfl⟩ := List.mem_iff_getElem.mp member
    have passed := bags ⟨i, inside⟩
    rw [callsBy_rounds whole, List.map_map] at passed
    rw [List.map_map]
    exact passed

end Sets

set_option maxRecDepth 8000 in
/-- Two threads have kept three elements; overlapping calls of two callers have the workers add 56 and 90 to them. -/
theorem twoThreads_poolKernels : ∃ (h h' : Heap Nat) (calls : List (Bool × Nat × Nat)), h.total = {0, 0, 0} ∧
    callsBy false calls = [(7, 8)] ∧ callsBy true calls = [(9, 10)] ∧
    runKernelWorkFunctions (N := 2) twoThreadsManual.toPumaSet (fun f a => Stage.mk (· + f * a) fun _ => 1)
      (sumKernelData (M := Nat)) (fun _ => idleOracle h []) [(1, some 7, some 8), (0, some 7, some 8), (0, some 9, some 10),
        (1, some 9, some 10)] h = some h' ∧
    ∀ l ∈ twoThreadsManual.tidToThreadList,
      h'.bag l = (h.bag l).map (Stage.through (calls.map fun call => Stage.mk (· + call.2.1 * call.2.2) fun _ => 1)) := by
  obtain ⟨h, reachable, contents⟩ : ∃ h : Heap Nat, Reachable twoThreadsManual (fun h l => AllocSafe h l) h ∧
      h.total = {0, 0, 0} := ⟨_, Reachable.of_safeCalls 4000 8192 busyCalls (by decide) rfl, by decide⟩
  obtain ⟨s, run, idle⟩ := twoWorkers_moves
  have enough (left : Nat) : h.blocks.card < ((fun _ : Nat => idleOracle h []) left).turns := Nat.lt_succ_self _
  obtain ⟨calls, h', own, result, bags⟩ := Reachable.poolKernels rfl (fun _ _ safe => safe) reachable
    (fun f a => Stage.mk (· + f * a) fun _ => 1) (sumKernelData (M := Nat)) rfl enough run idle
  exact ⟨h, h', calls, contents, own false, own true, result, bags⟩

end Puma
