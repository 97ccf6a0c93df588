import Puma.MachineInt
import Puma.ThreadPool

namespace Puma

/-- What `createPumaSet` keeps about threads: its argument, the pool, and the number of
entries obtained for `tidToThreadList`. -/
structure SetThreads where
  numThreads : Nat
  threadPool : ThreadPool
  tidToThreadList : Nat

/-- The length of the array `extraData` of `runKernelList`, whose copy of `numThreads` is an `unsigned int`. -/
def SetThreads.extraData (set : SetThreads) : Nat := set.numThreads % 2 ^ 32

/-- The sets created so far, and the pool that they share in the `STATIC_THREADPOOL`
build once `_setupComplete` holds. -/
structure SetsState where
  threadPool : Option ThreadPool
  sets : List SetThreads

def SetsState.start : SetsState := ⟨none, []⟩

/-- `setupThreadPool`; returns the static pool. -/
def setupThreadPool (nprocessors : Nat) (threadPool : Option ThreadPool) (numThreads : Nat)
    (affinityStr : Option (List Char)) : Option ThreadPool :=
  match threadPool with
  | some pool => some pool
  | none => createThreadPool nprocessors numThreads affinityStr

/-- `createPumaSet`, with or without `STATIC_THREADPOOL`. -/
def createSet (static : Bool) (nprocessors : Nat) (s : SetsState) (call : Nat × Option (List Char)) :
    Option SetsState := do
  let (numThreads, threadAffinity) := call
  if static then
    let pool ← setupThreadPool nprocessors s.threadPool numThreads threadAffinity
    pure ⟨some pool, ⟨numThreads, pool, numThreads⟩ :: s.sets⟩
  else
    let pool ← createThreadPool nprocessors numThreads threadAffinity
    pure ⟨s.threadPool, ⟨numThreads, pool, numThreads⟩ :: s.sets⟩

/-- An index of an array. -/
def InBounds (index : Int) (length : Nat) : Prop := 0 ≤ index ∧ index < length

/-- The set and its pool agree, and the number of every thread that runs a work function is an
index of the two arrays. Both index expressions convert it to an `int`. -/
def SetThreads.Agrees (set : SetThreads) : Prop :=
  set.numThreads = set.threadPool.numThreads ∧ ∀ thread, thread < set.threadPool.numThreads →
    InBounds (intOfSize thread) set.tidToThreadList ∧ InBounds (intOfSize thread) set.extraData

theorem createThreadPool_numThreads {nprocessors numThreads : Nat} {affinityStr : Option (List Char)}
    {pool : ThreadPool} (created : createThreadPool nprocessors numThreads affinityStr = some pool) :
    pool.numThreads = if numThreads ≠ 0 then numThreads else nprocessors := by
  cases affinityStr with
  | some affinityStr =>
    obtain ⟨cpus, _, made⟩ := Option.bind_eq_some_iff.mp created
    cases made
    rfl
  | none =>
    cases created
    rfl

theorem agrees_iff (numThreads : Nat) (pool : ThreadPool) : SetThreads.Agrees ⟨numThreads, pool, numThreads⟩ ↔
    numThreads = pool.numThreads ∧ numThreads ≤ 2 ^ 31 := by
  refine and_congr_right fun (same : numThreads = pool.numThreads) => ?_
  constructor
  · intro valid
    by_contra large
    have negative : intOfSize (2 ^ 31) = -2 ^ 31 := by decide
    obtain ⟨positive, _⟩ := (valid (2 ^ 31) (by dsimp only; omega)).1
    rw [negative] at positive
    omega
  · intro small thread inside
    dsimp only at inside
    have length : numThreads % 2 ^ 32 = numThreads := Nat.mod_eq_of_lt (by omega)
    simp only [SetThreads.extraData, InBounds, intOfSize_eq (show thread < 2 ^ 31 by omega), length]
    omega

/-- Every set of its own pool: the counts agree when the argument is the number of threads. -/
theorem createSets_own {nprocessors : Nat} {calls : List (Nat × Option (List Char))} {s s' : SetsState}
    (positive : 0 < nprocessors) (run : calls.foldlM (createSet false nprocessors) s = some s') :
    (∀ set ∈ s'.sets, set.Agrees) ↔
      (∀ set ∈ s.sets, set.Agrees) ∧ ∀ call ∈ calls, 0 < call.1 ∧ call.1 ≤ 2 ^ 31 := by
  induction calls generalizing s with
  | nil =>
    cases run
    simp
  | cons call calls ih =>
    obtain ⟨s₁, first, rest⟩ := Option.bind_eq_some_iff.mp run
    obtain ⟨pool, created, made⟩ := Option.bind_eq_some_iff.mp first
    cases made
    have count := createThreadPool_numThreads created
    have here : SetThreads.Agrees ⟨call.1, pool, call.1⟩ ↔ 0 < call.1 ∧ call.1 ≤ 2 ^ 31 := by
      rw [agrees_iff, count]
      split <;> omega
    rw [ih rest, List.forall_mem_cons, List.forall_mem_cons, here]
    tauto

/-- Once the static pool exists, the argument has to be its number of threads. -/
theorem createSets_shared {nprocessors : Nat} {calls : List (Nat × Option (List Char))} {s s' : SetsState}
    {pool : ThreadPool} (setup : s.threadPool = some pool)
    (run : calls.foldlM (createSet true nprocessors) s = some s') :
    (∀ set ∈ s'.sets, set.Agrees) ↔
      (∀ set ∈ s.sets, set.Agrees) ∧ ∀ call ∈ calls, call.1 = pool.numThreads ∧ call.1 ≤ 2 ^ 31 := by
  induction calls generalizing s with
  | nil =>
    cases run
    simp
  | cons call calls ih =>
    obtain ⟨s₁, first, rest⟩ := Option.bind_eq_some_iff.mp run
    obtain ⟨pool', same, made⟩ := Option.bind_eq_some_iff.mp first
    simp only [setup, setupThreadPool, Option.some.injEq] at same
    subst same
    cases made
    rw [ih rfl rest, List.forall_mem_cons, List.forall_mem_cons, agrees_iff]
    tauto

/-- The arguments for which the sets of a sequence of calls agree with their pools: no count is left to
the pool, none is too large for an `int`, and sets that share a pool ask for the same count. -/
def CountsFit (static : Bool) (calls : List (Nat × Option (List Char))) : Prop :=
  ∀ call ∈ calls, 0 < call.1 ∧ call.1 ≤ 2 ^ 31 ∧
    (static = true → ∀ first, calls.head? = some first → call.1 = first.1)

/-- All sets agree with their pools if and only if the arguments fit. -/
theorem createSets_agree {static : Bool} {nprocessors : Nat} {calls : List (Nat × Option (List Char))} {s : SetsState}
    (positive : 0 < nprocessors) (run : calls.foldlM (createSet static nprocessors) .start = some s) :
    (∀ set ∈ s.sets, set.Agrees) ↔ CountsFit static calls := by
  cases static with
  | false =>
    rw [createSets_own positive run]
    simp [SetsState.start, CountsFit]
  | true =>
    cases calls with
    | nil =>
      cases run
      simp [SetsState.start, CountsFit]
    | cons call calls =>
      obtain ⟨s₁, first, rest⟩ := Option.bind_eq_some_iff.mp run
      obtain ⟨pool, created, made⟩ := Option.bind_eq_some_iff.mp first
      cases made
      have count := createThreadPool_numThreads created
      rw [createSets_shared rfl rest]
      simp only [SetsState.start, List.forall_mem_cons, List.not_mem_nil, IsEmpty.forall_iff, implies_true, and_true,
        agrees_iff, CountsFit, List.head?_cons, Option.some.injEq, forall_eq', forall_const, count]
      by_cases zero : call.1 = 0
      · simp [zero]
        omega
      · simp only [zero, ne_eq, not_false_eq_true, if_true]
        constructor
        · rintro ⟨⟨_, small⟩, others⟩
          refine ⟨⟨by omega, small⟩, fun other member => ?_⟩
          obtain ⟨same, small'⟩ := others other member
          exact ⟨by omega, small', same⟩
        · rintro ⟨⟨_, small⟩, others⟩
          refine ⟨⟨trivial, small⟩, fun other member => ?_⟩
          obtain ⟨_, small', same⟩ := others other member
          exact ⟨same, small'⟩

/-- Two sets on the static pool. -/
theorem createSets_agree_two : ∃ s, [(2, none), (2, none)].foldlM (createSet true 4) .start = some s ∧
    ((∀ set ∈ s.sets, set.Agrees) ↔ CountsFit true [(2, none), (2, none)]) := by
  obtain ⟨s, run⟩ : ∃ s, [(2, none), (2, none)].foldlM (createSet true 4) .start = some s := ⟨_, rfl⟩
  exact ⟨s, run, createSets_agree (by decide) run⟩

/-- A set that leaves the count to its pool has no room for the list of any thread. -/
theorem createSets_zero : ∃ s, [(0, none)].foldlM (createSet false 4) .start = some s ∧
    ¬ ∀ set ∈ s.sets, set.Agrees := by
  refine ⟨_, rfl, fun agree => ?_⟩
  obtain ⟨same, _⟩ := agree _ (List.mem_cons_self ..)
  exact absurd same (by decide)

end Puma
