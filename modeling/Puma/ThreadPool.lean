import Mathlib.Data.Finset.Sort

namespace Puma

/-- `isspace`. -/
def isSpace (c : Char) : Bool := c = ' ' || (9 ≤ c.toNat && c.toNat ≤ 13)

/-- The digits of a decimal number. -/
def decimal (digits : List Char) : Nat := digits.foldl (fun value c => 10 * value + (c.toNat - 48)) 0

/-- The conversion `%u` of `sscanf`: the value, and what is left of the string. The digits are
read as `strtoul` reads them and cut down to an `unsigned int`. -/
def scanUnsigned (str : List Char) : Option (Nat × List Char) :=
  let str := str.dropWhile isSpace
  let negative := str.head? = some '-'
  let str := if negative ∨ str.head? = some '+' then str.tail else str
  let digits := str.takeWhile Char.isDigit
  if digits = [] then none
  else
    let value := decimal digits
    let value := if 2 ^ 64 ≤ value then 2 ^ 64 - 1 else if negative then (2 ^ 64 - value) % 2 ^ 64 else value
    some (value % 2 ^ 32, str.dropWhile Char.isDigit)

/-- The values that `sscanf(token, "%u-%u", &start, &end)` assigns. -/
def scanRange (token : List Char) : List Nat :=
  match scanUnsigned token with
  | none => []
  | some (start, rest) =>
    if rest.head? = some '-' then
      match scanUnsigned rest.tail with
      | none => [start]
      | some (stop, _) => [start, stop]
    else [start]

/-- `CPU_SETSIZE`. -/
def cpuSetSize : Nat := 1024

/-- `CPU_SET`. -/
def cpuSet (set : Finset Nat) (cpu : Nat) : Finset Nat := if cpu < cpuSetSize then insert cpu set else set

/-- The body of the loop of `_parseAffinityStr`. The loop over a range up to the highest
`unsigned int` has no end. -/
def parseToken (set : Finset Nat) (token : List Char) : Option (Finset Nat) :=
  match scanRange token with
  | [start] => some (cpuSet set start)
  | [start, stop] =>
    if stop = 2 ^ 32 - 1 then none else some ((List.range' start (stop + 1 - start)).foldl cpuSet set)
  | _ => none

/-- `_parseAffinityStr`; `strtok_r` passes over empty tokens. -/
def parseAffinityStr (affinityStr : List Char) : Option (Finset Nat) :=
  ((affinityStr.splitOn ',').filter (· ≠ [])).foldlM parseToken ∅

theorem cpuSet_lt {set : Finset Nat} {cpu : Nat} (below : ∀ c ∈ set, c < cpuSetSize) :
    ∀ c ∈ cpuSet set cpu, c < cpuSetSize := by
  unfold cpuSet
  split
  · rename_i small
    exact Finset.forall_mem_insert _ _ _ |>.mpr ⟨small, below⟩
  · exact below

theorem cpuSets_lt (cpus : List Nat) {set : Finset Nat} (below : ∀ c ∈ set, c < cpuSetSize) :
    ∀ c ∈ cpus.foldl cpuSet set, c < cpuSetSize := by
  induction cpus generalizing set with
  | nil => exact below
  | cons cpu cpus ih => exact ih (cpuSet_lt below)

theorem parseToken_lt {set set' : Finset Nat} {token : List Char} (below : ∀ c ∈ set, c < cpuSetSize)
    (parsed : parseToken set token = some set') : ∀ c ∈ set', c < cpuSetSize := by
  unfold parseToken at parsed
  split at parsed
  · cases parsed
    exact cpuSet_lt below
  · split at parsed
    · cases parsed
    · cases parsed
      exact cpuSets_lt _ below
  · cases parsed

theorem parseTokens_lt {tokens : List (List Char)} {set set' : Finset Nat} (below : ∀ c ∈ set, c < cpuSetSize)
    (parsed : tokens.foldlM parseToken set = some set') : ∀ c ∈ set', c < cpuSetSize := by
  induction tokens generalizing set with
  | nil =>
    cases parsed
    exact below
  | cons token tokens ih =>
    obtain ⟨set₁, first, rest⟩ := Option.bind_eq_some_iff.mp parsed
    exact ih (parseToken_lt below first) rest

/-- No parsed CPU lies outside `cpu_set_t`. -/
theorem parseAffinityStr_lt {affinityStr : List Char} {cpus : Finset Nat}
    (parsed : parseAffinityStr affinityStr = some cpus) : ∀ c ∈ cpus, c < cpuSetSize :=
  parseTokens_lt (fun _ member => absurd member (Finset.notMem_empty _)) parsed

/-- `struct _threadPoolWorkerInfo`, without the pointer to its pool. -/
structure WorkerInfo where
  cpu : Nat
  threadNum : Nat
  deriving DecidableEq, Repr

/-- What `createThreadPool` sets up: the number of threads, and the workers started. -/
structure ThreadPool where
  numThreads : Nat
  threadsInfo : List WorkerInfo
  deriving DecidableEq, Repr

/-- The loops over the CPU numbers that start the workers; the length of
`threadsInfo` is `currThread`. -/
def startWorkers (isSet : Nat → Bool) (numThreads : Nat) : List Nat → List WorkerInfo → List WorkerInfo
  | [], threadsInfo => threadsInfo
  | i :: rest, threadsInfo =>
    if threadsInfo.length < numThreads then
      startWorkers isSet numThreads rest
        (if isSet i then threadsInfo ++ [⟨i, threadsInfo.length⟩] else threadsInfo)
    else threadsInfo

/-- `createThreadPool` of the pthread pool on Linux; `nprocessors` is the number of CPUs online. `none` is a call
of `exit`, or one that never returns. -/
def createThreadPool (nprocessors numThreads : Nat) (affinityStr : Option (List Char)) : Option ThreadPool := do
  let numThreads := if numThreads ≠ 0 then numThreads else nprocessors
  match affinityStr with
  | some affinityStr =>
    let cpus ← parseAffinityStr affinityStr
    let nCPUs := cpus.card
    pure ⟨numThreads, startWorkers (· ∈ cpus) numThreads (List.range nCPUs) []⟩
  -- Every turn of the other loop starts a worker.
  | none => pure ⟨numThreads, startWorkers (fun _ => true) numThreads (List.range numThreads) []⟩

theorem startWorkers_eq (isSet : Nat → Bool) (numThreads : Nat) (l : List Nat) (threadsInfo : List WorkerInfo) :
    startWorkers isSet numThreads l threadsInfo = threadsInfo ++
      (((l.filter isSet).take (numThreads - threadsInfo.length)).zipIdx threadsInfo.length).map
        fun r => ⟨r.1, r.2⟩ := by
  induction l generalizing threadsInfo with
  | nil => simp [startWorkers]
  | cons i l ih =>
    by_cases more : threadsInfo.length < numThreads
    · have left : numThreads - threadsInfo.length = numThreads - (threadsInfo.length + 1) + 1 := by omega
      cases set : isSet i with
      | false => simp [startWorkers, more, set, ih]
      | true => simp [startWorkers, more, set, ih, left]
    · have full : numThreads - threadsInfo.length = 0 := by omega
      simp [startWorkers, more, full]

/-- The workers that run on the given CPUs, in order. -/
def workersOn (cpus : List Nat) : List WorkerInfo := cpus.zipIdx.map fun r => ⟨r.1, r.2⟩

theorem startWorkers_nil (isSet : Nat → Bool) (numThreads : Nat) (l : List Nat) :
    startWorkers isSet numThreads l [] = workersOn ((l.filter isSet).take numThreads) := by
  rw [startWorkers_eq]
  rfl

@[simp] theorem workersOn_length (cpus : List Nat) : (workersOn cpus).length = cpus.length := by
  simp [workersOn]

theorem workersOn_getElem? (cpus : List Nat) (t : Nat) :
    (workersOn cpus)[t]? = cpus[t]?.map fun cpu => ⟨cpu, t⟩ := by
  simp only [workersOn, List.getElem?_map, List.getElem?_zipIdx, Option.map_map, Nat.zero_add]
  rfl

/-- Every worker of a pool has a number below the number of threads. -/
theorem createThreadPool_threadNum {nprocessors numThreads : Nat} {affinityStr : Option (List Char)}
    {pool : ThreadPool} (created : createThreadPool nprocessors numThreads affinityStr = some pool) :
    ∀ info ∈ pool.threadsInfo, info.threadNum < pool.numThreads := by
  have number {l : List Nat} {n : Nat} (short : l.length ≤ n) : ∀ info ∈ workersOn l, info.threadNum < n := by
    intro info member
    obtain ⟨⟨cpu, t⟩, inside, rfl⟩ := List.mem_map.mp member
    have := List.snd_lt_of_mem_zipIdx inside
    exact Nat.lt_of_lt_of_le (by simpa using this) short
  unfold createThreadPool at created
  cases affinityStr with
  | some affinityStr =>
    obtain ⟨cpus, _, made⟩ := Option.bind_eq_some_iff.mp created
    cases made
    rw [startWorkers_nil]
    exact number (List.length_take_le ..)
  | none =>
    cases created
    rw [startWorkers_nil]
    exact number (List.length_take_le ..)

/-- The pool has all its workers, and worker `t` is pinned to the `t`-th smallest CPU of the set. -/
def ThreadPool.PinsSmallest (pool : ThreadPool) (cpus : Finset Nat) (numThreads : Nat) : Prop :=
  pool.threadsInfo.length = numThreads ∧ ∀ t, t < numThreads → ∃ cpu,
    cpus.sort[t]? = some cpu ∧ pool.threadsInfo[t]? = some ⟨cpu, t⟩

theorem filter_range_eq_sort (cpus : Finset Nat) (n : Nat) :
    (List.range n).filter (· ∈ cpus) = (cpus.filter (· < n)).sort := by
  have nodup : ((List.range n).filter (· ∈ cpus)).Nodup := List.nodup_range.filter _
  have sorted : ((List.range n).filter (· ∈ cpus)).Pairwise (· ≤ ·) :=
    (List.pairwise_lt_range.imp Nat.le_of_lt).filter _
  rw [← (List.toFinset_sort (· ≤ ·) nodup).mpr sorted]
  congr 1
  ext c
  simp [and_comm]

/-- The CPUs of a set that lie below `n` come first in its order. -/
theorem filter_range_prefix {cpus : Finset Nat} {m n : Nat} (below : ∀ c ∈ cpus, c < m) (le : n ≤ m) :
    ∃ rest, cpus.sort = (List.range n).filter (· ∈ cpus) ++ rest := by
  have whole : cpus.filter (· < m) = cpus := Finset.filter_true_of_mem below
  obtain ⟨k, rfl⟩ := Nat.exists_eq_add_of_le le
  rw [← whole, ← filter_range_eq_sort, List.range_add, List.filter_append]
  exact ⟨_, by rw [whole]⟩

/-- The pool starts all its workers, on the smallest CPUs of the set, if and only if enough of the
CPUs have numbers below the size of the set. -/
theorem createThreadPool_pinsSmallest {nprocessors numThreads : Nat} {affinityStr : List Char} {cpus : Finset Nat}
    (threads : 1 ≤ numThreads) (parsed : parseAffinityStr affinityStr = some cpus) :
    ∃ pool, createThreadPool nprocessors numThreads (some affinityStr) = some pool ∧
      (pool.PinsSmallest cpus numThreads ↔ numThreads ≤ (cpus.filter (· < cpus.card)).card) := by
  have positive : numThreads ≠ 0 := by omega
  refine ⟨⟨numThreads, workersOn (((List.range cpus.card).filter (· ∈ cpus)).take numThreads)⟩, ?_, ?_⟩
  · simp [createThreadPool, parsed, positive, startWorkers_nil]
  have count : ((List.range cpus.card).filter (· ∈ cpus)).length = (cpus.filter (· < cpus.card)).card := by
    rw [filter_range_eq_sort, Finset.length_sort]
  constructor
  · rintro ⟨length, _⟩
    rw [workersOn_length, List.length_take, count] at length
    omega
  · intro room
    have small : cpus.card ≤ cpuSetSize := by
      have inside : cpus ⊆ Finset.range cpuSetSize := fun c member =>
        Finset.mem_range.mpr (parseAffinityStr_lt parsed c member)
      exact (Finset.card_le_card inside).trans (Finset.card_range _).le
    obtain ⟨rest, order⟩ := filter_range_prefix (parseAffinityStr_lt parsed) small
    refine ⟨by rw [workersOn_length, List.length_take, count]; omega, fun t inside => ?_⟩
    have within : t < ((List.range cpus.card).filter (· ∈ cpus)).length := by omega
    refine ⟨((List.range cpus.card).filter (· ∈ cpus))[t], ?_, ?_⟩
    · rw [order, List.getElem?_append_left within]
      exact List.getElem?_eq_getElem within
    · rw [workersOn_getElem?, List.getElem?_take_of_lt inside, List.getElem?_eq_getElem within]
      rfl

/-- The CPUs 0, 1 and 2 for two threads. -/
theorem createThreadPool_pinsSmallest_range : ∃ pool, createThreadPool 4 2 (some "0-2".toList) = some pool ∧
    (pool.PinsSmallest {0, 1, 2} 2 ↔ 2 ≤ (({0, 1, 2} : Finset Nat).filter (· < 3)).card) :=
  createThreadPool_pinsSmallest (by decide) (by decide)

/-- The affinity string of the documentation names nine CPUs, and only the first five have
numbers below nine. -/
theorem documented_not_pinsSmallest :
    ∃ cpus pool, parseAffinityStr "0-3, 6, 10, 12, 15, 13".toList = some cpus ∧ 9 ≤ cpus.card ∧
      createThreadPool 16 9 (some "0-3, 6, 10, 12, 15, 13".toList) = some pool ∧ pool.threadsInfo.length = 5 ∧
      ¬ pool.PinsSmallest cpus 9 := by
  refine ⟨{0, 1, 2, 3, 6, 10, 12, 13, 15}, ⟨9, [⟨0, 0⟩, ⟨1, 1⟩, ⟨2, 2⟩, ⟨3, 3⟩, ⟨6, 4⟩]⟩, by decide, by decide,
    by decide, rfl, fun pins => ?_⟩
  exact absurd pins.1 (by decide)

end Puma
