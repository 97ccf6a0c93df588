import Puma.Autobalance
import Puma.MapReduce

namespace Puma

variable {α κ ρ β : Type}

/-- A call on a set in order balances, applies the kernel to each element of its thread's list and leaves the
other lists alone; the extra data is reduced for the thread and then destructed. -/
theorem SetOk.runKernelCurrentThread {set : CreatedSet} {h : Heap α} (setOk : SetOk h set.tidToThreadList) {thread : Nat}
    {l : ListPtr} (atThread : set.tidToThreadList[thread]? = some l) (kernel : ElementKernel ρ α)
    (extraDataDetails : PumaExtraKernelData κ ρ β) {oracle : Oracle} (enough : h.blocks.card < oracle.turns) :
    ∃ h₁ h' left, ∃ xs : List α, balanceThreadLoad set.toPumaSet h oracle.tlAvgNodes = some h₁ ∧ Rebalanced h h₁ ∧
      Puma.runKernelCurrentThread set.toPumaSet h thread kernel (some extraDataDetails) oracle = some (h', left) ∧
      SetOk h' set.tidToThreadList ∧ h'.blocks ⊆ h.blocks ∧ h₁.bag l = (xs : Multiset α) ∧
      h'.bag l = ((kernel.runEach (extraDataDetails.extraDataConstructor extraDataDetails.constructorData) xs).2 :
        Multiset α) ∧ (∀ m, m ≠ l → h'.bag m = h₁.bag m) ∧
      left = extraDataDetails.extraDataDestructor (extraDataDetails.extraDataThreadReduce
        (kernel.runEach (extraDataDetails.extraDataConstructor extraDataDetails.constructorData) xs).1) := by
  obtain ⟨h₁, balanced, setOk₁, rebalanced⟩ := balanceThreadLoad_spec setOk set.threads set.cpus oracle.tlAvgNodes
  generalize constructed : extraDataDetails.extraDataConstructor extraDataDetails.constructorData = data
  have entry : (Function.update (fun _ => none) thread (some data) : ThreadData ρ) thread = some data :=
    Function.update_self ..
  obtain ⟨w', calls, xs, pass, setOk', blocks, before, after, others, extra⟩ := SetOk.runKernelThread_folds
    (w := ⟨Function.update (fun _ => none) thread (some data), h₁⟩) kernel setOk₁ (List.mem_of_getElem? atThread) entry
    (by rw [rebalanced.blocks]; exact enough) (oracle.elapsed thread 0)
  refine ⟨h₁, w'.heap, _, xs, balanced, rebalanced, ?_, setOk', rebalanced.blocks ▸ blocks, before, after, others, rfl⟩
  have result : w'.extra thread = some (kernel.runEach data xs).1 := by rw [extra, Function.update_self]
  simp only [Puma.runKernelCurrentThread, balanced, constructed, atThread, Option.bind_eq_bind, Option.bind_some]
  rw [pass, Option.bind_some, result]
  rfl

/-- The threads of `order` call `runKernelCurrentThread` one after the other, each with its own balancing. -/
def runKernelCurrentThreads (set : PumaSet) (kernel : ElementKernel ρ α) (extraDataDetails : PumaExtraKernelData κ ρ β)
    (oracles : Nat → Oracle) (order : List Nat) (h : Heap α) : Option (Heap α) :=
  order.foldlM (fun h thread => do
    let (h, _) ← runKernelCurrentThread set h thread kernel (some extraDataDetails) (oracles thread)
    pure h) h

section Sums

variable {M : Type} [AddCommMonoid M] {set : CreatedSet} {h : Heap α}

/-- Without the balancer every list is visited by its own thread only. -/
theorem runKernelCurrentThreads_bags (off : set.autoBalance = false) (setOk : SetOk h set.tidToThreadList) (stage : Stage α M)
    (extraDataDetails : PumaExtraKernelData κ M β) {init : M}
    (constructs : extraDataDetails.extraDataConstructor extraDataDetails.constructorData = some init) {oracles : Nat → Oracle}
    (enough : ∀ thread, h.blocks.card < (oracles thread).turns) {order : List Nat} (nodup : order.Nodup)
    (threads : ∀ thread ∈ order, thread < set.tidToThreadList.length) :
    ∃ h', runKernelCurrentThreads set.toPumaSet stage.kernel extraDataDetails oracles order h = some h' ∧
      SetOk h' set.tidToThreadList ∧ ∀ t m, set.tidToThreadList[t]? = some m →
        h'.bag m = if t ∈ order then (h.bag m).map stage.map else h.bag m := by
  induction order generalizing h with
  | nil => exact ⟨h, rfl, setOk, fun _ _ _ => (if_neg List.not_mem_nil).symm⟩
  | cons thread order ih =>
    rw [List.nodup_cons] at nodup
    have atThread := List.getElem?_eq_getElem (threads thread (List.mem_cons_self ..))
    obtain ⟨h₁, h₂, left, xs, balanced, _, call, setOk₂, blocks, before, after, others, _⟩ :=
      setOk.runKernelCurrentThread atThread stage.kernel extraDataDetails (enough thread)
    rw [constructs, Stage.runEach_kernel] at after
    rw [balanceThreadLoad, off] at balanced
    cases balanced
    obtain ⟨h', rest, setOk', bags⟩ := ih setOk₂ (fun t => (Finset.card_le_card blocks).trans_lt (enough t)) nodup.2
      fun t member => threads t (List.mem_cons_of_mem _ member)
    refine ⟨h', ?_, setOk', fun t m atT => ?_⟩
    · rw [runKernelCurrentThreads, List.foldlM_cons, call]
      exact rest
    · rw [bags t m atT]
      by_cases same : t = thread
      · subst same
        rw [if_neg nodup.1, if_pos (List.mem_cons_self ..), ← Option.some.inj (atThread.symm.trans atT), after, before]
        exact (Multiset.map_coe ..).symm
      · rw [others m (set.list_ne atT atThread same)]
        simp [same]

variable [Inhabited α] {allowed : Allowed α}

/-- Without the balancer, a call by each thread, in any order, does to every list what one call of `runKernel` does. -/
theorem Reachable.currentThreads_runKernel (off : set.autoBalance = false) (safe : ∀ g l, allowed g l → AllocSafe g l)
    (reachable : Reachable set allowed h) (stage : Stage α M) (extraDataDetails : PumaExtraKernelData κ M β) {init : M}
    (constructs : extraDataDetails.extraDataConstructor extraDataDetails.constructorData = some init)
    {oracles : Nat → Oracle} (enough : ∀ thread, h.blocks.card < (oracles thread).turns) {oracle : Oracle}
    {cleanup order : List Nat} (whole : oracle.Whole set.toPumaSet 1 cleanup h)
    (once : order.Perm (List.range set.tidToThreadList.length)) :
    ∃ h' h'' retValue left, runKernelCurrentThreads set.toPumaSet stage.kernel extraDataDetails oracles order h = some h' ∧
      runKernel set.toPumaSet h stage.kernel (some extraDataDetails) oracle cleanup = some (h'', retValue, left) ∧
      h'.total = h.total.map stage.map ∧ h''.total = h.total.map stage.map ∧
      ∀ l ∈ set.tidToThreadList, h'.bag l = (h.bag l).map stage.map ∧ h''.bag l = (h.bag l).map stage.map := by
  have setOk := reachable.ok safe
  obtain ⟨h', calls, setOk', bags⟩ := runKernelCurrentThreads_bags off setOk stage extraDataDetails constructs enough
    (once.nodup_iff.mpr List.nodup_range) fun thread member => List.mem_range.mp (once.mem_iff.mp member)
  obtain ⟨h₁, h'', retValue, left, entry, balanced, _, _, run, post⟩ :=
    setOk.runKernelListWith [stage.kernel] (some extraDataDetails) whole
  rw [balanceThreadLoad, off] at balanced
  cases balanced
  have each (l : ListPtr) (member : l ∈ set.tidToThreadList) :
      h'.bag l = (h.bag l).map stage.map ∧ h''.bag l = (h.bag l).map stage.map := by
    obtain ⟨thread, atThread⟩ := List.mem_iff_getElem?.mp member
    have inside := (List.getElem?_eq_some_iff.mp atThread).1
    have passed := post.passed thread l atThread
    rw [show (some extraDataDetails).getD emptyKernelData = extraDataDetails from rfl, constructs] at passed
    have passed : Passed (h.bag l) (some init) ([stage].map Stage.kernel) (h''.bag l) (entry thread) := passed
    refine ⟨?_, passed.stages.1⟩
    rw [bags thread l atThread, if_pos (once.mem_iff.mpr (List.mem_range.mpr inside))]
  have mapped {g : Heap α} (setOk : SetOk g set.tidToThreadList)
      (bags : ∀ l ∈ set.tidToThreadList, g.bag l = (h.bag l).map stage.map) : g.total = h.total.map stage.map := by
    have hom := map_list_sum (Multiset.mapAddMonoidHom stage.map) (set.tidToThreadList.map h.bag)
    rw [List.map_map] at hom
    rw [setOk.total_eq set.distinct, List.map_congr_left bags, (reachable.ok safe).total_eq set.distinct]
    exact hom.symm
  exact ⟨h', h'', retValue, left, calls, run, mapped setOk' fun l member => (each l member).1,
    mapped post.setOk fun l member => (each l member).2, each⟩

end Sums

/-- Each of the two threads has an element; the second one makes its call first. -/
theorem twoThreads_currentThreads : ∃ h h' : Heap Nat, h.total = {0, 0} ∧
    runKernelCurrentThreads twoThreadsManual.toPumaSet (Stage.kernel ⟨(· + 1), fun _ => 1⟩) (sumKernelData (M := Nat))
      (fun _ => idleOracle h []) [1, 0] h = some h' ∧ h'.total = {1, 1} := by
  obtain ⟨r₁, r₂, first, second, empty, contents⟩ : ∃ r₁ r₂ : Heap Nat × ElemPtr,
      pumalloc twoThreadsManual.toPumaSet (createPumaSet twoThreadsManual.toPumaSet 4000 8192) 0 0 = some r₁ ∧
      pumalloc twoThreadsManual.toPumaSet r₁.1 1 1 = some r₂ ∧ (r₁.1.lists 1).tail = none ∧ r₂.1.total = {0, 0} :=
    ⟨_, _, rfl, rfl, rfl, rfl⟩
  have reachable : Reachable twoThreadsManual (fun h l => AllocSafe h l) r₂.1 := by
    refine ⟨4000, 8192, by decide, (Relation.ReflTransGen.single
      (.pumalloc 0 0 (fun l atThread t n p m atTail => ?_) first)).tail
      (.pumalloc 1 1 (fun l atThread t n p m atTail => ?_) second)⟩
    · cases atThread
      cases empty.symm.trans atTail
    · cases atThread
      cases atTail
  have whole : (idleOracle r₂.1 [0, 0, 0, 1, 1, 1]).Whole twoThreadsManual.toPumaSet 1 [0, 1] r₂.1 := by
    refine ⟨fun thread => ?_, Nat.lt_succ_self _, List.Perm.refl _⟩
    rcases thread with _ | _ | thread <;> simp [idleOracle, twoThreadsManual, twoThreads]
  have enough (thread : Nat) : r₂.1.blocks.card < ((fun _ => idleOracle r₂.1 []) thread : Oracle).turns :=
    Nat.lt_succ_self _
  obtain ⟨h', _, _, _, calls, _, total, _⟩ := Reachable.currentThreads_runKernel rfl (fun _ _ safe => safe) reachable
    ⟨(· + 1), fun _ => 1⟩ sumKernelData rfl enough whole (List.Perm.swap 0 1 [])
  refine ⟨r₂.1, h', contents, calls, ?_⟩
  rw [total, contents]
  rfl

-- With the balancer an element can go over to a thread that has yet to make its call; it is visited again there.
example : ∃ (r₁ r₂ : Heap Nat × ElemPtr) (h' : Heap Nat),
    pumalloc twoThreads.toPumaSet (createPumaSet twoThreads.toPumaSet 8000 8192) 0 0 = some r₁ ∧
    pumalloc twoThreads.toPumaSet r₁.1 0 1 = some r₂ ∧ r₂.1.total = {0, 0} ∧
    runKernelCurrentThreads twoThreads.toPumaSet (Stage.kernel ⟨(· + 1), fun _ => 1⟩) (sumKernelData (M := Nat))
      (fun thread => ⟨fun _ avgNodes => thread * avgNodes, [], fun _ _ => 1, 3⟩) [0, 1] r₂.1 = some h' ∧
    h'.total = {2, 1} := ⟨_, _, _, rfl, rfl, rfl, rfl, rfl⟩

end Puma
