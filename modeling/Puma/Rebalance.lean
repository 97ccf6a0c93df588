import Puma.RunTimeWindow
import Puma.StackSubscripts

namespace Puma

open Postcondition Relation

variable {α : Type} {set : CreatedSet} {h h' : Heap α}

section Calls

variable {tlAvgNodes : ListPtr → Nat} {s : BalanceState α}

theorem classifyLists_heap (lists : List ListPtr) : (lists.foldl (classifyList tlAvgNodes) s).heap = s.heap := by
  induction lists generalizing s with
  | nil => rfl
  | cons l lists ih => rw [List.foldl_cons, ih, classifyList_heap]

/-- The transfer loop makes a transfer just when both stacks hold a list. -/
theorem transferLoopCalls_eq_nil_iff :
    transferLoopCalls tlAvgNodes (s.posStack.length + s.negStack.length) s = [] ↔ s.posStack = [] ∨ s.negStack = [] := by
  cases atPos : s.posStack with
  | nil => cases s.negStack <;> simp [transferLoopCalls, atPos]
  | cons pos posRest =>
    cases atNeg : s.negStack with
    | nil => simp [transferLoopCalls, atPos, atNeg]
    | cons neg negRest => simp [transferLoopCalls, atPos, atNeg, ← Nat.add_assoc]

/-- No transfer is made just when the lists of all domains together leave one of the stacks empty. -/
theorem balanceDomainsCalls_eq_nil_iff {domains : List (List ListPtr)} (quiet : s.posStack = [] ∨ s.negStack = []) :
    balanceDomainsCalls tlAvgNodes domains s = [] ↔
      (domains.flatten.foldl (classifyList tlAvgNodes) s).posStack = [] ∨
        (domains.flatten.foldl (classifyList tlAvgNodes) s).negStack = [] := by
  induction domains generalizing s with
  | nil => simpa [balanceDomainsCalls] using quiet
  | cons domain domains ih =>
    rw [List.flatten_cons, List.foldl_append]
    simp only [balanceDomainsCalls, balanceDomain, List.append_eq_nil_iff, transferLoopCalls_eq_nil_iff]
    generalize domain.foldl (classifyList tlAvgNodes) s = s₁
    by_cases quiet₁ : s₁.posStack = [] ∨ s₁.negStack = []
    · rw [(transferLoop_quiet tlAvgNodes quiet₁ _).1]
      exact (and_iff_right quiet₁).trans (ih quiet₁)
    · -- What is on both stacks stays there.
      obtain ⟨pos, neg⟩ := classifyLists_suffix tlAvgNodes s₁ domains.flatten
      refine iff_of_false (fun missing => quiet₁ missing.1) fun later => quiet₁ ?_
      rcases later with noPos | noNeg
      · exact Or.inl (List.suffix_nil.mp (noPos ▸ pos))
      · exact Or.inr (List.suffix_nil.mp (noNeg ▸ neg))

/-- Without a transfer the memory stays as it is. -/
theorem balanceDomains_quiet {domains : List (List ListPtr)} (empty : balanceDomainsCalls tlAvgNodes domains s = []) :
    ∃ s', domains.foldlM (balanceDomain tlAvgNodes) s = some s' ∧ s'.heap = s.heap := by
  induction domains generalizing s with
  | nil => exact ⟨s, rfl, rfl⟩
  | cons domain domains ih =>
    obtain ⟨here, later⟩ := List.append_eq_nil_iff.mp empty
    have turn : balanceDomain tlAvgNodes s domain = some (domain.foldl (classifyList tlAvgNodes) s) :=
      (transferLoop_quiet tlAvgNodes (transferLoopCalls_eq_nil_iff.mp here) _).1
    rw [turn] at later
    obtain ⟨s', run, same⟩ := ih later
    refine ⟨s', ?_, same.trans (classifyLists_heap domain)⟩
    rw [List.foldlM_cons, turn]
    exact run

end Calls

/-- The balancer makes no transfer just when the lists are in balance. -/
theorem autobalanceThreadLoadCalls_eq_nil_iff (active : ∀ l, (h.lists l).active = true ↔ l ∈ set.tidToThreadList)
    (tlAvgNodes : ListPtr → Nat → Nat) :
    autobalanceThreadLoadCalls set.toPumaSet h tlAvgNodes = [] ↔
      h.InBalance set.tidToThreadList
        (fun tl => tlAvgNodes tl (h.nodesOf set.tidToThreadList / set.tidToThreadList.length))
        (h.nodesOf set.tidToThreadList % set.tidToThreadList.length) := by
  have all : set.tidToThreadList.filter (fun tl => (h.lists tl).active) = set.tidToThreadList :=
    List.filter_eq_self.mpr fun l member => (active l).mpr member
  simp only [autobalanceThreadLoadCalls, all]
  refine (balanceDomainsCalls_eq_nil_iff (Or.inl rfl)).trans ?_
  rw [classifyLists_posStack, classifyLists_negStack, or_comm, set.countP_flatten active, set.forall_flatten active,
    set.forall_flatten active]
  exact or_congr (and_iff_right rfl) (and_iff_right rfl)

theorem autobalanceThreadLoad_quiet (active : ∀ l, (h.lists l).active = true ↔ l ∈ set.tidToThreadList)
    {tlAvgNodes : ListPtr → Nat → Nat} (empty : autobalanceThreadLoadCalls set.toPumaSet h tlAvgNodes = []) :
    autobalanceThreadLoad set.toPumaSet h tlAvgNodes = some h := by
  have all : set.tidToThreadList.filter (fun tl => (h.lists tl).active) = set.tidToThreadList :=
    List.filter_eq_self.mpr fun l member => (active l).mpr member
  have positive : set.tidToThreadList.length ≠ 0 := fun zero => set.threads (List.length_eq_zero_iff.mp zero)
  simp only [autobalanceThreadLoadCalls, all] at empty
  obtain ⟨s', run, same⟩ := balanceDomains_quiet empty
  simp only [autobalanceThreadLoad, all, positive, if_false, Option.bind_eq_bind]
  exact Option.bind_eq_some_iff.mpr ⟨s', run, congrArg some same⟩

/-- The balancer writes no record, so it takes the same speeds from the memory that it leaves. -/
theorem autobalanceThreadLoad_record (setOk : SetOk h set.tidToThreadList) {tlAvgNodes : ListPtr → Nat → Nat}
    (run : autobalanceThreadLoad set.toPumaSet h tlAvgNodes = some h') (l : ListPtr) :
    (h'.lists l).record = (h.lists l).record := by
  have records : Records set.tidToThreadList.toFinset (fun l => (h.lists l).record) h :=
    ⟨fun p n atNode => List.mem_toFinset.mpr (setOk.owner p n atNode),
      fun l => (setOk.active l).trans List.mem_toFinset.symm, fun _ => rfl⟩
  have kept := (Records.rule set.tidToThreadList.toFinset _).balanceThreadLoad (c := 0) records
    { set.toPumaSet with autoBalance := true } tlAvgNodes h' run
  exact kept.same l

theorem targetNodes_congr {set : PumaSet} (same : ∀ l, (h'.lists l).record = (h.lists l).record) :
    targetNodes set h' = targetNodes set h := by
  have active (l : ListPtr) : (h'.lists l).active = (h.lists l).active := congrArg ListRecord.active (same l)
  have time (l : ListPtr) : (h'.lists l).lastNRunTime = (h.lists l).lastNRunTime :=
    congrArg ListRecord.lastNRunTime (same l)
  funext tl avgNodes
  simp only [targetNodes, relativeSpeed, totalRunTime, active, time]

/-- Balancing twice is balancing once: the second call finds every list at its target or above it. -/
theorem Reachable.balancing_settles {allowed : Allowed α} [Inhabited α] (safe : ∀ g l, allowed g l → AllocSafe g l)
    (reachable : Reachable set allowed h) (runTimes : ∀ l ∈ set.tidToThreadList, 0 ≤ (h.lists l).lastNRunTime)
    (ran : 0 < totalRunTime set.toPumaSet h) :
    ∃ h', autobalanceThreadLoad set.toPumaSet h (targetNodes set.toPumaSet h) = some h' ∧
      targetNodes set.toPumaSet h' = targetNodes set.toPumaSet h ∧
      autobalanceThreadLoadCalls set.toPumaSet h' (targetNodes set.toPumaSet h') = [] ∧
      autobalanceThreadLoad set.toPumaSet h' (targetNodes set.toPumaSet h') = some h' := by
  have setOk := reachable.ok safe
  have active (l : ListPtr) (member : l ∈ set.tidToThreadList) : (h.lists l).active = true := (setOk.active l).mpr member
  obtain ⟨s, settled, run, inv, drained, _⟩ := autobalanceThreadLoad_spec (SetOk.balanceable h set.tidToThreadList)
    ⟨setOk, .refl h⟩ set.threads set.cpus (targetNodes set.toPumaSet h)
  have total := inv.total
  rw [set.distinct.dedup] at total
  have met (l : ListPtr) (member : l ∈ set.tidToThreadList) : targetNodes set.toPumaSet h l
      (h.nodesOf set.tidToThreadList / set.tidToThreadList.length) ≤ (s.heap.lists l).numNodes := by
    refine inv.meetsTargets drained set.distinct (fun m inLists => List.mem_reverse.mpr (set.placed m inLists)) ?_ member
    have targets := targetNodes_sum active set.threads runTimes ran
      (h.nodesOf set.tidToThreadList / set.tidToThreadList.length)
    have divided := Nat.div_add_mod' (h.nodesOf set.tidToThreadList) set.tidToThreadList.length
    rw [set.distinct.dedup]
    omega
  have same : targetNodes set.toPumaSet s.heap = targetNodes set.toPumaSet h :=
    targetNodes_congr (autobalanceThreadLoad_record setOk run)
  have active' := inv.good.1.active
  have empty : autobalanceThreadLoadCalls set.toPumaSet s.heap (targetNodes set.toPumaSet s.heap) = [] := by
    rw [autobalanceThreadLoadCalls_eq_nil_iff active', same, total]
    exact Or.inl met
  exact ⟨s.heap, run, same, empty, autobalanceThreadLoad_quiet active' empty⟩

/-- Both threads have run for the same time, and the first one has both nodes: one of them goes over to the other. -/
theorem twoThreads_settles : ∃ h h' : Heap Unit, (h.lists 0).numNodes = 2 ∧ (h.lists 1).numNodes = 0 ∧
    autobalanceThreadLoad twoThreads.toPumaSet h (targetNodes twoThreads.toPumaSet h) = some h' ∧
    autobalanceThreadLoad twoThreads.toPumaSet h' (targetNodes twoThreads.toPumaSet h') = some h' := by
  obtain ⟨r₁, r₂, r₃, first, second, third, atTail, front, two, missing, time₀, time₁⟩ : ∃ (r₁ r₂ : Heap Unit × ElemPtr)
      (r₃ : World Unit Unit × List (Visit Unit)),
      pumalloc twoThreads.toPumaSet (createPumaSet twoThreads.toPumaSet 8000 8192) 0 0 = some r₁ ∧
      pumalloc twoThreads.toPumaSet r₁.1 0 1 = some r₂ ∧
      runKernelList twoThreads.toPumaSet ⟨(), r₂.1⟩ [fun _ => idleKernel] ⟨fun _ _ => 0, [0, 1], fun _ _ => 1, 3⟩ = some r₃ ∧
      (r₁.1.lists 0).tail = some 0 ∧ r₁.1.prev 0 = none ∧
      (r₃.1.heap.lists 0).numNodes = 2 ∧ (r₃.1.heap.lists 1).numNodes = 0 ∧
      (r₃.1.heap.lists 0).lastNRunTime = 1 ∧ (r₃.1.heap.lists 1).lastNRunTime = 1 := by
    refine ⟨_, _, _, rfl, rfl, rfl, ?_⟩
    decide +kernel
  have reachable : Reachable twoThreads (fun h l => AllocSafe h l) r₃.1.heap := by
    refine ⟨8000, 8192, by decide, ((ReflTransGen.single
      (.pumalloc 0 0 (fun l atThread t n p m atTail' => ?_) first)).tail
      (.pumalloc 0 1 (fun l atThread t n p m atTail' atNode _ _ before => ?_) second)).tail
      (.runKernelList (w := ⟨(), r₂.1⟩) _ _ (fun kernel member thread l _ => ?_) third)⟩
    · rw [List.mem_singleton.mp member]
      exact (idleKernel_writes fun _ => ()).respects _ l
    · cases atThread
      cases atTail'
    · cases atThread
      cases atTail.symm.trans atTail'
      rw [Heap.prev, Heap.links_eq atNode, Option.bind_some, before] at front
      cases front
  have total : totalRunTime twoThreads.toPumaSet r₃.1.heap = 2 := by
    simp only [totalRunTime, twoThreads, List.map_cons, List.map_nil, List.sum_cons, List.sum_nil, time₀, time₁]
    norm_num
  obtain ⟨h', run, _, _, again⟩ := reachable.balancing_settles (fun _ _ safe => safe) (fun l member => by
      rcases List.mem_cons.mp member with rfl | member
      · rw [time₀]
        norm_num
      · rw [List.mem_singleton.mp member, time₁]
        norm_num)
    (by rw [total]; norm_num)
  exact ⟨r₃.1.heap, h', two, missing, run, again⟩

end Puma
