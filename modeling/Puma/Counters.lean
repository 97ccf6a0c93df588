import Puma.Stores
import Mathlib.Algebra.BigOperators.Group.Finset.Basic
import Mathlib.Algebra.BigOperators.Ring.Finset

namespace Puma

open Postcondition Relation

variable {σ α : Type}

/-- What the lists count together, in the arithmetic of `size_t`. -/
def Heap.counted (h : Heap α) (lists : Finset ListPtr) : ZMod (2 ^ 64) :=
  ∑ l ∈ lists, ((h.lists l).numElements : ZMod (2 ^ 64))

/-- Every node belongs to one of the lists, which are the active ones, and together they count `c` elements. -/
structure Counted (lists : Finset ListPtr) (c : ZMod (2 ^ 64)) (h : Heap α) : Prop where
  owner : ∀ p n, h.node p = some n → n.threadList ∈ lists
  active : ∀ l, (h.lists l).active = true ↔ l ∈ lists
  counted : h.counted lists = c

section Stores

variable {lists : Finset ListPtr} {c : ZMod (2 ^ 64)} {h : Heap α}

theorem Counted.setNode (counted : Counted lists c h) {p : NodePtr} {n : PumaNode α} (owner : n.threadList ∈ lists) :
    Counted lists c (h.setNode p n) where
  owner q m atNode := by
    rw [Heap.node_setNode] at atNode
    split at atNode
    · rw [← Option.some.inj atNode]
      exact owner
    · exact counted.owner q m atNode
  active := counted.active
  counted := counted.counted

theorem Counted.nufreeAligned (counted : Counted lists c h) (p : NodePtr) : Counted lists c (h.nufreeAligned p) where
  owner q m atNode := by
    rw [Heap.node_nufreeAligned] at atNode
    split at atNode
    · cases atNode
    · exact counted.owner q m atNode
  active := counted.active
  counted := counted.counted

/-- A change of one counter. -/
theorem Counted.count (counted : Counted lists c h) {l : ListPtr} (member : l ∈ lists)
    {f : PumaThreadList → PumaThreadList} (active : (f (h.lists l)).active = (h.lists l).active) :
    Counted lists (c + ((f (h.lists l)).numElements - (h.lists l).numElements)) (h.modifyList l f) where
  owner := counted.owner
  active m := by
    rw [← counted.active m]
    by_cases same : m = l
    · rw [same, Heap.lists_modifyList_self, active]
    · rw [Heap.lists_modifyList_ne _ _ same]
  counted := by
    have before := counted.counted
    rw [Heap.counted, ← Finset.add_sum_erase _ _ member] at before
    have rest : ∀ m ∈ lists.erase l, (((h.modifyList l f).lists m).numElements : ZMod (2 ^ 64)) =
        (h.lists m).numElements := fun m inRest => by
      rw [Heap.lists_modifyList_ne _ _ (Finset.ne_of_mem_erase inRest)]
    rw [Heap.counted, ← Finset.add_sum_erase _ _ member, Finset.sum_congr rfl rest, Heap.lists_modifyList_self,
      ← before]
    ring

/-- A store to a list that leaves its counter alone. -/
theorem Counted.modifyList (counted : Counted lists c h) {l : ListPtr} {f : PumaThreadList → PumaThreadList}
    (active : (f (h.lists l)).active = (h.lists l).active)
    (same : (f (h.lists l)).numElements = (h.lists l).numElements) : Counted lists c (h.modifyList l f) := by
  by_cases member : l ∈ lists
  · have after := counted.count member active
    rwa [same, sub_self, add_zero] at after
  · refine ⟨counted.owner, fun m => ?_, ?_⟩
    · rw [← counted.active m]
      by_cases here : m = l
      · rw [here, Heap.lists_modifyList_self, active]
      · rw [Heap.lists_modifyList_ne _ _ here]
    · rw [← counted.counted]
      refine Finset.sum_congr rfl fun m inLists => ?_
      have other : m ≠ l := fun here => member (here ▸ inLists)
      rw [Heap.lists_modifyList_ne _ _ other]

theorem Counted.rule (lists : Finset ListPtr) : StoreRule lists (Counted (α := α) lists) where
  owner counted atNode := counted.owner _ _ atNode
  active counted on := (counted.active _).mp on
  setNode counted _ owner _ := counted.setNode owner
  newNode _ _ _ counted member := counted.setNode member
  nufreeAligned p counted := counted.nufreeAligned p
  modifyList counted fixed same := counted.modifyList (congrArg (fun x => x.1.active) fixed) same
  count counted member fixed := counted.count member (congrArg (fun x => x.1.active) fixed)

/-- Writes to the contents of elements change no counter. -/
theorem Counted.write {h' : Heap α} (counted : Counted lists c h) (same : h'.skeleton = h.skeleton) :
    Counted lists c h' := by
  have lists_eq : h'.lists = h.lists := congrArg (fun g : Heap Unit => g.lists) same
  refine ⟨fun p n' atNode' => ?_, by rw [lists_eq]; exact counted.active, ?_⟩
  · have atLinks := Heap.links_eq atNode'
    rw [Heap.links_of_skeleton same] at atLinks
    obtain ⟨n, atNode, equal⟩ := Heap.node_of_links atLinks
    rw [← congrArg Links.threadList equal]
    exact counted.owner p n atNode
  · rw [Heap.counted, lists_eq]
    exact counted.counted

end Stores

/-- Extra data that also keeps count of the allocations and of the frees. -/
structure Tally (σ : Type) where
  extra : σ
  allocs : Nat
  frees : Nat

/-- The counters of the lists agree with the calls so far. -/
def Tallied (lists : Finset ListPtr) (w : World (Tally σ) α) : Prop :=
  Counted lists ((w.extra.allocs : ZMod (2 ^ 64)) - w.extra.frees) w.heap

section Calls

variable [Inhabited α]

/-- An allocation, a free, or writes to elements and to other data. -/
inductive CallStep (set : PumaSet) : World (Tally σ) α → World (Tally σ) α → Prop
  | pumalloc {x : σ} {allocs frees : Nat} {h h' : Heap α} {e : ElemPtr} (thread : Nat) (block : NodePtr)
      (run : pumalloc set h thread block = some (h', e)) :
      CallStep set ⟨⟨x, allocs, frees⟩, h⟩ ⟨⟨x, allocs + 1, frees⟩, h'⟩
  | pumallocManualBalancing {x : σ} {allocs frees : Nat} {h h' : Heap α} {e : ElemPtr} (balData : Nat) (block : NodePtr)
      (run : pumallocManualBalancing set h balData block = some (h', e)) :
      CallStep set ⟨⟨x, allocs, frees⟩, h⟩ ⟨⟨x, allocs + 1, frees⟩, h'⟩
  | pufree {x : σ} {allocs frees : Nat} {h h' : Heap α} (e : ElemPtr) (live : (h.read e).isSome)
      (run : pufree h e = some h') : CallStep set ⟨⟨x, allocs, frees⟩, h⟩ ⟨⟨x, allocs, frees + 1⟩, h'⟩
  | write {x x' : σ} {allocs frees : Nat} {h h' : Heap α} (same : h'.skeleton = h.skeleton) :
      CallStep set ⟨⟨x, allocs, frees⟩, h⟩ ⟨⟨x', allocs, frees⟩, h'⟩

/-- A kernel that works on the set through its calls, and counts them. -/
def Kernel.Tallies (kernel : Kernel (Tally σ) α) (set : PumaSet) : Prop :=
  ∀ w e w', (w.heap.read e).isSome → kernel w e = some w' → ReflTransGen (CallStep set) w w'

variable {set : PumaSet}

theorem CallStep.tallied {w w' : World (Tally σ) α} (step : CallStep set w w')
    (tallied : Tallied set.tidToThreadList.toFinset w) : Tallied set.tidToThreadList.toFinset w' := by
  have grown {c d : ZMod (2 ^ 64)} {h h' : Heap α} {e : ElemPtr} {l : ListPtr} {block : NodePtr} {thread : Nat}
      (counted : Counted set.tidToThreadList.toFinset (c - d) h) (atThread : set.tidToThreadList[thread]? = some l)
      (run : pumallocOnThreadList h l block = some (h', e)) : Counted set.tidToThreadList.toFinset (c + 1 - d) h' := by
    have member : l ∈ set.tidToThreadList.toFinset := List.mem_toFinset.mpr (List.mem_of_getElem? atThread)
    have after := (Counted.rule _).pumallocOnThreadList counted member block _ run
    rwa [sub_add_eq_add_sub] at after
  unfold Tallied at *
  cases step with
  | pumalloc thread block run =>
    obtain ⟨l, atThread, made⟩ := Option.bind_eq_some_iff.mp run
    have after := grown tallied atThread made
    exact_mod_cast after
  | pumallocManualBalancing balData block run =>
    obtain ⟨l, atThread, made⟩ := Option.bind_eq_some_iff.mp run
    have after := grown tallied atThread made
    exact_mod_cast after
  | pufree e _ run =>
    have after := (Counted.rule _).pufree tallied e _ run
    rw [sub_sub] at after
    exact_mod_cast after
  | write same => exact tallied.write same

theorem CallStep.run {w w' : World (Tally σ) α} (run : ReflTransGen (CallStep set) w w')
    (tallied : Tallied set.tidToThreadList.toFinset w) : Tallied set.tidToThreadList.toFinset w' := by
  induction run with
  | refl => exact tallied
  | tail _ step ih => exact step.tallied ih

/-- A pass keeps the counters in step with its kernel's calls. -/
theorem Tallied.runKernelThread {kernel : Kernel (Tally σ) α} {w : World (Tally σ) α} (tallies : kernel.Tallies set)
    (tallied : Tallied set.tidToThreadList.toFinset w) (turns : Nat) (tl : ListPtr) (elapsed : ℚ) :
    Ensures (runKernelThread turns w tl kernel elapsed) fun r => Tallied set.tidToThreadList.toFinset r.1 := by
  have rule : PassRule kernel (Tallied (σ := σ) set.tidToThreadList.toFinset) := {
    cleanup := fun node tl tallied run => (Counted.rule _).cleanupNode tallied node tl _ run
    call := fun tallied live called => CallStep.run (tallies _ _ _ live called) tallied }
  simp only [Puma.runKernelThread, Option.bind_eq_bind]
  refine Ensures.bind (rule.runKernelThreadLoop tallied) fun r kept => Ensures.some ?_
  exact Counted.modifyList (l := tl) (f := fun l => l.recordRunTime elapsed) kept rfl rfl

theorem Tallied.runKernelPasses {kernels : List (Nat → Kernel (Tally σ) α)} {elapsed : Nat → Nat → ℚ} {turns : Nat}
    (tallies : ∀ kernel ∈ kernels, ∀ thread, (kernel thread).Tallies set) {schedule : List Nat} {done : Nat → Nat}
    {w : World (Tally σ) α} (tallied : Tallied set.tidToThreadList.toFinset w) :
    Ensures (runKernelPasses set kernels elapsed turns schedule done w)
      fun r => Tallied set.tidToThreadList.toFinset r.1 := by
  induction schedule generalizing w done with
  | nil => exact Ensures.some tallied
  | cons thread schedule ih =>
    simp only [Puma.runKernelPasses, Option.bind_eq_bind]
    refine Ensures.read fun tl _ => Ensures.read fun kernel atKernel => ?_
    have each := tallies kernel (List.mem_of_getElem? atKernel) thread
    refine Ensures.bind (tallied.runKernelThread each turns tl _) fun r kept => ?_
    exact Ensures.bind (ih kept) fun r₂ kept₂ => Ensures.some kept₂

theorem Tallied.runKernelList {kernels : List (Nat → Kernel (Tally σ) α)}
    (tallies : ∀ kernel ∈ kernels, ∀ thread, (kernel thread).Tallies set) {w : World (Tally σ) α}
    (tallied : Tallied set.tidToThreadList.toFinset w) (oracle : Oracle) :
    Ensures (runKernelList set w kernels oracle) fun r => Tallied set.tidToThreadList.toFinset r.1 := by
  simp only [Puma.runKernelList, Option.bind_eq_bind]
  exact Ensures.bind ((Counted.rule _).balanceThreadLoad tallied set oracle.tlAvgNodes) fun h kept =>
    Tallied.runKernelPasses tallies (w := { w with heap := h }) kept

/-- An operation on a set: a call, a compaction, a transfer, a pass over one list or over all of them. -/
inductive TallyStep (set : PumaSet) : World (Tally σ) α → World (Tally σ) α → Prop
  | call {w w' : World (Tally σ) α} (step : CallStep set w w') : TallyStep set w w'
  | cleanupNode {w : World (Tally σ) α} {h' : Heap α} (node : NodePtr) (tl : ListPtr)
      (run : cleanupNode w.heap node tl = some h') : TallyStep set w { w with heap := h' }
  | transferNNodes {w : World (Tally σ) α} {h' : Heap α} (n : Nat) (source target : ListPtr)
      (inSource : source ∈ set.tidToThreadList) (inTarget : target ∈ set.tidToThreadList) (apart : source ≠ target)
      (positive : 1 ≤ n) (most : n ≤ (w.heap.lists source).numNodes)
      (run : transferNNodes w.heap n source target = some h') : TallyStep set w { w with heap := h' }
  | runKernelThread {w w' : World (Tally σ) α} {calls : List (ElemPtr × α)} (turns : Nat) (tl : ListPtr)
      (kernel : Kernel (Tally σ) α) (elapsed : ℚ) (tallies : kernel.Tallies set)
      (run : runKernelThread turns w tl kernel elapsed = some (w', calls)) : TallyStep set w w'
  | runKernelList {w w' : World (Tally σ) α} {visits : List (Visit α)} (kernels : List (Nat → Kernel (Tally σ) α))
      (oracle : Oracle) (tallies : ∀ kernel ∈ kernels, ∀ thread, (kernel thread).Tallies set)
      (run : runKernelList set w kernels oracle = some (w', visits)) : TallyStep set w w'

/-- What some sequence of operations makes of a new set whose nodes have room for an element. -/
def TallyReachable (set : CreatedSet) (w : World (Tally σ) α) : Prop :=
  ∃ (x : σ) (elementSize nodeSize : Nat),
    0 < (createPumaSet set.toPumaSet elementSize nodeSize : Heap α).capacityFor elementSize ∧
      ReflTransGen (TallyStep set.toPumaSet) ⟨⟨x, 0, 0⟩, createPumaSet set.toPumaSet elementSize nodeSize⟩ w

theorem TallyStep.tallied {w w' : World (Tally σ) α} (step : TallyStep set w w')
    (tallied : Tallied set.tidToThreadList.toFinset w) : Tallied set.tidToThreadList.toFinset w' := by
  cases step with
  | call step => exact step.tallied tallied
  | cleanupNode node tl run => exact (Counted.rule _).cleanupNode tallied node tl _ run
  | transferNNodes n source target inSource inTarget _ _ _ run =>
    exact (Counted.rule _).transferNNodes tallied n (List.mem_toFinset.mpr inSource) (List.mem_toFinset.mpr inTarget) _ run
  | runKernelThread turns tl kernel elapsed tallies run => exact tallied.runKernelThread tallies turns tl elapsed _ run
  | runKernelList kernels oracle tallies run => exact Tallied.runKernelList tallies tallied oracle _ run

omit [Inhabited α] in
theorem createPumaSet_counted (set : PumaSet) (elementSize nodeSize : Nat) :
    Counted set.tidToThreadList.toFinset 0 (createPumaSet set elementSize nodeSize : Heap α) where
  owner p n atNode := by
    have missing : (createPumaSet set elementSize nodeSize : Heap α).node p = none := rfl
    rw [missing] at atNode
    cases atNode
  active l := by
    rw [List.mem_toFinset]
    by_cases member : l ∈ set.tidToThreadList <;> simp [createPumaSet, member, PumaThreadList.empty]
  counted := by
    refine Finset.sum_eq_zero fun l member => ?_
    simp [createPumaSet, List.mem_toFinset.mp member, PumaThreadList.empty]

theorem TallyReachable.tallied {set : CreatedSet} {w : World (Tally σ) α} (reachable : TallyReachable set w) :
    Tallied set.tidToThreadList.toFinset w := by
  obtain ⟨x, elementSize, nodeSize, _, run⟩ := reachable
  induction run with
  | refl =>
    have start := createPumaSet_counted (α := α) set.toPumaSet elementSize nodeSize
    simpa [Tallied] using start
  | tail _ step ih => exact step.tallied ih

end Calls

/-- `getNumElements`: every thread of the pool reports the counter of its list, and the reports are added up. -/
def getNumElements (set : PumaSet) (h : Heap α) : Nat :=
  let sums := set.tidToThreadList.map fun threadList => (h.lists threadList).numElements
  sums.foldl (fun sum s => (sum + s) % 2 ^ 64) 0

theorem foldl_size_cast (sums : List Nat) {s : Nat} (size : s < 2 ^ 64) :
    sums.foldl (fun sum s => (sum + s) % 2 ^ 64) s < 2 ^ 64 ∧
      ((sums.foldl (fun sum s => (sum + s) % 2 ^ 64) s : Nat) : ZMod (2 ^ 64)) = s + sums.sum := by
  induction sums generalizing s with
  | nil => exact ⟨size, by simp⟩
  | cons t sums ih =>
    obtain ⟨size', cast⟩ := ih (Nat.mod_lt (s + t) (by norm_num : 0 < 2 ^ 64))
    refine ⟨size', ?_⟩
    rw [List.foldl_cons, cast, ZMod.natCast_mod, List.sum_cons]
    push_cast
    ring

theorem Heap.counted_toFinset (h : Heap α) {lists : List ListPtr} (nodup : lists.Nodup) :
    h.counted lists.toFinset = ((lists.map fun l => (h.lists l).numElements).sum : Nat) := by
  rw [Heap.counted, List.sum_toFinset _ nodup, Nat.cast_list_sum, List.map_map]
  rfl

/-- Where every thread has a list of its own, `getNumElements` adds up the counters of the set's lists. -/
theorem getNumElements_cast (set : CreatedSet) (h : Heap α) : getNumElements set.toPumaSet h < 2 ^ 64 ∧
    (getNumElements set.toPumaSet h : ZMod (2 ^ 64)) = h.counted set.tidToThreadList.toFinset := by
  obtain ⟨size, cast⟩ := foldl_size_cast (set.tidToThreadList.map fun tl => (h.lists tl).numElements)
    (by norm_num : 0 < 2 ^ 64)
  refine ⟨size, ?_⟩
  rw [getNumElements, cast, h.counted_toFinset set.distinct, Nat.cast_zero, zero_add]

/-- After any sequence of operations the active lists count together, as `size_t` values, the allocations less the
frees, and `getNumElements` returns that. -/
theorem TallyReachable.getNumElements_eq [Inhabited α] {set : CreatedSet} {w : World (Tally σ) α}
    (reachable : TallyReachable set w) :
    (((set.domains.flatten.filter fun l => (w.heap.lists l).active).map fun l => (w.heap.lists l).numElements).sum : ℤ) ≡
        w.extra.allocs - w.extra.frees [ZMOD 2 ^ 64] ∧
      (getNumElements set.toPumaSet w.heap : ℤ) = (w.extra.allocs - w.extra.frees) % 2 ^ 64 := by
  have tallied := reachable.tallied
  constructor
  · have same : (set.domains.flatten.filter fun l => (w.heap.lists l).active).toFinset =
        set.tidToThreadList.toFinset := by
      ext l
      rw [List.mem_toFinset, List.mem_filter, tallied.active]
      exact ⟨fun both => both.2, fun member => ⟨set.placed l (List.mem_toFinset.mp member), member⟩⟩
    have total := tallied.counted
    rw [← same, Heap.counted_toFinset _ (set.cpus.filter _)] at total
    refine (ZMod.intCast_eq_intCast_iff _ _ (2 ^ 64)).mp ?_
    rw [Int.cast_natCast, Int.cast_sub, Int.cast_natCast, Int.cast_natCast]
    exact total
  · obtain ⟨size, cast⟩ := getNumElements_cast set w.heap
    have equal : (getNumElements set.toPumaSet w.heap : ℤ) ≡ w.extra.allocs - w.extra.frees [ZMOD 2 ^ 64] := by
      refine (ZMod.intCast_eq_intCast_iff _ _ (2 ^ 64)).mp ?_
      push_cast
      rw [cast, tallied.counted]
    rw [← equal.eq, Int.emod_eq_of_lt (by omega) (by omega)]

/-- Two allocations, a free and a compaction. -/
theorem oneThread_getNumElements : ∃ w : World (Tally Unit) Unit, TallyReachable oneThread w ∧ w.extra.allocs = 2 ∧
    w.extra.frees = 1 ∧ getNumElements oneThread.toPumaSet w.heap = 1 := by
  obtain ⟨r₁, r₂, h₃, h₄, first, second, live, freed, compacted⟩ : ∃ (r₁ r₂ : Heap Unit × ElemPtr) (h₃ h₄ : Heap Unit),
      pumalloc oneThread.toPumaSet (createPumaSet oneThread.toPumaSet 4000 8192) 0 0 = some r₁ ∧
      pumalloc oneThread.toPumaSet r₁.1 0 1 = some r₂ ∧ (r₂.1.read ⟨0, 0⟩).isSome ∧ pufree r₂.1 ⟨0, 0⟩ = some h₃ ∧
      cleanupNode h₃ 0 0 = some h₄ := ⟨_, _, _, _, rfl, rfl, by decide, rfl, rfl⟩
  have reachable : TallyReachable oneThread (⟨⟨(), 2, 1⟩, h₄⟩ : World (Tally Unit) Unit) :=
    ⟨(), 4000, 8192, by decide, (((ReflTransGen.single (.call (.pumalloc 0 0 first))).tail
      (.call (.pumalloc 0 1 second))).tail (.call (.pufree ⟨0, 0⟩ live freed))).tail (.cleanupNode 0 0 compacted)⟩
  have count := reachable.getNumElements_eq.2
  refine ⟨_, reachable, rfl, rfl, ?_⟩
  norm_num at count
  exact count

end Puma
