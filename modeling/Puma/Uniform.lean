import Puma.Stores

namespace Puma

open Postcondition Relation

variable {σ α : Type}

/-- The lists hold elements of one size, and each node has as many slots as a new node for such elements. -/
structure Uniform (elementSize nodeSize : Nat) (lists : List ListPtr) (h : Heap α) : Prop where
  size : h.nodeSize = nodeSize
  elements : ∀ l ∈ lists, (h.lists l).elementSize = elementSize
  capacity : ∀ p n, h.node p = some n → n.capacity = h.capacityFor elementSize
  owner : ∀ p n, h.node p = some n → n.threadList ∈ lists
  active : ∀ l, (h.lists l).active = true → l ∈ lists

variable {elementSize nodeSize : Nat} {lists : List ListPtr} {h : Heap α}

section Stores

theorem Uniform.setNode (uniform : Uniform elementSize nodeSize lists h) (p : NodePtr) {n : PumaNode α}
    (member : n.threadList ∈ lists) (capacity : n.capacity = h.capacityFor elementSize) :
    Uniform elementSize nodeSize lists (h.setNode p n) where
  size := uniform.size
  elements := uniform.elements
  capacity q m atNode := by
    rw [Heap.node_setNode] at atNode
    split at atNode
    · cases atNode
      exact capacity
    · exact uniform.capacity q m atNode
  owner q m atNode := by
    rw [Heap.node_setNode] at atNode
    split at atNode
    · cases atNode
      exact member
    · exact uniform.owner q m atNode
  active := uniform.active

theorem Uniform.modifyList (uniform : Uniform elementSize nodeSize lists h) (l : ListPtr)
    {f : PumaThreadList → PumaThreadList} (size : (f (h.lists l)).elementSize = (h.lists l).elementSize)
    (active : (f (h.lists l)).active = (h.lists l).active) : Uniform elementSize nodeSize lists (h.modifyList l f) where
  size := uniform.size
  elements m member := by
    by_cases here : m = l
    · rw [here, Heap.lists_modifyList_self, size, ← here]
      exact uniform.elements m member
    · rw [Heap.lists_modifyList_ne _ _ here]
      exact uniform.elements m member
  capacity := uniform.capacity
  owner := uniform.owner
  active m on := by
    refine uniform.active m ?_
    by_cases here : m = l
    · rwa [here, Heap.lists_modifyList_self, active, ← here] at on
    · rwa [Heap.lists_modifyList_ne _ _ here] at on

theorem Uniform.nufreeAligned (uniform : Uniform elementSize nodeSize lists h) (p : NodePtr) :
    Uniform elementSize nodeSize lists (h.nufreeAligned p) where
  size := uniform.size
  elements := uniform.elements
  capacity q m atNode := by
    rw [Heap.node_nufreeAligned] at atNode
    split at atNode
    · cases atNode
    · exact uniform.capacity q m atNode
  owner q m atNode := by
    rw [Heap.node_nufreeAligned] at atNode
    split at atNode
    · cases atNode
    · exact uniform.owner q m atNode
  active := uniform.active

/-- The stores of the library leave the slots of the nodes and the sizes of the elements alone. -/
theorem Uniform.rule (elementSize nodeSize : Nat) (lists : List ListPtr) :
    StoreRule lists.toFinset fun _ => Uniform (α := α) elementSize nodeSize lists where
  owner uniform atNode := List.mem_toFinset.mpr (uniform.owner _ _ atNode)
  active uniform on := List.mem_toFinset.mpr (uniform.active _ on)
  setNode uniform atNode member same :=
    uniform.setNode _ (List.mem_toFinset.mp member) (same.trans (uniform.capacity _ _ atNode))
  newNode p tail nextIndex uniform member := by
    rw [uniform.elements _ (List.mem_toFinset.mp member)]
    exact uniform.setNode p (List.mem_toFinset.mp member) rfl
  nufreeAligned p uniform := uniform.nufreeAligned p
  modifyList uniform fixed _ :=
    uniform.modifyList _ (congrArg Prod.snd fixed) (congrArg (fun x => x.1.active) fixed)
  count uniform _ fixed := uniform.modifyList _ (congrArg Prod.snd fixed) (congrArg (fun x => x.1.active) fixed)

end Stores

section Transfers

/-- A transfer that the balancer may ask for finds the two lists in order, and takes the last nodes of the first. -/
theorem SetOk.transferPre (set : SetOk h lists) {source target : ListPtr} (apart : source ≠ target)
    (inSource : source ∈ lists) (inTarget : target ∈ lists) {n : Nat} (positive : 1 ≤ n)
    (most : n ≤ (h.lists source).numNodes) :
    ∃ K M Ss At St, TransferPre h source target K M Ss At St ∧ M.length = n := by
  obtain ⟨A, Ss, sourceOk⟩ := set.each source inSource
  obtain ⟨At, St, targetOk⟩ := set.each target inTarget
  have split : A.take (A.length - n) ++ A.drop (A.length - n) = A := List.take_append_drop _ _
  have length : (A.drop (A.length - n)).length = n := by
    rw [sourceOk.numNodes] at most
    rw [List.length_drop]
    omega
  have sourceShape : Shape h source (A.take (A.length - n) ++ A.drop (A.length - n)) Ss := by
    rw [split]
    exact sourceOk.toShape
  have held : h.count (A.drop (A.length - n)) ≤ (h.lists source).numElements := by
    have elems := congrArg (fun c => (h.elems c).card) split
    simp only [Heap.elems_append, Multiset.card_add] at elems
    rw [sourceOk.count, ← elems, sourceOk.count_eq set.ok fun p member =>
      List.mem_append_left Ss (List.mem_of_mem_drop member)]
    exact Nat.le_add_left _ _
  have moved : A.drop (A.length - n) ≠ [] := fun missing => by
    rw [missing, List.length_nil] at length
    omega
  exact ⟨_, _, Ss, At, St, ⟨apart, sourceShape, targetOk.toShape, moved, held⟩, length⟩

end Transfers

section Runs

/-- Writes to the contents of elements. -/
theorem Uniform.write {h' : Heap α} (uniform : Uniform elementSize nodeSize lists h) (same : h'.skeleton = h.skeleton) :
    Uniform elementSize nodeSize lists h' := by
  have size : h'.nodeSize = h.nodeSize := congrArg (fun k : Heap Unit => k.nodeSize) same
  have records : h'.lists = h.lists := congrArg (fun k : Heap Unit => k.lists) same
  have node {p : NodePtr} {n : PumaNode α} (atNode : h'.node p = some n) :
      ∃ m, h.node p = some m ∧ n.capacity = m.capacity ∧ n.threadList = m.threadList := by
    have mapped := Heap.mapContents_eq (f := fun _ _ => ()) atNode
    rw [show h'.mapContents (fun _ _ => ()) = h.mapContents fun _ _ => () from same] at mapped
    obtain ⟨m, atNode', same'⟩ := Heap.node_of_mapContents mapped
    exact ⟨m, atNode', congrArg (fun k => k.capacity) same', congrArg (fun k => k.threadList) same'⟩
  refine ⟨size.trans uniform.size, fun l member => by rw [records, uniform.elements l member], fun p n atNode => ?_,
    fun p n atNode => ?_, fun l on => uniform.active l (by rwa [records] at on)⟩
  · obtain ⟨m, atNode', capacity, _⟩ := node atNode
    rw [capacity, uniform.capacity p m atNode', Heap.capacityFor, Heap.capacityFor, size]
  · obtain ⟨m, atNode', _, owner⟩ := node atNode
    rw [owner]
    exact uniform.owner p m atNode'

variable [Inhabited α] {allowed : Allowed α}

theorem ListStep.uniform {h' : Heap α} {l : ListPtr} (member : l ∈ lists) (step : ListStep allowed l h h')
    (uniform : Uniform elementSize nodeSize lists h) : Uniform elementSize nodeSize lists h' := by
  have rule := Uniform.rule (α := α) elementSize nodeSize lists
  cases step with
  | pumalloc block _ run => exact rule.pumallocOnThreadList (c := 0) uniform (List.mem_toFinset.mpr member) block _ run
  | pufree e _ run => exact rule.pufree (c := 0) uniform e _ run
  | write same => exact uniform.write same
  | cleanup _ _ _ run => exact rule.cleanupNode (c := 0) uniform _ l _ run
  | recordRunTime elapsed => exact uniform.modifyList l rfl rfl

theorem ListRun.uniform {h' : Heap α} {l : ListPtr} (member : l ∈ lists) (run : ListRun allowed l h h')
    (uniform : Uniform elementSize nodeSize lists h) : Uniform elementSize nodeSize lists h' := by
  induction run with
  | refl => exact uniform
  | tail _ step ih => exact step.uniform member ih

theorem Uniform.runKernelPasses {set : PumaSet} {kernels : List (Nat → Kernel σ α)} {elapsed : Nat → Nat → ℚ} {turns : Nat}
    {schedule : List Nat} {done : Nat → Nat} {w : World σ α} (safe : ∀ g l, allowed g l → AllocSafe g l)
    (respects : ∀ kernel ∈ kernels, ∀ (thread : Nat) (l : ListPtr), set.tidToThreadList[thread]? = some l →
      (kernel thread).Respects allowed l) (setOk : SetOk w.heap set.tidToThreadList)
    (uniform : Uniform elementSize nodeSize set.tidToThreadList w.heap) :
    Ensures (runKernelPasses set kernels elapsed turns schedule done w) fun r =>
      Uniform elementSize nodeSize set.tidToThreadList r.1.heap := by
  induction schedule generalizing done w with
  | nil => exact Ensures.some uniform
  | cons thread schedule ih =>
    simp only [Puma.runKernelPasses, Option.bind_eq_bind]
    refine Ensures.read fun tl atThread => Ensures.read fun kernel atKernel => Ensures.read fun r pass => ?_
    have member := List.mem_of_getElem? atThread
    have run := runKernelThread_run (respects kernel (List.mem_of_getElem? atKernel) thread tl atThread)
      (fun g => safe g tl) (setOk.inv member) pass
    exact Ensures.bind (ih (setOk.run member (fun g => safe g tl) run) (run.uniform member uniform))
      fun r₂ uniform₂ => Ensures.some uniform₂

theorem SetStep.uniform {set : CreatedSet} {h' : Heap α} (safe : ∀ g l, allowed g l → AllocSafe g l)
    (setOk : SetOk h set.tidToThreadList) (step : SetStep set.toPumaSet allowed h h')
    (uniform : Uniform elementSize nodeSize set.tidToThreadList h) :
    Uniform elementSize nodeSize set.tidToThreadList h' := by
  have rule := Uniform.rule (α := α) elementSize nodeSize set.tidToThreadList
  cases step with
  | pumalloc thread block _ run =>
    obtain ⟨l, atThread, run⟩ := Option.bind_eq_some_iff.mp run
    have member := List.mem_toFinset.mpr (List.mem_of_getElem? atThread)
    exact rule.pumallocOnThreadList (c := 0) uniform member block _ run
  | pumallocManualBalancing balData block _ run =>
    obtain ⟨l, atThread, run⟩ := Option.bind_eq_some_iff.mp run
    have member := List.mem_toFinset.mpr (List.mem_of_getElem? atThread)
    exact rule.pumallocOnThreadList (c := 0) uniform member block _ run
  | pufree e _ run => exact rule.pufree (c := 0) uniform e _ run
  | write same => exact uniform.write same
  | runKernelList kernels oracle respects run =>
    obtain ⟨h₁, balanced, passes⟩ := Option.bind_eq_some_iff.mp run
    obtain ⟨h₂, balanced', setOk₁, _⟩ := balanceThreadLoad_spec setOk set.threads set.cpus oracle.tlAvgNodes
    cases Option.some.inj (balanced.symm.trans balanced')
    have uniform₁ := rule.balanceThreadLoad (c := 0) uniform set.toPumaSet oracle.tlAvgNodes h₁ balanced
    exact Uniform.runKernelPasses safe respects setOk₁ uniform₁ _ passes

/-- Whatever calls a new set has seen, its nodes are laid out alike. -/
theorem SetStep.run_uniform {set : CreatedSet} (safe : ∀ g l, allowed g l → AllocSafe g l)
    (capacity : 0 < (createPumaSet set.toPumaSet elementSize nodeSize : Heap α).capacityFor elementSize)
    (run : ReflTransGen (SetStep set.toPumaSet allowed) (createPumaSet set.toPumaSet elementSize nodeSize) h) :
    SetOk h set.tidToThreadList ∧ Uniform elementSize nodeSize set.tidToThreadList h := by
  induction run with
  | refl =>
    have new := createPumaSet_ok (α := α) set.toPumaSet capacity
    refine ⟨new, rfl, fun l member => ?_, nofun, nofun, fun l on => (new.active l).mp on⟩
    have record : (createPumaSet set.toPumaSet elementSize nodeSize : Heap α).lists l = .empty true elementSize := if_pos member
    rw [record]
    rfl
  | tail _ step ih => exact ⟨step.ok safe ih.1, step.uniform safe ih.1 ih.2⟩

end Runs

end Puma
