import Puma.Autobalance
import Puma.Runs
import Puma.Stores

namespace Puma

open Postcondition Relation

variable {σ α : Type}

/-- A set as `createPumaSet` returns it: every thread of its pool has registered a list of its own. The loops of
the set go over `numThreads` entries of `tidToThreadList`, which are none if the number of threads was left to
the pool. -/
structure PooledSet extends PumaSet where
  numThreads : Nat
  registered : List ListPtr
  threads : registered ≠ []
  distinct : registered.Nodup
  cpus : domains.flatten.Nodup
  placed : ∀ l ∈ registered, l ∈ domains.flatten
  asked : numThreads ≠ 0 → registered.length = numThreads
  entries : tidToThreadList = registered.take numThreads

/-- The memory that `createPumaSet` leaves. -/
def PooledSet.memory (set : PooledSet) (elementSize nodeSize : Nat) : Heap α :=
  createPumaSet { set.toPumaSet with tidToThreadList := set.registered } elementSize nodeSize

/-- The run times of a list: their sum is kept beside the last five of them. -/
structure ListRecord.Ok (record : ListRecord) : Prop where
  length : record.kernelRunTimes.length = numKernelRuntimes
  slot : record.nextRunTimeSlot < numKernelRuntimes
  nonneg : ∀ time ∈ record.kernelRunTimes, 0 ≤ time
  sum : record.lastNRunTime = record.kernelRunTimes.sum

theorem ListRecord.Ok.pass {tl : PumaThreadList} (ok : tl.record.Ok) {elapsed : ℚ} (measured : 0 < elapsed) :
    (tl.recordRunTime elapsed).record.Ok ∧ 0 < (tl.recordRunTime elapsed).lastNRunTime := by
  have slot : tl.nextRunTimeSlot < tl.kernelRunTimes.length := by
    rw [show tl.kernelRunTimes.length = numKernelRuntimes from ok.length]
    exact ok.slot
  have nonneg : ∀ time ∈ tl.kernelRunTimes.set tl.nextRunTimeSlot elapsed, 0 ≤ time := fun time member => by
    rcases List.mem_or_eq_of_mem_set member with old | rfl
    · exact ok.nonneg time old
    · exact measured.le
  have total : (tl.recordRunTime elapsed).lastNRunTime = (tl.kernelRunTimes.set tl.nextRunTimeSlot elapsed).sum := by
    have before : tl.lastNRunTime = tl.kernelRunTimes.sum := ok.sum
    simp only [PumaThreadList.recordRunTime, List.getD_eq_getElem?_getD, List.getElem?_eq_getElem slot, Option.getD_some]
    rw [List.sum_set', dif_pos slot, before]
    ring
  refine ⟨⟨?_, Nat.mod_lt _ (by decide), nonneg, total⟩, ?_⟩
  · exact (List.length_set ..).trans ok.length
  · rw [total]
    exact measured.trans_le (List.single_le_sum nonneg _ (List.mem_set slot elapsed))

/-- The threads whose lists are in `ran` have recorded run times, and no others. -/
structure Timed (lists ran : Finset ListPtr) (h : Heap α) : Prop where
  owner : ∀ p n, h.node p = some n → n.threadList ∈ lists
  active : ∀ l, (h.lists l).active = true ↔ l ∈ lists
  ok : ∀ l, (h.lists l).record.Ok
  positive : ∀ l ∈ ran, 0 < (h.lists l).lastNRunTime
  zero : ∀ l, l ∉ ran → (h.lists l).lastNRunTime = 0

section Timed

variable {lists ran : Finset ListPtr} {h : Heap α}

/-- A memory with the same nodes, or nodes of the same lists, and the same records. -/
theorem Timed.congr {h' : Heap α} (timed : Timed lists ran h) (owner : ∀ p n, h'.node p = some n → n.threadList ∈ lists)
    (same : ∀ l, (h'.lists l).record = (h.lists l).record) : Timed lists ran h' where
  owner := owner
  active l := by
    rw [← timed.active l, show (h'.lists l).active = (h.lists l).active from congrArg ListRecord.active (same l)]
  ok l := by
    rw [same]
    exact timed.ok l
  positive l member := by
    rw [show (h'.lists l).lastNRunTime = (h.lists l).lastNRunTime from congrArg ListRecord.lastNRunTime (same l)]
    exact timed.positive l member
  zero l out := (congrArg ListRecord.lastNRunTime (same l)).trans (timed.zero l out)

theorem Timed.modifyList (timed : Timed lists ran h) {l : ListPtr} {f : PumaThreadList → PumaThreadList}
    (record : (f (h.lists l)).record = (h.lists l).record) : Timed lists ran (h.modifyList l f) := by
  refine timed.congr timed.owner fun m => ?_
  by_cases same : m = l
  · rw [same, Heap.lists_modifyList_self, record]
  · rw [Heap.lists_modifyList_ne _ _ same]

theorem Timed.setNode (timed : Timed lists ran h) {p : NodePtr} {n : PumaNode α} (member : n.threadList ∈ lists) :
    Timed lists ran (h.setNode p n) := by
  refine timed.congr (fun q m atNode => ?_) fun _ => rfl
  rw [Heap.node_setNode] at atNode
  split at atNode
  · cases atNode
    exact member
  · exact timed.owner q m atNode

theorem Timed.rule (lists ran : Finset ListPtr) : StoreRule lists fun _ => Timed (α := α) lists ran where
  owner timed atNode := timed.owner _ _ atNode
  active timed on := (timed.active _).mp on
  setNode timed _ member _ := timed.setNode member
  newNode _ _ _ timed member := timed.setNode member
  nufreeAligned := fun {c h} p timed => by
    refine timed.congr (fun q m atNode => ?_) fun _ => rfl
    rw [Heap.node_nufreeAligned] at atNode
    split at atNode
    · cases atNode
    · exact timed.owner q m atNode
  modifyList timed fixed _ := timed.modifyList (congrArg Prod.fst fixed)
  count timed _ fixed := timed.modifyList (congrArg Prod.fst fixed)

/-- The record at the end of a pass. -/
theorem Timed.recordRunTime (timed : Timed lists ran h) (l : ListPtr) {elapsed : ℚ} (measured : 0 < elapsed) :
    Timed lists (insert l ran) (h.modifyList l fun tl => tl.recordRunTime elapsed) := by
  obtain ⟨ok, positive⟩ := (timed.ok l).pass measured
  have others {m : ListPtr} (other : m ≠ l) : (h.modifyList l fun tl => tl.recordRunTime elapsed).lists m = h.lists m :=
    Heap.lists_modifyList_ne h _ other
  have here : (h.modifyList l fun tl => tl.recordRunTime elapsed).lists l = (h.lists l).recordRunTime elapsed :=
    Heap.lists_modifyList_self h l _
  refine ⟨timed.owner, fun m => ?_, fun m => ?_, fun m member => ?_, fun m out => ?_⟩
  · rw [← timed.active m]
    by_cases same : m = l
    · rw [same, here]
      rfl
    · rw [others same]
  · by_cases same : m = l
    · rw [same, here]
      exact ok
    · rw [others same]
      exact timed.ok m
  · by_cases same : m = l
    · rw [same, here]
      exact positive
    · rw [others same]
      exact timed.positive m (Finset.mem_of_mem_insert_of_ne member same)
  · rw [Finset.mem_insert, not_or] at out
    rw [others out.1]
    exact timed.zero m out.2

end Timed

section Runs

variable [Inhabited α]

/-- A call that works on the elements of the lists: an allocation on one of them, a free, or writes. -/
inductive ElementStep (lists : Finset ListPtr) : Heap α → Heap α → Prop
  | pumallocOnThreadList {h h' : Heap α} {e : ElemPtr} (l : ListPtr) (member : l ∈ lists) (block : NodePtr)
      (run : pumallocOnThreadList h l block = some (h', e)) : ElementStep lists h h'
  | pufree {h h' : Heap α} (e : ElemPtr) (run : pufree h e = some h') : ElementStep lists h h'
  | write {h h' : Heap α} (same : h'.skeleton = h.skeleton) : ElementStep lists h h'

/-- A kernel that works on the lists through such calls. -/
def Kernel.Works (kernel : Kernel σ α) (lists : Finset ListPtr) : Prop :=
  ∀ w e w', (w.heap.read e).isSome → kernel w e = some w' → ReflTransGen (ElementStep lists) w.heap w'.heap

variable {lists ran : Finset ListPtr} {h h' : Heap α}

theorem ElementStep.timed (step : ElementStep lists h h') (timed : Timed lists ran h) : Timed lists ran h' := by
  have rule := Timed.rule (α := α) lists ran
  cases step with
  | pumallocOnThreadList l member block run => exact rule.pumallocOnThreadList (c := 0) timed member block _ run
  | pufree e run => exact rule.pufree (c := 0) timed e _ run
  | write same =>
    have lists_eq : h'.lists = h.lists := congrArg (fun g : Heap Unit => g.lists) same
    refine timed.congr (fun p n' atNode' => ?_) fun l => by rw [lists_eq]
    have atLinks := Heap.links_eq atNode'
    rw [Heap.links_of_skeleton same] at atLinks
    obtain ⟨n, atNode, equal⟩ := Heap.node_of_links atLinks
    rw [← congrArg Links.threadList equal]
    exact timed.owner p n atNode

theorem ElementStep.run (run : ReflTransGen (ElementStep lists) h h') (timed : Timed lists ran h) :
    Timed lists ran h' := by
  induction run with
  | refl => exact timed
  | tail _ step ih => exact step.timed ih

/-- A pass adds its list to those that have recorded run times. -/
theorem Timed.runKernelThread {kernel : Kernel σ α} {w : World σ α} (works : kernel.Works lists)
    (timed : Timed lists ran w.heap) (turns : Nat) (tl : ListPtr) {elapsed : ℚ} (measured : 0 < elapsed) :
    Ensures (runKernelThread turns w tl kernel elapsed) fun r => Timed lists (insert tl ran) r.1.heap := by
  have rule : PassRule kernel fun w : World σ α => Timed lists ran w.heap := {
    cleanup := fun node tl timed run => (Timed.rule lists ran).cleanupNode (c := 0) timed node tl _ run
    call := fun timed live called => ElementStep.run (works _ _ _ live called) timed }
  simp only [Puma.runKernelThread, Option.bind_eq_bind]
  exact Ensures.bind (rule.runKernelThreadLoop timed) fun r kept => Ensures.some (kept.recordRunTime tl measured)

theorem Timed.runKernelPasses {set : PumaSet} {kernels : List (Nat → Kernel σ α)}
    (works : ∀ kernel ∈ kernels, ∀ thread, (kernel thread).Works lists) {elapsed : Nat → Nat → ℚ}
    (measured : ∀ thread k, 0 < elapsed thread k) {turns : Nat} {schedule : List Nat} {done : Nat → Nat}
    {w : World σ α} (timed : Timed lists ran w.heap) :
    Ensures (runKernelPasses set kernels elapsed turns schedule done w) fun r =>
      Timed lists (ran ∪ (schedule.filterMap fun thread => set.tidToThreadList[thread]?).toFinset) r.1.heap := by
  induction schedule generalizing w done ran with
  | nil => exact Ensures.some (by simpa using timed)
  | cons thread schedule ih =>
    simp only [Puma.runKernelPasses, Option.bind_eq_bind]
    refine Ensures.read fun tl atThread => Ensures.read fun kernel atKernel => ?_
    have each := works kernel (List.mem_of_getElem? atKernel) thread
    refine Ensures.bind (timed.runKernelThread each turns tl (measured _ _)) fun r kept => ?_
    refine Ensures.bind (ih kept) fun r₂ kept₂ => Ensures.some ?_
    rw [List.filterMap_cons, atThread]
    rwa [Finset.insert_union, ← Finset.union_insert, ← List.toFinset_cons] at kept₂

/-- The memory `h` that a sequence of calls on a set leads to, in which `made` are the numbers of kernels of the
calls of `runKernelList`, the last one first. Every thread runs every kernel, and every measured time is positive. -/
inductive SetRun (set : PooledSet) : List Nat → Heap α → Prop
  | created (elementSize nodeSize : Nat) : SetRun set [] (set.memory elementSize nodeSize)
  | element {made : List Nat} {h h' : Heap α} (before : SetRun set made h)
      (step : ElementStep set.registered.toFinset h h') : SetRun set made h'
  | runKernelList {made : List Nat} {σ : Type} {w w' : World σ α} {visits : List (Visit α)}
      (before : SetRun set made w.heap) (kernels : List (Nat → Kernel σ α)) (oracle : Oracle)
      (works : ∀ kernel ∈ kernels, ∀ thread, (kernel thread).Works set.registered.toFinset)
      (each : ∀ thread, oracle.schedule.count thread = if thread < set.tidToThreadList.length then kernels.length else 0)
      (measured : ∀ thread k, 0 < oracle.elapsed thread k)
      (run : runKernelList set.toPumaSet w kernels oracle = some (w', visits)) :
      SetRun set (kernels.length :: made) w'.heap

/-- What `_autobalanceThreadLoad` divides by, in memory `h`, is not zero. -/
def DivisorsNonzero (set : PumaSet) (h : Heap α) : Prop :=
  (set.tidToThreadList.filter fun tl => (h.lists tl).active).length ≠ 0 ∧ totalRunTime set h ≠ 0

omit [Inhabited α] in
theorem PooledSet.memory_timed (set : PooledSet) (elementSize nodeSize : Nat) :
    Timed set.registered.toFinset ∅ (set.memory elementSize nodeSize : Heap α) := by
  have fresh (active : Bool) (elementSize : Nat) : (PumaThreadList.empty active elementSize).record.Ok :=
    ⟨rfl, show 0 < numKernelRuntimes by decide, by simp [PumaThreadList.record, PumaThreadList.empty, numKernelRuntimes],
      by simp [PumaThreadList.record, PumaThreadList.empty, numKernelRuntimes]⟩
  refine ⟨fun p n atNode => ?_, fun l => ?_, fun l => ?_, fun l member => ?_, fun l _ => ?_⟩
  · cases atNode
  · by_cases member : l ∈ set.registered <;> simp [PooledSet.memory, createPumaSet, member, PumaThreadList.empty]
  · by_cases member : l ∈ set.registered <;> simp only [PooledSet.memory, createPumaSet, member, if_true, if_false, fresh]
  · cases member
  · by_cases member : l ∈ set.registered <;> simp [PooledSet.memory, createPumaSet, member, PumaThreadList.empty]

/-- After a call with a kernel every thread of the set has recorded a run time, before that none has. -/
theorem SetRun.timed {set : PooledSet} {made : List Nat} (run : SetRun set made h) :
    ∃ ran, Timed set.registered.toFinset ran h ∧
      ∀ l, l ∈ ran ↔ l ∈ set.tidToThreadList ∧ ∃ kernels ∈ made, kernels ≠ 0 := by
  induction run with
  | created elementSize nodeSize => exact ⟨∅, set.memory_timed elementSize nodeSize, by simp⟩
  | element before step ih =>
    obtain ⟨ran, timed, equiv⟩ := ih
    exact ⟨ran, step.timed timed, equiv⟩
  | @runKernelList made σ w w' visits before kernels oracle works each measured run ih =>
    obtain ⟨ran, timed, equiv⟩ := ih
    simp only [Puma.runKernelList, Option.bind_eq_bind] at run
    obtain ⟨h₁, balanced, passes⟩ := Option.bind_eq_some_iff.mp run
    have timed₁ := (Timed.rule set.registered.toFinset ran).balanceThreadLoad (c := 0) timed set.toPumaSet
      oracle.tlAvgNodes h₁ balanced
    refine ⟨_, Timed.runKernelPasses (w := { w with heap := h₁ }) works measured timed₁ _ passes, fun l => ?_⟩
    have scheduled (thread : Nat) : thread ∈ oracle.schedule ↔
        thread < set.tidToThreadList.length ∧ kernels.length ≠ 0 := by
      rw [← List.count_pos_iff, each]
      split <;> omega
    have added : l ∈ (oracle.schedule.filterMap fun thread => set.tidToThreadList[thread]?).toFinset ↔
        l ∈ set.tidToThreadList ∧ kernels.length ≠ 0 := by
      rw [List.mem_toFinset, List.mem_filterMap, List.mem_iff_getElem?]
      constructor
      · rintro ⟨thread, member, atThread⟩
        exact ⟨⟨thread, atThread⟩, ((scheduled thread).mp member).2⟩
      · rintro ⟨⟨thread, atThread⟩, nonempty⟩
        exact ⟨thread, (scheduled thread).mpr ⟨(List.getElem?_eq_some_iff.mp atThread).1, nonempty⟩, atThread⟩
    rw [Finset.mem_union, equiv, added, List.exists_mem_cons_iff, ← and_or_left, or_comm]

/-- In a memory that calls on a set have led to, the balancer divides by nothing that is zero just when the set
was created with a number of threads and a kernel has been run on it. -/
theorem SetRun.divisors_iff {set : PooledSet} {made : List Nat} (run : SetRun set made h) :
    DivisorsNonzero set.toPumaSet h ↔ set.numThreads ≠ 0 ∧ ∃ kernels ∈ made, kernels ≠ 0 := by
  obtain ⟨ran, timed, equiv⟩ := run.timed
  have inRegistered : ∀ l ∈ set.tidToThreadList, l ∈ set.registered := fun l member => by
    rw [set.entries] at member
    exact List.mem_of_mem_take member
  have all : set.tidToThreadList.filter (fun tl => (h.lists tl).active) = set.tidToThreadList :=
    List.filter_eq_self.mpr fun l member => (timed.active l).mpr (List.mem_toFinset.mpr (inRegistered l member))
  have entries : set.tidToThreadList.length ≠ 0 ↔ set.numThreads ≠ 0 := by
    have someThread := List.length_pos_iff.mpr set.threads
    rw [set.entries, List.length_take]
    omega
  rw [DivisorsNonzero, all, entries]
  refine and_congr_right fun threads => ?_
  by_cases anyMade : ∃ kernels ∈ made, kernels ≠ 0
  · refine iff_of_true ?_ anyMade
    have nonempty : set.tidToThreadList ≠ [] := List.length_pos_iff.mp (Nat.pos_of_ne_zero (entries.mpr threads))
    have positive : ∀ time ∈ set.tidToThreadList.map fun tl => (h.lists tl).lastNRunTime, 0 < time :=
      List.forall_mem_map.mpr fun l member => timed.positive l ((equiv l).mpr ⟨member, anyMade⟩)
    exact (List.sum_pos _ positive (by simpa using nonempty)).ne'
  · refine iff_of_false (not_not.mpr ?_) anyMade
    refine List.sum_eq_zero (List.forall_mem_map.mpr fun l _ => timed.zero l fun member => ?_)
    exact anyMade ((equiv l).mp member).2

end Runs

/-- One thread in one domain, with auto-balancing as `createPumaSet` leaves it. -/
def oneThreadPool : PooledSet where
  domains := [[0]]
  tidToThreadList := [0]
  autoBalance := true
  splitter _ _ := 0
  numThreads := 1
  registered := [0]
  threads := oneThread.threads
  distinct := oneThread.distinct
  cpus := oneThread.cpus
  placed := oneThread.placed
  asked _ := rfl
  entries := rfl

/-- The first call of `runKernelList` divides by the sum of run times that nobody has recorded yet. -/
theorem oneThreadPool_first : ∃ h : Heap Unit, SetRun oneThreadPool [] h ∧ oneThreadPool.autoBalance = true ∧
    ¬ DivisorsNonzero oneThreadPool.toPumaSet h := by
  refine ⟨_, .created 8000 8192, rfl, fun nonzero => nonzero.2 ?_⟩
  simp [totalRunTime, oneThreadPool, PooledSet.memory, createPumaSet, PumaThreadList.empty]

/-- The second call divides by the run time of the first. -/
theorem oneThreadPool_second : ∃ h : Heap Unit, SetRun oneThreadPool [1] h ∧
    DivisorsNonzero oneThreadPool.toPumaSet h := by
  obtain ⟨r, run⟩ : ∃ r, runKernelList oneThreadPool.toPumaSet
      (⟨(), oneThreadPool.memory 8000 8192⟩ : World Unit Unit) [fun _ => idleKernel]
      ⟨fun _ _ => 0, [0], fun _ _ => 1, 1⟩ = some r := ⟨_, rfl⟩
  have reached : SetRun oneThreadPool [1] r.1.heap :=
    .runKernelList (.created 8000 8192) [fun _ => idleKernel] _ (fun kernel member thread w e w' _ called => by
      rw [List.mem_singleton.mp member] at called
      cases called
      exact .refl) (fun thread => by cases thread <;> simp [oneThreadPool]) (fun _ _ => one_pos) run
  exact ⟨r.1.heap, reached, reached.divisors_iff.mpr ⟨by decide, 1, by simp, by decide⟩⟩

end Puma
