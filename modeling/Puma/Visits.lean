import Puma.Labels
import Puma.Set

namespace Puma

variable {σ α ι : Type}

/-- The elements of a list do not depend on how its shape is known. -/
theorem ThreadListOk.elems_unique {h : Heap α} {l : ListPtr} {A S A' S' : List NodePtr} (list : ThreadListOk h l A S)
    (list' : ThreadListOk h l A' S') : h.elems A = h.elems A' := by
  have same : A.Perm A' := by
    refine (List.perm_ext_iff_of_nodup list.nodup_active list'.nodup_active).mpr fun p => ⟨fun member => ?_, fun member => ?_⟩
    · obtain ⟨k, atLinks, owner⟩ := list.owned p (List.mem_append_left S member)
      exact (list'.active p k atLinks owner).mp ((list.active p k atLinks owner).mpr member)
    · obtain ⟨k, atLinks, owner⟩ := list'.owned p (List.mem_append_left S' member)
      exact (list.active p k atLinks owner).mp ((list'.active p k atLinks owner).mpr member)
  exact (same.map h.contents).sum_eq

/-- The labels of the elements on some nodes. -/
def Heap.labels (h : Heap (α × ι)) (c : List NodePtr) : Multiset ι := (h.elems c).map Prod.snd

/-- In a memory labelled with addresses each address labels the element there, if it is live. -/
theorem Heap.count_labels {h : Heap α} {A : List NodePtr} (nodup : A.Nodup) (e : ElemPtr) :
    (h.label.labels A).count e = if e.node ∈ A ∧ (h.read e).isSome then 1 else 0 := by
  induction A with
  | nil => simp [Heap.labels]
  | cons p A ih =>
    rw [List.nodup_cons] at nodup
    rw [Heap.labels, Heap.elems_cons, Multiset.map_add, Multiset.count_add]
    have rest := ih nodup.2
    rw [Heap.labels] at rest
    rw [rest]
    have here : ((h.label.contents p).map Prod.snd).count e = if e.node = p ∧ (h.read e).isSome then 1 else 0 := by
      cases atNode : h.node p with
      | none =>
        have zero : h.label.contents p = 0 := by
          refine Heap.contents_none ?_
          rw [Heap.label, Heap.node_mapContents, atNode]
          rfl
        rw [zero]
        have dead : ¬ (e.node = p ∧ (h.read e).isSome) := by
          rintro ⟨rfl, live⟩
          simp [Heap.read, Heap.slots, atNode] at live
        simp [dead]
      | some n =>
        rw [Heap.label, Heap.contents_mapContents atNode, Multiset.map_map]
        by_cases same : e.node = p
        · subst same
          have live : (h.read e).isSome ↔ e.slot ∈ n.toSlots.liveSlots := by
            rw [Heap.read_eq (Heap.slots_eq atNode), Slots.read_isSome]
          have injective : Function.Injective fun i => (⟨e.node, i⟩ : ElemPtr) := fun i j same => by
            simpa using same
          have count := Multiset.count_map_eq_count' (fun i => (⟨e.node, i⟩ : ElemPtr)) n.toSlots.liveSlots.val
            injective e.slot
          simp only [Function.comp_def, true_and, live]
          rw [count, Multiset.count_eq_of_nodup n.toSlots.liveSlots.nodup]
          rfl
        · have out : e ∉ Multiset.map (Prod.snd ∘ fun i => (n.elements i, (⟨p, i⟩ : ElemPtr)))
              n.toSlots.liveSlots.val := by
            intro member
            obtain ⟨i, _, equal⟩ := Multiset.mem_map.mp member
            exact same (by rw [← equal]; rfl)
          rw [Multiset.count_eq_zero_of_notMem out]
          simp [same]
    rw [here]
    by_cases same : e.node = p
    · simp [same, nodup.1]
    · simp [same]

section Passes

variable {lists : List ListPtr}

/-- The kernels that have been applied to the element with label `e`, in order. -/
def applied [DecidableEq ι] (visits : List (Visit (α × ι))) (e : ι) : List Nat :=
  (visits.filter fun v => v.content.2 = e).map Visit.kernel

/-- The thread, if any, whose list holds the element with label `e`; only one element has it. -/
def Home [DecidableEq ι] (h : Heap (α × ι)) (lists : List ListPtr) (e : ι) (home : Option Nat) : Prop :=
  ∀ thread l A S, lists[thread]? = some l → ThreadListOk h l A S →
    (h.labels A).count e = if home = some thread then 1 else 0

/-- One pass applies its kernel to the elements of its list. -/
theorem applied_pass [DecidableEq ι] {w w' : World σ (α × ι)} {l : ListPtr} {A A' S' : List NodePtr}
    {calls : List (ElemPtr × (α × ι))} (post : PassPost w w' l Prod.snd [] A A' S' calls) (k : Nat) (e : ι) :
    applied (calls.map fun call => ⟨k, call.1, call.2⟩) e = List.replicate ((w.heap.labels A).count e) k := by
  refine List.eq_replicate_iff.mpr ⟨?_, fun b member => ?_⟩
  · rw [Heap.labels, ← post.visited, Multiset.coe_count, applied, List.length_map, List.filter_map, List.length_map,
      List.count, List.countP_map, List.countP_eq_length_filter]
    rfl
  · obtain ⟨v, inFilter, rfl⟩ := List.mem_map.mp member
    obtain ⟨call, _, rfl⟩ := List.mem_map.mp (List.mem_filter.mp inFilter).1
    rfl

/-- A pass keeps every element in its list. -/
theorem Home.pass [DecidableEq ι] {w w' : World σ (α × ι)} {l : ListPtr} {A S A' S' : List NodePtr}
    {calls : List (ElemPtr × (α × ι))} (post : PassPost w w' l Prod.snd [] A A' S' calls)
    (list : ThreadListOk w.heap l A S) (setOk : SetOk w.heap lists) {e : ι} {home : Option Nat}
    (atHome : Home w.heap lists e home) : Home w'.heap lists e home := by
  intro thread m B T atThread other
  obtain ⟨B₀, T₀, before⟩ := setOk.each m (List.mem_of_getElem? atThread)
  rw [← atHome thread m B₀ T₀ atThread before]
  by_cases same : m = l
  · subst same
    rw [Heap.labels, Heap.labels, ← post.list.elems_unique other, post.elems, List.nil_append, list.elems_unique before]
  · have untouched := post.loc.untouched same
    have viewed : ThreadListOk (w.heap.view Prod.snd) m B₀ T₀ := threadListOk_mapContents.mpr before
    have after := threadListOk_mapContents.mp (viewed.of_untouched untouched)
    rw [Heap.labels, Heap.labels, ← after.elems_unique other, ← Heap.elems_view, ← Heap.elems_view,
      viewed.elems_untouched untouched]

/-- Every thread runs the kernels that it has not run yet, in order, on each element of its list. -/
theorem runKernelPasses_spec [DecidableEq ι] {set : CreatedSet} {kernels : List (Nat → Kernel σ (α × ι))}
    (kernelsOk : ∀ kernel ∈ kernels, ∀ thread, (kernel thread).Writes Prod.snd ∧ (kernel thread).Returns) (elapsed : Nat → Nat → ℚ) {turns : Nat}
    {schedule : List Nat} {done : Nat → Nat} {w : World σ (α × ι)} (setOk : SetOk w.heap set.tidToThreadList)
    (enough : w.heap.blocks.card < turns) (threads : ∀ thread ∈ schedule, thread < set.tidToThreadList.length)
    (complete : ∀ thread, thread < set.tidToThreadList.length → done thread + schedule.count thread = kernels.length) :
    ∃ w' visits, runKernelPasses set.toPumaSet kernels elapsed turns schedule done w = some (w', visits) ∧
      SetOk w'.heap set.tidToThreadList ∧
      ∀ e home, Home w.heap set.tidToThreadList e home → applied visits e =
        (home.map fun thread => List.range' (done thread) (schedule.count thread)).getD [] := by
  induction schedule generalizing done w with
  | nil =>
    refine ⟨w, [], rfl, setOk, fun e home _ => ?_⟩
    cases home <;> simp [applied]
  | cons thread schedule ih =>
    have bound := threads thread (List.mem_cons_self ..)
    have left := complete thread bound
    rw [List.count_cons_self] at left
    obtain ⟨l, atThread⟩ : ∃ l, set.tidToThreadList[thread]? = some l := ⟨_, List.getElem?_eq_getElem bound⟩
    obtain ⟨kernel, atKernel⟩ : ∃ kernel, kernels[done thread]? = some kernel :=
      ⟨_, List.getElem?_eq_getElem (by omega)⟩
    have member := List.mem_of_getElem? atThread
    obtain ⟨A, S, list⟩ := setOk.each l member
    obtain ⟨writes, returns⟩ := kernelsOk kernel (List.mem_of_getElem? atKernel) thread
    obtain ⟨w₁, A', S', calls, pass, post⟩ := runKernelThread_spec writes returns setOk.ok list enough
      (elapsed thread (done thread))
    have capacity : 0 < w₁.heap.capacityFor (w₁.heap.lists l).elementSize := by
      rw [post.loc.capacityFor_view]
      exact setOk.capacity l member
    have setOk₁ := setOk.step member ⟨post.ok, capacity, A', S', post.list⟩ post.loc
    have complete₁ : ∀ t, t < set.tidToThreadList.length →
        Function.update done thread (done thread + 1) t + schedule.count t = kernels.length := fun t inside => by
      have total := complete t inside
      by_cases same : t = thread
      · subst same
        rw [Function.update_self]
        omega
      · rw [Function.update_of_ne same]
        rwa [List.count_cons_of_ne (Ne.symm same)] at total
    obtain ⟨w', later, rest, setOk', order⟩ := ih setOk₁ ((Finset.card_le_card post.blocks).trans_lt enough)
      (fun t inside => threads t (List.mem_cons_of_mem _ inside)) complete₁
    refine ⟨w', calls.map (fun call => ⟨done thread, call.1, call.2⟩) ++ later, ?_, setOk', fun e home atHome => ?_⟩
    · simp only [runKernelPasses, atThread, atKernel, pass, rest, Option.bind_eq_bind, Option.bind_some,
        Option.pure_def]
    · have first := applied_pass post (done thread) e
      have second := order e home (atHome.pass post list setOk)
      have both : applied (calls.map (fun call => ⟨done thread, call.1, call.2⟩) ++ later) e =
          applied (calls.map fun call => ⟨done thread, call.1, call.2⟩) e ++ applied later e := by
        rw [applied, List.filter_append, List.map_append]
        rfl
      rw [both, first, second, atHome thread l A S atThread list]
      cases home with
      | none => rfl
      | some t =>
        by_cases same : t = thread
        · subst same
          simp only [if_true, Option.map_some, Option.getD_some, Function.update_self, List.count_cons_self,
            List.replicate_one, List.range'_succ, List.singleton_append]
        · have other : ¬ some t = some thread := fun equal => same (Option.some.inj equal)
          simp only [other, if_false, Option.map_some, Option.getD_some, Function.update_of_ne same,
            List.count_cons_of_ne (Ne.symm same), List.replicate_zero, List.nil_append]

end Passes

section Whole

/-- A call of a kernel without the label of its element. -/
def Visit.erase (v : Visit (α × ι)) : Visit α := ⟨v.kernel, v.element, v.content.1⟩

noncomputable def labelledKernels (kernels : List (Nat → Kernel σ α)) : List (Nat → Kernel σ (α × ι)) :=
  kernels.map fun kernel thread => (kernel thread).labelled

/-- The passes do not see the labels. -/
theorem runKernelPasses_erase {set : PumaSet} {kernels : List (Nat → Kernel σ α)} {γ : Type} {g : α → γ}
    (writes : ∀ kernel ∈ kernels, ∀ thread, (kernel thread).Writes g) (elapsed : Nat → Nat → ℚ) (turns : Nat)
    (schedule : List Nat) (done : Nat → Nat) (w : World σ (α × ι)) :
    runKernelPasses set kernels elapsed turns schedule done w.erase =
      (runKernelPasses set (labelledKernels kernels) elapsed turns schedule done w).map
        fun r => (r.1.erase, r.2.map Visit.erase) := by
  induction schedule generalizing done w with
  | nil => rfl
  | cons thread schedule ih =>
    simp only [runKernelPasses, Option.bind_eq_bind]
    cases set.tidToThreadList[thread]? with
    | none => rfl
    | some tl =>
      simp only [Option.bind_some, labelledKernels, List.getElem?_map]
      cases atKernel : kernels[done thread]? with
      | none => rfl
      | some kernel =>
        simp only [Option.map_some, Option.bind_some,
          runKernelThread_erase (writes kernel (List.mem_of_getElem? atKernel) thread).lifts]
        refine bind_erase _ fun r => ?_
        simp only [ih]
        refine bind_erase _ fun r' => ?_
        simp only [Option.pure_def, Option.map_some, List.map_append, List.map_map]
        rfl

/-- The threads run all their passes, and each of these may visit all nodes. -/
structure Oracle.Complete (oracle : Oracle) (set : PumaSet) (kernels : Nat) (h : Heap α) : Prop where
  each : ∀ thread, oracle.schedule.count thread = if thread < set.tidToThreadList.length then kernels else 0
  enough : h.blocks.card < oracle.turns

/-- Every live element of a set in order has one home. -/
theorem SetOk.home {set : CreatedSet} {h : Heap α} (setOk : SetOk h set.tidToThreadList) (e : ElemPtr) :
    ∃ home, Home h.label set.tidToThreadList e home ∧ (home.isSome ↔ (h.read e).isSome) ∧
      ∀ thread, home = some thread → thread < set.tidToThreadList.length := by
  by_cases live : (h.read e).isSome
  · obtain ⟨n, atNode, inside⟩ : ∃ n, h.node e.node = some n ∧ e.slot ∈ n.toSlots.liveSlots := by
      cases atNode : h.node e.node with
      | none => simp [Heap.read, Heap.slots, atNode] at live
      | some n =>
        rw [Heap.read_eq (Heap.slots_eq atNode), Slots.read_isSome] at live
        exact ⟨n, rfl, live⟩
    obtain ⟨t, atT⟩ := List.mem_iff_getElem?.mp (setOk.owner e.node n atNode)
    have active : n.active = true := by
      by_contra off
      rw [(setOk.ok e.node n atNode).2 (by simpa using off)] at inside
      cases inside
    refine ⟨some t, fun thread l A S atThread list => ?_, by simp [live], fun thread same => ?_⟩
    · rw [Heap.count_labels list.nodup_active]
      have atLinks : h.label.links e.node = some n.toLinks := by
        rw [Heap.label, Heap.links_mapContents, Heap.links_eq atNode]
      have equiv : (e.node ∈ A ∧ (h.read e).isSome) ↔ some t = some thread := by
        rw [and_iff_left live, Option.some.injEq]
        constructor
        · intro member
          obtain ⟨k, atLinks', owner⟩ := list.owned e.node (List.mem_append_left S member)
          rw [← Option.some.inj (atLinks.symm.trans atLinks')] at owner
          rw [owner] at atT
          exact (List.getElem?_inj (List.getElem?_eq_some_iff.mp atT).1 set.distinct).mp (atT.trans atThread.symm)
        · rintro rfl
          exact (list.active e.node _ atLinks (Option.some.inj (atT.symm.trans atThread))).mp active
      simp only [equiv]
    · cases same
      exact (List.getElem?_eq_some_iff.mp atT).1
  · refine ⟨none, fun thread l A S atThread list => ?_, by simp [live], fun thread same => by cases same⟩
    rw [Heap.count_labels list.nodup_active]
    simp [live]

/-- In memory `h`, `runKernelList` with kernels that neither allocate nor free applies each of them once to
every live element, in order, and to nothing else. Elements move while it runs; a label
on each of them, which neither the library nor the kernels see, tells which is which. -/
def RunsEachOnce (set : CreatedSet) (h : Heap α) : Prop :=
  ∀ (σ : Type) (extra : σ) (kernels : List (Nat → Kernel σ α)) (oracle : Oracle),
    (∀ kernel ∈ kernels, ∀ thread, ((kernel thread).Writes fun _ => ()) ∧ (kernel thread).Returns) →
    oracle.Complete set.toPumaSet kernels.length h →
    ∃ h₁ w' visits, balanceThreadLoad set.toPumaSet h oracle.tlAvgNodes = some h₁ ∧ h₁.read = h.read ∧
      runKernelPasses set.toPumaSet (labelledKernels kernels) oracle.elapsed oracle.turns oracle.schedule
        (fun _ => 0) ⟨extra, h₁.label⟩ = some (w', visits) ∧
      runKernelList set.toPumaSet ⟨extra, h⟩ kernels oracle = some (w'.erase, visits.map Visit.erase) ∧
      ∀ e, applied visits e = if (h.read e).isSome then List.range kernels.length else []

theorem SetOk.visitsEachOnce {set : CreatedSet} {h : Heap α} (setOk : SetOk h set.tidToThreadList) :
    RunsEachOnce set h := by
  intro σ extra kernels oracle kernelsOk complete
  obtain ⟨h₁, balanced, setOk₁, rebalanced⟩ := balanceThreadLoad_spec setOk set.threads set.cpus oracle.tlAvgNodes
  have labelledOk : ∀ kernel ∈ labelledKernels (ι := ElemPtr) kernels, ∀ thread,
      (kernel thread).Writes Prod.snd ∧ (kernel thread).Returns := by
    intro kernel member thread
    obtain ⟨plain, inside, rfl⟩ := List.mem_map.mp member
    exact ⟨(plain thread).labelled_writes, (kernelsOk plain inside thread).2.labelled⟩
  have length : (labelledKernels (ι := ElemPtr) kernels).length = kernels.length := List.length_map _
  have enough : h₁.label.blocks.card < oracle.turns := by
    have blocks : h₁.label.blocks = h.blocks := (Heap.blocks_mapContents _ h₁).trans rebalanced.blocks
    rw [blocks]
    exact complete.enough
  have threads : ∀ thread ∈ oracle.schedule, thread < set.tidToThreadList.length := fun thread member => by
    by_contra out
    have count := complete.each thread
    rw [if_neg out] at count
    exact List.count_eq_zero.mp count member
  have whole : ∀ thread, thread < set.tidToThreadList.length → (fun _ => 0) thread +
      oracle.schedule.count thread = (labelledKernels (ι := ElemPtr) kernels).length := fun thread inside => by
    rw [complete.each thread, if_pos inside, length, Nat.zero_add]
  obtain ⟨w', visits, run, _, order⟩ := runKernelPasses_spec (w := ⟨extra, h₁.label⟩) labelledOk oracle.elapsed
    (show SetOk h₁.label set.tidToThreadList from setOk_mapContents.mpr setOk₁) enough threads whole
  refine ⟨h₁, w', visits, balanced, rebalanced.read, run, ?_, fun e => ?_⟩
  · have erased : (⟨extra, h₁⟩ : World σ α) = World.erase ⟨extra, h₁.label⟩ := by
      rw [World.erase, Heap.erase_label]
    simp only [runKernelList, balanced, Option.bind_eq_bind, Option.bind_some]
    rw [erased, runKernelPasses_erase fun kernel member thread => (kernelsOk kernel member thread).1, run]
    rfl
  · obtain ⟨home, atHome, live, inside⟩ := setOk₁.home e
    rw [order e home atHome]
    rw [rebalanced.read] at live
    cases home with
    | none =>
      have dead : ¬ (h.read e).isSome := fun there => by
        have := live.mpr there
        cases this
      rw [if_neg dead]
      rfl
    | some thread =>
      rw [if_pos (live.mp rfl), Option.map_some, Option.getD_some, complete.each thread,
        if_pos (inside thread rfl), List.range_eq_range']

end Whole

end Puma
