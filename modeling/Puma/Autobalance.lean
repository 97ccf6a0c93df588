import Puma.FreeingPass
import Puma.TransferLinked
import Mathlib.Algebra.BigOperators.Ring.Finset
import Mathlib.Algebra.BigOperators.Ring.List
import Mathlib.Algebra.Order.BigOperators.Group.List
import Mathlib.Algebra.Order.Floor.Semiring
import Mathlib.Data.Rat.Floor
import Mathlib.Tactic.Linarith

namespace Puma

variable {α : Type}

/-- The run times of all threads together. -/
def totalRunTime (set : PumaSet) (h : Heap α) : ℚ := (set.tidToThreadList.map fun tl => (h.lists tl).lastNRunTime).sum

/-- `relativeSpeed` as `_autobalanceThreadLoad` sets it, in exact arithmetic. -/
def relativeSpeed (set : PumaSet) (h : Heap α) (tl : ListPtr) : ℚ :=
  let numLists := (set.tidToThreadList.filter fun tl => (h.lists tl).active).length
  ((numLists : ℚ) + 1) / numLists - (h.lists tl).lastNRunTime / totalRunTime set h

/-- `tlAvgNodes`: the product of the relative speed and the average, rounded down. -/
def targetNodes (set : PumaSet) (h : Heap α) (tl : ListPtr) (avgNodes : Nat) : Nat :=
  ⌊relativeSpeed set h tl * avgNodes⌋₊

section Targets

variable {set : PumaSet} {h : Heap α}

theorem relativeSpeed_eq (active : ∀ l ∈ set.tidToThreadList, (h.lists l).active = true) (tl : ListPtr) :
    relativeSpeed set h tl = ((set.tidToThreadList.length : ℚ) + 1) / set.tidToThreadList.length -
      (h.lists tl).lastNRunTime / totalRunTime set h := by
  have all : set.tidToThreadList.filter (fun tl => (h.lists tl).active) = set.tidToThreadList :=
    List.filter_eq_self.mpr active
  simp only [relativeSpeed, all]

/-- No thread has run for longer than all of them, so no product is negative. -/
theorem relativeSpeed_nonneg (active : ∀ l ∈ set.tidToThreadList, (h.lists l).active = true)
    (runTimes : ∀ l ∈ set.tidToThreadList, 0 ≤ (h.lists l).lastNRunTime) (ran : 0 < totalRunTime set h) {tl : ListPtr}
    (member : tl ∈ set.tidToThreadList) : 0 ≤ relativeSpeed set h tl := by
  have share : (h.lists tl).lastNRunTime ≤ totalRunTime set h :=
    List.single_le_sum (List.forall_mem_map.mpr runTimes) _ (List.mem_map_of_mem member)
  have slow : (h.lists tl).lastNRunTime / totalRunTime set h ≤ 1 := (div_le_one ran).mpr share
  have nonempty : (0 : ℚ) < set.tidToThreadList.length := by exact_mod_cast List.length_pos_of_mem member
  have fast : 1 ≤ ((set.tidToThreadList.length : ℚ) + 1) / set.tidToThreadList.length := by
    rw [one_le_div nonempty]
    linarith
  rw [relativeSpeed_eq active]
  linarith

/-- The relative speeds add up to the number of lists. -/
theorem relativeSpeed_sum (active : ∀ l ∈ set.tidToThreadList, (h.lists l).active = true)
    (threads : set.tidToThreadList ≠ []) (ran : 0 < totalRunTime set h) :
    (set.tidToThreadList.map (relativeSpeed set h)).sum = set.tidToThreadList.length := by
  have nonempty : (set.tidToThreadList.length : ℚ) ≠ 0 := by
    exact_mod_cast fun zero => threads (List.length_eq_zero_iff.mp zero)
  have split (lists : List ListPtr) (c : ℚ) :
      (lists.map fun l => c - (h.lists l).lastNRunTime / totalRunTime set h).sum =
        lists.length * c - (lists.map fun l => (h.lists l).lastNRunTime).sum / totalRunTime set h := by
    induction lists with
    | nil => simp
    | cons l lists ih =>
      simp only [List.map_cons, List.sum_cons, List.length_cons, ih]
      push_cast
      ring
  have same : set.tidToThreadList.map (relativeSpeed set h) = set.tidToThreadList.map fun l =>
      ((set.tidToThreadList.length : ℚ) + 1) / set.tidToThreadList.length -
        (h.lists l).lastNRunTime / totalRunTime set h :=
    List.map_congr_left fun l _ => relativeSpeed_eq active l
  rw [same, split, ← totalRunTime, div_self ran.ne', mul_div_cancel₀ _ nonempty]
  ring

/-- Together the targets ask for no more than the average for each list. -/
theorem targetNodes_sum (active : ∀ l ∈ set.tidToThreadList, (h.lists l).active = true)
    (threads : set.tidToThreadList ≠ []) (runTimes : ∀ l ∈ set.tidToThreadList, 0 ≤ (h.lists l).lastNRunTime)
    (ran : 0 < totalRunTime set h) (avgNodes : Nat) :
    (set.tidToThreadList.map fun tl => targetNodes set h tl avgNodes).sum ≤ avgNodes * set.tidToThreadList.length := by
  have rounded : ((set.tidToThreadList.map fun tl => targetNodes set h tl avgNodes).sum : ℚ) ≤
      (set.tidToThreadList.map fun tl => relativeSpeed set h tl * avgNodes).sum := by
    rw [Nat.cast_list_sum, List.map_map]
    refine List.sum_le_sum fun l member => Nat.floor_le ?_
    exact mul_nonneg (relativeSpeed_nonneg active runTimes ran member) avgNodes.cast_nonneg
  rw [List.sum_map_mul_right, relativeSpeed_sum active threads ran, mul_comm] at rounded
  exact_mod_cast rounded

end Targets

section Linked

variable {lists : List ListPtr}

theorem SlotsKept.trans {h h' h'' : Heap α} (first : SlotsKept h h') (second : SlotsKept h' h'') : SlotsKept h h'' where
  blocks := second.blocks.trans first.blocks
  nodes q n'' atNode'' := by
    obtain ⟨n', dirty', atNode', same', clean'⟩ := second.nodes q n'' atNode''
    obtain ⟨n, dirty, atNode, same, clean⟩ := first.nodes q n' atNode'
    refine ⟨n, dirty', atNode, by rw [same', same], fun off => clean ?_⟩
    have kept := clean' off
    rw [same] at kept
    exact kept

/-- An operation on other lists keeps the links of this one, and its counters. -/
theorem WellLinked.of_untouched {h h' : Heap α} {l : ListPtr} {A S : List NodePtr} (list : WellLinked h l A S)
    (untouched : Untouched h h' l) : WellLinked h' l A S := by
  refine list.congr (fun p member => ?_) ?_ ?_ ?_ ?_
  · obtain ⟨n, atNode, owner⟩ := list.node member
    rw [atNode, (untouched.nodes p n owner).mpr atNode]
  all_goals rw [untouched.list]

/-- The counter of a list covers any nodes at its end. -/
theorem WellLinked.count_drop_le {h : Heap α} {l : ListPtr} {A S : List NodePtr} (list : WellLinked h l A S) (n : Nat) :
    h.count (A.drop n) ≤ (h.lists l).numElements := by
  have split : h.count A = h.count (A.take n) + h.count (A.drop n) := by
    rw [← Heap.count_append, List.take_append_drop]
  rw [list.numElements, Heap.count_append, split]
  omega

/-- Memories in which exactly the given lists are active and all of them well linked, with the slots as at first. -/
structure AllLinked (lists : List ListPtr) (h₀ h : Heap α) : Prop where
  active : ∀ l, (h.lists l).active = true ↔ l ∈ lists
  each : ∀ l ∈ lists, ∃ A S, WellLinked h l A S
  kept : SlotsKept h₀ h

theorem AllLinked.balanceable (lists : List ListPtr) (h₀ : Heap α) : Balanceable lists (AllLinked lists h₀) where
  active _ linked := linked.active
  transfer h source target n linked apart inSource inTarget nonempty most := by
    obtain ⟨As, Ss, sourceOk⟩ := linked.each source inSource
    obtain ⟨At, St, targetOk⟩ := linked.each target inTarget
    obtain ⟨h', run, post⟩ := sourceOk.transferNNodes_moves targetOk apart nonempty most
    refine ⟨h', run, ⟨fun l => ?_, fun l inLists => ?_, linked.kept.trans post.kept⟩, ?_, ?_,
      fun m notSource notTarget => by rw [(post.others m notSource notTarget).list]⟩
    · rw [post.active]
      exact linked.active l
    · by_cases atSource : l = source
      · rw [atSource]
        exact ⟨_, _, post.sourceOk⟩
      · by_cases atTarget : l = target
        · rw [atTarget]
          exact ⟨_, _, post.targetOk⟩
        · obtain ⟨A, S, list⟩ := linked.each l inLists
          exact ⟨A, S, list.of_untouched (post.others l atSource atTarget)⟩
    · rw [post.sourceOk.numNodes, sourceOk.numNodes, List.length_take]
      omega
    · rw [sourceOk.numNodes] at most
      rw [post.targetOk.numNodes, targetOk.numNodes, List.length_append, List.length_drop]
      omega

end Linked

/-- Once all lists have been met, each of them is on one of the stacks or settled. -/
theorem BalanceInv.perm {lists : List ListPtr} {good : Heap α → Prop} {tlAvgNodes : ListPtr → Nat} {total budget : Nat}
    {seen settled : List ListPtr} {s : BalanceState α}
    (inv : BalanceInv lists good tlAvgNodes total budget seen settled s) (nodup : lists.Nodup)
    (all : ∀ l ∈ lists, l ∈ seen) : (settled ++ (s.posStack ++ s.negStack)).Perm lists := by
  refine inv.places.trans ((List.perm_ext_iff_of_nodup (inv.nodup.filter _) nodup).mpr fun m => ?_)
  rw [List.mem_filter, decide_eq_true_iff]
  exact ⟨fun both => both.2, fun inLists => ⟨all m inLists, inLists⟩⟩

/-- Where the targets ask for no more than there is, a list below its target would leave fewer nodes
than there are: what the settled lists have above their targets was taken from the remainder. -/
theorem BalanceInv.meetsTargets {lists : List ListPtr} {good : Heap α → Prop} {tlAvgNodes : ListPtr → Nat}
    {total budget : Nat} {seen settled : List ListPtr} {s : BalanceState α}
    (inv : BalanceInv lists good tlAvgNodes total budget seen settled s) (drained : s.posStack = [] ∨ s.negStack = [])
    (nodup : lists.Nodup) (all : ∀ l ∈ lists, l ∈ seen) (room : (lists.map tlAvgNodes).sum + budget ≤ total) {l : ListPtr}
    (member : l ∈ lists) : tlAvgNodes l ≤ (s.heap.lists l).numNodes := by
  have places := inv.perm nodup all
  have placed := places.mem_iff.mpr member
  have noNeg : s.negStack = [] := by
    by_contra nonempty
    have noPos := drained.resolve_right nonempty
    rw [noPos, List.nil_append] at places
    have few : s.heap.nodesOf s.negStack < (s.negStack.map tlAvgNodes).sum := by
      exact List.sum_lt_sum_of_ne_nil nonempty _ _ inv.neg
    have count := inv.total
    rw [nodup.dedup, ← s.heap.nodesOf_perm places, Heap.nodesOf_append] at count
    have targets := (places.map tlAvgNodes).sum_eq
    rw [List.map_append, List.sum_append] at targets
    have spent := inv.spent
    omega
  rw [noNeg, List.append_nil, List.mem_append] at placed
  rcases placed with inSettled | inPos
  · exact inv.met l inSettled
  · have many := inv.pos l inPos
    omega

/-- `_autobalanceThreadLoad` returns; each of its transfers moves at least one node and no more than there
are, and no difference wraps; no node is lost, and every active list ends with at least its target. -/
theorem autobalanceThreadLoad_meetsTargets {set : CreatedSet} {h : Heap α}
    (active : ∀ l, (h.lists l).active = true ↔ l ∈ set.tidToThreadList)
    (each : ∀ l ∈ set.tidToThreadList, ∃ A S, WellLinked h l A S)
    (runTimes : ∀ l ∈ set.tidToThreadList, 0 ≤ (h.lists l).lastNRunTime) (ran : 0 < totalRunTime set.toPumaSet h) :
    ∃ h', autobalanceThreadLoad set.toPumaSet h (targetNodes set.toPumaSet h) = some h' ∧
      (∀ call ∈ autobalanceThreadLoadCalls set.toPumaSet h (targetNodes set.toPumaSet h),
        call.Sound (fun tl => targetNodes set.toPumaSet h tl
          (h.nodesOf set.tidToThreadList / set.tidToThreadList.length)) ∧
        ∃ A S, WellLinked call.state.heap call.source A S ∧
          ∀ n, call.state.heap.count (A.drop n) ≤ (call.state.heap.lists call.source).numElements) ∧
      (∀ (s : BalanceState α) (met : Prop) [Decidable met], (if 0 < s.rem ∧ met then 1 else 0) ≤ s.rem) ∧
      h'.nodesOf set.tidToThreadList = h.nodesOf set.tidToThreadList ∧ SlotsKept h h' ∧
      ∀ l ∈ set.tidToThreadList, targetNodes set.toPumaSet h l
        (h.nodesOf set.tidToThreadList / set.tidToThreadList.length) ≤ (h'.lists l).numNodes := by
  obtain ⟨s, settled, run, inv, drained, calls⟩ := autobalanceThreadLoad_spec
    (AllLinked.balanceable set.tidToThreadList h) ⟨active, each, .refl h⟩ set.threads set.cpus
    (targetNodes set.toPumaSet h)
  have total := inv.total
  rw [set.distinct.dedup] at total
  refine ⟨s.heap, run, fun call made => ?_, fun s met _ => ?_, total, inv.good.kept, fun l member => ?_⟩
  · obtain ⟨sound, linked, inSource, _⟩ := calls call made
    obtain ⟨A, S, list⟩ := linked.each call.source inSource
    exact ⟨sound, A, S, list, list.count_drop_le⟩
  · have spent := s.spendRem_rem met
    omega
  · refine inv.meetsTargets drained set.distinct (fun m inLists => ?_) ?_ member
    · exact List.mem_reverse.mpr (set.placed m inLists)
    · have targets := targetNodes_sum (fun m inLists => (active m).mpr inLists) set.threads runTimes ran
        (h.nodesOf set.tidToThreadList / set.tidToThreadList.length)
      rw [set.distinct.dedup]
      have divided := Nat.div_add_mod (h.nodesOf set.tidToThreadList) set.tidToThreadList.length
      rw [mul_comm] at divided
      omega

/-- The first thread of two has two nodes, and nothing has run yet. -/
theorem twoThreads_pumalloc : ∃ h : Heap Unit, SetOk h [0, 1] ∧ (h.lists 0).numNodes = 2 ∧ (h.lists 1).numNodes = 0 ∧
    (h.lists 1).lastNRunTime = 0 ∧ ((h.lists 0).recordRunTime 1).lastNRunTime = 1 := by
  obtain ⟨r₁, r₂, first, second, atTail, front, two, missing, idle, time, slot, blank⟩ : ∃ r₁ r₂ : Heap Unit × ElemPtr,
      pumalloc twoThreads.toPumaSet (createPumaSet twoThreads.toPumaSet 8000 8192) 0 0 = some r₁ ∧
      pumalloc twoThreads.toPumaSet r₁.1 0 1 = some r₂ ∧ (r₁.1.lists 0).tail = some 0 ∧ r₁.1.prev 0 = none ∧
      (r₂.1.lists 0).numNodes = 2 ∧ (r₂.1.lists 1).numNodes = 0 ∧ (r₂.1.lists 1).lastNRunTime = 0 ∧
      (r₂.1.lists 0).lastNRunTime = 0 ∧ (r₂.1.lists 0).nextRunTimeSlot = 0 ∧
      (r₂.1.lists 0).kernelRunTimes.getD 0 0 = 0 := by
    refine ⟨_, _, rfl, rfl, ?_⟩
    decide
  have reachable : Reachable twoThreads (fun h l => AllocSafe h l) r₂.1 := by
    refine ⟨8000, 8192, by decide, (Relation.ReflTransGen.single
      (.pumalloc 0 0 (fun l atThread t n p m atTail' => ?_) first)).tail
      (.pumalloc 0 1 (fun l atThread t n p m atTail' atNode _ _ before => ?_) second)⟩
    · cases atThread
      cases atTail.symm.trans atTail'
      rw [Heap.prev, Heap.links_eq atNode, Option.bind_some, before] at front
      cases front
    · cases atThread
      cases atTail'
  refine ⟨r₂.1, reachable.ok fun _ _ safe => safe, two, missing, idle, ?_⟩
  simp only [PumaThreadList.recordRunTime, time, slot, blank]
  norm_num

/-- The first thread has two nodes and has done all the work; the other gets one of them. -/
theorem twoThreads_meetsTargets : ∃ h h' : Heap Unit, (h.lists 0).numNodes = 2 ∧ (h.lists 1).numNodes = 0 ∧
    autobalanceThreadLoad twoThreads.toPumaSet h (targetNodes twoThreads.toPumaSet h) = some h' ∧
    1 ≤ (h'.lists 1).numNodes := by
  obtain ⟨h₀, set, two, missing, idle, time⟩ := twoThreads_pumalloc
  obtain ⟨A, S, busy⟩ := set.each 0 (by simp)
  obtain ⟨A', S', other⟩ := set.each 1 (by simp)
  obtain ⟨h, timed⟩ : ∃ h, h₀.modifyList 0 (fun tl => tl.recordRunTime 1) = h := ⟨_, rfl⟩
  have loc : Local h₀ h 0 := timed ▸ Local.modifyList h₀ 0 rfl rfl
  have zero : h.lists 0 = (h₀.lists 0).recordRunTime 1 := by rw [← timed, Heap.lists_modifyList_self]
  have one : h.lists 1 = h₀.lists 1 := loc.lists 1 (by decide)
  have active (l : ListPtr) : (h.lists l).active = true ↔ l ∈ twoThreads.tidToThreadList := by
    refine Iff.trans ?_ (set.active l)
    by_cases same : l = 0
    · rw [same, loc.active]
    · rw [loc.lists l same]
  have total : totalRunTime twoThreads.toPumaSet h = 1 := by
    simp [totalRunTime, twoThreads, zero, one, idle, time]
  have nodes : h.nodesOf twoThreads.tidToThreadList = 2 := by
    simp [Heap.nodesOf, twoThreads, zero, one, missing, PumaThreadList.recordRunTime, two]
  have target : targetNodes twoThreads.toPumaSet h 1 1 = 1 := by
    rw [targetNodes, relativeSpeed_eq fun l member => (active l).mpr member, total, one, idle]
    norm_num [twoThreads, Nat.floor_eq_iff]
  obtain ⟨h', run, _, _, _, _, meets⟩ := autobalanceThreadLoad_meetsTargets active
    (fun l member => by
      rcases List.mem_cons.mp member with rfl | member
      · exact ⟨A, S, timed ▸ ((busy.wellFormed set.ok).recordRunTime 1).toWellLinked⟩
      · rw [List.mem_singleton.mp member]
        exact ⟨A', S', (other.wellFormed set.ok).toWellLinked.of_untouched (loc.untouched (by decide))⟩)
    (fun l member => by
      rcases List.mem_cons.mp member with rfl | member
      · rw [zero, time]
        norm_num
      · rw [List.mem_singleton.mp member, one, idle])
    (by rw [total]; norm_num)
  have least := meets 1 (by simp [twoThreads])
  have average : 2 / twoThreads.tidToThreadList.length = 1 := rfl
  rw [nodes, average, target] at least
  exact ⟨h, h', by rw [zero]; exact two, by rw [one, missing], run, least⟩

end Puma
