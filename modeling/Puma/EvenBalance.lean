import Puma.Autobalance

namespace Puma

variable {α : Type}

/-- The nodes that lists have beyond one more than their targets. -/
def Heap.nodesOver (h : Heap α) (lists : List ListPtr) (tlAvgNodes : ListPtr → Nat) : Nat :=
  (lists.map fun l => (h.lists l).numNodes - (tlAvgNodes l + 1)).sum

/-- The nodes that lists lack to their targets. -/
def Heap.nodesBelow (h : Heap α) (lists : List ListPtr) (tlAvgNodes : ListPtr → Nat) : Nat :=
  (lists.map fun l => tlAvgNodes l - (h.lists l).numNodes).sum

theorem Heap.nodesOver_eq_zero {h : Heap α} {lists : List ListPtr} {tlAvgNodes : ListPtr → Nat} :
    h.nodesOver lists tlAvgNodes = 0 ↔ ∀ l ∈ lists, (h.lists l).numNodes ≤ tlAvgNodes l + 1 := by
  rw [Heap.nodesOver, List.sum_eq_zero_iff, List.forall_mem_map]
  exact forall₂_congr fun l _ => Nat.sub_eq_zero_iff_le

theorem Heap.nodesBelow_eq_zero {h : Heap α} {lists : List ListPtr} {tlAvgNodes : ListPtr → Nat} :
    h.nodesBelow lists tlAvgNodes = 0 ↔ ∀ l ∈ lists, tlAvgNodes l ≤ (h.lists l).numNodes := by
  rw [Heap.nodesBelow, List.sum_eq_zero_iff, List.forall_mem_map]
  exact forall₂_congr fun l _ => Nat.sub_eq_zero_iff_le

/-- The state of the balancer, with the remainder accounted for exactly: at most one list is charged that is
not settled with a node above its target, the one that takes the last of the remainder. While there is a
remainder, every node that leaves a list is one that some list lacks. -/
structure EvenInv (lists : List ListPtr) (good : Heap α → Prop) (tlAvgNodes : ListPtr → Nat) (total budget : Nat)
    (above below : Nat) (seen settled : List ListPtr) (s : BalanceState α) : Prop
    extends BalanceInv lists good tlAvgNodes total budget seen settled s where
  most : ∀ l ∈ settled, (s.heap.lists l).numNodes ≤ tlAvgNodes l + 1
  charged : (settled.map tlAvgNodes).sum + budget ≤ s.heap.nodesOf settled + s.rem + if s.rem = 0 then 1 else 0
  bound : above + s.heap.nodesBelow lists tlAvgNodes ≤ s.heap.nodesOver lists tlAvgNodes + below
  whileLeft : 0 < s.rem → s.heap.nodesOver lists tlAvgNodes + below = above + s.heap.nodesBelow lists tlAvgNodes

section Even

variable {lists : List ListPtr} {good : Heap α → Prop} {tlAvgNodes : ListPtr → Nat} {total budget above below : Nat}
  {seen settled : List ListPtr} {s : BalanceState α}

theorem EvenInv.classify {s' : BalanceState α} {l : ListPtr} {done : List ListPtr}
    (inv : EvenInv lists good tlAvgNodes total budget above below seen settled s) (fits : Balanceable lists good)
    (step : Classified tlAvgNodes s l s' done) (fresh : l ∉ seen) :
    EvenInv lists good tlAvgNodes total budget above below (l :: seen) (done ++ settled) s' := by
  have next := step.balanceInv fits inv.toBalanceInv fresh
  have charged := inv.charged
  cases step with
  | idle off => exact ⟨next, inv.most, charged, inv.bound, inv.whileLeft⟩
  | @many rem on charge above =>
    refine ⟨next, inv.most, ?_, inv.bound, fun positive => inv.whileLeft (by dsimp only at positive; omega)⟩
    dsimp only [List.nil_append]
    split at charged <;> split <;> omega
  | few on lacking => exact ⟨next, inv.most, charged, inv.bound, inv.whileLeft⟩
  | @settled rem on least most charge =>
    refine ⟨next, List.forall_mem_cons.mpr ⟨most, inv.most⟩, ?_, inv.bound,
      fun positive => inv.whileLeft (by dsimp only at positive; omega)⟩
    rw [List.singleton_append, List.map_cons, List.sum_cons, Heap.nodesOf_cons]
    dsimp only
    split at charged <;> split <;> omega

theorem EvenInv.turn (inv : EvenInv lists good tlAvgNodes total budget above below seen settled s)
    (fits : Balanceable lists good) (nodup : lists.Nodup) {pos neg : ListPtr} {posRest negRest : List ListPtr}
    (atPos : s.posStack = pos :: posRest) (atNeg : s.negStack = neg :: negRest) :
    ∃ h', transferNNodes s.heap (TransferCall.count tlAvgNodes ⟨s, pos, neg⟩) pos neg = some h' ∧
      EvenInv lists good tlAvgNodes total budget above below seen
        (TransferCall.reached tlAvgNodes ⟨s, pos, neg⟩ h' ++ settled) (TransferCall.settle tlAvgNodes ⟨s, pos, neg⟩ h') ∧
      (TransferCall.settle tlAvgNodes ⟨s, pos, neg⟩ h').posStack.length +
        (TransferCall.settle tlAvgNodes ⟨s, pos, neg⟩ h').negStack.length < s.posStack.length + s.negStack.length := by
  obtain ⟨h', run, moved, next, shorter⟩ := transferTurn_spec fits inv.toBalanceInv atPos atNeg
  obtain ⟨apart, _, _, targetSub, sourceSub⟩ := inv.sound atPos atNeg
  have posIn := inv.mem (Or.inl (by simp [atPos] : pos ∈ s.posStack))
  have negIn := inv.mem (Or.inr (by simp [atNeg] : neg ∈ s.negStack))
  have count := inv.count_eq atPos atNeg
  generalize TransferCall.count tlAvgNodes ⟨s, pos, neg⟩ = n at *
  dsimp only at apart targetSub sourceSub
  have extra : s.extra = if 0 < s.rem then 1 else 0 := rfl
  have rem₁ : (TransferCall.settle tlAvgNodes ⟨s, pos, neg⟩ h').rem =
      s.rem - if 0 < s.rem ∧ (h'.lists pos).numNodes = tlAvgNodes pos + s.extra then 1 else 0 := rfl
  have heap₁ : (TransferCall.settle tlAvgNodes ⟨s, pos, neg⟩ h').heap = h' := rfl
  have settledStay : h'.nodesOf settled = s.heap.nodesOf settled := inv.settledStay atPos atNeg moved
  obtain ⟨restOver, over₀, over₁⟩ := moved.sum apart nodup posIn negIn fun l m => m - (tlAvgNodes l + 1)
  obtain ⟨restBelow, below₀, below₁⟩ := moved.sum apart nodup posIn negIn fun l m => tlAvgNodes l - m
  rw [← Heap.nodesOver] at over₀ over₁
  rw [← Heap.nodesBelow] at below₀ below₁
  refine ⟨h', run, ⟨next, fun m member => ?_, ?_, ?_, fun positive => ?_⟩, shorter⟩
  · rw [heap₁]
    rcases List.mem_append.mp member with here | old
    · simp only [TransferCall.reached, List.mem_append, List.mem_ite_nil_right, List.mem_singleton] at here
      rcases here with ⟨met, rfl⟩ | ⟨met, rfl⟩
      · split at extra <;> omega
      · omega
    · obtain ⟨notPos, notNeg⟩ := inv.beneath atPos atNeg (List.mem_append_left _ old)
      rw [moved.others m notPos notNeg]
      exact inv.most m old
  · have charged := inv.charged
    have targetNow := h'.nodesOf_met tlAvgNodes neg
    rw [heap₁, rem₁, Heap.nodesOf_append, settledStay, TransferCall.reached, Heap.nodesOf_append, targetNow]
    simp only [List.map_append, List.sum_append]
    by_cases met : (h'.lists pos).numNodes = tlAvgNodes pos + s.extra
    · simp only [met, and_true, if_true, Heap.nodesOf, List.map_cons, List.map_nil, List.sum_cons, List.sum_nil]
      rw [← Heap.nodesOf]
      by_cases positive : 0 < s.rem
      · rw [if_pos positive] at extra
        rw [if_neg (by omega)] at charged
        rw [if_pos positive]
        split <;> omega
      · rw [if_neg positive] at extra
        rw [if_neg positive, Nat.sub_zero]
        omega
    · simp only [met, and_false, if_false, Heap.nodesOf, List.map_nil, List.sum_nil, Nat.sub_zero]
      rw [← Heap.nodesOf]
      omega
  · have bound := inv.bound
    rw [heap₁]
    omega
  · -- There was a remainder before the turn too.
    have before : 0 < s.rem := (rem₁ ▸ positive).trans_le (Nat.sub_le _ _)
    have equal := inv.whileLeft before
    rw [if_pos before] at extra
    rw [heap₁]
    omega

theorem EvenInv.rule (fits : Balanceable lists good) (nodup : lists.Nodup) : BalanceRule tlAvgNodes fun seen s =>
    ∃ settled, EvenInv (α := α) lists good tlAvgNodes total budget above below seen settled s where
  classify seen s l inv fresh := by
    obtain ⟨settled, inv⟩ := inv
    obtain ⟨done, step⟩ := classifyList_classified tlAvgNodes s l
    exact ⟨_, inv.classify fits step fresh⟩
  turn seen s pos neg posRest negRest inv atPos atNeg := by
    obtain ⟨settled, inv⟩ := inv
    obtain ⟨h', run, next, shorter⟩ := inv.turn fits nodup atPos atNeg
    exact ⟨h', run, ⟨_, next⟩, shorter⟩

/-- Lists that all have more nodes than their targets, but only one more together, have one more each. -/
theorem Heap.le_of_nodesOf_le {h : Heap α} {c : List ListPtr} (more : ∀ l ∈ c, tlAvgNodes l ≤ (h.lists l).numNodes)
    (few : h.nodesOf c ≤ (c.map tlAvgNodes).sum + 1) {l : ListPtr} (member : l ∈ c) :
    (h.lists l).numNodes ≤ tlAvgNodes l + 1 := by
  have split := List.perm_cons_erase member
  have rest : ((c.erase l).map tlAvgNodes).sum ≤ h.nodesOf (c.erase l) :=
    List.sum_le_sum fun m inRest => more m (List.mem_of_mem_erase inRest)
  rw [h.nodesOf_perm split, Heap.nodesOf_cons, (split.map tlAvgNodes).sum_eq, List.map_cons, List.sum_cons] at few
  omega

/-- Where the targets and the remainder are all there is, the last state has every list within one node of
its target just when the nodes that lists had beyond that were no more than the nodes that lists lacked. -/
theorem EvenInv.spread (inv : EvenInv lists good tlAvgNodes total budget above below seen settled s)
    (drained : s.posStack = [] ∨ s.negStack = []) (nodup : lists.Nodup) (all : ∀ l ∈ lists, l ∈ seen)
    (room : (lists.map tlAvgNodes).sum + budget = total) :
    (∀ l ∈ lists, tlAvgNodes l ≤ (s.heap.lists l).numNodes) ∧
      ((∀ l ∈ lists, (s.heap.lists l).numNodes ≤ tlAvgNodes l + 1) ↔ above ≤ below) := by
  have least : ∀ l ∈ lists, tlAvgNodes l ≤ (s.heap.lists l).numNodes := fun l member =>
    inv.meetsTargets drained nodup all room.le member
  refine ⟨least, ?_⟩
  rw [← Heap.nodesOver_eq_zero]
  have lacking : s.heap.nodesBelow lists tlAvgNodes = 0 := Heap.nodesBelow_eq_zero.mpr least
  have bound := inv.bound
  by_cases left : 0 < s.rem
  · have equal := inv.whileLeft left
    omega
  · -- The remainder is used up, so the lists that still have too many nodes have one of them together.
    have noNeg : s.negStack = [] := List.eq_nil_iff_forall_not_mem.mpr fun l inNeg => by
      have few := inv.neg l inNeg
      have meets := least l (inv.mem (Or.inr inNeg))
      omega
    have places := inv.perm nodup all
    rw [noNeg, List.append_nil] at places
    have count := inv.total
    rw [nodup.dedup, ← s.heap.nodesOf_perm places, Heap.nodesOf_append] at count
    have targets := (places.map tlAvgNodes).sum_eq
    rw [List.map_append, List.sum_append] at targets
    have charged := inv.charged
    rw [if_pos (by omega)] at charged
    have over₁ : s.heap.nodesOver lists tlAvgNodes = 0 := Heap.nodesOver_eq_zero.mpr fun l member => by
      rcases List.mem_append.mp (places.mem_iff.mpr member) with inSettled | inPos
      · exact inv.most l inSettled
      · refine Heap.le_of_nodesOf_le (fun m inPos => ?_) (by omega) inPos
        have many := inv.pos m inPos
        omega
    omega

/-- Lists that have the average at least, and a remainder less than their number, differ by at most one node
if none of them has two more than the average. -/
theorem Heap.differ_iff {h : Heap α} {avg rem : Nat} (least : ∀ l ∈ lists, avg ≤ (h.lists l).numNodes)
    (total : h.nodesOf lists = lists.length * avg + rem) (fewer : rem < lists.length) :
    (∀ l ∈ lists, ∀ m ∈ lists, (h.lists l).numNodes ≤ (h.lists m).numNodes + 1) ↔
      ∀ l ∈ lists, (h.lists l).numNodes ≤ avg + 1 := by
  constructor
  · intro close l member
    by_contra many
    have all : (lists.map fun _ => avg + 1).sum ≤ h.nodesOf lists := List.sum_le_sum fun m inLists => by
      have near := close l member m inLists
      omega
    rw [List.map_const', List.sum_replicate_nat, Nat.mul_add, Nat.mul_one] at all
    omega
  · intro most l inLists m inLists'
    have high := most l inLists
    have low := least m inLists'
    omega

end Even

section Speeds

variable {set : CreatedSet} {h : Heap α} {time : ℚ}

/-- Threads that have run for the same time are equally fast, and the target of each is the average. -/
theorem targetNodes_even (active : ∀ l, (h.lists l).active = true ↔ l ∈ set.tidToThreadList)
    (same : ∀ l ∈ set.tidToThreadList, (h.lists l).lastNRunTime = time) (ran : 0 < time) {l : ListPtr}
    (member : l ∈ set.tidToThreadList) (avgNodes : Nat) : targetNodes set.toPumaSet h l avgNodes = avgNodes := by
  have nonempty : (set.tidToThreadList.length : ℚ) ≠ 0 := by exact_mod_cast (List.length_pos_of_mem member).ne'
  have total : totalRunTime set.toPumaSet h = set.tidToThreadList.length * time := by
    rw [totalRunTime, List.map_congr_left same, List.map_const', List.sum_replicate, nsmul_eq_mul]
  have speed : relativeSpeed set.toPumaSet h l = 1 := by
    rw [relativeSpeed_eq fun l member => (active l).mpr member, total, same l member]
    field_simp
    ring
  rw [targetNodes, speed, one_mul, Nat.floor_natCast]

/-- With equally fast threads the balancer leaves every list the average at least, and no list two more than
that just when the nodes beyond one more than the average were no more than the nodes that lists lacked. -/
theorem autobalanceThreadLoad_spread (active : ∀ l, (h.lists l).active = true ↔ l ∈ set.tidToThreadList)
    (each : ∀ l ∈ set.tidToThreadList, ∃ A S, WellLinked h l A S)
    (same : ∀ l ∈ set.tidToThreadList, (h.lists l).lastNRunTime = time) (ran : 0 < time) {avg : Nat}
    (average : h.nodesOf set.tidToThreadList / set.tidToThreadList.length = avg) :
    ∃ h', autobalanceThreadLoad set.toPumaSet h (targetNodes set.toPumaSet h) = some h' ∧
      h'.nodesOf set.tidToThreadList = h.nodesOf set.tidToThreadList ∧
      (∀ l ∈ set.tidToThreadList, avg ≤ (h'.lists l).numNodes) ∧
      ((∀ l ∈ set.tidToThreadList, (h'.lists l).numNodes ≤ avg + 1) ↔
        h.nodesOver set.tidToThreadList (fun _ => avg) ≤ h.nodesBelow set.tidToThreadList fun _ => avg) := by
  have target {l : ListPtr} (member : l ∈ set.tidToThreadList) := targetNodes_even active same ran member avg
  have fits := AllLinked.balanceable set.tidToThreadList h
  have start : EvenInv set.tidToThreadList (AllLinked set.tidToThreadList h) (fun l => targetNodes set.toPumaSet h l avg)
      (h.nodesOf set.tidToThreadList.dedup) (h.nodesOf set.tidToThreadList % set.tidToThreadList.length)
      (h.nodesOver set.tidToThreadList fun l => targetNodes set.toPumaSet h l avg)
      (h.nodesBelow set.tidToThreadList fun l => targetNodes set.toPumaSet h l avg) [] []
      ⟨h, h.nodesOf set.tidToThreadList % set.tidToThreadList.length, [], []⟩ :=
    ⟨.start ⟨active, each, .refl h⟩ _, by simp, by simp [Heap.nodesOf], le_rfl, fun _ => rfl⟩
  subst average
  obtain ⟨s, run, ⟨settled, inv⟩, drained, _⟩ := (EvenInv.rule fits set.distinct).autobalanceThreadLoad
    (fun l member => (active l).mpr member) set.threads set.cpus ⟨[], start⟩
  have total := inv.total
  rw [set.distinct.dedup] at total
  have targets : set.tidToThreadList.map (fun l => targetNodes set.toPumaSet h l
      (h.nodesOf set.tidToThreadList / set.tidToThreadList.length)) =
      set.tidToThreadList.map fun _ => h.nodesOf set.tidToThreadList / set.tidToThreadList.length :=
    List.map_congr_left fun l member => target member
  obtain ⟨least, spread⟩ := inv.spread drained set.distinct
    (fun l member => List.mem_reverse.mpr (set.placed l member)) (by
      rw [targets, List.map_const', List.sum_replicate_nat, set.distinct.dedup, Nat.div_add_mod])
  refine ⟨s.heap, run, total, fun l member => by rw [← target member]; exact least l member, ?_⟩
  have above : h.nodesOver set.tidToThreadList (fun l => targetNodes set.toPumaSet h l
      (h.nodesOf set.tidToThreadList / set.tidToThreadList.length)) =
      h.nodesOver set.tidToThreadList fun _ => h.nodesOf set.tidToThreadList / set.tidToThreadList.length :=
    congrArg List.sum (List.map_congr_left fun l member => by dsimp only; rw [target member])
  have below : h.nodesBelow set.tidToThreadList (fun l => targetNodes set.toPumaSet h l
      (h.nodesOf set.tidToThreadList / set.tidToThreadList.length)) =
      h.nodesBelow set.tidToThreadList fun _ => h.nodesOf set.tidToThreadList / set.tidToThreadList.length :=
    congrArg List.sum (List.map_congr_left fun l member => by dsimp only; rw [target member])
  rw [← above, ← below, ← spread]
  exact forall₂_congr fun l member => by rw [target member]

/-- With equally fast threads the balancer leaves the nodes evenly spread just when the nodes that lists had
beyond one more than the average were no more than the nodes that other lists lacked to the average. -/
theorem autobalanceThreadLoad_even_iff (active : ∀ l, (h.lists l).active = true ↔ l ∈ set.tidToThreadList)
    (each : ∀ l ∈ set.tidToThreadList, ∃ A S, WellLinked h l A S)
    (same : ∀ l ∈ set.tidToThreadList, (h.lists l).lastNRunTime = time) (ran : 0 < time) :
    (∃ h', autobalanceThreadLoad set.toPumaSet h (targetNodes set.toPumaSet h) = some h' ∧
      ∀ l ∈ set.tidToThreadList, ∀ m ∈ set.tidToThreadList, (h'.lists l).numNodes ≤ (h'.lists m).numNodes + 1) ↔
    h.nodesOver set.tidToThreadList (fun _ => h.nodesOf set.tidToThreadList / set.tidToThreadList.length) ≤
      h.nodesBelow set.tidToThreadList fun _ => h.nodesOf set.tidToThreadList / set.tidToThreadList.length := by
  obtain ⟨h', run, total, least, spread⟩ := autobalanceThreadLoad_spread active each same ran rfl
  have fewer : h.nodesOf set.tidToThreadList % set.tidToThreadList.length < set.tidToThreadList.length :=
    Nat.mod_lt _ (List.length_pos_iff.mpr set.threads)
  rw [← Nat.div_add_mod (h.nodesOf set.tidToThreadList) set.tidToThreadList.length] at total
  rw [← spread, ← Heap.differ_iff least total fewer]
  constructor
  · rintro ⟨h'', run', close⟩
    rw [Option.some.inj (run.symm.trans run')]
    exact close
  · exact fun close => ⟨h', run, close⟩

end Speeds

/-- Three threads in two domains. -/
def threeThreads : CreatedSet where
  domains := [[0, 1], [2]]
  tidToThreadList := [0, 1, 2]
  autoBalance := true
  splitter _ _ := 0
  threads := by decide
  distinct := by decide
  cpus := by decide
  placed := by decide

/-- The first thread of three has two nodes and the others have none; all have run for the same time. -/
theorem threeThreads_timed : ∃ h : Heap Unit, (∀ l, (h.lists l).active = true ↔ l ∈ threeThreads.tidToThreadList) ∧
    (∀ l ∈ threeThreads.tidToThreadList, ∃ A S, WellLinked h l A S) ∧
    (∀ l ∈ threeThreads.tidToThreadList, (h.lists l).lastNRunTime = 1) ∧
    threeThreads.tidToThreadList.map (fun l => (h.lists l).numNodes) = [2, 0, 0] := by
  obtain ⟨r₁, r₂, first, second, atTail, front, nodes, times⟩ : ∃ r₁ r₂ : Heap Unit × ElemPtr,
      pumalloc threeThreads.toPumaSet (createPumaSet threeThreads.toPumaSet 8000 8192) 0 0 = some r₁ ∧
      pumalloc threeThreads.toPumaSet r₁.1 0 1 = some r₂ ∧ (r₁.1.lists 0).tail = some 0 ∧ r₁.1.prev 0 = none ∧
      threeThreads.tidToThreadList.map (fun l => (r₂.1.lists l).numNodes) = [2, 0, 0] ∧
      ∀ l ∈ threeThreads.tidToThreadList, (r₂.1.lists l).lastNRunTime = 0 ∧ (r₂.1.lists l).kernelRunTimes.getD
        (r₂.1.lists l).nextRunTimeSlot 0 = 0 := by
    refine ⟨_, _, rfl, rfl, ?_⟩
    decide
  have reachable : Reachable threeThreads (fun h l => AllocSafe h l) r₂.1 := by
    refine ⟨8000, 8192, by decide, (Relation.ReflTransGen.single
      (.pumalloc 0 0 (fun l atThread t n p m atTail' => ?_) first)).tail
      (.pumalloc 0 1 (fun l atThread t n p m atTail' atNode _ _ before => ?_) second)⟩
    · cases atThread
      cases atTail.symm.trans atTail'
      rw [Heap.prev, Heap.links_eq atNode, Option.bind_some, before] at front
      cases front
    · cases atThread
      cases atTail'
  have set := reachable.ok fun _ _ safe => safe
  refine ⟨{ r₂.1 with lists := fun l => (r₂.1.lists l).recordRunTime 1 }, set.active, fun l member => ?_, fun l member => ?_,
    nodes⟩
  · obtain ⟨A, S, list⟩ := set.each l member
    exact ⟨A, S, (list.wellFormed set.ok).toWellLinked.congr (fun _ _ => rfl) rfl rfl rfl rfl⟩
  · obtain ⟨total, slot⟩ := times l member
    simp only [PumaThreadList.recordRunTime, total, slot]
    norm_num

/-- The list with two nodes has too many of them, but no list lacks any: it keeps them both. -/
theorem threeThreads_uneven : ∃ h h' : Heap Unit,
    (∀ l, (h.lists l).active = true ↔ l ∈ threeThreads.tidToThreadList) ∧
    (∀ l ∈ threeThreads.tidToThreadList, ∃ A S, WellLinked h l A S) ∧
    (∀ l ∈ threeThreads.tidToThreadList, (h.lists l).lastNRunTime = 1) ∧
    autobalanceThreadLoad threeThreads.toPumaSet h (targetNodes threeThreads.toPumaSet h) = some h' ∧
    ¬ ∀ l ∈ threeThreads.tidToThreadList, ∀ m ∈ threeThreads.tidToThreadList,
      (h'.lists l).numNodes ≤ (h'.lists m).numNodes + 1 := by
  obtain ⟨h, active, each, same, nodes⟩ := threeThreads_timed
  have average : h.nodesOf threeThreads.tidToThreadList / threeThreads.tidToThreadList.length = 0 := by
    rw [Heap.nodesOf, nodes]
    rfl
  obtain ⟨h', run, total, least, spread⟩ := autobalanceThreadLoad_spread active each same one_pos average
  refine ⟨h, h', active, each, same, run, ?_⟩
  have count : h'.nodesOf threeThreads.tidToThreadList = threeThreads.tidToThreadList.length * 0 + 2 := by
    rw [total, Heap.nodesOf, nodes]
    rfl
  rw [Heap.differ_iff least count (by decide), spread]
  simp only [threeThreads, List.map_cons, List.map_nil, List.cons.injEq] at nodes
  simp [Heap.nodesOver, Heap.nodesBelow, threeThreads, nodes]

theorem threeThreads_even_iff : ∃ h : Heap Unit,
    threeThreads.tidToThreadList.map (fun l => (h.lists l).numNodes) = [2, 0, 0] ∧
    ((∃ h', autobalanceThreadLoad threeThreads.toPumaSet h (targetNodes threeThreads.toPumaSet h) = some h' ∧
      ∀ l ∈ threeThreads.tidToThreadList, ∀ m ∈ threeThreads.tidToThreadList,
        (h'.lists l).numNodes ≤ (h'.lists m).numNodes + 1) ↔
    h.nodesOver threeThreads.tidToThreadList
        (fun _ => h.nodesOf threeThreads.tidToThreadList / threeThreads.tidToThreadList.length) ≤
      h.nodesBelow threeThreads.tidToThreadList fun _ =>
        h.nodesOf threeThreads.tidToThreadList / threeThreads.tidToThreadList.length) := by
  obtain ⟨h, active, each, same, nodes⟩ := threeThreads_timed
  exact ⟨h, nodes, autobalanceThreadLoad_even_iff active each same one_pos⟩

end Puma
