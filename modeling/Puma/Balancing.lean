import Puma.Transfer

namespace Puma

variable {α : Type}

/-- A set between operations: every node belongs to one of its lists, and these are in order. -/
structure SetOk (h : Heap α) (lists : List ListPtr) : Prop where
  ok : h.Ok
  each : ∀ l ∈ lists, ∃ A S, ThreadListOk h l A S
  owner : ∀ p n, h.node p = some n → n.threadList ∈ lists
  capacity : ∀ l ∈ lists, 0 < h.capacityFor (h.lists l).elementSize
  active : ∀ l, (h.lists l).active = true ↔ l ∈ lists
  idle : ∀ l, l ∉ lists → h.lists l = .empty false 0

theorem setOk_mapContents {β : Type} {f : ElemPtr → α → β} {h : Heap α} {lists : List ListPtr} :
    SetOk (h.mapContents f) lists ↔ SetOk h lists := by
  constructor
  · intro set
    refine ⟨Heap.ok_mapContents.mp set.ok, fun l member => ?_, fun p n atNode => ?_, set.capacity, set.active, set.idle⟩
    · obtain ⟨A, S, list⟩ := set.each l member
      exact ⟨A, S, threadListOk_mapContents.mp list⟩
    · exact set.owner p _ (Heap.mapContents_eq atNode)
  · intro set
    refine ⟨Heap.ok_mapContents.mpr set.ok, fun l member => ?_, fun p n' atNode' => ?_, set.capacity, set.active,
      set.idle⟩
    · obtain ⟨A, S, list⟩ := set.each l member
      exact ⟨A, S, threadListOk_mapContents.mpr list⟩
    · obtain ⟨n, atNode, rfl⟩ := Heap.node_of_mapContents atNode'
      exact set.owner p n atNode

/-- An operation that moves nodes between lists at most. -/
structure Rebalanced (h h' : Heap α) : Prop where
  contents : h'.contents = h.contents
  read : h'.read = h.read
  blocks : h'.blocks = h.blocks
  nodeSize : h'.nodeSize = h.nodeSize
  elementSize : ∀ m, (h'.lists m).elementSize = (h.lists m).elementSize
  active : ∀ m, (h'.lists m).active = (h.lists m).active

theorem Rebalanced.refl (h : Heap α) : Rebalanced h h := ⟨rfl, rfl, rfl, rfl, fun _ => rfl, fun _ => rfl⟩

theorem Rebalanced.trans {h h' h'' : Heap α} (first : Rebalanced h h') (second : Rebalanced h' h'') :
    Rebalanced h h'' where
  contents := second.contents.trans first.contents
  read := second.read.trans first.read
  blocks := second.blocks.trans first.blocks
  nodeSize := second.nodeSize.trans first.nodeSize
  elementSize m := (second.elementSize m).trans (first.elementSize m)
  active m := (second.active m).trans (first.active m)

section Transfer

variable {h : Heap α} {lists : List ListPtr}

/-- A transfer between two lists of a set, of any number of nodes that the first of them has. -/
theorem SetOk.transfer (set : SetOk h lists) {source target : ListPtr} (apart : source ≠ target)
    (inSource : source ∈ lists) (inTarget : target ∈ lists) {n : Nat} (positive : 0 < n)
    (most : n ≤ (h.lists source).numNodes) :
    ∃ h', transferNNodes h n source target = some h' ∧ SetOk h' lists ∧ Rebalanced h h' ∧
      (h'.lists source).numNodes = (h.lists source).numNodes - n ∧
      (h'.lists target).numNodes = (h.lists target).numNodes + n ∧
      ∀ m, m ≠ source → m ≠ target → h'.lists m = h.lists m := by
  obtain ⟨As, Ss, sourceOk⟩ := set.each source inSource
  obtain ⟨At, St, targetOk⟩ := set.each target inTarget
  rw [sourceOk.numNodes] at most
  have split : As.take (As.length - n) ++ As.drop (As.length - n) = As := List.take_append_drop _ _
  have length : (As.drop (As.length - n)).length = n := by
    rw [List.length_drop]
    omega
  have sourceOk' : ThreadListOk h source (As.take (As.length - n) ++ As.drop (As.length - n)) Ss := by
    rw [split]
    exact sourceOk
  obtain ⟨h', run, post⟩ := transferNNodes_spec apart set.ok sourceOk' targetOk fun missing => by
    rw [missing, List.length_nil] at length
    omega
  rw [length] at run
  refine ⟨h', run, ⟨post.ok, fun l inLists => ?_, fun p n' atNode' => ?_, fun l inLists => ?_, fun l => ?_,
    fun l out => ?_⟩,
    ⟨post.contents, post.read, post.blocks, post.nodeSize, post.elementSize, post.active⟩, ?_, ?_,
    fun m notSource notTarget => (post.others m notSource notTarget).list⟩
  · by_cases atSource : l = source
    · subst atSource
      exact ⟨_, _, post.sourceOk⟩
    · by_cases atTarget : l = target
      · subst atTarget
        exact ⟨_, _, post.targetOk⟩
      · obtain ⟨A, S, list⟩ := set.each l inLists
        exact ⟨A, S, list.of_untouched (post.others l atSource atTarget)⟩
  · rcases post.owner p n' atNode' with moved | ⟨m, atNode, same⟩
    · rw [moved]
      exact inTarget
    · rw [same]
      exact set.owner p m atNode
  · rw [Heap.capacityFor, post.nodeSize, post.elementSize]
    exact set.capacity l inLists
  · rw [post.active]
    exact set.active l
  · rw [(post.others l (fun same => out (same ▸ inSource)) fun same => out (same ▸ inTarget)).list]
    exact set.idle l out
  · rw [post.sourceOk.numNodes, sourceOk.numNodes, List.length_take]
    omega
  · rw [post.targetOk.numNodes, targetOk.numNodes, List.length_append, length]

end Transfer

/-- The nodes of the lists, each list counted as often as it is named. -/
def Heap.nodesOf (h : Heap α) (lists : List ListPtr) : Nat := (lists.map fun l => (h.lists l).numNodes).sum

theorem Heap.nodesOf_cons (h : Heap α) (l : ListPtr) (lists : List ListPtr) :
    h.nodesOf (l :: lists) = (h.lists l).numNodes + h.nodesOf lists := rfl

theorem Heap.nodesOf_append (h : Heap α) (lists lists' : List ListPtr) :
    h.nodesOf (lists ++ lists') = h.nodesOf lists + h.nodesOf lists' := by
  simp [Heap.nodesOf]

theorem Heap.nodesOf_perm (h : Heap α) {lists lists' : List ListPtr} (same : lists.Perm lists') :
    h.nodesOf lists = h.nodesOf lists' := (same.map _).sum_eq

/-- How many nodes the lists have after a transfer. -/
structure NodesMoved (h h' : Heap α) (n : Nat) (source target : ListPtr) : Prop where
  atSource : (h'.lists source).numNodes = (h.lists source).numNodes - n
  atTarget : (h'.lists target).numNodes = (h.lists target).numNodes + n
  others : ∀ m, m ≠ source → m ≠ target → (h'.lists m).numNodes = (h.lists m).numNodes

theorem NodesMoved.nodesOf_eq {h h' : Heap α} {n : Nat} {source target : ListPtr} (moved : NodesMoved h h' n source target)
    {lists : List ListPtr} (notSource : source ∉ lists) (notTarget : target ∉ lists) :
    h'.nodesOf lists = h.nodesOf lists := by
  unfold Heap.nodesOf
  refine congrArg List.sum (List.map_congr_left fun m member => ?_)
  exact moved.others m (fun same => notSource (same ▸ member)) fun same => notTarget (same ▸ member)

/-- A sum over lists that both ends are among changes by what the two of them contribute. -/
theorem NodesMoved.sum {h h' : Heap α} {n : Nat} {source target : ListPtr} (moved : NodesMoved h h' n source target)
    (apart : source ≠ target) {lists : List ListPtr} (nodup : lists.Nodup) (inSource : source ∈ lists)
    (inTarget : target ∈ lists) (f : ListPtr → Nat → Nat) :
    ∃ rest, (lists.map fun l => f l (h.lists l).numNodes).sum =
        f source (h.lists source).numNodes + f target (h.lists target).numNodes + rest ∧
      (lists.map fun l => f l (h'.lists l).numNodes).sum =
        f source ((h.lists source).numNodes - n) + f target ((h.lists target).numNodes + n) + rest := by
  have split : lists.Perm (source :: target :: (lists.erase source).erase target) :=
    (List.perm_cons_erase inSource).trans
      (.cons source (List.perm_cons_erase ((List.mem_erase_of_ne apart.symm).mpr inTarget)))
  have nodup' := split.nodup_iff.mp nodup
  rw [List.nodup_cons, List.nodup_cons] at nodup'
  have stay : ((lists.erase source).erase target).map (fun l => f l (h'.lists l).numNodes) =
      ((lists.erase source).erase target).map fun l => f l (h.lists l).numNodes :=
    List.map_congr_left fun m member => by
      rw [moved.others m (fun same => nodup'.1 (List.mem_cons_of_mem _ (same ▸ member))) fun same => nodup'.2.1 (same ▸ member)]
  refine ⟨(((lists.erase source).erase target).map fun l => f l (h.lists l).numNodes).sum, ?_, ?_⟩
  · rw [(split.map _).sum_eq, List.map_cons, List.map_cons, List.sum_cons, List.sum_cons, ← Nat.add_assoc]
  · rw [(split.map _).sum_eq, List.map_cons, List.map_cons, List.sum_cons, List.sum_cons, ← Nat.add_assoc, stay,
      moved.atSource, moved.atTarget]

/-- A transfer keeps the total over any lists that both ends are among. -/
theorem NodesMoved.nodesOf {h h' : Heap α} {n : Nat} {source target : ListPtr} (moved : NodesMoved h h' n source target)
    (apart : source ≠ target) (most : n ≤ (h.lists source).numNodes) {lists : List ListPtr} (nodup : lists.Nodup)
    (inSource : source ∈ lists) (inTarget : target ∈ lists) : h'.nodesOf lists = h.nodesOf lists := by
  obtain ⟨rest, before, after⟩ := moved.sum apart nodup inSource inTarget fun _ m => m
  rw [Heap.nodesOf, Heap.nodesOf, before, after]
  omega

/-- What the balancer relies on in the memories it meets: a transfer between two of the
lists leads to another of them. -/
structure Balanceable (lists : List ListPtr) (good : Heap α → Prop) : Prop where
  active : ∀ h, good h → ∀ l, (h.lists l).active = true ↔ l ∈ lists
  transfer : ∀ h source target n, good h → source ≠ target → source ∈ lists → target ∈ lists → 1 ≤ n →
    n ≤ (h.lists source).numNodes →
    ∃ h', transferNNodes h n source target = some h' ∧ good h' ∧ NodesMoved h h' n source target

/-- The state of the balancer. Of the active lists `seen` so far those that have too many nodes are on
one stack and those that have too few on the other; the rest is `settled`, and every node that a
settled list has above its target was taken from the `budget` that `rem` is what is left of. -/
structure BalanceInv (lists : List ListPtr) (good : Heap α → Prop) (tlAvgNodes : ListPtr → Nat) (total budget : Nat)
    (seen settled : List ListPtr) (s : BalanceState α) : Prop where
  good : good s.heap
  nodup : seen.Nodup
  places : (settled ++ (s.posStack ++ s.negStack)).Perm (seen.filter fun l => l ∈ lists)
  pos : ∀ l ∈ s.posStack, tlAvgNodes l + s.extra < (s.heap.lists l).numNodes
  neg : ∀ l ∈ s.negStack, (s.heap.lists l).numNodes < tlAvgNodes l
  met : ∀ l ∈ settled, tlAvgNodes l ≤ (s.heap.lists l).numNodes
  spent : s.heap.nodesOf settled + s.rem ≤ (settled.map tlAvgNodes).sum + budget
  total : s.heap.nodesOf lists.dedup = total

theorem BalanceState.extra_mono {s s' : BalanceState α} (fewer : s'.rem ≤ s.rem) : s'.extra ≤ s.extra := by
  unfold BalanceState.extra
  split <;> split <;> omega

/-- The decrement of `rem` does not wrap. -/
theorem BalanceState.spendRem_rem (s : BalanceState α) (met : Prop) [Decidable met] :
    (s.spendRem met).rem + (if 0 < s.rem ∧ met then 1 else 0) = s.rem := by
  simp only [BalanceState.spendRem]
  split <;> omega

/-- What becomes of the state when list `l` is met, and whether `l` is settled then. A list is charged for
the one node that it may have above its target; if that is the last of the remainder, the list has too many
nodes all the same. -/
inductive Classified (tlAvgNodes : ListPtr → Nat) (s : BalanceState α) (l : ListPtr) : BalanceState α → List ListPtr → Prop
  | idle (off : (s.heap.lists l).active = false) : Classified tlAvgNodes s l s []
  | many {rem : Nat} (on : (s.heap.lists l).active = true) (charge : rem = s.rem ∨ rem = 0 ∧ s.rem = 1)
      (above : (tlAvgNodes l + if 0 < rem then 1 else 0) < (s.heap.lists l).numNodes) :
      Classified tlAvgNodes s l { s with rem := rem, posStack := l :: s.posStack } []
  | few (on : (s.heap.lists l).active = true) (below : (s.heap.lists l).numNodes < tlAvgNodes l) :
      Classified tlAvgNodes s l { s with negStack := l :: s.negStack } []
  | settled {rem : Nat} (on : (s.heap.lists l).active = true) (least : tlAvgNodes l ≤ (s.heap.lists l).numNodes)
      (most : (s.heap.lists l).numNodes ≤ tlAvgNodes l + 1)
      (charge : (s.heap.lists l).numNodes + rem = tlAvgNodes l + s.rem) :
      Classified tlAvgNodes s l { s with rem := rem } [l]

theorem classifyList_classified (tlAvgNodes : ListPtr → Nat) (s : BalanceState α) (l : ListPtr) :
    ∃ done, Classified tlAvgNodes s l (classifyList tlAvgNodes s l) done := by
  unfold classifyList
  dsimp only
  by_cases on : (s.heap.lists l).active = true
  · rw [if_pos on]
    have spend := s.spendRem_rem ((s.heap.lists l).numNodes = tlAvgNodes l + 1)
    obtain ⟨rem, later⟩ : ∃ rem, s.spendRem ((s.heap.lists l).numNodes = tlAvgNodes l + 1) = { s with rem := rem } := ⟨_, rfl⟩
    rw [later] at spend ⊢
    dsimp only at spend ⊢
    have extra : ({ s with rem := rem } : BalanceState α).extra = if 0 < rem then 1 else 0 := rfl
    by_cases above : tlAvgNodes l + ({ s with rem := rem } : BalanceState α).extra < (s.heap.lists l).numNodes
    · rw [if_pos above]
      rw [extra] at above
      refine ⟨[], .many on ?_ above⟩
      split at spend <;> split at above <;> omega
    · rw [if_neg above]
      rw [extra] at above
      by_cases below : (s.heap.lists l).numNodes < tlAvgNodes l
      · rw [if_pos below]
        rw [if_neg fun charged => by omega] at spend
        obtain rfl : rem = s.rem := spend
        exact ⟨[], .few on below⟩
      · rw [if_neg below]
        refine ⟨[l], .settled on (Nat.le_of_not_lt below) ?_ ?_⟩ <;> split at spend <;> split at above <;> omega
  · rw [if_neg on]
    exact ⟨[], .idle (by simpa using on)⟩

/-- A call of `_transferNNodes` by the balancer: the state it is made in, and the lists on top of
the two stacks. -/
structure TransferCall (α : Type) where
  state : BalanceState α
  source : ListPtr
  target : ListPtr

/-- `nToTransfer`. -/
def TransferCall.count (tlAvgNodes : ListPtr → Nat) (call : TransferCall α) : Nat :=
  min (sizeSub (tlAvgNodes call.target) (call.state.heap.lists call.target).numNodes)
    (sizeSub (call.state.heap.lists call.source).numNodes (tlAvgNodes call.source + call.state.extra))

/-- The state that the rest of the turn makes of the memory `h` that the call leaves. -/
def TransferCall.settle (tlAvgNodes : ListPtr → Nat) (call : TransferCall α) (h : Heap α) : BalanceState α :=
  let posIsTarget := (h.lists call.source).numNodes = tlAvgNodes call.source + call.state.extra
  let negIsTarget := (h.lists call.target).numNodes = tlAvgNodes call.target
  { call.state.spendRem posIsTarget with
    heap := h
    posStack := if posIsTarget then call.state.posStack.tail else call.state.posStack
    negStack := if negIsTarget then call.state.negStack.tail else call.state.negStack }

/-- The lists that the call brings to their targets. -/
def TransferCall.reached (tlAvgNodes : ListPtr → Nat) (call : TransferCall α) (h : Heap α) : List ListPtr :=
  (if (h.lists call.source).numNodes = tlAvgNodes call.source + call.state.extra then [call.source] else []) ++
    if (h.lists call.target).numNodes = tlAvgNodes call.target then [call.target] else []

/-- The call is made between the lists on top of the two stacks. -/
structure TransferCall.OnTop (call : TransferCall α) : Prop where
  source : ∃ posRest, call.state.posStack = call.source :: posRest
  target : ∃ negRest, call.state.negStack = call.target :: negRest

/-- What the call is promised: at least one node to move, no more than there are, and differences
that do not wrap. -/
structure TransferCall.Sound (tlAvgNodes : ListPtr → Nat) (call : TransferCall α) : Prop where
  apart : call.source ≠ call.target
  positive : 1 ≤ call.count tlAvgNodes
  most : call.count tlAvgNodes ≤ (call.state.heap.lists call.source).numNodes
  targetSub : (call.state.heap.lists call.target).numNodes ≤ tlAvgNodes call.target
  sourceSub : tlAvgNodes call.source + call.state.extra ≤ (call.state.heap.lists call.source).numNodes

/-- A call that the balancer makes in a memory it may meet, between two of the lists. -/
structure TransferCall.Made (lists : List ListPtr) (good : Heap α → Prop) (tlAvgNodes : ListPtr → Nat)
    (call : TransferCall α) : Prop extends TransferCall.Sound tlAvgNodes call where
  good : good call.state.heap
  inSource : call.source ∈ lists
  inTarget : call.target ∈ lists

/-- The calls of `_transferNNodes` in the transfer loop. -/
def transferLoopCalls (tlAvgNodes : ListPtr → Nat) : Nat → BalanceState α → List (TransferCall α)
  | 0, _ => []
  | turns + 1, s =>
    match s.posStack, s.negStack with
    | pos :: _, neg :: _ =>
      let call : TransferCall α := ⟨s, pos, neg⟩
      call :: match transferNNodes s.heap (call.count tlAvgNodes) pos neg with
        | some h => transferLoopCalls tlAvgNodes turns (call.settle tlAvgNodes h)
        | none => []
    | _, _ => []

/-- The calls of `_transferNNodes` in the loop over the domains. -/
def balanceDomainsCalls (tlAvgNodes : ListPtr → Nat) : List (List ListPtr) → BalanceState α → List (TransferCall α)
  | [], _ => []
  | domain :: domains, s =>
    let s₁ := domain.foldl (classifyList tlAvgNodes) s
    transferLoopCalls tlAvgNodes (s₁.posStack.length + s₁.negStack.length) s₁ ++
      match balanceDomain tlAvgNodes s domain with
      | some s' => balanceDomainsCalls tlAvgNodes domains s'
      | none => []

/-- The calls of `_transferNNodes` in `_autobalanceThreadLoad`. -/
def autobalanceThreadLoadCalls (set : PumaSet) (h : Heap α) (tlAvgNodes : ListPtr → Nat → Nat) :
    List (TransferCall α) :=
  let active := set.tidToThreadList.filter fun tl => (h.lists tl).active
  let numLists := active.length
  let totalNodes := (active.map fun tl => (h.lists tl).numNodes).sum
  balanceDomainsCalls (fun tl => tlAvgNodes tl (totalNodes / numLists)) set.domains
    { heap := h, rem := totalNodes % numLists, posStack := [], negStack := [] }

/-- One turn of the transfer loop. -/
theorem transferLoop_turn (tlAvgNodes : ListPtr → Nat) (turns : Nat) {s : BalanceState α} {pos neg : ListPtr}
    {posRest negRest : List ListPtr} (atPos : s.posStack = pos :: posRest) (atNeg : s.negStack = neg :: negRest) :
    transferLoop tlAvgNodes (turns + 1) s =
      (transferNNodes s.heap (TransferCall.count tlAvgNodes ⟨s, pos, neg⟩) pos neg).bind fun h =>
        transferLoop tlAvgNodes turns (TransferCall.settle tlAvgNodes ⟨s, pos, neg⟩ h) := by
  rw [transferLoop.eq_def]
  simp only [atPos, atNeg, TransferCall.count, TransferCall.settle, List.tail_cons, Option.bind_eq_bind]

/-- A property of the balancer's state, beside the lists `seen` so far, that its loops keep: a list met for the
first time may be classified, and the lists on top of the stacks may be brought closer to their targets. -/
structure BalanceRule (tlAvgNodes : ListPtr → Nat) (inv : List ListPtr → BalanceState α → Prop) : Prop where
  classify : ∀ seen s l, inv seen s → l ∉ seen → inv (l :: seen) (classifyList tlAvgNodes s l)
  turn : ∀ seen s pos neg posRest negRest, inv seen s → s.posStack = pos :: posRest → s.negStack = neg :: negRest →
    ∃ h', transferNNodes s.heap (TransferCall.count tlAvgNodes ⟨s, pos, neg⟩) pos neg = some h' ∧
      inv seen (TransferCall.settle tlAvgNodes ⟨s, pos, neg⟩ h') ∧
      (TransferCall.settle tlAvgNodes ⟨s, pos, neg⟩ h').posStack.length +
        (TransferCall.settle tlAvgNodes ⟨s, pos, neg⟩ h').negStack.length < s.posStack.length + s.negStack.length

section Rule

variable {tlAvgNodes : ListPtr → Nat} {inv : List ListPtr → BalanceState α → Prop} {seen : List ListPtr} {s : BalanceState α}

/-- Every turn of the transfer loop takes a list off its stack, until one of the stacks is empty. -/
theorem BalanceRule.transferLoop (rule : BalanceRule tlAvgNodes inv) {turns : Nat} (start : inv seen s)
    (enough : s.posStack.length + s.negStack.length ≤ turns) :
    ∃ s', Puma.transferLoop tlAvgNodes turns s = some s' ∧ inv seen s' ∧ (s'.posStack = [] ∨ s'.negStack = []) ∧
      ∀ call ∈ transferLoopCalls tlAvgNodes turns s, call.OnTop ∧ ∃ seen, inv seen call.state := by
  induction turns generalizing s with
  | zero =>
    have noPos : s.posStack = [] := List.length_eq_zero_iff.mp (by omega)
    exact ⟨s, by simp [Puma.transferLoop, noPos], start, Or.inl noPos, by simp [transferLoopCalls]⟩
  | succ turns ih =>
    cases atPos : s.posStack with
    | nil => exact ⟨s, by simp [Puma.transferLoop, atPos], start, Or.inl atPos, by simp [transferLoopCalls, atPos]⟩
    | cons pos posRest =>
      cases atNeg : s.negStack with
      | nil =>
        exact ⟨s, by simp [Puma.transferLoop, atPos, atNeg], start, Or.inr atNeg, by simp [transferLoopCalls, atPos, atNeg]⟩
      | cons neg negRest =>
        obtain ⟨h', run, next, shorter⟩ := rule.turn seen s pos neg posRest negRest start atPos atNeg
        obtain ⟨s', loop, last, drained, calls⟩ := ih next (by omega)
        refine ⟨s', ?_, last, drained, ?_⟩
        · rw [transferLoop_turn tlAvgNodes turns atPos atNeg, run]
          exact loop
        · simp only [transferLoopCalls, atPos, atNeg, run]
          exact List.forall_mem_cons.mpr ⟨⟨⟨⟨posRest, atPos⟩, ⟨negRest, atNeg⟩⟩, seen, start⟩, calls⟩

theorem BalanceRule.classifyLists (rule : BalanceRule tlAvgNodes inv) {domain : List ListPtr} (start : inv seen s)
    (fresh : ∀ l ∈ domain, l ∉ seen) (nodup : domain.Nodup) :
    inv (domain.reverse ++ seen) (domain.foldl (classifyList tlAvgNodes) s) := by
  induction domain generalizing s seen with
  | nil => exact start
  | cons l domain ih =>
    rw [List.nodup_cons] at nodup
    have next := rule.classify seen s l start (fresh l (List.mem_cons_self ..))
    rw [List.reverse_cons, List.append_assoc, List.singleton_append]
    refine ih next (fun m member old => ?_) nodup.2
    rcases List.mem_cons.mp old with rfl | before
    · exact nodup.1 member
    · exact fresh m (List.mem_cons_of_mem _ member) before

/-- The stacks survive from one domain to the next, and so does the property. -/
theorem BalanceRule.balanceDomains (rule : BalanceRule tlAvgNodes inv) {domains : List (List ListPtr)}
    (start : inv seen s) (drained : s.posStack = [] ∨ s.negStack = []) (nodup : domains.flatten.Nodup)
    (fresh : ∀ l ∈ domains.flatten, l ∉ seen) :
    ∃ s', domains.foldlM (balanceDomain tlAvgNodes) s = some s' ∧ inv (domains.flatten.reverse ++ seen) s' ∧
      (s'.posStack = [] ∨ s'.negStack = []) ∧
      ∀ call ∈ balanceDomainsCalls tlAvgNodes domains s, call.OnTop ∧ ∃ seen, inv seen call.state := by
  induction domains generalizing s seen with
  | nil => exact ⟨s, rfl, start, drained, by simp [balanceDomainsCalls]⟩
  | cons domain domains ih =>
    rw [List.flatten_cons, List.nodup_append] at nodup
    have classified := rule.classifyLists start (fun l member => fresh l (by simp [member])) nodup.1
    obtain ⟨s₁, loop, next, drained₁, calls⟩ := rule.transferLoop classified le_rfl
    have turn : balanceDomain tlAvgNodes s domain = some s₁ := loop
    obtain ⟨s', rest, last, drained', later⟩ := ih next drained₁ nodup.2.1 fun l member old => by
      rcases List.mem_append.mp old with here | before
      · exact nodup.2.2 l (List.mem_reverse.mp here) l member rfl
      · exact fresh l (by rw [List.flatten_cons]; exact List.mem_append_right _ member) before
    refine ⟨s', ?_, ?_, drained', ?_⟩
    · rw [List.foldlM_cons, turn]
      exact rest
    · rw [List.flatten_cons, List.reverse_append, List.append_assoc]
      exact last
    · simp only [balanceDomainsCalls, turn]
      exact List.forall_mem_append.mpr ⟨calls, later⟩

/-- The balancer returns if the property holds at its start; it holds in its last state, in which one of the
stacks is empty, and in the states in which it calls `_transferNNodes`. -/
theorem BalanceRule.autobalanceThreadLoad {set : PumaSet} {h : Heap α} {tlAvgNodes : ListPtr → Nat → Nat}
    (rule : BalanceRule (fun tl => tlAvgNodes tl (h.nodesOf set.tidToThreadList / set.tidToThreadList.length)) inv)
    (active : ∀ l ∈ set.tidToThreadList, (h.lists l).active = true) (threads : set.tidToThreadList ≠ [])
    (nodup : set.domains.flatten.Nodup)
    (start : inv [] ⟨h, h.nodesOf set.tidToThreadList % set.tidToThreadList.length, [], []⟩) :
    ∃ s, Puma.autobalanceThreadLoad set h tlAvgNodes = some s.heap ∧ inv set.domains.flatten.reverse s ∧
      (s.posStack = [] ∨ s.negStack = []) ∧
      ∀ call ∈ autobalanceThreadLoadCalls set h tlAvgNodes, call.OnTop ∧ ∃ seen, inv seen call.state := by
  have all : set.tidToThreadList.filter (fun tl => (h.lists tl).active) = set.tidToThreadList :=
    List.filter_eq_self.mpr active
  have positive : set.tidToThreadList.length ≠ 0 := fun zero => threads (List.length_eq_zero_iff.mp zero)
  obtain ⟨s, run, last, drained, calls⟩ := rule.balanceDomains start (Or.inl rfl) nodup (by simp)
  rw [List.append_nil] at last
  refine ⟨s, ?_, last, drained, ?_⟩
  · simp only [Puma.autobalanceThreadLoad, all, positive, if_false, Option.bind_eq_bind]
    exact Option.bind_eq_some_iff.mpr ⟨s, run, rfl⟩
  · simp only [autobalanceThreadLoadCalls, all]
    exact calls

end Rule

section Balancer

variable {lists : List ListPtr} {good : Heap α → Prop} {tlAvgNodes : ListPtr → Nat} {total budget : Nat}
  {seen settled : List ListPtr} {s : BalanceState α}

theorem BalanceInv.distinct (inv : BalanceInv lists good tlAvgNodes total budget seen settled s) :
    (settled ++ (s.posStack ++ s.negStack)).Nodup := inv.places.nodup_iff.mpr (inv.nodup.filter _)

theorem BalanceInv.mem (inv : BalanceInv lists good tlAvgNodes total budget seen settled s) {l : ListPtr}
    (placed : l ∈ s.posStack ∨ l ∈ s.negStack) : l ∈ lists := by
  have member : l ∈ settled ++ (s.posStack ++ s.negStack) := by
    simp only [List.mem_append]
    exact Or.inr placed
  simpa using (List.mem_filter.mp (inv.places.mem_iff.mp member)).2

/-- A list met for the first time goes on one of the stacks or is settled. -/
theorem Classified.balanceInv {s' : BalanceState α} {l : ListPtr} {done : List ListPtr}
    (step : Classified tlAvgNodes s l s' done) (fits : Balanceable lists good)
    (inv : BalanceInv lists good tlAvgNodes total budget seen settled s) (fresh : l ∉ seen) :
    BalanceInv lists good tlAvgNodes total budget (l :: seen) (done ++ settled) s' := by
  have nodup : (l :: seen).Nodup := List.nodup_cons.mpr ⟨fresh, inv.nodup⟩
  have places (on : (s.heap.lists l).active = true) :
      (l :: (settled ++ (s.posStack ++ s.negStack))).Perm ((l :: seen).filter fun l => l ∈ lists) := by
    have filtered : (l :: seen).filter (fun l => l ∈ lists) = l :: seen.filter fun l => l ∈ lists :=
      List.filter_cons_of_pos (by simpa using (fits.active s.heap inv.good l).mp on)
    rw [filtered]
    exact inv.places.cons l
  have pos {rem : Nat} (fewer : rem ≤ s.rem) :
      ∀ m ∈ s.posStack, (tlAvgNodes m + if 0 < rem then 1 else 0) < (s.heap.lists m).numNodes := fun m inPos => by
    have many := inv.pos m inPos
    unfold BalanceState.extra at many
    split at many <;> split <;> omega
  have spent := inv.spent
  cases step with
  | idle off =>
    have out : l ∉ lists := fun member => by
      rw [(fits.active s.heap inv.good l).mpr member] at off
      cases off
    have filtered : (l :: seen).filter (fun l => l ∈ lists) = seen.filter fun l => l ∈ lists :=
      List.filter_cons_of_neg (by simpa using out)
    exact ⟨inv.good, nodup, by rw [filtered]; exact inv.places, inv.pos, inv.neg, inv.met, spent, inv.total⟩
  | @many rem on charge above =>
    have fewer : rem ≤ s.rem := by omega
    refine ⟨inv.good, nodup, List.perm_middle.trans (places on), ?_, inv.neg, inv.met, ?_, inv.total⟩
    · exact List.forall_mem_cons.mpr ⟨above, pos fewer⟩
    · dsimp only [List.nil_append]
      omega
  | few on below =>
    refine ⟨inv.good, nodup, ?_, inv.pos, List.forall_mem_cons.mpr ⟨below, inv.neg⟩, inv.met, spent, inv.total⟩
    refine List.Perm.trans ?_ (places on)
    rw [List.nil_append, ← List.append_assoc, ← List.append_assoc]
    exact List.perm_middle
  | @settled rem on least most charge =>
    have fewer : rem ≤ s.rem := by omega
    refine ⟨inv.good, nodup, places on, pos fewer, inv.neg, List.forall_mem_cons.mpr ⟨least, inv.met⟩, ?_, inv.total⟩
    rw [List.singleton_append, Heap.nodesOf_cons, List.map_cons, List.sum_cons]
    dsimp only
    omega

/-- A list that has reached its target adds the target to the nodes. -/
theorem Heap.nodesOf_met (h : Heap α) (tlAvgNodes : ListPtr → Nat) (l : ListPtr) :
    h.nodesOf (if (h.lists l).numNodes = tlAvgNodes l then [l] else []) =
      ((if (h.lists l).numNodes = tlAvgNodes l then [l] else []).map tlAvgNodes).sum := by
  split
  · rename_i met
    simp [Heap.nodesOf, met]
  · rfl

section Turn

variable {pos neg : ListPtr} {posRest negRest : List ListPtr}

/-- Between the lists on top of the two stacks, neither difference wraps. -/
theorem BalanceInv.count_eq (inv : BalanceInv lists good tlAvgNodes total budget seen settled s)
    (atPos : s.posStack = pos :: posRest) (atNeg : s.negStack = neg :: negRest) :
    TransferCall.count tlAvgNodes ⟨s, pos, neg⟩ = min (tlAvgNodes neg - (s.heap.lists neg).numNodes)
      ((s.heap.lists pos).numNodes - (tlAvgNodes pos + s.extra)) := by
  have many := inv.pos pos (by simp [atPos])
  have few := inv.neg neg (by simp [atNeg])
  simp only [TransferCall.count, sizeSub_of_le few.le, sizeSub_of_le many.le]

/-- The lists on top of the two stacks are apart, and both differences that bound the transfer are positive. -/
theorem BalanceInv.sound (inv : BalanceInv lists good tlAvgNodes total budget seen settled s)
    (atPos : s.posStack = pos :: posRest) (atNeg : s.negStack = neg :: negRest) :
    TransferCall.Sound tlAvgNodes ⟨s, pos, neg⟩ := by
  have many := inv.pos pos (by simp [atPos])
  have few := inv.neg neg (by simp [atNeg])
  have count := inv.count_eq atPos atNeg
  have most : TransferCall.count tlAvgNodes ⟨s, pos, neg⟩ ≤ (s.heap.lists pos).numNodes := by omega
  refine ⟨fun same => ?_, by omega, most, few.le, many.le⟩
  dsimp only at same
  rw [same] at many
  omega

/-- The transfer brings one of the two lists to its target, and that list leaves its stack. -/
theorem BalanceInv.settle_length_lt (inv : BalanceInv lists good tlAvgNodes total budget seen settled s)
    (atPos : s.posStack = pos :: posRest) (atNeg : s.negStack = neg :: negRest) {h' : Heap α}
    (moved : NodesMoved s.heap h' (TransferCall.count tlAvgNodes ⟨s, pos, neg⟩) pos neg) :
    (TransferCall.settle tlAvgNodes ⟨s, pos, neg⟩ h').posStack.length +
      (TransferCall.settle tlAvgNodes ⟨s, pos, neg⟩ h').negStack.length < s.posStack.length + s.negStack.length := by
  have many := inv.pos pos (by simp [atPos])
  have few := inv.neg neg (by simp [atNeg])
  have count := inv.count_eq atPos atNeg
  have posNow := moved.atSource
  have negNow := moved.atTarget
  have met : (h'.lists pos).numNodes = tlAvgNodes pos + s.extra ∨ (h'.lists neg).numNodes = tlAvgNodes neg := by omega
  simp only [TransferCall.settle, atPos, atNeg, List.tail_cons]
  rcases met with source | target
  · rw [if_pos source]
    split <;> simp only [List.length_cons] <;> omega
  · rw [if_pos target]
    split <;> simp only [List.length_cons] <;> omega

/-- No list that is settled or further down on a stack is one of the two on top. -/
theorem BalanceInv.beneath (inv : BalanceInv lists good tlAvgNodes total budget seen settled s)
    (atPos : s.posStack = pos :: posRest) (atNeg : s.negStack = neg :: negRest) {m : ListPtr}
    (member : m ∈ settled ++ (posRest ++ negRest)) : m ≠ pos ∧ m ≠ neg := by
  have distinct := inv.distinct
  rw [atPos, atNeg] at distinct
  have order : (settled ++ (pos :: posRest ++ neg :: negRest)).Perm (pos :: neg :: (settled ++ (posRest ++ negRest))) := by
    rw [List.perm_iff_count]
    intro l
    simp only [List.count_append, List.count_cons]
    omega
  obtain ⟨notPos, rest⟩ := List.nodup_cons.mp (order.nodup_iff.mp distinct)
  obtain ⟨notNeg, _⟩ := List.nodup_cons.mp rest
  exact ⟨fun same => notPos (same ▸ List.mem_cons_of_mem neg member), fun same => notNeg (same ▸ member)⟩

theorem BalanceInv.settledStay (inv : BalanceInv lists good tlAvgNodes total budget seen settled s)
    (atPos : s.posStack = pos :: posRest) (atNeg : s.negStack = neg :: negRest) {h' : Heap α} {n : Nat}
    (moved : NodesMoved s.heap h' n pos neg) : h'.nodesOf settled = s.heap.nodesOf settled :=
  moved.nodesOf_eq (fun inSettled => (inv.beneath atPos atNeg (List.mem_append_left _ inSettled)).1 rfl)
    fun inSettled => (inv.beneath atPos atNeg (List.mem_append_left _ inSettled)).2 rfl

/-- The transfer and the rest of the turn keep the invariant. -/
theorem BalanceInv.settle (inv : BalanceInv lists good tlAvgNodes total budget seen settled s)
    (atPos : s.posStack = pos :: posRest) (atNeg : s.negStack = neg :: negRest) {h' : Heap α} (kept : good h')
    (moved : NodesMoved s.heap h' (TransferCall.count tlAvgNodes ⟨s, pos, neg⟩) pos neg) :
    BalanceInv lists good tlAvgNodes total budget seen (TransferCall.reached tlAvgNodes ⟨s, pos, neg⟩ h' ++ settled)
      (TransferCall.settle tlAvgNodes ⟨s, pos, neg⟩ h') := by
  obtain ⟨apart, nonempty, most, targetSub, sourceSub⟩ := inv.sound atPos atNeg
  have posIn := inv.mem (Or.inl (by simp [atPos] : pos ∈ s.posStack))
  have negIn := inv.mem (Or.inr (by simp [atNeg] : neg ∈ s.negStack))
  have count := inv.count_eq atPos atNeg
  generalize TransferCall.count tlAvgNodes ⟨s, pos, neg⟩ = n at *
  dsimp only at apart most targetSub sourceSub
  have posNow := moved.atSource
  have negNow := moved.atTarget
  have stay {m : ListPtr} (member : m ∈ settled ++ (posRest ++ negRest)) :
      (h'.lists m).numNodes = (s.heap.lists m).numNodes := by
    obtain ⟨notPos, notNeg⟩ := inv.beneath atPos atNeg member
    exact moved.others m notPos notNeg
  -- The lists that reach their targets join the settled ones.
  generalize posDone : (if (h'.lists pos).numNodes = tlAvgNodes pos + s.extra then [pos] else []) = donePos
  generalize negDone : (if (h'.lists neg).numNodes = tlAvgNodes neg then [neg] else []) = doneNeg
  generalize after : TransferCall.settle tlAvgNodes ⟨s, pos, neg⟩ h' = s₁
  have heap₁ : s₁.heap = h' := by rw [← after]; rfl
  have spend := s.spendRem_rem ((h'.lists pos).numNodes = tlAvgNodes pos + s.extra)
  have rem₁ : s₁.rem = (s.spendRem ((h'.lists pos).numNodes = tlAvgNodes pos + s.extra)).rem := by rw [← after]; rfl
  rw [← rem₁] at spend
  have less : s₁.extra ≤ s.extra := BalanceState.extra_mono (by omega)
  have pos₁ : s₁.posStack = if (h'.lists pos).numNodes = tlAvgNodes pos + s.extra then posRest
      else pos :: posRest := by
    rw [← after]
    simp only [TransferCall.settle, atPos, List.tail_cons]
  have neg₁ : s₁.negStack = if (h'.lists neg).numNodes = tlAvgNodes neg then negRest else neg :: negRest := by
    rw [← after]
    simp only [TransferCall.settle, atNeg, List.tail_cons]
  have settledStay : h'.nodesOf settled = s.heap.nodesOf settled := inv.settledStay atPos atNeg moved
  have chargedPos : h'.nodesOf donePos + s₁.rem ≤ (donePos.map tlAvgNodes).sum + s.rem := by
    have bound : s.extra = if 0 < s.rem then 1 else 0 := rfl
    rw [← posDone]
    split
    · rename_i met
      simp only [met, and_true] at spend
      simp only [Heap.nodesOf, List.map_cons, List.map_nil, List.sum_cons, List.sum_nil]
      omega
    · simp only [Heap.nodesOf, List.map_nil, List.sum_nil]
      omega
  have chargedNeg : h'.nodesOf doneNeg = (doneNeg.map tlAvgNodes).sum := by
    rw [← negDone]
    exact h'.nodesOf_met tlAvgNodes neg
  have reached : TransferCall.reached tlAvgNodes ⟨s, pos, neg⟩ h' = donePos ++ doneNeg := by rw [← posDone, ← negDone]; rfl
  rw [reached, List.append_assoc]
  refine ⟨heap₁ ▸ kept, inv.nodup, ?_, ?_, ?_, fun m member => ?_, ?_, ?_⟩
  · refine List.Perm.trans ?_ inv.places
    rw [atPos, atNeg, pos₁, neg₁, ← posDone, ← negDone, List.perm_iff_count]
    intro l
    split <;> split <;> simp only [List.count_append, List.count_cons, List.count_nil] <;> omega
  · have rest : ∀ m ∈ posRest, tlAvgNodes m + s₁.extra < (h'.lists m).numNodes := fun m inPos => by
      have high := inv.pos m (by simp [atPos, inPos])
      rw [stay (by simp [inPos])]
      omega
    rw [heap₁, pos₁]
    split
    · exact rest
    · exact List.forall_mem_cons.mpr ⟨by omega, rest⟩
  · have rest : ∀ m ∈ negRest, (h'.lists m).numNodes < tlAvgNodes m := fun m inNeg => by
      rw [stay (by simp [inNeg])]
      exact inv.neg m (by simp [atNeg, inNeg])
    rw [heap₁, neg₁]
    split
    · exact rest
    · exact List.forall_mem_cons.mpr ⟨by omega, rest⟩
  · rw [heap₁]
    rcases List.mem_append.mp member with inPos | member
    · rw [← posDone] at inPos
      split at inPos
      · rw [List.mem_singleton.mp inPos]
        omega
      · cases inPos
    · rcases List.mem_append.mp member with inNeg | old
      · rw [← negDone] at inNeg
        split at inNeg
        · rw [List.mem_singleton.mp inNeg]
          omega
        · cases inNeg
      · rw [stay (List.mem_append_left _ old)]
        exact inv.met m old
  · rw [heap₁, Heap.nodesOf_append, Heap.nodesOf_append, List.map_append, List.map_append, List.sum_append,
      List.sum_append]
    have before := inv.spent
    omega
  · rw [heap₁, moved.nodesOf apart most (List.nodup_dedup lists) (List.mem_dedup.mpr posIn) (List.mem_dedup.mpr negIn)]
    exact inv.total

/-- A turn of the transfer loop keeps the invariant and takes one of the two lists off its stack. -/
theorem transferTurn_spec (fits : Balanceable lists good)
    (inv : BalanceInv lists good tlAvgNodes total budget seen settled s)
    (atPos : s.posStack = pos :: posRest) (atNeg : s.negStack = neg :: negRest) :
    ∃ h', transferNNodes s.heap (TransferCall.count tlAvgNodes ⟨s, pos, neg⟩) pos neg = some h' ∧
      NodesMoved s.heap h' (TransferCall.count tlAvgNodes ⟨s, pos, neg⟩) pos neg ∧
      BalanceInv lists good tlAvgNodes total budget seen (TransferCall.reached tlAvgNodes ⟨s, pos, neg⟩ h' ++ settled)
        (TransferCall.settle tlAvgNodes ⟨s, pos, neg⟩ h') ∧
      (TransferCall.settle tlAvgNodes ⟨s, pos, neg⟩ h').posStack.length +
        (TransferCall.settle tlAvgNodes ⟨s, pos, neg⟩ h').negStack.length < s.posStack.length + s.negStack.length := by
  obtain ⟨apart, nonempty, most, _, _⟩ := inv.sound atPos atNeg
  have posIn := inv.mem (Or.inl (by simp [atPos] : pos ∈ s.posStack))
  have negIn := inv.mem (Or.inr (by simp [atNeg] : neg ∈ s.negStack))
  obtain ⟨h', run, kept, moved⟩ := fits.transfer s.heap pos neg _ inv.good apart posIn negIn nonempty most
  exact ⟨h', run, moved, inv.settle atPos atNeg kept moved, inv.settle_length_lt atPos atNeg moved⟩

end Turn

/-- What a call of `_transferNNodes` between the lists on top of the stacks is promised. -/
theorem BalanceInv.made (inv : BalanceInv lists good tlAvgNodes total budget seen settled s) {call : TransferCall α}
    (inState : call.state = s) (onTop : call.OnTop) : call.Made lists good tlAvgNodes := by
  subst inState
  obtain ⟨⟨posRest, atPos⟩, negRest, atNeg⟩ := onTop
  exact ⟨inv.sound atPos atNeg, inv.good, inv.mem (Or.inl (by simp [atPos])), inv.mem (Or.inr (by simp [atNeg]))⟩

theorem BalanceInv.rule (fits : Balanceable lists good) :
    BalanceRule tlAvgNodes fun seen s => ∃ settled, BalanceInv (α := α) lists good tlAvgNodes total budget seen settled s where
  classify seen s l inv fresh := by
    obtain ⟨settled, inv⟩ := inv
    obtain ⟨done, step⟩ := classifyList_classified tlAvgNodes s l
    exact ⟨_, step.balanceInv fits inv fresh⟩
  turn seen s pos neg posRest negRest inv atPos atNeg := by
    obtain ⟨settled, inv⟩ := inv
    obtain ⟨h', run, _, next, shorter⟩ := transferTurn_spec fits inv atPos atNeg
    exact ⟨h', run, ⟨_, next⟩, shorter⟩

/-- Before the loops no list has been met. -/
theorem BalanceInv.start {h : Heap α} (atStart : good h) (rem : Nat) :
    BalanceInv lists good tlAvgNodes (h.nodesOf lists.dedup) rem [] [] ⟨h, rem, [], []⟩ :=
  ⟨atStart, List.nodup_nil, .nil, by simp, by simp, by simp, by simp [Heap.nodesOf], rfl⟩

/-- The balancer returns, and its last state has all active lists on one stack or settled. -/
theorem autobalanceThreadLoad_spec {set : PumaSet} {h : Heap α} (fits : Balanceable set.tidToThreadList good)
    (start : good h) (threads : set.tidToThreadList ≠ []) (nodup : set.domains.flatten.Nodup)
    (tlAvgNodes : ListPtr → Nat → Nat) :
    ∃ s settled, autobalanceThreadLoad set h tlAvgNodes = some s.heap ∧
      BalanceInv set.tidToThreadList good
        (fun tl => tlAvgNodes tl (h.nodesOf set.tidToThreadList / set.tidToThreadList.length))
        (h.nodesOf set.tidToThreadList.dedup) (h.nodesOf set.tidToThreadList % set.tidToThreadList.length)
        set.domains.flatten.reverse settled s ∧
      (s.posStack = [] ∨ s.negStack = []) ∧
      ∀ call ∈ autobalanceThreadLoadCalls set h tlAvgNodes, call.Made set.tidToThreadList good
        fun tl => tlAvgNodes tl (h.nodesOf set.tidToThreadList / set.tidToThreadList.length) := by
  obtain ⟨s, run, ⟨settled, inv⟩, drained, calls⟩ := (BalanceInv.rule fits).autobalanceThreadLoad
    (fun l member => (fits.active h start l).mpr member) threads nodup ⟨[], .start start _⟩
  refine ⟨s, settled, run, inv, drained, fun call made => ?_⟩
  obtain ⟨onTop, seen, settled', inv'⟩ := calls call made
  exact inv'.made rfl onTop

/-- A set in order stays so under the balancer, which moves no element. -/
theorem SetOk.balanceable (h₀ : Heap α) (lists : List ListPtr) :
    Balanceable lists fun h => SetOk h lists ∧ Rebalanced h₀ h where
  active h kept := kept.1.active
  transfer h source target n kept apart inSource inTarget nonempty most := by
    obtain ⟨h', run, set, rebalanced, atSource, atTarget, others⟩ :=
      kept.1.transfer apart inSource inTarget nonempty most
    exact ⟨h', run, ⟨set, kept.2.trans rebalanced⟩, atSource, atTarget,
      fun m notSource notTarget => by rw [others m notSource notTarget]⟩

/-- The balancer returns, keeps the set in order and moves no element. -/
theorem balanceThreadLoad_spec {set : PumaSet} {h : Heap α} (setOk : SetOk h set.tidToThreadList)
    (threads : set.tidToThreadList ≠ []) (nodup : set.domains.flatten.Nodup)
    (tlAvgNodes : ListPtr → Nat → Nat) :
    ∃ h', balanceThreadLoad set h tlAvgNodes = some h' ∧ SetOk h' set.tidToThreadList ∧ Rebalanced h h' := by
  unfold balanceThreadLoad
  split
  · obtain ⟨s, settled, run, inv, _⟩ := autobalanceThreadLoad_spec (SetOk.balanceable h set.tidToThreadList)
      ⟨setOk, Rebalanced.refl h⟩ threads nodup tlAvgNodes
    exact ⟨s.heap, run, inv.good⟩
  · exact ⟨h, rfl, setOk, Rebalanced.refl h⟩

end Balancer

end Puma
