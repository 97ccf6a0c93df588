import Puma.Autobalance

namespace Puma

variable {α : Type}

/-- The subscript of the top of a stack, `size - 1` as a `size_t`. -/
def topSubscript (stack : List ListPtr) : Nat := sizeSub stack.length 1

/-- The subscript that the body of the loop over the lists of a domain stores at, if it stores. -/
def pushSubscripts (tlAvgNodes : ListPtr → Nat) (s : BalanceState α) (tl : ListPtr) : List Nat :=
  let list := s.heap.lists tl
  if list.active then
    let s := s.spendRem (list.numNodes = tlAvgNodes tl + 1)
    if tlAvgNodes tl + s.extra < list.numNodes then [s.posStack.length]
    else if list.numNodes < tlAvgNodes tl then [s.negStack.length]
    else []
  else []

/-- The subscripts of the loop over the lists of a domain. -/
def classifySubscripts (tlAvgNodes : ListPtr → Nat) : List ListPtr → BalanceState α → List Nat
  | [], _ => []
  | tl :: domain, s => pushSubscripts tlAvgNodes s tl ++ classifySubscripts tlAvgNodes domain (classifyList tlAvgNodes s tl)

/-- The subscripts of the transfer loop. The stacks are subscripted nine times before the first of them is popped and
once between the pops, each time at their tops; after the pops `VALGRIND_MAKE_MEM_NOACCESS` evaluates its
argument at what are the tops by then. -/
def transferLoopSubscripts (tlAvgNodes : ListPtr → Nat) : Nat → BalanceState α → List Nat
  | 0, _ => []
  | turns + 1, s =>
    match s.posStack, s.negStack with
    | pos :: _, neg :: _ =>
      let call : TransferCall α := ⟨s, pos, neg⟩
      let posTop := topSubscript s.posStack
      let negTop := topSubscript s.negStack
      [negTop, posTop, posTop, negTop, negTop, posTop, posTop, negTop] ++
        match transferNNodes s.heap (call.count tlAvgNodes) pos neg with
        | some h =>
          let s := call.settle tlAvgNodes h
          [posTop, negTop, topSubscript s.negStack, topSubscript s.posStack] ++ transferLoopSubscripts tlAvgNodes turns s
        | none => []
    | _, _ => []

/-- The subscripts of the loop over the domains. -/
def balanceDomainsSubscripts (tlAvgNodes : ListPtr → Nat) : List (List ListPtr) → BalanceState α → List Nat
  | [], _ => []
  | domain :: domains, s =>
    let s₁ := domain.foldl (classifyList tlAvgNodes) s
    classifySubscripts tlAvgNodes domain s ++
      transferLoopSubscripts tlAvgNodes (s₁.posStack.length + s₁.negStack.length) s₁ ++
      match balanceDomain tlAvgNodes s domain with
      | some s' => balanceDomainsSubscripts tlAvgNodes domains s'
      | none => []

/-- The subscripts of `posStack` and `negStack` in `_autobalanceThreadLoad`. -/
def autobalanceThreadLoadSubscripts (set : PumaSet) (h : Heap α) (tlAvgNodes : ListPtr → Nat → Nat) : List Nat :=
  let active := set.tidToThreadList.filter fun tl => (h.lists tl).active
  let numLists := active.length
  let totalNodes := (active.map fun tl => (h.lists tl).numNodes).sum
  balanceDomainsSubscripts (fun tl => tlAvgNodes tl (totalNodes / numLists)) set.domains
    { heap := h, rem := totalNodes % numLists, posStack := [], negStack := [] }

section Subscripts

variable {tlAvgNodes : ListPtr → Nat} {s : BalanceState α} {l : ListPtr} {i : Nat}

/-- A store at a subscript makes the stack one longer than it. -/
theorem mem_pushSubscripts (stored : i ∈ pushSubscripts tlAvgNodes s l) :
    (classifyList tlAvgNodes s l).posStack.length = i + 1 ∨ (classifyList tlAvgNodes s l).negStack.length = i + 1 := by
  simp only [pushSubscripts] at stored
  simp only [classifyList]
  split at stored
  · rename_i on
    rw [if_pos on]
    split at stored
    · rename_i above
      rw [if_pos above, List.mem_singleton.mp stored]
      exact Or.inl (List.length_cons ..)
    · rename_i most
      rw [if_neg most]
      split at stored
      · rename_i below
        rw [if_pos below, List.mem_singleton.mp stored]
        exact Or.inr (List.length_cons ..)
      · cases stored
  · cases stored

/-- Meeting a list takes nothing off the stacks. -/
theorem classifyList_suffix (tlAvgNodes : ListPtr → Nat) (s : BalanceState α) (l : ListPtr) :
    s.posStack <:+ (classifyList tlAvgNodes s l).posStack ∧ s.negStack <:+ (classifyList tlAvgNodes s l).negStack := by
  obtain ⟨done, step⟩ := classifyList_classified tlAvgNodes s l
  generalize classifyList tlAvgNodes s l = s' at step
  cases step with
  | idle => exact ⟨List.suffix_rfl, List.suffix_rfl⟩
  | many => exact ⟨List.suffix_cons .., List.suffix_rfl⟩
  | few => exact ⟨List.suffix_rfl, List.suffix_cons ..⟩
  | settled => exact ⟨List.suffix_rfl, List.suffix_rfl⟩

theorem classifyLists_suffix (tlAvgNodes : ListPtr → Nat) (s : BalanceState α) (lists : List ListPtr) :
    s.posStack <:+ (lists.foldl (classifyList tlAvgNodes) s).posStack ∧
      s.negStack <:+ (lists.foldl (classifyList tlAvgNodes) s).negStack := by
  induction lists generalizing s with
  | nil => exact ⟨List.suffix_rfl, List.suffix_rfl⟩
  | cons l lists ih =>
    obtain ⟨pos, neg⟩ := classifyList_suffix tlAvgNodes s l
    obtain ⟨pos', neg'⟩ := ih (classifyList tlAvgNodes s l)
    exact ⟨pos.trans pos', neg.trans neg'⟩

/-- With one of the stacks empty there is no turn. -/
theorem transferLoop_quiet (tlAvgNodes : ListPtr → Nat) (quiet : s.posStack = [] ∨ s.negStack = []) (turns : Nat) :
    transferLoop tlAvgNodes turns s = some s ∧ transferLoopSubscripts tlAvgNodes turns s = [] := by
  rcases quiet with noPos | noNeg
  · cases turns <;> simp [transferLoop, transferLoopSubscripts, noPos]
  · cases turns <;> cases atPos : s.posStack <;> simp [transferLoop, transferLoopSubscripts, noNeg, atPos]

end Subscripts

section Run

variable {tlAvgNodes : ListPtr → Nat} {inv : List ListPtr → BalanceState α → Prop} {seen : List ListPtr} {s : BalanceState α}
  {numLists : Nat}

/-- The transfer loop pops until one of the stacks is empty, and then subscripts that one at its top. -/
theorem BalanceRule.underflow (rule : BalanceRule tlAvgNodes inv) {turns : Nat} (start : inv seen s)
    (enough : s.posStack.length + s.negStack.length ≤ turns) (somePos : s.posStack ≠ []) (someNeg : s.negStack ≠ []) :
    2 ^ 64 - 1 ∈ transferLoopSubscripts tlAvgNodes turns s := by
  induction turns generalizing s with
  | zero => exact absurd (List.length_eq_zero_iff.mp (by omega)) somePos
  | succ turns ih =>
    obtain ⟨pos, posRest, atPos⟩ := List.exists_cons_of_ne_nil somePos
    obtain ⟨neg, negRest, atNeg⟩ := List.exists_cons_of_ne_nil someNeg
    obtain ⟨h', run, next, shorter⟩ := rule.turn seen s pos neg posRest negRest start atPos atNeg
    simp only [transferLoopSubscripts, atPos, atNeg, run]
    refine List.mem_append_right _ ?_
    by_cases noPos : (TransferCall.settle tlAvgNodes ⟨s, pos, neg⟩ h').posStack = []
    · exact List.mem_append_left _ (by simp [topSubscript, noPos, sizeSub])
    · by_cases noNeg : (TransferCall.settle tlAvgNodes ⟨s, pos, neg⟩ h').negStack = []
      · exact List.mem_append_left _ (by simp [topSubscript, noNeg, sizeSub])
      · exact List.mem_append_right _ (ih next (by omega) noPos noNeg)

/-- The lists of a domain are stored within the stacks. -/
theorem BalanceRule.classifySubscripts_lt (rule : BalanceRule tlAvgNodes inv)
    (fits : ∀ seen s, inv seen s → s.posStack.length ≤ numLists ∧ s.negStack.length ≤ numLists) {domain : List ListPtr}
    (start : inv seen s) (fresh : ∀ l ∈ domain, l ∉ seen) (nodup : domain.Nodup) :
    ∀ i ∈ classifySubscripts tlAvgNodes domain s, i < numLists := by
  induction domain generalizing s seen with
  | nil => simp [classifySubscripts]
  | cons l domain ih =>
    rw [List.nodup_cons] at nodup
    have next := rule.classify seen s l start (fresh l (List.mem_cons_self ..))
    refine List.forall_mem_append.mpr ⟨fun i stored => ?_, ih next (fun m member old => ?_) nodup.2⟩
    · obtain ⟨pos, neg⟩ := fits _ _ next
      rcases mem_pushSubscripts stored with stored | stored <;> omega
    · rcases List.mem_cons.mp old with rfl | before
      · exact nodup.1 member
      · exact fresh m (List.mem_cons_of_mem _ member) before

/-- The subscripts stay within the stacks just when all lists together leave one of the stacks empty. -/
theorem BalanceRule.subscripts_iff (rule : BalanceRule tlAvgNodes inv)
    (fits : ∀ seen s, inv seen s → s.posStack.length ≤ numLists ∧ s.negStack.length ≤ numLists)
    (small : numLists < 2 ^ 64) {domains : List (List ListPtr)} (start : inv seen s)
    (nodup : domains.flatten.Nodup) (fresh : ∀ l ∈ domains.flatten, l ∉ seen)
    (quiet : s.posStack = [] ∨ s.negStack = []) :
    (∀ i ∈ balanceDomainsSubscripts tlAvgNodes domains s, i < numLists) ↔
      (domains.flatten.foldl (classifyList tlAvgNodes) s).posStack = [] ∨
        (domains.flatten.foldl (classifyList tlAvgNodes) s).negStack = [] := by
  induction domains generalizing s seen with
  | nil => simpa [balanceDomainsSubscripts] using quiet
  | cons domain domains ih =>
    rw [List.flatten_cons, List.nodup_append] at nodup
    have here (l : ListPtr) (member : l ∈ domain) : l ∉ seen := fresh l (by simp [member])
    have classified := rule.classifyLists start here nodup.1
    have stored := rule.classifySubscripts_lt fits start here nodup.1
    rw [List.flatten_cons, List.foldl_append]
    simp only [balanceDomainsSubscripts, balanceDomain]
    generalize domain.foldl (classifyList tlAvgNodes) s = s₁ at classified
    by_cases quiet₁ : s₁.posStack = [] ∨ s₁.negStack = []
    · obtain ⟨loop, missing⟩ := transferLoop_quiet tlAvgNodes quiet₁ (s₁.posStack.length + s₁.negStack.length)
      rw [loop, missing, List.append_nil, List.forall_mem_append]
      refine (and_iff_right stored).trans (ih classified nodup.2.1 (fun l member old => ?_) quiet₁)
      rcases List.mem_append.mp old with inDomain | before
      · exact nodup.2.2 l (List.mem_reverse.mp inDomain) l member rfl
      · exact fresh l (by rw [List.flatten_cons]; exact List.mem_append_right _ member) before
    · rw [not_or] at quiet₁
      obtain ⟨pos, neg⟩ := classifyLists_suffix tlAvgNodes s₁ domains.flatten
      refine iff_of_false (fun within => ?_) ?_
      · have past := within (2 ^ 64 - 1) (List.mem_append_left _ (List.mem_append_right _
          (rule.underflow classified le_rfl quiet₁.1 quiet₁.2)))
        omega
      · rintro (noPos | noNeg)
        · exact quiet₁.1 (List.suffix_nil.mp (noPos ▸ pos))
        · exact quiet₁.2 (List.suffix_nil.mp (noNeg ▸ neg))

/-- The stacks hold no more lists than there are. -/
theorem BalanceInv.stacks_le {lists settled : List ListPtr} {good : Heap α → Prop} {total budget : Nat}
    (inv : BalanceInv lists good tlAvgNodes total budget seen settled s) :
    s.posStack.length ≤ lists.length ∧ s.negStack.length ≤ lists.length := by
  have within : settled ++ (s.posStack ++ s.negStack) ⊆ lists := fun l member => by
    simpa using (List.mem_filter.mp (inv.places.mem_iff.mp member)).2
  have fewer := (List.subperm_of_subset inv.distinct within).length_le
  rw [List.length_append, List.length_append] at fewer
  omega

end Run

section Quiet

variable {tlAvgNodes : ListPtr → Nat} {s : BalanceState α} {lists : List ListPtr}

/-- The list is active and has one node more than its target. -/
def Heap.oneOver (h : Heap α) (tlAvgNodes : ListPtr → Nat) (l : ListPtr) : Bool :=
  (h.lists l).active && (h.lists l).numNodes == tlAvgNodes l + 1

theorem classifyList_heap (l : ListPtr) : (classifyList tlAvgNodes s l).heap = s.heap := by
  obtain ⟨done, step⟩ := classifyList_classified tlAvgNodes s l
  generalize classifyList tlAvgNodes s l = s' at step
  cases step <;> rfl

theorem BalanceState.spendRem_one (s : BalanceState α) (numNodes target : Nat) :
    (s.spendRem (numNodes = target + 1)).rem = s.rem - if numNodes = target + 1 then 1 else 0 := by
  simp only [BalanceState.spendRem]
  split <;> split <;> omega

theorem classifyList_rem (l : ListPtr) :
    (classifyList tlAvgNodes s l).rem = s.rem - if s.heap.oneOver tlAvgNodes l then 1 else 0 := by
  unfold classifyList
  dsimp only
  cases on : (s.heap.lists l).active with
  | false => simp [Heap.oneOver, on]
  | true =>
    simp only [Heap.oneOver, on, if_true, Bool.true_and, beq_iff_eq, ← s.spendRem_one]
    split
    · rfl
    · split <;> rfl

theorem classifyList_negStack (l : ListPtr) :
    (classifyList tlAvgNodes s l).negStack = [] ↔
      s.negStack = [] ∧ ((s.heap.lists l).active = true → tlAvgNodes l ≤ (s.heap.lists l).numNodes) := by
  unfold classifyList
  dsimp only
  cases on : (s.heap.lists l).active with
  | false => simp
  | true =>
    rw [if_pos rfl]
    split
    · rename_i above
      exact (and_iff_left fun _ => by omega).symm
    · split
      · rename_i below
        exact iff_of_false (List.cons_ne_nil _ _) fun met => absurd (met.2 rfl) (Nat.not_le.mpr below)
      · rename_i least
        exact (and_iff_left fun _ => Nat.le_of_not_lt least).symm

theorem classifyList_posStack (l : ListPtr) :
    (classifyList tlAvgNodes s l).posStack = [] ↔
      s.posStack = [] ∧ ((s.heap.lists l).active = true → (s.heap.lists l).numNodes ≤ tlAvgNodes l + 1) ∧
        (s.heap.oneOver tlAvgNodes l = true → 1 < s.rem) := by
  unfold classifyList
  dsimp only
  cases on : (s.heap.lists l).active with
  | false => simp [Heap.oneOver, on]
  | true =>
    have spend := s.spendRem_one (s.heap.lists l).numNodes (tlAvgNodes l)
    obtain ⟨rem, later⟩ : ∃ rem, s.spendRem ((s.heap.lists l).numNodes = tlAvgNodes l + 1) = { s with rem := rem } :=
      ⟨_, rfl⟩
    rw [later] at spend ⊢
    have extra : ({ s with rem := rem } : BalanceState α).extra = if 0 < rem then 1 else 0 := rfl
    dsimp only at spend ⊢
    simp only [if_true, Heap.oneOver, on, Bool.true_and, beq_iff_eq, true_implies]
    by_cases above : tlAvgNodes l + ({ s with rem := rem } : BalanceState α).extra < (s.heap.lists l).numNodes
    · rw [if_pos above]
      rw [extra] at above
      refine iff_of_false (List.cons_ne_nil _ _) fun met => ?_
      obtain ⟨_, most, one⟩ := met
      have same : (s.heap.lists l).numNodes = tlAvgNodes l + 1 := by split at above <;> omega
      have more := one same
      rw [if_pos same] at spend
      split at above <;> omega
    · rw [if_neg above]
      rw [extra] at above
      have kept : (if (s.heap.lists l).numNodes < tlAvgNodes l then
          ({ s with rem := rem, negStack := l :: s.negStack } : BalanceState α)
          else { s with rem := rem }).posStack = s.posStack := by
        split <;> rfl
      rw [kept]
      refine (and_iff_left ⟨by split at above <;> omega, fun same => ?_⟩).symm
      rw [if_pos same] at spend
      split at above <;> omega

/-- No list goes on `negStack` just when none of the active ones is below its target. -/
theorem classifyLists_negStack :
    (lists.foldl (classifyList tlAvgNodes) s).negStack = [] ↔
      s.negStack = [] ∧ ∀ l ∈ lists, (s.heap.lists l).active = true → tlAvgNodes l ≤ (s.heap.lists l).numNodes := by
  induction lists generalizing s with
  | nil => simp
  | cons l lists ih =>
    rw [List.foldl_cons, ih, List.forall_mem_cons, classifyList_negStack, classifyList_heap, and_assoc]

/-- No list goes on `posStack` just when none of the active ones has two nodes more than its target, and those with
one more are fewer than the remainder, or none at all. -/
theorem classifyLists_posStack :
    (lists.foldl (classifyList tlAvgNodes) s).posStack = [] ↔
      s.posStack = [] ∧ (∀ l ∈ lists, (s.heap.lists l).active = true → (s.heap.lists l).numNodes ≤ tlAvgNodes l + 1) ∧
        (lists.countP (s.heap.oneOver tlAvgNodes) = 0 ∨ lists.countP (s.heap.oneOver tlAvgNodes) < s.rem) := by
  induction lists generalizing s with
  | nil => simp
  | cons l lists ih =>
    -- The first of the lists with one more takes one of the remainder, so it asks for two of it.
    have count : (s.heap.oneOver tlAvgNodes l = true → 1 < s.rem) ∧
        (lists.countP (s.heap.oneOver tlAvgNodes) = 0 ∨ lists.countP (s.heap.oneOver tlAvgNodes) <
          s.rem - if s.heap.oneOver tlAvgNodes l then 1 else 0) ↔
        ((l :: lists).countP (s.heap.oneOver tlAvgNodes) = 0 ∨ (l :: lists).countP (s.heap.oneOver tlAvgNodes) < s.rem) := by
      rw [List.countP_cons]
      cases s.heap.oneOver tlAvgNodes l with
      | true => simp only [if_true, true_implies]; omega
      | false => simp
    rw [List.foldl_cons, ih, List.forall_mem_cons, classifyList_posStack, classifyList_heap, classifyList_rem, ← count]
    constructor
    · rintro ⟨⟨empty, first, spent⟩, others, left⟩
      exact ⟨empty, ⟨first, others⟩, spent, left⟩
    · rintro ⟨empty, ⟨first, others⟩, spent, left⟩
      exact ⟨⟨empty, first, spent⟩, others, left⟩

end Quiet

/-- No transfer has to be made: no list is below its target, or none has more than one node above it and the lists
with that one node above are fewer than the remainder, or none at all. -/
def Heap.InBalance (h : Heap α) (lists : List ListPtr) (tlAvgNodes : ListPtr → Nat) (rem : Nat) : Prop :=
  (∀ l ∈ lists, tlAvgNodes l ≤ (h.lists l).numNodes) ∨
    ((∀ l ∈ lists, (h.lists l).numNodes ≤ tlAvgNodes l + 1) ∧
      (lists.countP (h.oneOver tlAvgNodes) = 0 ∨ lists.countP (h.oneOver tlAvgNodes) < rem))

section Balancer

variable {set : CreatedSet} {h : Heap α}

/-- The loops over the domains meet every active list once. -/
theorem CreatedSet.countP_flatten (active : ∀ l, (h.lists l).active = true ↔ l ∈ set.tidToThreadList)
    (tlAvgNodes : ListPtr → Nat) :
    set.domains.flatten.countP (h.oneOver tlAvgNodes) = set.tidToThreadList.countP (h.oneOver tlAvgNodes) := by
  have same : (set.domains.flatten.filter (h.oneOver tlAvgNodes)).Perm
      (set.tidToThreadList.filter (h.oneOver tlAvgNodes)) := by
    refine (List.perm_ext_iff_of_nodup (set.cpus.filter _) (set.distinct.filter _)).mpr fun l => ?_
    rw [List.mem_filter, List.mem_filter]
    refine and_congr_left fun overfull => ⟨fun _ => (active l).mp ?_, set.placed l⟩
    exact (Bool.and_eq_true_iff.mp overfull).1
  rw [List.countP_eq_length_filter, List.countP_eq_length_filter, same.length_eq]

theorem CreatedSet.forall_flatten (active : ∀ l, (h.lists l).active = true ↔ l ∈ set.tidToThreadList)
    {p : ListPtr → Prop} :
    (∀ l ∈ set.domains.flatten, (h.lists l).active = true → p l) ↔ ∀ l ∈ set.tidToThreadList, p l :=
  ⟨fun each l member => each l (set.placed l member) ((active l).mpr member), fun each l _ on => each l ((active l).mp on)⟩

/-- The subscripts stay below the number of lists just when one of the stacks would stay empty without transfers. -/
theorem autobalanceThreadLoad_quiet_iff (active : ∀ l, (h.lists l).active = true ↔ l ∈ set.tidToThreadList)
    (each : ∀ l ∈ set.tidToThreadList, ∃ A S, WellLinked h l A S) (small : set.tidToThreadList.length < 2 ^ 64)
    (tlAvgNodes : ListPtr → Nat → Nat) :
    (∀ i ∈ autobalanceThreadLoadSubscripts set.toPumaSet h tlAvgNodes, i < set.tidToThreadList.length) ↔
      let s := set.domains.flatten.foldl
        (classifyList fun tl => tlAvgNodes tl (h.nodesOf set.tidToThreadList / set.tidToThreadList.length))
        ⟨h, h.nodesOf set.tidToThreadList % set.tidToThreadList.length, [], []⟩
      s.posStack = [] ∨ s.negStack = [] := by
  have all : set.tidToThreadList.filter (fun tl => (h.lists tl).active) = set.tidToThreadList :=
    List.filter_eq_self.mpr fun l member => (active l).mpr member
  have fits := AllLinked.balanceable set.tidToThreadList h
  simp only [autobalanceThreadLoadSubscripts, all]
  exact (BalanceInv.rule fits).subscripts_iff (fun seen s inv => inv.elim fun _ inv => inv.stacks_le) small
    ⟨[], .start ⟨active, each, .refl h⟩ _⟩ set.cpus (by simp) (Or.inl rfl)

/-- Whatever the targets: every subscript of `posStack` and `negStack` is below the number of lists just when the
balancer has no transfer to make. -/
theorem autobalanceThreadLoad_subscripts_iff (active : ∀ l, (h.lists l).active = true ↔ l ∈ set.tidToThreadList)
    (each : ∀ l ∈ set.tidToThreadList, ∃ A S, WellLinked h l A S) (small : set.tidToThreadList.length < 2 ^ 64)
    (tlAvgNodes : ListPtr → Nat → Nat) :
    (∀ i ∈ autobalanceThreadLoadSubscripts set.toPumaSet h tlAvgNodes, i < set.tidToThreadList.length) ↔
      h.InBalance set.tidToThreadList
        (fun tl => tlAvgNodes tl (h.nodesOf set.tidToThreadList / set.tidToThreadList.length))
        (h.nodesOf set.tidToThreadList % set.tidToThreadList.length) := by
  refine (autobalanceThreadLoad_quiet_iff active each small tlAvgNodes).trans ?_
  dsimp only
  rw [classifyLists_posStack, classifyLists_negStack, or_comm, set.countP_flatten active, set.forall_flatten active,
    set.forall_flatten active]
  exact or_congr (and_iff_right rfl) (and_iff_right rfl)

end Balancer

/-- Two threads of the same speed, one with two nodes and one without. -/
theorem twoThreads_linked : ∃ h : Heap Unit, (∀ l, (h.lists l).active = true ↔ l ∈ twoThreads.tidToThreadList) ∧
    (∀ l ∈ twoThreads.tidToThreadList, ∃ A S, WellLinked h l A S) ∧ (h.lists 0).numNodes = 2 ∧
    (h.lists 1).numNodes = 0 := by
  obtain ⟨h, set, two, missing, _⟩ := twoThreads_pumalloc
  refine ⟨h, set.active, fun l member => ?_, two, missing⟩
  obtain ⟨A, S, list⟩ := set.each l member
  exact ⟨A, S, (list.wellFormed set.ok).toWellLinked⟩

theorem twoThreads_subscripts : ∃ h : Heap Unit, (h.lists 0).numNodes = 2 ∧ (h.lists 1).numNodes = 0 ∧
    ((∀ i ∈ autobalanceThreadLoadSubscripts twoThreads.toPumaSet h fun _ avgNodes => avgNodes, i < 2) ↔
      h.InBalance [0, 1] (fun _ => h.nodesOf [0, 1] / 2) (h.nodesOf [0, 1] % 2)) := by
  obtain ⟨h, active, each, two, missing⟩ := twoThreads_linked
  exact ⟨h, two, missing, autobalanceThreadLoad_subscripts_iff active each (by decide) fun _ avgNodes => avgNodes⟩

/-- One of the two nodes goes to the other list; both lists have their targets then, and both stacks are subscripted
behind their ends. -/
theorem twoThreads_underflow : ∃ h : Heap Unit, (∀ l, (h.lists l).active = true ↔ l ∈ twoThreads.tidToThreadList) ∧
    (∀ l ∈ twoThreads.tidToThreadList, ∃ A S, WellLinked h l A S) ∧ (h.lists 0).numNodes = 2 ∧
    (h.lists 1).numNodes = 0 ∧
    ¬ ∀ i ∈ autobalanceThreadLoadSubscripts twoThreads.toPumaSet h fun _ avgNodes => avgNodes,
      i < twoThreads.tidToThreadList.length := by
  obtain ⟨h, active, each, two, missing⟩ := twoThreads_linked
  refine ⟨h, active, each, two, missing, fun within => ?_⟩
  have nodes : h.nodesOf twoThreads.tidToThreadList = 2 := by simp [Heap.nodesOf, twoThreads, two, missing]
  have quiet := (autobalanceThreadLoad_quiet_iff active each (by decide) _).mp within
  dsimp only at quiet
  rw [classifyLists_posStack, classifyLists_negStack, nodes] at quiet
  have first : (h.lists 0).active = true := (active 0).mpr (by simp [twoThreads])
  have second : (h.lists 1).active = true := (active 1).mpr (by simp [twoThreads])
  rcases quiet with ⟨_, _, few⟩ | ⟨_, least⟩
  · have overfull : twoThreads.domains.flatten.countP (h.oneOver fun _ => 2 / twoThreads.tidToThreadList.length) = 1 := by
      simp [twoThreads, Heap.oneOver, first, two, missing]
    rw [overfull] at few
    exact absurd few (show ¬ (1 = 0 ∨ 1 < 2 % twoThreads.tidToThreadList.length) by decide)
  · have below := least 1 (by simp [twoThreads]) second
    rw [missing] at below
    exact absurd below (by decide)

end Puma
