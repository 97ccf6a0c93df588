import Puma.Handles

namespace Puma

open Relation

variable {σ α : Type}

/-- A free of a live element of the node, or writes to elements. -/
inductive NodeStep (node : NodePtr) : Heap α → Heap α → Prop
  | pufree {h h' : Heap α} {n : PumaNode α} {i : Nat} (atNode : h.node node = some n) (live : i ∈ n.toSlots.liveSlots)
      (run : pufree h (getElement node i) = some h') : NodeStep node h h'
  | write {h h' : Heap α} (same : h'.skeleton = h.skeleton) : NodeStep node h h'

/-- A kernel that returns from every live element of the node and only frees live elements of the node and writes to
elements; `h` is the memory in which the scan starts. -/
def Kernel.FreesOn (kernel : Kernel σ α) (node : NodePtr) (h : Heap α) : Prop :=
  ∀ (w : World σ α) (n : PumaNode α) (i : Nat), ReflTransGen (NodeStep node) h w.heap → w.heap.node node = some n →
    i ∈ n.toSlots.liveSlots →
    ∃ w', kernel w (getElement node i) = some w' ∧ ReflTransGen (NodeStep node) w.heap w'.heap

/-- Dropping a spare node leaves the slots of the node before it. -/
theorem releaseSpareNode_slots {h h' : Heap α} {p : NodePtr} {n : PumaNode α} (atNode : h.node p = some n)
    (run : releaseSpareNode h p = some h') : ∃ n', h'.node p = some n' ∧ n'.toSlots = n.toSlots := by
  simp only [releaseSpareNode, atNode, Option.bind_eq_bind, Option.bind_some] at run
  split at run
  · split at run
    · cases run
      exact ⟨n, atNode, rfl⟩
    · rename_i spare _
      obtain ⟨s, atSpare, run⟩ := Option.bind_eq_some_iff.mp run
      split at run
      · cases run
        exact ⟨n, atNode, rfl⟩
      · obtain ⟨h₁, freed, run⟩ := Option.bind_eq_some_iff.mp run
        obtain ⟨m, atNode₁, rfl⟩ := Option.map_eq_some_iff.mp run
        refine ⟨_, Heap.node_setNode_self .., ?_⟩
        rw [(freePumaNode_node atSpare freed).2.2] at atNode₁
        split at atNode₁
        · cases atNode₁
        · rw [atNode] at atNode₁
          cases atNode₁
          rfl
  · cases run
    exact ⟨n, atNode, rfl⟩

theorem pufree_slots {h h' : Heap α} {p : NodePtr} {n : PumaNode α} {i : Nat} (atNode : h.node p = some n)
    (run : pufree h (getElement p i) = some h') :
    ∃ n', h'.node p = some n' ∧ n'.toSlots = n.toSlots.free i := by
  simp only [pufree, freeElementOnNode, getNodeForElement, getElement, atNode, Option.bind_eq_bind, Option.bind_some] at run
  refine releaseSpareNode_slots (n := { n with toSlots := n.toSlots.free i }) ?_ run
  exact Heap.node_setNode_self h p _

/-- What the steps keep of a node: its slots, none of which becomes live. -/
structure Shrunk (s s' : Slots α) : Prop where
  capacity : s'.capacity = s.capacity
  live : s'.liveSlots ⊆ s.liveSlots
  counted : 0 < s.capacity → s'.Counted

theorem NodeStep.shrunk {h h' : Heap α} {node : NodePtr} {n : PumaNode α} {s : Slots α} (step : NodeStep node h h')
    (atNode : h.node node = some n) (shrunk : Shrunk s n.toSlots) :
    ∃ n', h'.node node = some n' ∧ Shrunk s n'.toSlots := by
  cases step with
  | @pufree m i atNode' live run =>
    cases Option.some.inj (atNode.symm.trans atNode')
    obtain ⟨n', atNode₁, same⟩ := pufree_slots atNode run
    have bound := Slots.lt_capacity live
    have counted := shrunk.counted (by rw [← shrunk.capacity]; omega)
    refine ⟨n', atNode₁, same ▸ ⟨shrunk.capacity, ?_, fun _ => counted.free live⟩⟩
    rw [counted.liveSlots_free bound]
    exact (Finset.erase_subset _ _).trans shrunk.live
  | write same =>
    obtain ⟨n', atNode₁, equal⟩ := Heap.node_of_view_eq same atNode
    obtain ⟨_, capacity, numElements, freeMask, _⟩ := PumaNode.mapContents_inj equal
    have liveSlots : n'.toSlots.liveSlots = n.toSlots.liveSlots := by
      rw [Slots.liveSlots, Slots.liveSlots, capacity, freeMask]
    refine ⟨n', atNode₁, capacity.trans shrunk.capacity, liveSlots ▸ shrunk.live, fun room => ?_⟩
    obtain ⟨positive, sized, bits, count⟩ := shrunk.counted room
    exact ⟨by rw [capacity]; exact positive, by rw [freeMask]; exact sized, by rw [freeMask, capacity]; exact bits,
      by rw [numElements, liveSlots]; exact count⟩

theorem nodeSteps_shrunk {h h' : Heap α} {node : NodePtr} {n : PumaNode α} {s : Slots α}
    (steps : ReflTransGen (NodeStep node) h h') (atNode : h.node node = some n) (shrunk : Shrunk s n.toSlots) :
    ∃ n', h'.node node = some n' ∧ Shrunk s n'.toSlots := by
  induction steps with
  | refl => exact ⟨n, atNode, shrunk⟩
  | tail _ step ih =>
    obtain ⟨n', atNode', shrunk'⟩ := ih
    exact step.shrunk atNode' shrunk'

/-- The scan of the slots from `i` on: the kernel is called on each slot that is live when its turn comes, and on no
other, with the content that is stored there. -/
inductive Scan (kernel : Kernel σ α) (node : NodePtr) : Nat → World σ α → List (ElemPtr × α) → World σ α → Prop
  | done {i : Nat} {w : World σ α} {n : PumaNode α} (atNode : w.heap.node node = some n) (past : n.capacity ≤ i) :
      Scan kernel node i w [] w
  | free {i : Nat} {w w' : World σ α} {n : PumaNode α} {calls : List (ElemPtr × α)} (atNode : w.heap.node node = some n)
      (within : i < n.capacity) (hole : i ∉ n.toSlots.liveSlots) (rest : Scan kernel node (i + 1) w calls w') :
      Scan kernel node i w calls w'
  | live {i : Nat} {w w₁ w' : World σ α} {n : PumaNode α} {calls : List (ElemPtr × α)}
      (atNode : w.heap.node node = some n) (held : i ∈ n.toSlots.liveSlots)
      (call : kernel w (getElement node i) = some w₁) (rest : Scan kernel node (i + 1) w₁ calls w') :
      Scan kernel node i w ((getElement node i, n.elements i) :: calls) w'

/-- The kernel called on the slots from `i` up to `k`, each of them live when its turn comes. -/
inductive CalledUpTo (kernel : Kernel σ α) (node : NodePtr) : Nat → World σ α → List (ElemPtr × α) → Nat → World σ α → Prop
  | refl {i : Nat} {w : World σ α} : CalledUpTo kernel node i w [] i w
  | call {i k : Nat} {w w₁ w' : World σ α} {n : PumaNode α} {calls : List (ElemPtr × α)}
      (atNode : w.heap.node node = some n) (held : i ∈ n.toSlots.liveSlots)
      (called : kernel w (getElement node i) = some w₁) (rest : CalledUpTo kernel node (i + 1) w₁ calls k w') :
      CalledUpTo kernel node i w ((getElement node i, n.elements i) :: calls) k w'

section Scan

variable {kernel : Kernel σ α} {node : NodePtr} {i j k : Nat} {w w₁ w' : World σ α} {n : PumaNode α}
  {calls calls' : List (ElemPtr × α)}

/-- A scan of slots of which none is live calls nothing. -/
theorem Scan.idle (atNode : w.heap.node node = some n) (missing : ∀ j ∈ n.toSlots.liveSlots, j < i) :
    Scan kernel node i w [] w := by
  induction left : n.capacity - i generalizing i with
  | zero => exact .done atNode (by omega)
  | succ left ih =>
    refine .free atNode (by omega) (fun held => lt_irrefl i (missing i held)) (ih (fun j held => ?_) (by omega))
    exact (missing j held).trans (Nat.lt_succ_self i)

/-- A scan that calls nothing finds no live slot. -/
theorem Scan.none_live (scan : Scan kernel node i w [] w') (atNode : w.heap.node node = some n)
    (held : j ∈ n.toSlots.liveSlots) : j < i := by
  generalize missing : ([] : List (ElemPtr × α)) = calls at scan
  induction scan with
  | done atNode' past =>
    cases Option.some.inj (atNode.symm.trans atNode')
    exact (Slots.lt_capacity held).trans_le past
  | free atNode' within hole rest ih =>
    cases Option.some.inj (atNode.symm.trans atNode')
    have behind := ih atNode missing
    refine lt_of_le_of_ne (Nat.le_of_lt_succ behind) fun same => hole (same ▸ held)
  | live => cases missing

/-- A scan begins with the calls on live slots. -/
theorem CalledUpTo.scan_iff (called : CalledUpTo kernel node i w calls k w₁) :
    Scan kernel node i w calls' w' ↔ ∃ later, calls' = calls ++ later ∧ Scan kernel node k w₁ later w' := by
  induction called generalizing calls' with
  | refl => simp
  | @call i k w w₁ w₂ n calls atNode held called rest ih =>
    constructor
    · intro scan
      cases scan with
      | done atNode' past =>
        cases Option.some.inj (atNode.symm.trans atNode')
        exact absurd (Slots.lt_capacity held) (not_lt.mpr past)
      | free atNode' _ hole _ =>
        cases Option.some.inj (atNode.symm.trans atNode')
        exact (hole held).elim
      | live atNode' _ called' rest' =>
        cases Option.some.inj (atNode.symm.trans atNode')
        cases Option.some.inj (called.symm.trans called')
        obtain ⟨later, rfl, scan⟩ := ih.mp rest'
        exact ⟨later, rfl, scan⟩
    · rintro ⟨later, rfl, scan⟩
      exact .live atNode held called (ih.mpr ⟨later, rfl, scan⟩)

/-- Of two runs of calls from one slot on, the longer one goes on where the shorter one stops. -/
theorem CalledUpTo.compare {l : Nat} {w₂ : World σ α} (called : CalledUpTo kernel node i w calls k w₁)
    (called' : CalledUpTo kernel node i w calls' l w₂) :
    (∃ later, calls' = calls ++ later ∧ CalledUpTo kernel node k w₁ later l w₂) ∨
      ∃ later, calls = calls' ++ later ∧ CalledUpTo kernel node l w₂ later k w₁ := by
  induction called generalizing calls' with
  | refl => exact Or.inl ⟨calls', rfl, called'⟩
  | @call i k w w₁ w₃ n calls atNode held called rest ih =>
    cases called' with
    | refl => exact Or.inr ⟨_, rfl, .call atNode held called rest⟩
    | call atNode' _ called'' rest' =>
      cases Option.some.inj (atNode.symm.trans atNode')
      cases Option.some.inj (called.symm.trans called'')
      rcases ih rest' with ⟨later, rfl, further⟩ | ⟨later, rfl, further⟩
      · exact Or.inl ⟨later, rfl, further⟩
      · exact Or.inr ⟨later, rfl, further⟩

end Scan

section Loop

variable {kernel : Kernel σ α} {node : NodePtr} {elementsDone numElements : Nat}

/-- At a free slot the loop counts skipped elements until `i - skippedElements` wraps, and goes no further. -/
theorem runKernelOnNodeLoop_hole {w : World σ α} {n : PumaNode α} (atNode : w.heap.node node = some n) {i k : Nat}
    (hole : pumaBitmaskGet n.freeMask i = maskFree) (small : k < 2 ^ 64) {skipped turns : Nat} (bound : skipped ≤ i + 1)
    (enough : i + 2 ≤ turns + skipped) :
    runKernelOnNodeLoop node kernel k elementsDone numElements turns w i skipped = some (w, i, []) := by
  induction turns generalizing skipped with
  | zero => omega
  | succ turns ih =>
    simp only [runKernelOnNodeLoop, atNode, Option.bind_eq_bind, Option.bind_some]
    by_cases go : sizeSub i skipped < k ∧ i < n.capacity ∧ elementsDone < numElements
    · have behind : skipped ≤ i := by
        by_contra past
        have wrapped : sizeSub i skipped = 2 ^ 64 - 1 := by
          rw [sizeSub, if_neg past, show skipped - i = 1 by omega]
          decide
        omega
      rw [if_pos go, if_pos hole]
      exact ih (Nat.succ_le_succ behind) (by omega)
    · rw [if_neg go]
      rfl

/-- The loop calls the kernel on the slots from `i` on up to the first one that is free when its turn comes. -/
theorem runKernelOnNodeLoop_stops {h₀ : Heap α} (frees : kernel.FreesOn node h₀) {s : Slots α}
    (small : s.liveSlots.card < 2 ^ 64) (more : 0 < s.liveSlots.card → elementsDone < numElements) {w : World σ α}
    {n : PumaNode α} {i turns : Nat} (steps : ReflTransGen (NodeStep node) h₀ w.heap)
    (atNode : w.heap.node node = some n) (shrunk : Shrunk s n.toSlots) (before : Finset.range i ⊆ s.liveSlots)
    (enough : 2 * s.liveSlots.card + 1 ≤ turns + i) :
    ∃ w' k calls n', runKernelOnNodeLoop node kernel s.liveSlots.card elementsDone numElements turns w i 0 =
      some (w', k, calls) ∧ CalledUpTo kernel node i w calls k w' ∧ w'.heap.node node = some n' ∧
      k ∉ n'.toSlots.liveSlots := by
  have within : i ≤ s.liveSlots.card := by
    have fewer := Finset.card_le_card before
    rwa [Finset.card_range] at fewer
  have room : s.liveSlots.card ≤ n.capacity := by
    have fewer := Finset.card_le_card s.liveSlots_subset
    rwa [Finset.card_range, ← shrunk.capacity] at fewer
  induction turns generalizing w n i with
  | zero => omega
  | succ turns ih =>
    by_cases held : i ∈ n.toSlots.liveSlots
    · have upTo : Finset.range (i + 1) ⊆ s.liveSlots := by
        rw [Finset.range_add_one]
        exact Finset.insert_subset (shrunk.live held) before
      have bound : i + 1 ≤ s.liveSlots.card := by
        have fewer := Finset.card_le_card upTo
        rwa [Finset.card_range] at fewer
      obtain ⟨w₁, called, steps₁⟩ := frees w n i steps atNode held
      obtain ⟨n₁, atNode₁, shrunk₁⟩ := nodeSteps_shrunk steps₁ atNode shrunk
      obtain ⟨w', k, calls, n', run, upTo', atNode', stop⟩ := ih (steps.trans steps₁) atNode₁ shrunk₁ upTo (by omega) bound
        (by rw [shrunk₁.capacity, ← shrunk.capacity]; exact room)
      refine ⟨w', k, (getElement node i, n.elements i) :: calls, n', ?_, .call atNode held called upTo', atNode', stop⟩
      have go : sizeSub i 0 < s.liveSlots.card ∧ i < n.capacity ∧ elementsDone < numElements :=
        ⟨by rw [sizeSub_of_le (Nat.zero_le i)]; omega, by omega, more (by omega)⟩
      have notFree : pumaBitmaskGet n.freeMask i ≠ maskFree := by
        rw [(Slots.mem_liveSlots.mp held).2]
        exact maskFree_ne_maskNotFree.symm
      simp only [runKernelOnNodeLoop, atNode, Option.bind_eq_bind, Option.bind_some, if_pos go, if_neg notFree, called,
        run, Option.pure_def]
    · refine ⟨w, i, [], n, ?_, .refl, atNode, held⟩
      by_cases last : i = s.liveSlots.card
      · have stop : ¬ (sizeSub i 0 < s.liveSlots.card ∧ i < n.capacity ∧ elementsDone < numElements) := by
          rw [sizeSub_of_le (Nat.zero_le i)]
          omega
        simp only [runKernelOnNodeLoop, atNode, Option.bind_eq_bind, Option.bind_some, if_neg stop, Option.pure_def]
      · exact runKernelOnNodeLoop_hole atNode ((Slots.notMem_liveSlots (by omega)).mp held) small (Nat.zero_le _)
          (by omega)

/-- While the kernel may free any elements of the node: `_runKernelOnNode` visits each slot that is live when its turn
comes, and no other, just when no slot is live any more behind the first one that is free when its turn comes. -/
theorem runKernelOnNode_scans_iff {w : World σ α} {n : PumaNode α} (atNode : w.heap.node node = some n)
    (sized : n.freeMask.Sized) (bits : n.freeMask.numElements = n.capacity) (small : n.capacity < 2 ^ 64)
    (count : n.numElements = n.toSlots.liveSlots.card) (frees : kernel.FreesOn node w.heap)
    (enough : elementsDone + n.numElements ≤ numElements) :
    (∃ w' done calls, runKernelOnNode w node kernel elementsDone numElements = some (w', done, calls) ∧
        Scan kernel node 0 w calls w') ↔
      ∀ calls i w₁ n₁, CalledUpTo kernel node 0 w calls i w₁ → w₁.heap.node node = some n₁ →
        i ∉ n₁.toSlots.liveSlots → ∀ j ∈ n₁.toSlots.liveSlots, j < i := by
  have fewer : n.toSlots.liveSlots.card ≤ n.capacity := by
    have within := Finset.card_le_card n.toSlots.liveSlots_subset
    rwa [Finset.card_range] at within
  have start : Shrunk n.toSlots n.toSlots := ⟨rfl, Finset.Subset.refl _, fun room => ⟨room, sized, bits, count⟩⟩
  have more : 0 < n.toSlots.liveSlots.card → elementsDone < numElements := fun nonempty => by omega
  have turns : 2 * n.toSlots.liveSlots.card + 1 ≤ 2 * n.capacity + 2 + 0 := by omega
  obtain ⟨w', k, calls, n', loop, called, atNode', stop⟩ :=
    runKernelOnNodeLoop_stops frees (fewer.trans_lt small) more .refl atNode start (by simp) turns
  have run : runKernelOnNode w node kernel elementsDone numElements = some (w', elementsDone + k, calls) := by
    rw [← count] at loop
    simp only [runKernelOnNode, atNode, loop, Option.bind_eq_bind, Option.bind_some, Option.pure_def]
  constructor
  · rintro ⟨w₂, done, calls₂, run₂, scan⟩ calls₁ i w₁ n₁ called₁ atNode₁ hole
    cases Option.some.inj (run.symm.trans run₂)
    -- Both runs of calls stop at a free slot, so they are the same.
    have same : calls = calls₁ ∧ k = i ∧ w' = w₁ := by
      rcases called.compare called₁ with ⟨later, rfl, further⟩ | ⟨later, rfl, further⟩
      · cases further with
        | refl => exact ⟨(List.append_nil _).symm, rfl, rfl⟩
        | call atNode₂ held =>
          cases Option.some.inj (atNode'.symm.trans atNode₂)
          exact (stop held).elim
      · cases further with
        | refl => exact ⟨List.append_nil _, rfl, rfl⟩
        | call atNode₂ held =>
          cases Option.some.inj (atNode₁.symm.trans atNode₂)
          exact (hole held).elim
    obtain ⟨rfl, rfl, rfl⟩ := same
    obtain ⟨later, split, rest⟩ := called.scan_iff.mp scan
    cases List.self_eq_append_right.mp split
    exact fun j held => rest.none_live atNode₁ held
  · intro behind
    exact ⟨w', _, calls, run, called.scan_iff.mpr
      ⟨[], (List.append_nil _).symm, .idle atNode' (behind calls k w' n' called atNode' stop)⟩⟩

end Loop

/-- A kernel that frees the element behind the one that it visits. -/
def freeNextKernel : Kernel Unit α := fun w e =>
  if (w.heap.read ⟨e.node, e.slot + 1⟩).isSome then
    (pufree w.heap ⟨e.node, e.slot + 1⟩).map fun h => ⟨w.extra, h⟩
  else some w

/-- On the last node of a chain there is nothing to release. -/
theorem pufree_last {h : Heap α} {p : NodePtr} {n : PumaNode α} (atNode : h.node p = some n) (last : n.next = none)
    (i : Nat) : ∃ h' n', pufree h (getElement p i) = some h' ∧ h'.node p = some n' ∧ n'.next = none := by
  refine ⟨(h.setNode p { n with toSlots := n.toSlots.free i }).modifyList n.threadList fun tl =>
    { tl with numElements := sizeSub tl.numElements 1 }, _, ?_, Heap.node_setNode_self h p _, last⟩
  simp only [pufree, freeElementOnNode, getNodeForElement, getElement, atNode, Option.bind_eq_bind, Option.bind_some,
    releaseSpareNode, Heap.node_modifyList, Heap.node_setNode_self, last, Option.pure_def, ite_self]
  rfl

theorem NodeStep.last {h h' : Heap α} {node : NodePtr} {n : PumaNode α} (step : NodeStep node h h')
    (atNode : h.node node = some n) (last : n.next = none) : ∃ n', h'.node node = some n' ∧ n'.next = none := by
  cases step with
  | @pufree m i atNode' live run =>
    obtain ⟨h₁, n', run', atNode₁, last₁⟩ := pufree_last atNode last i
    cases Option.some.inj (run.symm.trans run')
    exact ⟨n', atNode₁, last₁⟩
  | write same =>
    obtain ⟨n', atNode₁, equal⟩ := Heap.node_of_view_eq same atNode
    obtain ⟨links, _⟩ := PumaNode.mapContents_inj equal
    exact ⟨n', atNode₁, by rw [links, last]⟩

theorem freeNextKernel_freesOn {h : Heap α} {node : NodePtr} {n : PumaNode α} (atNode : h.node node = some n)
    (last : n.next = none) : (freeNextKernel (α := α)).FreesOn node h := by
  intro w m i steps atNode' _
  have lastNow : m.next = none := by
    obtain ⟨n', atNode₁, last₁⟩ : ∃ n', w.heap.node node = some n' ∧ n'.next = none := by
      generalize w.heap = h' at steps
      induction steps with
      | refl => exact ⟨n, atNode, last⟩
      | tail _ step ih =>
        obtain ⟨n', atNode₁, last₁⟩ := ih
        exact step.last atNode₁ last₁
    rw [Option.some.inj (atNode'.symm.trans atNode₁), last₁]
  unfold freeNextKernel getElement
  dsimp only
  split
  · rename_i live
    obtain ⟨h', _, run, _⟩ := pufree_last atNode' lastNow (i + 1)
    refine ⟨⟨w.extra, h'⟩, by rw [show pufree w.heap ⟨node, i + 1⟩ = some h' from run]; rfl, .single ?_⟩
    refine .pufree atNode' (i := i + 1) ?_ run
    rwa [Heap.read_eq (e := ⟨node, i + 1⟩) (Heap.slots_eq atNode'), Slots.read_isSome] at live
  · exact ⟨w, rfl, .refl⟩

/-- Three elements in the one node of a list, and what a scan with `freeNextKernel` does to them. -/
theorem exists_threeElements : ∃ (w w' : World Unit Unit) (n n' : PumaNode Unit),
    (∃ r₁ r₂ r₃ : Heap Unit × ElemPtr, pumallocOnThreadList (newThreadList 0 2000 8192) 0 0 = some r₁ ∧
      pumallocOnThreadList r₁.1 0 0 = some r₂ ∧ pumallocOnThreadList r₂.1 0 0 = some r₃ ∧ w.heap = r₃.1) ∧
    w.heap.node 0 = some n ∧ n.freeMask.Sized ∧ n.freeMask.numElements = n.capacity ∧ n.capacity < 2 ^ 64 ∧
    n.numElements = n.toSlots.liveSlots.card ∧ n.numElements = 3 ∧ n.next = none ∧
    0 ∈ n.toSlots.liveSlots ∧ runKernelOnNode w 0 freeNextKernel 0 3 = some (w', 1, [(⟨0, 0⟩, ())]) ∧
    freeNextKernel w ⟨0, 0⟩ = some w' ∧ w'.heap.node 0 = some n' ∧ 2 ∈ n'.toSlots.liveSlots := by
  refine ⟨⟨(), _⟩, _, _, _, ⟨_, _, _, rfl, rfl, rfl, rfl⟩, rfl, rfl, rfl, by decide, by decide, rfl, rfl, by decide,
    rfl, rfl, rfl, by decide⟩

/-- With three elements and a kernel that frees the next one, both sides of the equivalence are false: the kernel has
been called on slot 0 alone, slot 1 is free and slot 2 is live. -/
theorem runKernelOnNode_scans_threeElements : ∃ (w : World Unit Unit) (n : PumaNode Unit), w.heap.node 0 = some n ∧
    n.numElements = 3 ∧
    ((∃ w' done calls, runKernelOnNode w 0 freeNextKernel 0 3 = some (w', done, calls) ∧
        Scan freeNextKernel 0 0 w calls w') ↔
      ∀ calls i w₁ n₁, CalledUpTo freeNextKernel 0 0 w calls i w₁ → w₁.heap.node 0 = some n₁ →
        i ∉ n₁.toSlots.liveSlots → ∀ j ∈ n₁.toSlots.liveSlots, j < i) := by
  obtain ⟨w, _, n, _, _, atNode, sized, bits, small, count, three, last, _⟩ := exists_threeElements
  exact ⟨w, n, atNode, three, runKernelOnNode_scans_iff atNode sized bits small count
    (freeNextKernel_freesOn atNode last) (by omega)⟩

theorem runKernelOnNode_skips_third : ∃ (w : World Unit Unit) (n : PumaNode Unit), w.heap.node 0 = some n ∧
    n.freeMask.Sized ∧ n.freeMask.numElements = n.capacity ∧ n.capacity < 2 ^ 64 ∧
    n.numElements = n.toSlots.liveSlots.card ∧ n.numElements = 3 ∧ freeNextKernel.FreesOn 0 w.heap ∧
    ¬ ∃ w' done calls, runKernelOnNode w 0 freeNextKernel 0 3 = some (w', done, calls) ∧
      Scan freeNextKernel 0 0 w calls w' := by
  obtain ⟨w, w', n, n', _, atNode, sized, bits, small, count, three, last, first, run, called, atNode', held⟩ :=
    exists_threeElements
  refine ⟨w, n, atNode, sized, bits, small, count, three, freeNextKernel_freesOn atNode last, ?_⟩
  rintro ⟨w₂, done, calls, run₂, scan⟩
  cases Option.some.inj (run.symm.trans run₂)
  cases scan with
  | free atNode₁ _ hole rest =>
    cases Option.some.inj (atNode.symm.trans atNode₁)
    exact hole first
  | live atNode₁ _ call rest =>
    cases Option.some.inj (called.symm.trans call)
    exact absurd (rest.none_live atNode' held) (by decide)

end Puma
