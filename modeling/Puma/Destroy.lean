import Puma.ThreadRuns

namespace Puma

open DoublyLinked Relation

variable {σ α γ : Type} {l : ListPtr}

section Pass

variable {g : α → γ} {kernel : Kernel σ α}

theorem runKernelOnNodeLoop_view (writes : kernel.Writes g) {node : NodePtr}
    {originalElements elementsDone numElements turns i skipped : Nat} {w w' : World σ α} {i' : Nat}
    {calls : List (ElemPtr × α)}
    (run : runKernelOnNodeLoop node kernel originalElements elementsDone numElements turns w i skipped =
      some (w', i', calls)) : w'.heap.view g = w.heap.view g := by
  induction turns generalizing w i skipped calls with
  | zero => cases run
  | succ turns ih =>
    simp only [runKernelOnNodeLoop, Option.bind_eq_bind] at run
    obtain ⟨n, atNode, run⟩ := Option.bind_eq_some_iff.mp run
    split at run
    · rename_i more
      split at run
      · exact ih run
      · rename_i held
        obtain ⟨w₁, called, run⟩ := Option.bind_eq_some_iff.mp run
        obtain ⟨⟨w₂, i₂, later⟩, rest, run⟩ := Option.bind_eq_some_iff.mp run
        cases run
        have live : i ∈ n.toSlots.liveSlots :=
          Slots.mem_liveSlots.mpr ⟨more.2.1, (pumaBitmaskGet_cases n.freeMask i).resolve_left held⟩
        refine (ih rest).trans (writes w ⟨node, i⟩ w₁ ?_ called)
        rw [Heap.read_eq (Heap.slots_eq atNode), Slots.read_isSome]
        exact live
    · cases run
      rfl

theorem runKernelThreadTurn_linked (writes : kernel.Writes g) {w w' : World σ α} {C : List NodePtr}
    (linked : Linked w.heap l C) {init done done' : Nat} {c : NodePtr} {next : Option NodePtr}
    {calls : List (ElemPtr × α)} (safe : ∀ call ∈ cleanupIfDirtyFrees w.heap c l, SafeFree call.1 call.2.node)
    (run : runKernelThreadTurn l kernel init w c done = some (w', next, done', calls)) :
    ∃ C', Linked w'.heap l C' := by
  simp only [runKernelThreadTurn, Option.bind_eq_bind] at run
  obtain ⟨h₁, cleaned, run⟩ := Option.bind_eq_some_iff.mp run
  obtain ⟨⟨w₁, done₁, calls₁⟩, visited, run⟩ := Option.bind_eq_some_iff.mp run
  obtain ⟨m, _, run⟩ := Option.bind_eq_some_iff.mp run
  cases run
  obtain ⟨C₁, linked₁⟩ : ∃ C₁, Linked h₁ l C₁ := by
    simp only [cleanupIfDirty, Option.bind_eq_bind] at cleaned
    obtain ⟨n, atNode, cleaned⟩ := Option.bind_eq_some_iff.mp cleaned
    simp only [cleanupIfDirtyFrees, atNode] at safe
    split at cleaned
    · rename_i dirty
      rw [if_pos dirty] at safe
      exact linked.cleanupNode safe cleaned
    · cases cleaned
      exact ⟨C, linked⟩
  simp only [runKernelOnNode, Option.bind_eq_bind] at visited
  obtain ⟨n, _, visited⟩ := Option.bind_eq_some_iff.mp visited
  obtain ⟨⟨w₂, i, calls₂⟩, loop, visited⟩ := Option.bind_eq_some_iff.mp visited
  cases visited
  have same := runKernelOnNodeLoop_view (w := ⟨w.extra, h₁⟩) writes loop
  exact ⟨C₁, linked₁.view same⟩

theorem runKernelThreadLoop_linked (writes : kernel.Writes g) {init turns done : Nat} {w w' : World σ α}
    {current : Option NodePtr} {C : List NodePtr} (linked : Linked w.heap l C) {calls : List (ElemPtr × α)}
    (safe : ∀ call ∈ runKernelThreadFrees l kernel init turns w current done, SafeFree call.1 call.2.node)
    (run : runKernelThreadLoop l kernel init turns w current done = some (w', calls)) :
    ∃ C', Linked w'.heap l C' := by
  induction turns generalizing w current done calls C with
  | zero =>
    cases current with
    | none => cases run; exact ⟨C, linked⟩
    | some c => cases run
  | succ turns ih =>
    cases current with
    | none => cases run; exact ⟨C, linked⟩
    | some c =>
      simp only [runKernelThreadLoop, Option.bind_eq_bind] at run
      obtain ⟨n, atNode, run⟩ := Option.bind_eq_some_iff.mp run
      simp only [runKernelThreadFrees, atNode] at safe
      split at run
      · rename_i more
        obtain ⟨⟨w₁, next, done₁, calls₁⟩, turn, run⟩ := Option.bind_eq_some_iff.mp run
        obtain ⟨⟨w₂, later⟩, rest, run⟩ := Option.bind_eq_some_iff.mp run
        cases run
        rw [if_pos more, turn, List.forall_mem_append] at safe
        obtain ⟨C₁, linked₁⟩ := runKernelThreadTurn_linked writes linked safe.1 turn
        exact ih linked₁ safe.2 rest
      · cases run
        exact ⟨C, linked⟩

theorem runKernelThread_linked (writes : kernel.Writes g) {turns : Nat} {w w' : World σ α} {elapsed : ℚ}
    {C : List NodePtr} (linked : Linked w.heap l C) {calls : List (ElemPtr × α)}
    (safe : ∀ call ∈ runKernelThreadFrees l kernel (w.heap.lists l).numElements turns w (w.heap.lists l).head 0,
      SafeFree call.1 call.2.node)
    (run : runKernelThread turns w l kernel elapsed = some (w', calls)) : ∃ C', Linked w'.heap l C' := by
  simp only [runKernelThread, Option.bind_eq_bind] at run
  obtain ⟨⟨w₁, calls₁⟩, loop, run⟩ := Option.bind_eq_some_iff.mp run
  cases run
  obtain ⟨C', linked'⟩ := runKernelThreadLoop_linked writes linked safe loop
  exact ⟨C', linked'.modifyList (m := l) (f := fun tl => tl.recordRunTime elapsed) rfl (Or.inl rfl)⟩

end Pass

section Runs

variable [Inhabited α]

theorem ThreadStep.linked {h h' : Heap α} {C : List NodePtr} (step : ThreadStep Permit.freeSafe l h h')
    (linked : Linked h l C) : ∃ C', Linked h' l C' := by
  cases step with
  | pumalloc block _ frees run => exact linked.pumallocOnThreadList frees run
  | pufree e _ free run => exact linked.freeElementOnNode free run
  | runKernelThread kernel writes turns elapsed frees run => exact runKernelThread_linked writes linked frees run
  | write same => exact ⟨C, linked.view same⟩

omit [Inhabited α] in
theorem newThreadList_linked (elementSize nodeSize : Nat) :
    Linked (newThreadList l elementSize nodeSize : Heap α) l [] := by
  refine ⟨trivial, List.nodup_nil, fun p n atNode => (by cases atNode), rfl, by rw [newThreadList_record]; rfl,
    fun t atTail => ?_, fun _ => rfl⟩
  rw [newThreadList_record] at atTail
  cases atTail

theorem ThreadReachable.linked {h : Heap α} (reachable : ThreadReachable Permit.freeSafe l h) :
    ∃ C, Linked h l C := by
  obtain ⟨elementSize, nodeSize, _, run⟩ := reachable
  induction run with
  | refl => exact ⟨[], newThreadList_linked elementSize nodeSize⟩
  | tail _ step ih =>
    obtain ⟨C, linked⟩ := ih
    exact step.linked linked

/-- Every block in use is on the chain from the head through `next`, and the walk of
`_destroyThreadListWorker` releases this chain, each block of it once. -/
structure Destroyable (h : Heap α) (l : ListPtr) (C : List NodePtr) : Prop where
  chain : Segment h.next h.prev none C none
  head : (h.lists l).head = C.head?
  once : ∀ p ∈ h.blocks, C.count p = 1
  walk : ∃ h', destroyThreadListWorker h l = some (h', C)

omit [Inhabited α] in
theorem destroyThreadListLoop_eq {h : Heap α} {C : List NodePtr} {before : Option NodePtr}
    (chain : Segment h.next h.prev before C none) (nodup : C.Nodup) (inUse : ∀ p ∈ C, ∃ n, h.node p = some n)
    {turns : Nat} (enough : C.length < turns) : ∃ h', destroyThreadListLoop turns h C.head? = some (h', C) := by
  induction C generalizing h before turns with
  | nil => exact ⟨h, by cases turns <;> rfl⟩
  | cons c C ih =>
    obtain ⟨turns, rfl⟩ : ∃ t, turns = t + 1 := Nat.exists_eq_succ_of_ne_zero (by omega)
    obtain ⟨n, atNode⟩ := inUse c (List.mem_cons_self ..)
    rw [List.nodup_cons] at nodup
    rw [List.length_cons] at enough
    have other {q : NodePtr} (member : q ∈ C) : q ≠ c := fun same => nodup.1 (same ▸ member)
    have kept {q : NodePtr} (member : q ∈ C) : (h.nufreeAligned c).links q = h.links q := by
      rw [Heap.links, Heap.links, Heap.node_nufreeAligned, if_neg (other member)]
    have behind : n.next = C.head? := by rw [← Heap.next_eq atNode, chain.2.1, Option.or_none]
    obtain ⟨h', run⟩ := ih (h := h.nufreeAligned c)
      (chain.2.2.congr (fun q member => by rw [Heap.next, Heap.next, kept member])
        fun q member => by rw [Heap.prev, Heap.prev, kept member]) nodup.2
      (fun q member => by
        obtain ⟨m, atQ⟩ := inUse q (List.mem_cons_of_mem _ member)
        exact ⟨m, by rw [Heap.node_nufreeAligned, if_neg (other member), atQ]⟩) (Nat.lt_of_succ_lt_succ enough)
    refine ⟨h', ?_⟩
    simp only [List.head?_cons, destroyThreadListLoop, atNode, behind, run, Option.bind_eq_bind, Option.bind_some,
      Option.pure_def]

/-- As long as no free drops a spare node, the destructor releases every block once. -/
theorem ThreadReachable.destroyable {h : Heap α} (reachable : ThreadReachable Permit.freeSafe l h) :
    ∃ C, Destroyable h l C := by
  obtain ⟨C, linked⟩ := reachable.linked
  refine ⟨C, linked.chain, linked.head, fun p inUse => ?_, ?_⟩
  · rw [linked.blocks, List.mem_toFinset] at inUse
    exact List.count_eq_one_of_mem linked.nodup inUse
  · have card : h.blocks.card = C.length := by rw [linked.blocks, List.toFinset_card_of_nodup linked.nodup]
    rw [destroyThreadListWorker, linked.head]
    exact destroyThreadListLoop_eq linked.chain linked.nodup (fun p member => linked.mem.mp member) (by omega)

end Runs

/-- A free releases the block at 1, which is spare and the last of its list; then the block at 2 takes its
place, and a pass makes it spare. -/
def releasedNodeCalls : List ThreadCall :=
  [.pumalloc 0, .pumalloc 9, .pumalloc 1, .pumalloc 9, .pufree ⟨1, 0⟩, .pufree ⟨1, 1⟩, .pufree ⟨0, 0⟩, .runKernelThread,
    .pufree ⟨0, 0⟩, .pumalloc 9, .pumalloc 9, .pumalloc 2, .pumalloc 9, .pufree ⟨2, 0⟩, .pumalloc 9, .pufree ⟨2, 0⟩,
    .pufree ⟨2, 1⟩, .pufree ⟨0, 0⟩, .runKernelThread]

set_option maxRecDepth 8000 in
theorem destroyable_released : ∃ h : Heap Unit, h.blocks = {0, 2} ∧ (h.lists 0).numNodes = 1 ∧ ∃ C, Destroyable h 0 C := by
  obtain ⟨h, reachable, inUse, spare⟩ : ∃ h : Heap Unit, ThreadReachable Permit.freeSafe 0 h ∧ h.blocks = {0, 2} ∧
      (h.lists 0).numNodes = 1 :=
    ⟨_, ThreadReachable.of_calls 4000 8192 releasedNodeCalls (by decide) rfl, by decide, by decide⟩
  exact ⟨h, inUse, spare, ThreadReachable.destroyable reachable⟩

/-- The free in the first node releases the spare node behind it, and drops the one behind that. -/
def droppedNodeCalls : List ThreadCall :=
  [.pumalloc 0, .pumalloc 9, .pumalloc 1, .pumalloc 9, .pumalloc 2, .pumalloc 9,
    .pufree ⟨1, 0⟩, .pufree ⟨1, 1⟩, .pufree ⟨2, 0⟩, .pufree ⟨2, 1⟩, .pufree ⟨0, 0⟩, .runKernelThread, .pufree ⟨0, 0⟩]

set_option maxRecDepth 8000 in
/-- The block at 2 is in use and out of reach. -/
theorem droppedNodeCalls_run : ∃ h : Heap Unit, ThreadReachable Permit.any 0 h ∧
    2 ∈ h.blocks ∧ (destroyThreadListWorker h 0).map Prod.snd = some [0] := by
  refine ⟨_, ThreadReachable.of_calls 4000 8192 droppedNodeCalls (by decide) rfl, ?_⟩
  decide

theorem droppedNode_not_destroyable : ∃ h : Heap Unit, ThreadReachable Permit.any 0 h ∧ ¬ ∃ C, Destroyable h 0 C := by
  obtain ⟨h, reachable, inUse, walked⟩ := droppedNodeCalls_run
  refine ⟨h, reachable, fun ⟨C, destroyable⟩ => ?_⟩
  obtain ⟨h', walk⟩ := destroyable.walk
  rw [walk, Option.map_some, Option.some.injEq] at walked
  have once := destroyable.once 2 inUse
  rw [show C = [0] from walked] at once
  cases once

end Puma
