import Puma.Calls
import Puma.Linked

namespace Puma

open Relation

variable {σ α : Type}

def cleanupIfDirtyFrees (h : Heap α) (node : NodePtr) (tl : ListPtr) : List (Heap α × ElemPtr) :=
  match h.node node with
  | some n => if n.dirty then cleanupNodeCalls h node tl else []
  | none => []

/-- The calls of `_freeElementOnNode` that the loop of `_runKernelThread` makes, each with the
memory that it finds; the kernel makes none. -/
def runKernelThreadFrees (tl : ListPtr) (kernel : Kernel σ α) (initNumElements : Nat) :
    Nat → World σ α → Option NodePtr → Nat → List (Heap α × ElemPtr)
  | turns + 1, w, some currentNode, elementsDone =>
    match w.heap.node currentNode with
    | some n =>
      if n.active ∧ elementsDone < initNumElements then
        cleanupIfDirtyFrees w.heap currentNode tl ++
          match runKernelThreadTurn tl kernel initNumElements w currentNode elementsDone with
          | some (w, next, elementsDone, _) => runKernelThreadFrees tl kernel initNumElements turns w next elementsDone
          | none => []
      else []
    | none => []
  | _, _, _, _ => []

/-- `_destroyThreadListWorker`, with the blocks passed to `nufree_aligned`. Each turn releases a
block, so the number of blocks bounds the turns. -/
def destroyThreadListLoop : Nat → Heap α → Option NodePtr → Option (Heap α × List NodePtr)
  | _, h, none => some (h, [])
  | 0, _, some _ => none
  | turns + 1, h, some currentNode => do
    let n ← h.node currentNode
    let (h, released) ← destroyThreadListLoop turns (h.nufreeAligned currentNode) n.next
    pure (h, currentNode :: released)

def destroyThreadListWorker (h : Heap α) (l : ListPtr) : Option (Heap α × List NodePtr) :=
  destroyThreadListLoop (h.blocks.card + 1) h (h.lists l).head

/-- A set with the one thread list `l`. -/
def ownSet (l : ListPtr) : PumaSet where
  domains := [[l]]
  tidToThreadList := [l]
  autoBalance := false
  splitter _ _ := 0

/-- The memory with the one thread list `l`, which is empty. -/
def newThreadList (l : ListPtr) (elementSize nodeSize : Nat) : Heap α :=
  createPumaSet (ownSet l) elementSize nodeSize

theorem newThreadList_record (l : ListPtr) (elementSize nodeSize : Nat) :
    (newThreadList l elementSize nodeSize : Heap α).lists l = .empty true elementSize :=
  if_pos (List.mem_singleton_self l)

/-- In which memory a run may allocate, and where it may call `_freeElementOnNode`. -/
structure Permit (α : Type) where
  alloc : Heap α → Prop
  free : Heap α → NodePtr → Prop

section Steps

variable [Inhabited α]

/-- A call of the thread that owns list `l`, or writes to its elements. -/
inductive ThreadStep (permit : Permit α) (l : ListPtr) : Heap α → Heap α → Prop
  | pumalloc {h h' : Heap α} {e : ElemPtr} (block : NodePtr) (here : permit.alloc h)
      (frees : ∀ call ∈ pumallocFrees h l block, permit.free call.1 call.2.node)
      (run : pumallocOnThreadList h l block = some (h', e)) : ThreadStep permit l h h'
  | pufree {h h' : Heap α} (e : ElemPtr) (live : h.Live l e) (free : permit.free h e.node)
      (run : pufree h e = some h') : ThreadStep permit l h h'
  | runKernelThread {σ : Type} {w w' : World σ α} (kernel : Kernel σ α) (writes : kernel.Writes fun _ => ())
      (turns : Nat) (elapsed : ℚ)
      (frees : ∀ call ∈ runKernelThreadFrees l kernel (w.heap.lists l).numElements turns w (w.heap.lists l).head 0,
        permit.free call.1 call.2.node)
      {calls : List (ElemPtr × α)} (run : runKernelThread turns w l kernel elapsed = some (w', calls)) :
      ThreadStep permit l w.heap w'.heap
  | write {h h' : Heap α} (same : h'.skeleton = h.skeleton) : ThreadStep permit l h h'

/-- The memory that some sequence of calls on a new list leads to, with room for an element in a node. -/
def ThreadReachable (permit : Permit α) (l : ListPtr) (h : Heap α) : Prop :=
  ∃ elementSize nodeSize, 0 < (newThreadList l elementSize nodeSize : Heap α).capacityFor elementSize ∧
    ReflTransGen (ThreadStep permit l) (newThreadList l elementSize nodeSize) h

/-- Allocations are safe; frees are not restricted. -/
def Permit.allocSafe (l : ListPtr) : Permit α := ⟨fun h => AllocSafe h l, fun _ _ => True⟩

/-- No call of `_freeElementOnNode` drops a spare node; allocations are not restricted. -/
def Permit.freeSafe : Permit α := ⟨fun _ => True, SafeFree⟩

/-- Everything is allowed. -/
def Permit.any : Permit α := ⟨fun _ => True, fun _ _ => True⟩

instance (l : ListPtr) : DecidablePred (Permit.allocSafe l : Permit α).alloc :=
  fun h => inferInstanceAs (Decidable (AllocSafe h l))

instance (l : ListPtr) (h : Heap α) (p : NodePtr) : Decidable ((Permit.allocSafe l : Permit α).free h p) :=
  inferInstanceAs (Decidable True)

instance : DecidablePred (Permit.freeSafe : Permit α).alloc := fun _ => inferInstanceAs (Decidable True)

instance (h : Heap α) (p : NodePtr) : Decidable ((Permit.freeSafe : Permit α).free h p) :=
  inferInstanceAs (Decidable (SafeFree h p))

instance : DecidablePred (Permit.any : Permit α).alloc := fun _ => inferInstanceAs (Decidable True)

instance (h : Heap α) (p : NodePtr) : Decidable ((Permit.any : Permit α).free h p) := inferInstanceAs (Decidable True)

omit [Inhabited α] in
theorem newThreadList_inv {l : ListPtr} {elementSize nodeSize : Nat}
    (capacity : 0 < (newThreadList l elementSize nodeSize : Heap α).capacityFor elementSize) :
    ListInv (newThreadList l elementSize nodeSize : Heap α) l :=
  (createPumaSet_ok (ownSet l) capacity).inv (List.mem_singleton_self l)

/-- A step whose allocations are safe is a run of the owner of the list. -/
theorem ThreadStep.inv {l : ListPtr} {h h' : Heap α} (step : ThreadStep (Permit.allocSafe l) l h h')
    (inv : ListInv h l) : ListInv h' l := by
  have safe : ∀ g : Heap α, AllocSafe g l → AllocSafe g l := fun _ here => here
  cases step with
  | pumalloc block here frees run =>
    have step : ListRun AllocSafe l h h' := ReflTransGen.single (ListStep.pumalloc block here run)
    exact (step.inv safe inv).1
  | pufree e live free run =>
    have step : ListRun AllocSafe l h h' := ReflTransGen.single (ListStep.pufree e live run)
    exact (step.inv safe inv).1
  | runKernelThread kernel writes turns elapsed frees run =>
    exact ((runKernelThread_run (writes.respects AllocSafe l) safe inv run).inv safe inv).1
  | write same =>
    have step : ListRun AllocSafe l h h' := ReflTransGen.single (ListStep.write same)
    exact (step.inv safe inv).1

theorem ThreadReachable.inv {l : ListPtr} {h : Heap α} (reachable : ThreadReachable (Permit.allocSafe l) l h) :
    ListInv h l := by
  obtain ⟨elementSize, nodeSize, capacity, run⟩ := reachable
  induction run with
  | refl => exact newThreadList_inv capacity
  | tail _ step ih => exact step.inv ih

/-- The counter of every node agrees with its mask. -/
def CountsOk (h : Heap α) : Prop :=
  ∀ p n, h.node p = some n → n.numElements = n.toSlots.liveSlots.card ∧ n.numElements ≤ n.capacity

/-- The next slot that `_pumallocOnThreadList` hands out is free, and inside its node. -/
def FreshSlot (h : Heap α) (l : ListPtr) : Prop :=
  ∀ block h₁ r i, reserveSlot h l block = some (h₁, r, i) →
    ∃ n, h₁.node r = some n ∧ i < n.capacity ∧ pumaBitmaskGet n.freeMask i = maskFree

/-- After safe allocations the counters agree with the masks, and a safe allocation gets a free slot. -/
theorem ThreadReachable.countsOk {l : ListPtr} {h : Heap α} (reachable : ThreadReachable (Permit.allocSafe l) l h) :
    CountsOk h ∧ (AllocSafe h l → FreshSlot h l) := by
  obtain ⟨ok, capacity, A, S, list⟩ := reachable.inv
  refine ⟨fun p n atNode => ?_, fun safe block h₁ r i run => ?_⟩
  · have counted := (ok p n atNode).1.toCounted
    exact ⟨counted.count, counted.numElements_le⟩
  · obtain ⟨B, S₂, post⟩ := reserveSlot_spec list.toShape ok list.headIndex capacity safe run
    obtain ⟨n, atNode, reserved⟩ := post.slot
    exact ⟨n, atNode, reserved.within, (Slots.notMem_liveSlots reserved.within).mp reserved.hole⟩

end Steps

/-- A call on a single list; the kernel of a pass does nothing. -/
inductive ThreadCall
  | pumalloc (block : NodePtr)
  | pufree (e : ElemPtr)
  | runKernelThread

variable [Inhabited α]

def ThreadCall.perform (l : ListPtr) (h : Heap α) : ThreadCall → Option (Heap α)
  | .pumalloc block => (pumallocOnThreadList h l block).map Prod.fst
  | .pufree e => if (h.read e).isSome ∧ (h.node e.node).any (fun n => n.threadList = l) then Puma.pufree h e else none
  | .runKernelThread =>
    (Puma.runKernelThread (h.blocks.card + 1) (⟨(), h⟩ : World Unit α) l idleKernel 0).map fun r => r.1.heap

/-- What a call does keeps to `permit`. -/
def ThreadCall.Permitted (permit : Permit α) (l : ListPtr) (h : Heap α) : ThreadCall → Prop
  | .pumalloc block => permit.alloc h ∧ ∀ call ∈ pumallocFrees h l block, permit.free call.1 call.2.node
  | .pufree e => permit.free h e.node
  | .runKernelThread => ∀ call ∈ runKernelThreadFrees l idleKernel (h.lists l).numElements (h.blocks.card + 1)
      (⟨(), h⟩ : World Unit α) (h.lists l).head 0, permit.free call.1 call.2.node

instance (permit : Permit α) [DecidablePred permit.alloc] [∀ h p, Decidable (permit.free h p)] (l : ListPtr) (h : Heap α)
    (call : ThreadCall) : Decidable (call.Permitted permit l h) :=
  match call with
  | .pumalloc _ => inferInstanceAs (Decidable (_ ∧ _))
  | .pufree e => inferInstanceAs (Decidable (permit.free h e.node))
  | .runKernelThread => inferInstanceAs (Decidable (∀ call ∈ runKernelThreadFrees _ _ _ _ _ _ _, _))

def ThreadCall.performPermitted (permit : Permit α) [DecidablePred permit.alloc] [∀ h p, Decidable (permit.free h p)]
    (l : ListPtr) (h : Heap α) (call : ThreadCall) : Option (Heap α) :=
  if call.Permitted permit l h then call.perform l h else none

theorem ThreadCall.perform_step {permit : Permit α} {l : ListPtr} {h h' : Heap α} {call : ThreadCall}
    (permitted : call.Permitted permit l h) (run : call.perform l h = some h') : ThreadStep permit l h h' := by
  cases call with
  | pumalloc block =>
    obtain ⟨⟨h₁, e⟩, made, rfl⟩ := Option.map_eq_some_iff.mp run
    exact .pumalloc block permitted.1 permitted.2 made
  | pufree e =>
    rw [ThreadCall.perform] at run
    split at run
    · rename_i there
      obtain ⟨m, n, atNode, rfl, live⟩ := Heap.live_of_read there.1
      have owner := there.2
      rw [atNode, Option.any_some, decide_eq_true_eq] at owner
      exact .pufree e ⟨n, atNode, owner, live⟩ permitted run
    · cases run
  | runKernelThread =>
    obtain ⟨⟨w, calls⟩, made, rfl⟩ := Option.map_eq_some_iff.mp run
    exact .runKernelThread (w := ⟨(), h⟩) idleKernel (idleKernel_writes _) _ 0 permitted made

/-- Executed calls reach their result. -/
theorem ThreadReachable.of_calls {permit : Permit α} [DecidablePred permit.alloc] [∀ h p, Decidable (permit.free h p)]
    {l : ListPtr} (elementSize nodeSize : Nat) {h : Heap α} (calls : List ThreadCall)
    (capacity : 0 < (newThreadList l elementSize nodeSize : Heap α).capacityFor elementSize)
    (run : calls.foldlM (ThreadCall.performPermitted permit l) (newThreadList l elementSize nodeSize) = some h) :
    ThreadReachable permit l h := by
  refine ⟨elementSize, nodeSize, capacity, Refinement.reflTransGen_of_foldlM (fun h call h' performed => ?_) run⟩
  rw [ThreadCall.performPermitted] at performed
  split at performed
  · exact ThreadCall.perform_step ‹_› performed
  · cases performed

/-- Two slots in each node; two allocations start from a tail without fresh slots, one of them from an
empty one, and a pass closes the hole that is left in front. -/
def busyThreadCalls : List ThreadCall :=
  [.pumalloc 0, .pumalloc 9, .pumalloc 1, .pumalloc 9, .pufree ⟨1, 0⟩, .pumalloc 9, .pufree ⟨1, 0⟩, .pufree ⟨1, 1⟩,
    .pumalloc 9, .pumalloc 9, .pufree ⟨0, 0⟩, .runKernelThread, .pumalloc 9, .pufree ⟨0, 1⟩]

set_option maxRecDepth 8000 in
/-- Elements in two nodes, and a hole in the first one. -/
theorem countsOk_busy : ∃ h : Heap Unit, (h.read ⟨0, 0⟩).isSome ∧ (h.read ⟨0, 1⟩).isNone ∧ (h.read ⟨1, 0⟩).isSome ∧
    (h.read ⟨1, 1⟩).isSome ∧ CountsOk h ∧ (AllocSafe h 0 → FreshSlot h 0) := by
  obtain ⟨h, reachable, first, hole, next, last⟩ : ∃ h : Heap Unit, ThreadReachable (Permit.allocSafe 0) 0 h ∧
      (h.read ⟨0, 0⟩).isSome ∧ (h.read ⟨0, 1⟩).isNone ∧ (h.read ⟨1, 0⟩).isSome ∧ (h.read ⟨1, 1⟩).isSome := by
    refine ⟨_, ThreadReachable.of_calls 4000 8192 busyThreadCalls (by decide) rfl, ?_⟩
    decide
  exact ⟨h, first, hole, next, last, ThreadReachable.countsOk reachable⟩

/-- Two slots in each node. The gap that the seventh allocation leaves keeps the middle node out of
reach of a pass, with a cursor that points at a live slot once the node is the tail again. -/
def liveSlotCalls : List ThreadCall :=
  [.pumalloc 0, .pumalloc 9, .pumalloc 1, .pumalloc 9, .pumalloc 2, .pumalloc 9,
    .pufree ⟨1, 0⟩, .pufree ⟨1, 1⟩, .pufree ⟨2, 0⟩, .pufree ⟨2, 1⟩, .pumalloc 9, .pufree ⟨2, 0⟩, .pufree ⟨0, 0⟩,
    .runKernelThread, .pumalloc 9, .pufree ⟨1, 0⟩, .runKernelThread]

set_option maxRecDepth 8000 in
/-- The next allocation hands out a slot that is live. -/
theorem liveSlot_handed_out : ∃ h : Heap Unit, ThreadReachable Permit.any 0 h ∧ (h.read ⟨0, 1⟩).isSome ∧
    (pumallocOnThreadList h 0 9).map Prod.snd = some ⟨0, 1⟩ ∧ ¬ FreshSlot h 0 := by
  refine ⟨_, ThreadReachable.of_calls 4000 8192 liveSlotCalls (by decide) rfl,
    by decide, by decide, fun fresh => ?_⟩
  obtain ⟨n, atNode, _, free⟩ := fresh 9 _ _ _ rfl
  cases atNode
  revert free
  decide

end Puma
