import Puma.Lib.Refinement
import Puma.Visits

namespace Puma

open Relation

variable {α : Type}

/-- A kernel that does nothing. -/
def idleKernel {σ : Type} : Kernel σ α := fun w _ => some w

theorem idleKernel_writes {σ γ : Type} (g : α → γ) : (idleKernel : Kernel σ α).Writes g := by
  intro w e w' _ run
  cases run
  rfl

theorem idleKernel_returns {σ : Type} : (idleKernel : Kernel σ α).Returns := fun _ _ _ => rfl

/-- A call of a user of a set; the kernel of a pass does nothing. -/
inductive Call
  | pumalloc (thread : Nat) (block : NodePtr)
  | pufree (e : ElemPtr)
  | runKernel (schedule : List Nat)

variable [Inhabited α]

/-- A pass may visit every block, and the balancer is not asked for anything. -/
def idleOracle (h : Heap α) (schedule : List Nat) : Oracle where
  tlAvgNodes _ _ := 0
  schedule := schedule
  elapsed _ _ := 0
  turns := h.blocks.card + 1

def Call.perform (set : PumaSet) (h : Heap α) : Call → Option (Heap α)
  | .pumalloc thread block => (Puma.pumalloc set h thread block).map Prod.fst
  | .pufree e => if (h.read e).isSome then Puma.pufree h e else none
  | .runKernel schedule =>
    (runKernelList set (⟨(), h⟩ : World Unit α) [fun _ => idleKernel] (idleOracle h schedule)).map fun r => r.1.heap

omit [Inhabited α] in
theorem Heap.live_of_read {h : Heap α} {e : ElemPtr} (there : (h.read e).isSome) : ∃ l, h.Live l e := by
  cases atNode : h.node e.node with
  | none => simp [Heap.read, Heap.slots, atNode] at there
  | some n =>
    rw [Heap.read_eq (Heap.slots_eq atNode), Slots.read_isSome] at there
    exact ⟨n.threadList, n, atNode, rfl, there⟩

/-- The allocations of a user start in a memory that meets `allowed`. -/
def Call.Allowed (allowed : Heap α → ListPtr → Prop) (set : PumaSet) (h : Heap α) : Call → Prop
  | .pumalloc thread _ => ∀ l ∈ set.tidToThreadList[thread]?, allowed h l
  | .pufree _ => True
  | .runKernel _ => True

omit [Inhabited α] in
instance (allowed : Heap α → ListPtr → Prop) [∀ h l, Decidable (allowed h l)] (set : PumaSet) (h : Heap α)
    (call : Call) : Decidable (call.Allowed allowed set h) :=
  match call with
  | .pumalloc thread _ => inferInstanceAs (Decidable (∀ l ∈ set.tidToThreadList[thread]?, allowed h l))
  | .pufree _ => inferInstanceAs (Decidable True)
  | .runKernel _ => inferInstanceAs (Decidable True)

/-- A call, where its allocation is safe. -/
def Call.performSafe (set : PumaSet) (h : Heap α) (call : Call) : Option (Heap α) :=
  if call.Allowed AllocSafe set h then call.perform set h else none

theorem Call.perform_step {allowed : Heap α → ListPtr → Prop} {set : PumaSet} {h h' : Heap α} {call : Call}
    (permitted : call.Allowed allowed set h) (run : call.perform set h = some h') : SetStep set allowed h h' := by
  cases call with
  | pumalloc thread block =>
    obtain ⟨⟨h₁, e⟩, made, rfl⟩ := Option.map_eq_some_iff.mp run
    exact .pumalloc thread block permitted made
  | pufree e =>
    rw [Call.perform] at run
    split at run
    · rename_i there
      obtain ⟨l, live⟩ := Heap.live_of_read there
      exact .pufree e live run
    · cases run
  | runKernel schedule =>
    obtain ⟨⟨w, visits⟩, made, rfl⟩ := Option.map_eq_some_iff.mp run
    refine .runKernelList _ _ (fun kernel member thread l _ => ?_) made
    rw [List.mem_singleton] at member
    rw [member]
    exact (idleKernel_writes fun _ => ()).respects _ l

section Executed

variable {set : CreatedSet} (elementSize nodeSize : Nat) {h : Heap α} (calls : List Call)

/-- Executed calls reach their result. -/
theorem Reachable.of_calls
    (capacity : 0 < (createPumaSet set.toPumaSet elementSize nodeSize : Heap α).capacityFor elementSize)
    (run : calls.foldlM (Call.perform set.toPumaSet) (createPumaSet set.toPumaSet elementSize nodeSize) = some h) :
    Reachable set (fun _ _ => True) h :=
  ⟨elementSize, nodeSize, capacity, Refinement.reflTransGen_of_foldlM
    (fun _ call _ => Call.perform_step (by cases call <;> simp [Call.Allowed])) run⟩

theorem Reachable.of_safeCalls
    (capacity : 0 < (createPumaSet set.toPumaSet elementSize nodeSize : Heap α).capacityFor elementSize)
    (run : calls.foldlM (Call.performSafe set.toPumaSet) (createPumaSet set.toPumaSet elementSize nodeSize) = some h) :
    Reachable set (fun h l => AllocSafe h l) h := by
  refine ⟨elementSize, nodeSize, capacity, Refinement.reflTransGen_of_foldlM (fun h call h' performed => ?_) run⟩
  rw [Call.performSafe] at performed
  split at performed
  · exact Call.perform_step ‹_› performed
  · cases performed

end Executed

end Puma
