import Mathlib.Data.Set.Insert

namespace Puma

/-- `sizeof(unsigned long)` on a 64-bit machine. -/
def sizeofUnsignedLong : Nat := 8

/-- `nodemask`, which both allocators fill in the same way; `none` if the word that they write lies
outside the array. -/
def nodemask (maxnode domain : Nat) : Option (List (BitVec 64)) :=
  let numBuckets := 1 + maxnode / sizeofUnsignedLong
  let nodemask := List.replicate numBuckets 0
  let bucket := domain / sizeofUnsignedLong
  let i := domain % sizeofUnsignedLong
  if bucket < numBuckets then some (nodemask.set bucket ((1 : BitVec 64) <<< i)) else none

/-- The memory that `posix_memalign` is asked for, and what `mbind` is told of it. -/
structure BoundMemory where
  alignment : Nat
  size : Nat
  nodemask : List (BitVec 64)
  maxnode : Nat

/-- `numalloc_on_node`; `maxnode` is what `numa_max_node` returns. -/
def numallocOnNode (pumaPageSize maxnode psize domain : Nat) : Option BoundMemory := do
  let nodemask ← nodemask maxnode domain
  pure ⟨pumaPageSize, psize, nodemask, maxnode + 2⟩

/-- `numalloc_aligned_on_node`. -/
def numallocAlignedOnNode (maxnode psize domain : Nat) : Option BoundMemory := do
  let nodemask ← nodemask maxnode domain
  pure ⟨psize, psize, nodemask, maxnode + 2⟩

/-- The nodes of the mask as `mbind` reads it: bit `b` of word `w` stands for node `64 * w + b`. -/
def BoundMemory.nodes (memory : BoundMemory) : Set Nat :=
  { node | (memory.nodemask.getD (node / 64) 0).getLsbD (node % 64) = true }

theorem one_shiftLeft_getLsbD {i b : Nat} (small : i < 64) : ((1 : BitVec 64) <<< i).getLsbD b = true ↔ b = i := by
  rw [BitVec.getLsbD_shiftLeft, show (1 : BitVec 64) = 1#64 from rfl, BitVec.getLsbD_one]
  simp only [Bool.and_eq_true, decide_eq_true_eq, Bool.not_eq_true', decide_eq_false_iff_not]
  omega

/-- The word lies inside the array, and the mask names one node: not `domain` itself, but the node with the
number that its word and bit would have in words of eight bits. -/
theorem nodemask_nodes {maxnode domain : Nat} (inside : domain ≤ maxnode) :
    ∃ mask, nodemask maxnode domain = some mask ∧
      ∀ alignment size last, (⟨alignment, size, mask, last⟩ : BoundMemory).nodes = {64 * (domain / 8) + domain % 8} := by
  have bucket : domain / 8 < 1 + maxnode / 8 := by omega
  refine ⟨_, if_pos bucket, fun alignment size last => ?_⟩
  ext node
  simp only [BoundMemory.nodes, sizeofUnsignedLong, Set.mem_ofPred_eq, Set.mem_singleton_iff, List.getD_eq_getElem?_getD]
  by_cases here : node / 64 = domain / 8
  · rw [here, List.getElem?_set_self (by simpa using bucket), Option.getD_some, one_shiftLeft_getLsbD (by omega)]
    omega
  · have zero : ((List.replicate (1 + maxnode / 8) (0 : BitVec 64))[node / 64]?).getD 0 = 0 := by
      rw [List.getElem?_replicate]
      split <;> rfl
    rw [List.getElem?_set_ne (Ne.symm here), zero]
    refine iff_of_false (by simp) fun same => here ?_
    omega

/-- Both allocators write inside the array and bind their memory to exactly the given domain just when its
number is below eight. -/
theorem numalloc_binds_iff {maxnode domain : Nat} (inside : domain ≤ maxnode) (pumaPageSize psize : Nat) :
    ((∃ memory, numallocOnNode pumaPageSize maxnode psize domain = some memory ∧ memory.nodes = {domain}) ∧
      ∃ memory, numallocAlignedOnNode maxnode psize domain = some memory ∧ memory.nodes = {domain}) ↔ domain < 8 := by
  obtain ⟨mask, built, nodes⟩ := nodemask_nodes inside
  have only : 64 * (domain / 8) + domain % 8 = domain ↔ domain < 8 := by omega
  simp only [numallocOnNode, numallocAlignedOnNode, built, Option.bind_eq_bind, Option.bind_some, Option.pure_def,
    Option.some.injEq, exists_eq_left', nodes, Set.singleton_eq_singleton_iff, and_self, only]

/-- The last domain of a machine with eight. -/
theorem numalloc_binds_seven : (∃ memory, numallocOnNode 4096 7 8192 7 = some memory ∧ memory.nodes = {7}) ∧
    ∃ memory, numallocAlignedOnNode 7 8192 7 = some memory ∧ memory.nodes = {7} :=
  (numalloc_binds_iff (by decide) 4096 8192).mpr (by decide)

/-- On a machine with nine nodes the mask for the last of them names node 64. -/
theorem numalloc_not_binds_eight : ¬ ∃ memory, numallocOnNode 4096 8 8192 8 = some memory ∧ memory.nodes = {8} := by
  obtain ⟨mask, built, nodes⟩ := nodemask_nodes (le_refl 8)
  simp [numallocOnNode, built, nodes]

end Puma
