import Mathlib.Data.Finmap
import Mathlib.Algebra.Order.BigOperators.Group.Finset
import Mathlib.Algebra.BigOperators.Group.Multiset.Basic
import Mathlib.Data.Rat.Defs
import Puma.Bitmask

namespace Puma

/-- The address of a node block, and of a thread list. -/
abbrev NodePtr := Nat

abbrev ListPtr := Nat

/-- The address of an element. Slot `slot` of a node lies inside the node's own
block, so the pair names the address; blocks do not overlap. -/
structure ElemPtr where
  node : NodePtr
  slot : Nat
  deriving DecidableEq, Repr

/-- The order of addresses: by block, and inside a block by slot. -/
def ElemPtr.ge (a b : ElemPtr) : Bool :=
  decide (b.node < a.node) || (decide (a.node = b.node) && decide (b.slot ≤ a.slot))

/-- `size_t` subtraction. -/
def sizeSub (a b : Nat) : Nat := if b ≤ a then a - b else 2 ^ 64 - (b - a) % 2 ^ 64

/-- The fields of `struct pumaNode` that place a node in its thread list. -/
structure Links where
  next : Option NodePtr
  prev : Option NodePtr
  active : Bool
  index : Nat
  threadList : ListPtr

/-- The fields of `struct pumaNode` that describe its own slots; `elements`
is the stored content of each slot. -/
structure Slots (α : Type) where
  capacity : Nat
  numElements : Nat
  firstKnownFree : Nat
  freeMask : PumaBitmask
  dirty : Bool
  elements : Nat → α

/-- `struct pumaNode`. -/
structure PumaNode (α : Type) extends Links, Slots α

/-- `NUM_KERNEL_RUNTIMES`. -/
def numKernelRuntimes : Nat := 5

/-- `struct pumaThreadList`. -/
structure PumaThreadList where
  head : Option NodePtr
  tail : Option NodePtr
  numElements : Nat
  numNodes : Nat
  active : Bool
  elementSize : Nat
  latestRunTime : ℚ
  lastNRunTime : ℚ
  nextRunTimeSlot : Nat
  kernelRunTimes : List ℚ

/-- A thread list as `memset` and `_setupThreadListsWorker` leave it. -/
def PumaThreadList.empty (active : Bool) (elementSize : Nat) : PumaThreadList where
  head := none
  tail := none
  numElements := 0
  numNodes := 0
  active := active
  elementSize := elementSize
  latestRunTime := 0
  lastNRunTime := 0
  nextRunTimeSlot := 0
  kernelRunTimes := List.replicate numKernelRuntimes 0

/-- The memory that the library works on: the node blocks obtained and not yet
released, the thread lists, and `pumaPageSize * PUMA_NODEPAGES`. -/
structure Heap (α : Type) where
  nodes : Finmap fun _ : NodePtr => PumaNode α
  lists : ListPtr → PumaThreadList
  nodeSize : Nat

/-- `sizeof(struct pumaNode)` on a 64-bit machine. -/
def sizeofPumaNode : Nat := 152

/-- The slots that a node of the heap gets for elements of the given size. -/
def Heap.capacityFor {α : Type} (h : Heap α) (elementSize : Nat) : Nat :=
  (createPumaBitmaskForElemArray (h.nodeSize - sizeofPumaNode) maskFree elementSize).2

namespace Heap

variable {α : Type}

/-- Dereference a node pointer: `none` on a block that is not allocated. -/
def node (h : Heap α) (p : NodePtr) : Option (PumaNode α) := h.nodes.lookup p

def setNode (h : Heap α) (p : NodePtr) (n : PumaNode α) : Heap α :=
  { h with nodes := h.nodes.insert p n }

/-- Store through a node pointer. -/
def modifyNode (h : Heap α) (p : NodePtr) (f : PumaNode α → PumaNode α) : Option (Heap α) :=
  (h.node p).map fun n => h.setNode p (f n)

/-- Store through a node pointer unless it is `NULL`. -/
def modifyNodeIf (h : Heap α) (p : Option NodePtr) (f : PumaNode α → PumaNode α) : Option (Heap α) :=
  match p with
  | none => some h
  | some p => h.modifyNode p f

/-- `nufree_aligned`. -/
def nufreeAligned (h : Heap α) (p : NodePtr) : Heap α := { h with nodes := h.nodes.erase p }

def modifyList (h : Heap α) (l : ListPtr) (f : PumaThreadList → PumaThreadList) : Heap α :=
  { h with lists := Function.update h.lists l (f (h.lists l)) }

/-- The blocks obtained and not yet released. -/
def blocks (h : Heap α) : Finset NodePtr := h.nodes.keys

def links (h : Heap α) (p : NodePtr) : Option Links := (h.node p).map PumaNode.toLinks

def slots (h : Heap α) (p : NodePtr) : Option (Slots α) := (h.node p).map PumaNode.toSlots

def next (h : Heap α) (p : NodePtr) : Option NodePtr := (h.links p).bind Links.next

def prev (h : Heap α) (p : NodePtr) : Option NodePtr := (h.links p).bind Links.prev

theorem mem_blocks {h : Heap α} {p : NodePtr} : p ∈ h.blocks ↔ ∃ n, h.node p = some n := by
  rw [blocks, Finmap.mem_keys, Finmap.mem_iff]
  rfl

theorem node_setNode (h : Heap α) (p q : NodePtr) (n : PumaNode α) :
    (h.setNode p n).node q = if q = p then some n else h.node q := by
  unfold node setNode
  split
  · rename_i same
    rw [same]
    exact Finmap.lookup_insert _
  · rename_i distinct
    exact Finmap.lookup_insert_of_ne _ distinct

@[simp] theorem node_setNode_self (h : Heap α) (p : NodePtr) (n : PumaNode α) :
    (h.setNode p n).node p = some n := by
  rw [node_setNode, if_pos rfl]

@[simp] theorem node_setNode_ne (h : Heap α) {p q : NodePtr} (n : PumaNode α) (distinct : q ≠ p) :
    (h.setNode p n).node q = h.node q := by
  rw [node_setNode, if_neg distinct]

theorem node_nufreeAligned (h : Heap α) (p q : NodePtr) :
    (h.nufreeAligned p).node q = if q = p then none else h.node q := by
  unfold node nufreeAligned
  split
  · rename_i same
    rw [same]
    exact Finmap.lookup_erase _ _
  · rename_i distinct
    exact Finmap.lookup_erase_ne distinct

@[simp] theorem node_modifyList (h : Heap α) (l : ListPtr) (f : PumaThreadList → PumaThreadList) :
    (h.modifyList l f).node = h.node := rfl

@[simp] theorem lists_setNode (h : Heap α) (p : NodePtr) (n : PumaNode α) :
    (h.setNode p n).lists = h.lists := rfl

@[simp] theorem lists_nufreeAligned (h : Heap α) (p : NodePtr) : (h.nufreeAligned p).lists = h.lists := rfl

@[simp] theorem lists_modifyList_self (h : Heap α) (l : ListPtr) (f : PumaThreadList → PumaThreadList) :
    (h.modifyList l f).lists l = f (h.lists l) := by
  simp [modifyList]

@[simp] theorem lists_modifyList_ne (h : Heap α) {l m : ListPtr} (f : PumaThreadList → PumaThreadList)
    (distinct : m ≠ l) : (h.modifyList l f).lists m = h.lists m := by
  simp [modifyList, distinct]

@[simp] theorem nodeSize_setNode (h : Heap α) (p : NodePtr) (n : PumaNode α) :
    (h.setNode p n).nodeSize = h.nodeSize := rfl

@[simp] theorem nodeSize_nufreeAligned (h : Heap α) (p : NodePtr) :
    (h.nufreeAligned p).nodeSize = h.nodeSize := rfl

@[simp] theorem setNode_setNode (h : Heap α) (p : NodePtr) (n m : PumaNode α) :
    (h.setNode p n).setNode p m = h.setNode p m := by
  simp [setNode]

theorem setNode_eq_self {h : Heap α} {p : NodePtr} {n : PumaNode α} (atNode : h.node p = some n) :
    h.setNode p n = h := by
  have same : h.nodes.insert p n = h.nodes := by
    refine Finmap.ext_lookup fun q => ?_
    by_cases here : q = p
    · subst here
      rw [Finmap.lookup_insert]
      exact atNode.symm
    · exact Finmap.lookup_insert_of_ne _ here
  rw [setNode, same]

theorem setNode_modifyList (h : Heap α) (l : ListPtr) (f : PumaThreadList → PumaThreadList) (p : NodePtr)
    (n : PumaNode α) : (h.modifyList l f).setNode p n = (h.setNode p n).modifyList l f := rfl

theorem modifyList_eq_self {h : Heap α} {l : ListPtr} {f : PumaThreadList → PumaThreadList}
    (same : f (h.lists l) = h.lists l) : h.modifyList l f = h := by
  rw [modifyList, same, Function.update_eq_self]

theorem modifyList_congr {h : Heap α} {l : ListPtr} {f g : PumaThreadList → PumaThreadList}
    (same : f (h.lists l) = g (h.lists l)) : h.modifyList l f = h.modifyList l g := by
  rw [modifyList, modifyList, same]

theorem modifyNode_eq {h : Heap α} {p : NodePtr} {n : PumaNode α} (atNode : h.node p = some n)
    (f : PumaNode α → PumaNode α) : h.modifyNode p f = some (h.setNode p (f n)) := by
  rw [modifyNode, atNode]
  rfl

end Heap

/-- The slots of a node that hold an element: the ones marked `MASKNOTFREE`. -/
def Slots.liveSlots {α : Type} (s : Slots α) : Finset Nat :=
  (Finset.range s.capacity).filter fun i => pumaBitmaskGet s.freeMask i = maskNotFree

/-- The contents of a node's elements, with multiplicity. -/
def Slots.contents {α : Type} (s : Slots α) : Multiset α := s.liveSlots.val.map s.elements

end Puma
