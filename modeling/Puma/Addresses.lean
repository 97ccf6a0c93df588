import Puma.Layout
import Puma.Runs
import Puma.Uniform
import Mathlib.Order.CompletePartialOrder

namespace Puma

open Relation

variable {α : Type} {elementSize nodeSize k : Nat}

/-- An address that `posix_memalign` can return for a block. -/
def AlignedAt (nodeSize : Nat) (p : NodePtr) : Prop := nodeSize ∣ p ∧ p < 2 ^ 64

/-- The layout of the node in the block at `p`: the mask and the elements share what `struct pumaNode` leaves of it. -/
def nodeLayout (nodeSize elementSize : Nat) (p : NodePtr) : NodeLayout :=
  Machine.createPumaBitmaskForElemArray (BitVec.ofNat 64 p + BitVec.ofNat 64 sizeofPumaNode)
    (BitVec.ofNat 64 (nodeSize - sizeofPumaNode)) (BitVec.ofNat 64 elementSize)

/-- What `_getElement` computes. -/
def ElemPtr.address (nodeSize elementSize : Nat) (e : ElemPtr) : BitVec 64 :=
  Machine.getElement (nodeLayout nodeSize elementSize e.node) (BitVec.ofNat 64 e.slot)

/-- What `_getNodeForElement` and `_getIndexOfElement` make of an address. -/
def elementAt (nodeSize elementSize : Nat) (a : BitVec 64) : ElemPtr :=
  let node := Machine.getNodeForElement (BitVec.ofNat 64 nodeSize) a
  ⟨node.toNat, (Machine.getIndexOfElementOnNode a (nodeLayout nodeSize elementSize node.toNat)).toNat⟩

/-- The bytes of an element. -/
def ElemPtr.bytes (nodeSize elementSize : Nat) (e : ElemPtr) : Set (BitVec 64) :=
  { a | ∃ j < elementSize, a = e.address nodeSize elementSize + BitVec.ofNat 64 j }

/-- Where the elements of a block start: behind `struct pumaNode` and the words of the mask. -/
def firstElement (nodeSize elementSize : Nat) (p : NodePtr) : Nat :=
  sizeofPumaNode + getPumaBitmaskArraySize (nodeLayout nodeSize elementSize p).capacity.toNat

/-- The bytes of a block that hold its `struct pumaNode` and the words of its mask. -/
def headerBytes (nodeSize elementSize : Nat) (p : NodePtr) : Set (BitVec 64) :=
  { a | ∃ t < firstElement nodeSize elementSize p, a = BitVec.ofNat 64 p + BitVec.ofNat 64 t }

/-- Nodes of a power of two of bytes that have room for an element. -/
structure Sizes (k nodeSize elementSize : Nat) : Prop where
  power : nodeSize = 2 ^ k
  small : nodeSize < 2 ^ 57
  positive : 1 ≤ elementSize
  room : 0 < (createPumaBitmaskForElemArray (nodeSize - sizeofPumaNode) maskFree elementSize).2

section Block

variable (sizes : Sizes k nodeSize elementSize)
include sizes

theorem Sizes.fits : elementSize ≤ nodeSize - sizeofPumaNode := by
  have within := createPumaBitmaskForElemArray_le sizes.positive (nodeSize - sizeofPumaNode) maskFree
  have oneStep := Nat.mul_le_mul_right elementSize (Nat.succ_le_of_lt sizes.room)
  rw [elemArrayBytes] at within
  omega

theorem Sizes.toNat_nodeSize : (BitVec.ofNat 64 nodeSize).toNat = nodeSize := by
  have small := sizes.small
  rw [BitVec.toNat_ofNat, Nat.mod_eq_of_lt (by omega)]

theorem Sizes.toNat_elementSize : (BitVec.ofNat 64 elementSize).toNat = elementSize := by
  have small := sizes.small
  have fits := sizes.fits
  rw [BitVec.toNat_ofNat, Nat.mod_eq_of_lt (by omega)]

theorem Sizes.toNat_arraySize : (BitVec.ofNat 64 (nodeSize - sizeofPumaNode)).toNat = nodeSize - sizeofPumaNode := by
  have small := sizes.small
  rw [BitVec.toNat_ofNat, Nat.mod_eq_of_lt (by omega)]

/-- The arithmetic of the layout does not overflow on these sizes. -/
theorem Sizes.admitted : (BitVec.ofNat 64 (nodeSize - sizeofPumaNode)).toNat < 2 ^ 57 ∧
    0 < (BitVec.ofNat 64 elementSize).toNat ∧
    (BitVec.ofNat 64 elementSize).toNat ≤ (BitVec.ofNat 64 (nodeSize - sizeofPumaNode)).toNat := by
  rw [sizes.toNat_arraySize, sizes.toNat_elementSize]
  exact ⟨(Nat.sub_le _ _).trans_lt sizes.small, sizes.positive, sizes.fits⟩

/-- The capacity that the node stores is the one of the machine's arithmetic. -/
theorem Sizes.capacity (p : NodePtr) : (nodeLayout nodeSize elementSize p).capacity.toNat =
    (createPumaBitmaskForElemArray (nodeSize - sizeofPumaNode) maskFree elementSize).2 := by
  obtain ⟨small, nonempty, fits⟩ := sizes.admitted
  have same := Machine.toNat_capacity (BitVec.ofNat 64 p + BitVec.ofNat 64 sizeofPumaNode) small nonempty fits maskFree
  rwa [sizes.toNat_arraySize, sizes.toNat_elementSize] at same

/-- The elements and the words of their mask fit behind `struct pumaNode`, the words in front. -/
theorem Sizes.layout (p : NodePtr) :
    firstElement nodeSize elementSize p + (nodeLayout nodeSize elementSize p).capacity.toNat * elementSize ≤ nodeSize ∧
      (nodeLayout nodeSize elementSize p).elementArray =
        BitVec.ofNat 64 p + BitVec.ofNat 64 (firstElement nodeSize elementSize p) := by
  obtain ⟨small, nonempty, fits⟩ := sizes.admitted
  obtain ⟨within, start⟩ := Machine.elementArray_eq (BitVec.ofNat 64 p + BitVec.ofNat 64 sizeofPumaNode) small nonempty fits
  have room := sizes.fits
  have positive := sizes.positive
  rw [sizes.toNat_arraySize, sizes.toNat_elementSize, elemArrayBytes] at within
  constructor
  · rw [firstElement, nodeLayout]
    omega
  · rw [nodeLayout, start, firstElement, nodeLayout, BitVec.ofNat_add, add_assoc]

theorem Sizes.address (e : ElemPtr) : e.address nodeSize elementSize =
    BitVec.ofNat 64 e.node + BitVec.ofNat 64 (firstElement nodeSize elementSize e.node + e.slot * elementSize) := by
  have size : (nodeLayout nodeSize elementSize e.node).elementSize = BitVec.ofNat 64 elementSize := rfl
  rw [ElemPtr.address, Machine.getElement, (sizes.layout e.node).2, size, BitVec.ofNat_add, BitVec.ofNat_mul]
  ring

/-- Inside an aligned block addresses do not wrap around. -/
theorem Sizes.toNat_inBlock {p : NodePtr} (aligned : AlignedAt nodeSize p) {t : Nat} (inside : t < nodeSize) :
    (BitVec.ofNat 64 p + BitVec.ofNat 64 t).toNat = p + t := by
  have base : (BitVec.ofNat 64 p).toNat = p := by rw [BitVec.toNat_ofNat, Nat.mod_eq_of_lt aligned.2]
  have power : (BitVec.ofNat 64 nodeSize).toNat = 2 ^ k := by rw [sizes.toNat_nodeSize, sizes.power]
  have divides : (BitVec.ofNat 64 nodeSize).toNat ∣ (BitVec.ofNat 64 p).toNat := by
    rw [sizes.toNat_nodeSize, base]
    exact aligned.1
  have sum := AlignedBlock.toNat_add power divides (t := t) (by rwa [sizes.toNat_nodeSize])
  rwa [base] at sum

/-- A slot of a node. -/
def InNode (nodeSize elementSize : Nat) (e : ElemPtr) : Prop :=
  e.slot < (nodeLayout nodeSize elementSize e.node).capacity.toNat

/-- The bytes of an element follow each other from its place in the block on. -/
theorem Sizes.byte {e : ElemPtr} (aligned : AlignedAt nodeSize e.node) (inNode : InNode nodeSize elementSize e)
    {a : BitVec 64} (byte : a ∈ e.bytes nodeSize elementSize) :
    ∃ j < elementSize, a.toNat = e.node + (firstElement nodeSize elementSize e.node + (e.slot * elementSize + j)) ∧
      firstElement nodeSize elementSize e.node + (e.slot * elementSize + j) < nodeSize := by
  obtain ⟨j, bound, rfl⟩ := byte
  have within := (sizes.layout e.node).1
  have next := Nat.mul_le_mul_right elementSize (Nat.succ_le_of_lt inNode)
  rw [Nat.succ_mul] at next
  have inside : firstElement nodeSize elementSize e.node + (e.slot * elementSize + j) < nodeSize := by omega
  refine ⟨j, bound, ?_, inside⟩
  rw [sizes.address, add_assoc, ← BitVec.ofNat_add, Nat.add_assoc, sizes.toNat_inBlock aligned inside]

theorem Sizes.headerByte {p : NodePtr} (aligned : AlignedAt nodeSize p) {a : BitVec 64}
    (byte : a ∈ headerBytes nodeSize elementSize p) :
    ∃ t < firstElement nodeSize elementSize p, a.toNat = p + t ∧ t < nodeSize := by
  obtain ⟨t, bound, rfl⟩ := byte
  have inside : t < nodeSize := bound.trans_le ((Nat.le_add_right _ _).trans (sizes.layout p).1)
  exact ⟨t, bound, sizes.toNat_inBlock aligned inside, inside⟩

theorem Sizes.toNat_address {e : ElemPtr} (aligned : AlignedAt nodeSize e.node) (inNode : InNode nodeSize elementSize e) :
    (e.address nodeSize elementSize).toNat = e.node + (firstElement nodeSize elementSize e.node + e.slot * elementSize) ∧
      firstElement nodeSize elementSize e.node + e.slot * elementSize < nodeSize := by
  have within := (sizes.layout e.node).1
  have next := Nat.mul_le_mul_right elementSize (Nat.succ_le_of_lt inNode)
  have nonempty := sizes.positive
  rw [Nat.succ_mul] at next
  have inside : firstElement nodeSize elementSize e.node + e.slot * elementSize < nodeSize := by omega
  exact ⟨by rw [sizes.address, sizes.toNat_inBlock aligned inside], inside⟩

/-- From every byte of an element the library finds the element. -/
theorem Sizes.elementAt_byte {e : ElemPtr} (aligned : AlignedAt nodeSize e.node) (inNode : InNode nodeSize elementSize e)
    {a : BitVec 64} (byte : a ∈ e.bytes nodeSize elementSize) : elementAt nodeSize elementSize a = e := by
  obtain ⟨small, nonempty, fits⟩ := sizes.admitted
  have base : (BitVec.ofNat 64 e.node).toNat = e.node := by rw [BitVec.toNat_ofNat, Nat.mod_eq_of_lt aligned.2]
  have slot : (BitVec.ofNat 64 e.slot).toNat = e.slot := by
    rw [BitVec.toNat_ofNat, Nat.mod_eq_of_lt (Nat.lt_trans inNode (BitVec.isLt _))]
  have onNode : Machine.getNodeForElement (BitVec.ofNat 64 nodeSize) a = BitVec.ofNat 64 e.node := by
    obtain ⟨j, bound, rfl⟩ := byte
    have within := (sizes.layout e.node).1
    have next := Nat.mul_le_mul_right elementSize (Nat.succ_le_of_lt inNode)
    rw [Nat.succ_mul] at next
    refine AlignedBlock.roundDown_eq (k := k) (by rw [sizes.toNat_nodeSize, sizes.power])
      (by rw [sizes.toNat_nodeSize, base]; exact aligned.1)
      ⟨firstElement nodeSize elementSize e.node + e.slot * elementSize + j, ?_, ?_⟩
    · rw [sizes.toNat_nodeSize]
      omega
    · rw [sizes.address, add_assoc, ← BitVec.ofNat_add]
  have inSlot : Machine.SlotByte (nodeLayout nodeSize elementSize e.node) (BitVec.ofNat 64 e.slot) a := by
    obtain ⟨j, bound, rfl⟩ := byte
    refine ⟨by rw [BitVec.lt_def, slot]; exact inNode, j, ?_, rfl⟩
    rw [show (nodeLayout nodeSize elementSize e.node).elementSize = BitVec.ofNat 64 elementSize from rfl,
      sizes.toNat_elementSize]
    exact bound
  obtain ⟨_, _, _, _, index⟩ := Machine.SlotByte.inArray small nonempty fits inSlot
  have onSlot : Machine.getIndexOfElementOnNode a (nodeLayout nodeSize elementSize e.node) = BitVec.ofNat 64 e.slot := index
  rw [elementAt, onNode, base, onSlot, slot]

end Block

/-- The names of nodes and elements stand for addresses: every byte of a live element is inside its block, behind what
the library stores there, belongs to no other element, and leads back to the name; addresses compare as the names do. -/
structure Placed (nodeSize elementSize : Nat) (h : Heap α) : Prop where
  decode : ∀ l e, h.Live l e → ∀ a ∈ e.bytes nodeSize elementSize, elementAt nodeSize elementSize a = e
  inside : ∀ l e, h.Live l e → ∀ a ∈ e.bytes nodeSize elementSize, e.node ≤ a.toNat ∧ a.toNat < e.node + nodeSize
  header : ∀ l e, h.Live l e → ∀ p ∈ h.blocks, Disjoint (e.bytes nodeSize elementSize) (headerBytes nodeSize elementSize p)
  apart : ∀ l m e f, h.Live l e → h.Live m f → e ≠ f →
    Disjoint (e.bytes nodeSize elementSize) (f.bytes nodeSize elementSize)
  order : ∀ l m e f, h.Live l e → h.Live m f →
    (f.address nodeSize elementSize ≤ e.address nodeSize elementSize ↔ e.ge f = true)

theorem Uniform.placed {lists : List ListPtr} {h : Heap α} (uniform : Uniform elementSize nodeSize lists h)
    (sizes : Sizes k nodeSize elementSize) (aligned : ∀ p ∈ h.blocks, AlignedAt nodeSize p) : Placed nodeSize elementSize h := by
  have block {l : ListPtr} {e : ElemPtr} (live : h.Live l e) : AlignedAt nodeSize e.node ∧ InNode nodeSize elementSize e := by
    obtain ⟨n, atNode, _, slot⟩ := live
    refine ⟨aligned e.node (Heap.mem_blocks.mpr ⟨n, atNode⟩), ?_⟩
    have within := Slots.lt_capacity slot
    rw [uniform.capacity e.node n atNode, Heap.capacityFor, uniform.size] at within
    rwa [InNode, sizes.capacity]
  refine ⟨fun l e live a byte => ?_, fun l e live a byte => ?_, fun l e live p member => ?_,
    fun l m e f live live' other => ?_, fun l m e f live live' => ?_⟩
  · obtain ⟨atBlock, inNode⟩ := block live
    exact sizes.elementAt_byte atBlock inNode byte
  · obtain ⟨atBlock, inNode⟩ := block live
    obtain ⟨j, _, place, inside⟩ := sizes.byte atBlock inNode byte
    rw [place]
    exact ⟨Nat.le_add_right _ _, Nat.add_lt_add_left inside _⟩
  · obtain ⟨atBlock, inNode⟩ := block live
    refine Set.disjoint_left.mpr fun a byte inHeader => ?_
    obtain ⟨j, _, place, inside⟩ := sizes.byte atBlock inNode byte
    obtain ⟨t, before, place', inside'⟩ := sizes.headerByte (aligned p member) inHeader
    obtain ⟨same, offset⟩ := AlignedBlock.base_eq atBlock.1 (aligned p member).1 inside inside' (place.symm.trans place')
    rw [same] at offset
    omega
  · obtain ⟨atBlock, inNode⟩ := block live
    obtain ⟨at', inNode'⟩ := block live'
    refine Set.disjoint_left.mpr fun a byte byte' => other ?_
    rw [← sizes.elementAt_byte atBlock inNode byte, sizes.elementAt_byte at' inNode' byte']
  · obtain ⟨atBlock, inNode⟩ := block live
    obtain ⟨at', inNode'⟩ := block live'
    obtain ⟨place, inside⟩ := sizes.toNat_address atBlock inNode
    obtain ⟨place', inside'⟩ := sizes.toNat_address at' inNode'
    rw [BitVec.le_def, place, place', ElemPtr.ge, Bool.or_eq_true, Bool.and_eq_true, decide_eq_true_eq, decide_eq_true_eq,
      decide_eq_true_eq]
    rcases Nat.lt_trichotomy f.node e.node with before | same | behind
    · have less := AlignedBlock.lt_of_base_lt (y := firstElement nodeSize elementSize e.node + e.slot * elementSize)
        at'.1 atBlock.1 inside' before
      exact iff_of_true less.le (Or.inl before)
    · rw [same, Nat.add_le_add_iff_left, Nat.add_le_add_iff_left, Nat.mul_le_mul_right_iff sizes.positive]
      simp
    · have less := AlignedBlock.lt_of_base_lt (y := firstElement nodeSize elementSize f.node + f.slot * elementSize)
        atBlock.1 at'.1 inside behind
      refine iff_of_false (not_le.mpr less) ?_
      rintro (before | ⟨same, _⟩)
      · exact Nat.lt_asymm before behind
      · exact absurd same behind.ne

section Runs

variable [Inhabited α] {allowed : Allowed α} {h : Heap α}

/-- Whatever calls a set has seen, the names of its nodes and elements stand for addresses. -/
theorem SetStep.run_placed {set : CreatedSet} (safe : ∀ g l, allowed g l → AllocSafe g l)
    (sizes : Sizes k nodeSize elementSize)
    (run : ReflTransGen (SetStep set.toPumaSet allowed) (createPumaSet set.toPumaSet elementSize nodeSize) h)
    (aligned : ∀ p ∈ h.blocks, AlignedAt nodeSize p) : Placed nodeSize elementSize h :=
  (SetStep.run_uniform safe sizes.room run).2.placed sizes aligned

end Runs

/-- An element of 4000 bytes in the second block of 8192 bytes. -/
theorem oneThread_placed : ∃ h : Heap Unit, h.Live 0 ⟨8192, 0⟩ ∧ Placed 8192 4000 h := by
  obtain ⟨h, run, live, blocks⟩ : ∃ h : Heap Unit,
      ReflTransGen (SetStep oneThread.toPumaSet fun h l => AllocSafe h l) (createPumaSet oneThread.toPumaSet 4000 8192) h ∧
      h.Live 0 ⟨8192, 0⟩ ∧ h.blocks = {8192} := by
    refine ⟨_, .single (.pumalloc 0 8192 (fun l atThread t n p m atTail => ?_) rfl), ⟨_, rfl, rfl, by decide⟩, by decide⟩
    cases atThread
    cases atTail
  have sizes : Sizes 13 8192 4000 := ⟨by decide, by decide, by decide, by decide⟩
  refine ⟨h, live, SetStep.run_placed (fun _ _ safe => safe) sizes run fun p member => ?_⟩
  rw [blocks, Finset.mem_singleton] at member
  rw [member]
  exact ⟨dvd_rfl, by decide⟩

end Puma
