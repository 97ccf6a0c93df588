import Puma.Node

namespace Puma

variable {α : Type}

/-- `_allocElementOnNode` on the slots. -/
def Slots.alloc (s : Slots α) (i : Nat) : Slots α :=
  { s with freeMask := pumaBitmaskSet s.freeMask i maskNotFree, numElements := s.numElements + 1 }

/-- `_freeElementOnNode` on the slots. -/
def Slots.free (s : Slots α) (i : Nat) : Slots α :=
  { s with dirty := true, freeMask := pumaBitmaskSet s.freeMask i maskFree, numElements := sizeSub s.numElements 1 }

def Slots.store (s : Slots α) (i : Nat) (x : α) : Slots α :=
  { s with elements := Function.update s.elements i x }

/-- What holds of the slots of every node at every point of every operation. -/
structure Slots.Counted (s : Slots α) : Prop where
  capacity_pos : 0 < s.capacity
  sized : s.freeMask.Sized
  bits : s.freeMask.numElements = s.capacity
  count : s.numElements = s.liveSlots.card

/-- What holds of the slots of a node between operations: nothing is live at or
behind the cursor, and a node that is not dirty is compact. -/
structure Slots.Ok (s : Slots α) : Prop extends s.Counted where
  cursor : ∀ i ∈ s.liveSlots, i < s.firstKnownFree
  clean : s.dirty = false → s.liveSlots = Finset.range s.numElements ∧ s.firstKnownFree = s.numElements

theorem Slots.mem_liveSlots {s : Slots α} {i : Nat} :
    i ∈ s.liveSlots ↔ i < s.capacity ∧ pumaBitmaskGet s.freeMask i = maskNotFree := by
  simp [Slots.liveSlots]

theorem pumaBitmaskGet_cases (bitmask : PumaBitmask) (index : Nat) :
    pumaBitmaskGet bitmask index = maskFree ∨ pumaBitmaskGet bitmask index = maskNotFree := by
  rw [pumaBitmaskGet_eq]
  split
  · exact Or.inl rfl
  · exact Or.inr rfl

theorem maskFree_ne_maskNotFree : maskFree ≠ maskNotFree := by decide

theorem Slots.notMem_liveSlots {s : Slots α} {i : Nat} (within : i < s.capacity) :
    i ∉ s.liveSlots ↔ pumaBitmaskGet s.freeMask i = maskFree := by
  rw [Slots.mem_liveSlots]
  rcases pumaBitmaskGet_cases s.freeMask i with free | live
  · simp [free, maskFree_ne_maskNotFree]
  · simp [live, within, maskFree_ne_maskNotFree.symm]

theorem Slots.lt_capacity {s : Slots α} {i : Nat} (live : i ∈ s.liveSlots) : i < s.capacity :=
  (Slots.mem_liveSlots.mp live).1

theorem Slots.liveSlots_subset (s : Slots α) : s.liveSlots ⊆ Finset.range s.capacity :=
  Finset.filter_subset _ _

theorem Slots.card_contents (s : Slots α) : s.contents.card = s.liveSlots.card := by
  simp [Slots.contents]

theorem Slots.Counted.liveSlots_alloc {s : Slots α} (ok : s.Counted) {i : Nat} (within : i < s.capacity) :
    (s.alloc i).liveSlots = insert i s.liveSlots := by
  ext j
  rw [Finset.mem_insert, Slots.mem_liveSlots, Slots.mem_liveSlots]
  simp only [Slots.alloc, pumaBitmaskGet_set ok.sized (ok.bits ▸ within)]
  by_cases same : j = i
  · simp only [same, if_true, within, true_and, true_or, iff_true]
    decide
  · simp only [same, if_false, false_or]

theorem Slots.Counted.liveSlots_free {s : Slots α} (ok : s.Counted) {i : Nat} (within : i < s.capacity) :
    (s.free i).liveSlots = s.liveSlots.erase i := by
  ext j
  rw [Finset.mem_erase, Slots.mem_liveSlots, Slots.mem_liveSlots]
  simp only [Slots.free, pumaBitmaskGet_set ok.sized (ok.bits ▸ within)]
  by_cases same : j = i
  · simp only [same, if_true, ne_eq, not_true_eq_false, false_and, iff_false, not_and]
    exact fun _ => by decide
  · simp only [same, if_false, ne_eq, not_false_eq_true, true_and]

@[simp] theorem Slots.liveSlots_store (s : Slots α) (i : Nat) (x : α) :
    (s.store i x).liveSlots = s.liveSlots := rfl

theorem Slots.Counted.alloc {s : Slots α} (ok : s.Counted) {i : Nat} (within : i < s.capacity)
    (free : i ∉ s.liveSlots) : (s.alloc i).Counted where
  capacity_pos := ok.capacity_pos
  sized := ok.sized.set i maskNotFree
  bits := ok.bits
  count := by
    rw [ok.liveSlots_alloc within, Finset.card_insert_of_notMem free, ← ok.count]
    rfl

theorem Slots.Counted.numElements_pos {s : Slots α} (ok : s.Counted) {i : Nat} (live : i ∈ s.liveSlots) :
    0 < s.numElements := by
  rw [ok.count]
  exact Finset.card_pos.mpr ⟨i, live⟩

theorem sizeSub_of_le {a b : Nat} (le : b ≤ a) : sizeSub a b = a - b := if_pos le

theorem Slots.Counted.free {s : Slots α} (ok : s.Counted) {i : Nat} (live : i ∈ s.liveSlots) :
    (s.free i).Counted where
  capacity_pos := ok.capacity_pos
  sized := ok.sized.set i maskFree
  bits := ok.bits
  count := by
    have positive := ok.numElements_pos live
    rw [ok.liveSlots_free (Slots.lt_capacity live), Finset.card_erase_of_mem live, ← ok.count]
    exact sizeSub_of_le positive

theorem Slots.Ok.free {s : Slots α} (ok : s.Ok) {i : Nat} (live : i ∈ s.liveSlots) : (s.free i).Ok where
  toCounted := ok.toCounted.free live
  cursor := by
    intro j member
    rw [ok.liveSlots_free (Slots.lt_capacity live)] at member
    exact ok.cursor j (Finset.mem_of_mem_erase member)
  clean := by intro clean; cases clean

theorem Slots.Counted.store {s : Slots α} (ok : s.Counted) (i : Nat) (x : α) : (s.store i x).Counted :=
  ⟨ok.capacity_pos, ok.sized, ok.bits, ok.count⟩

theorem Slots.Ok.store {s : Slots α} (ok : s.Ok) (i : Nat) (x : α) : (s.store i x).Ok :=
  ⟨ok.toCounted.store i x, ok.cursor, ok.clean⟩

theorem Slots.Counted.numElements_le {s : Slots α} (ok : s.Counted) : s.numElements ≤ s.capacity := by
  rw [ok.count]
  exact (Finset.card_le_card s.liveSlots_subset).trans (Finset.card_range _).le

/-- A node with fewer elements than slots has a hole. -/
theorem Slots.Counted.exists_hole {s : Slots α} (ok : s.Counted) (room : s.numElements < s.capacity) :
    ∃ i < s.capacity, i ∉ s.liveSlots := by
  by_contra none
  push Not at none
  have all : Finset.range s.capacity ⊆ s.liveSlots := fun i member => none i (Finset.mem_range.mp member)
  have bound := Finset.card_le_card all
  rw [Finset.card_range, ← ok.count] at bound
  omega

theorem Slots.Counted.empty_iff {s : Slots α} (ok : s.Counted) : s.liveSlots = ∅ ↔ s.numElements = 0 := by
  rw [ok.count, Finset.card_eq_zero]

theorem Slots.contents_eq_zero {s : Slots α} : s.contents = 0 ↔ s.liveSlots = ∅ := by
  rw [← Multiset.card_eq_zero, Slots.card_contents, Finset.card_eq_zero]

/-- A new element in a hole of the node. -/
theorem Slots.Counted.contents_alloc {s : Slots α} (ok : s.Counted) {i : Nat} (within : i < s.capacity)
    (free : i ∉ s.liveSlots) : (s.alloc i).contents = s.elements i ::ₘ s.contents := by
  rw [Slots.contents, ok.liveSlots_alloc within, Finset.insert_val_of_notMem free, Multiset.map_cons]
  rfl

theorem Slots.Counted.contents_free {s : Slots α} (ok : s.Counted) {i : Nat} (live : i ∈ s.liveSlots) :
    s.elements i ::ₘ (s.free i).contents = s.contents := by
  rw [Slots.contents, ok.liveSlots_free (Slots.lt_capacity live), Slots.contents]
  conv_rhs => rw [← Finset.insert_erase live, Finset.insert_val_of_notMem (Finset.notMem_erase i _)]
  rw [Multiset.map_cons]
  rfl

/-- A store to a slot that is not live is not seen. -/
theorem Slots.contents_store_dead {s : Slots α} {i : Nat} (free : i ∉ s.liveSlots) (x : α) :
    (s.store i x).contents = s.contents := by
  unfold Slots.contents
  rw [Slots.liveSlots_store]
  refine Multiset.map_congr rfl fun j member => ?_
  have distinct : j ≠ i := fun same => free (same ▸ member)
  exact Function.update_of_ne distinct _ _

/-- A store to a live slot replaces that element. -/
theorem Slots.Counted.contents_store {s : Slots α} (ok : s.Counted) {i : Nat} (live : i ∈ s.liveSlots) (x : α) :
    (s.store i x).contents = x ::ₘ (s.free i).contents := by
  rw [← (ok.store i x).contents_free (i := i) live]
  congr 1
  · exact Function.update_self _ _ _
  · have dead : i ∉ (s.free i).liveSlots := by
      rw [ok.liveSlots_free (Slots.lt_capacity live)]
      exact Finset.notMem_erase _ _
    exact Slots.contents_store_dead dead x

/-- The content of a slot, if it holds an element. -/
def Slots.read (s : Slots α) (i : Nat) : Option α := if i ∈ s.liveSlots then some (s.elements i) else none

theorem Slots.Counted.read_alloc {s : Slots α} (ok : s.Counted) {i j : Nat} (within : i < s.capacity) (other : j ≠ i) :
    (s.alloc i).read j = s.read j := by
  rw [Slots.read, Slots.read, ok.liveSlots_alloc within]
  simp only [Finset.mem_insert, other, false_or]
  rfl

/-- The content of the element at an address, if there is one. -/
def Heap.read (h : Heap α) (e : ElemPtr) : Option α := (h.slots e.node).bind fun s => s.read e.slot

theorem Heap.read_congr {h h' : Heap α} {e : ElemPtr} (same : h'.slots e.node = h.slots e.node) :
    h'.read e = h.read e := by
  rw [Heap.read, Heap.read, same]

theorem Heap.read_eq {h : Heap α} {e : ElemPtr} {s : Slots α} (atSlots : h.slots e.node = some s) :
    h.read e = s.read e.slot := by
  rw [Heap.read, atSlots]; rfl

theorem Slots.read_isSome {s : Slots α} {i : Nat} : (s.read i).isSome ↔ i ∈ s.liveSlots := by
  unfold Slots.read
  split <;> simp [*]

/-- A compact node keeps its elements in its first slots. -/
theorem Slots.contents_of_range {s : Slots α} {n : Nat} (compact : s.liveSlots = Finset.range n) :
    s.contents = ((List.range n).map s.elements : Multiset α) := by
  rw [Slots.contents, compact]
  rfl

end Puma
