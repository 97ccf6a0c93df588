import Mathlib.Order.CompletePartialOrder
import Mathlib.Order.Interval.Set.Disjoint
import Puma.Layout
import Puma.Runs

namespace Puma

variable {α : Type}

/-- The bytes of slot `i` of a node, counted from the start of its block. -/
def slotBytes (capacity elementSize i : Nat) : Set Nat :=
  Set.Ico (sizeofPumaNode + getPumaBitmaskArraySize capacity + i * elementSize)
    (sizeofPumaNode + getPumaBitmaskArraySize capacity + (i + 1) * elementSize)

/-- The bytes of the mask word that holds the bit of slot `i`. -/
def bucketBytes (i : Nat) : Set Nat := Set.Ico (sizeofPumaNode + i / 64 * 8) (sizeofPumaNode + (i / 64 + 1) * 8)

theorem disjoint_bucketBytes {capacity i : Nat} (within : i < capacity) (elementSize : Nat) :
    Disjoint (slotBytes capacity elementSize i) (bucketBytes i) := by
  have words : (i / 64 + 1) * 8 ≤ getPumaBitmaskArraySize capacity := by
    unfold getPumaBitmaskArraySize
    omega
  exact Set.Ico_disjoint_Ico.mpr (by omega)

/-- A node has room for an element just when its array is longer than an element and a word of the mask. -/
theorem createPumaBitmaskForElemArray_pos_iff {elemSize : Nat} (positive : 0 < elemSize) (arraySize : Nat)
    (initialValue : BitVec 8) :
    0 < (createPumaBitmaskForElemArray arraySize initialValue elemSize).2 ↔ elemSize + 8 < arraySize := by
  obtain ⟨groups, extra, rest, count, bytes, _, _, same, few⟩ :=
    createPumaBitmaskForElemArray_split positive arraySize initialValue
  rw [count, bytes]
  by_cases zero : groups = 0
  · subst zero
    unfold extraElements at same
    split at same
    · have one := Nat.div_pos (by omega : elemSize ≤ rest - 8) positive
      omega
    · omega
  · have whole := Nat.mul_le_mul_right (64 * elemSize + 8) (Nat.one_le_iff_ne_zero.mpr zero)
    omega

/-- The slot that is chosen in a tail node with room exists. -/
theorem nextFreeIndex_lt {h h' : Heap α} {l : ListPtr} {A S : List NodePtr} {r : NodePtr} {n : PumaNode α} {i : Nat}
    (shape : Shape h l A S) (ok : h.Ok) (atTail : (h.lists l).tail = some r) (atNode : h.node r = some n)
    (room : n.numElements < n.capacity) (run : nextFreeIndex h l r = some (h', i)) :
    ∃ m, h'.node r = some m ∧ i < m.capacity := by
  by_cases late : n.capacity ≤ n.firstKnownFree
  · simp only [nextFreeIndex, atNode, Option.bind_eq_bind, Option.bind_some, if_pos late] at run
    obtain ⟨h₁, cleaned, run⟩ := Option.bind_eq_some_iff.mp run
    obtain ⟨m, atNode₁, run⟩ := Option.bind_eq_some_iff.mp run
    cases run
    refine ⟨_, Heap.node_setNode_self .., ?_⟩
    have ends := shape.tail
    rw [atTail] at ends
    rcases Option.or_eq_some_iff.mp ends.symm with last | ⟨missing, spare⟩
    · obtain ⟨B, rfl⟩ := List.getLast?_eq_some_iff.mp last
      have keeps := Keeps.cursor shape (by simp) atNode n.dirty (n.firstKnownFree + 1)
      have ok₁ := okExcept_cursor (ok.except _) atNode n.dirty (n.firstKnownFree + 1)
      obtain ⟨h₂, A', S', run₂, post⟩ := cleanupNode_spec (D := []) keeps.shape ok₁
      cases Option.some.inj (run₂.symm.trans cleaned)
      exact post.room ok₁ (Heap.node_setNode_self ..) room atNode₁
    · cases List.getLast?_eq_none_iff.mp missing
      obtain ⟨S₂, rfl⟩ := List.head?_eq_some_iff.mp spare
      have shape₁ := (Keeps.cursor shape (by simp) atNode n.dirty (n.firstKnownFree + 1)).shape
      rw [cleanupNode_inactive shape₁ (Heap.node_setNode_self ..)] at cleaned
      cases cleaned
      rw [Heap.node_setNode_self] at atNode₁
      cases atNode₁
      exact room
  · simp only [nextFreeIndex, atNode, Option.bind_eq_bind, Option.bind_some, if_neg late] at run
    cases run
    exact ⟨_, Heap.node_setNode_self .., not_le.mp late⟩

section Alloc

variable [Inhabited α]

/-- An allocation on a list in order returns a slot of its node. -/
theorem pumallocOnThreadList_slot {h h' : Heap α} {l : ListPtr} {A S : List NodePtr} {block : NodePtr} {e : ElemPtr}
    (shape : Shape h l A S) (ok : h.Ok) (capacity : 0 < h.capacityFor (h.lists l).elementSize)
    (run : pumallocOnThreadList h l block = some (h', e)) : ∃ n, h'.node e.node = some n ∧ e.slot < n.capacity := by
  simp only [pumallocOnThreadList, reserveSlot, Option.bind_eq_bind] at run
  obtain ⟨⟨h₃, t, i⟩, reserve, run⟩ := Option.bind_eq_some_iff.mp run
  obtain ⟨⟨h₁, r⟩, found, reserve⟩ := Option.bind_eq_some_iff.mp reserve
  obtain ⟨⟨h₂, j⟩, chosen, reserve⟩ := Option.bind_eq_some_iff.mp reserve
  obtain ⟨n, atNode, reserve⟩ := Option.bind_eq_some_iff.mp reserve
  cases reserve
  obtain ⟨h₄, alloc, run⟩ := Option.bind_eq_some_iff.mp run
  cases run
  obtain ⟨A₁, S₁, post⟩ := tailWithRoom_spec shape ok capacity found
  have ends := post.shape.tail
  rw [post.atTail] at ends
  have inChain : r ∈ A₁ ++ S₁ := by
    rcases Option.or_eq_some_iff.mp ends.symm with last | ⟨_, spare⟩
    · exact List.mem_append_left _ (List.mem_of_getLast? last)
    · exact List.mem_append_right _ (List.mem_of_mem_head? spare)
  obtain ⟨n₁, atNode₁, _⟩ := post.shape.node inChain
  obtain ⟨m, atNode₂, within⟩ := nextFreeIndex_lt post.shape post.ok post.atTail atNode₁ (post.room n₁ atNode₁) chosen
  cases Option.some.inj (atNode.symm.trans atNode₂)
  rw [allocElementOnNode_eq (Heap.node_setNode_self ..)] at alloc
  cases alloc
  exact ⟨_, Heap.node_setNode_self .., within⟩

theorem appendNewBlock_node {h h' : Heap α} {l : ListPtr} {elementSize nextIndex : Nat} {tail : Option NodePtr}
    {block : NodePtr} (run : appendNewBlock h l elementSize tail nextIndex block = some h') :
    ∃ n, h'.node block = some n ∧ n.capacity = h.capacityFor elementSize := by
  unfold appendNewBlock at run
  split at run
  · cases run
  · cases tail with
    | none =>
      cases run
      exact ⟨newPumaNode h l elementSize none nextIndex, by simp, rfl⟩
    | some t =>
      obtain ⟨h₁, linked, run⟩ := Option.bind_eq_some_iff.mp run
      cases run
      obtain ⟨m, atTail, rfl⟩ := Option.map_eq_some_iff.mp linked
      rw [Heap.node_modifyList] at atTail
      by_cases same : t = block
      · subst same
        rw [Heap.node_setNode_self] at atTail
        cases atTail
        exact ⟨_, Heap.node_setNode_self .., rfl⟩
      · exact ⟨newPumaNode h l elementSize (some t) nextIndex, by simp [Ne.symm same], rfl⟩

/-- For an element size that `_appendPumaNode` accepts: every node that it builds has room for an element and every
allocation on a list in order returns a slot of its node that does not touch the mask word of its bit, just when the
array of a node is longer than an element and a word. -/
theorem appendNewBlock_room_iff {nodeSize elementSize : Nat} (elementPositive : 1 ≤ elementSize)
    (accepted : elementSize ≤ nodeSize - sizeofPumaNode) :
    ((∀ (h h' : Heap α) (l : ListPtr) (tail : Option NodePtr) (nextIndex : Nat) (block : NodePtr), h.nodeSize = nodeSize →
        appendNewBlock h l elementSize tail nextIndex block = some h' → ∃ n, h'.node block = some n ∧ 1 ≤ n.capacity) ∧
      ∀ (h h' : Heap α) (l : ListPtr) (A S : List NodePtr) (block : NodePtr) (e : ElemPtr), h.nodeSize = nodeSize →
        (h.lists l).elementSize = elementSize → h.Ok → Shape h l A S →
        pumallocOnThreadList h l block = some (h', e) → ∃ n, h'.node e.node = some n ∧ e.slot < n.capacity ∧
          Disjoint (slotBytes n.capacity elementSize e.slot) (bucketBytes e.slot)) ↔
    elementSize + 8 < nodeSize - sizeofPumaNode := by
  rw [← createPumaBitmaskForElemArray_pos_iff elementPositive _ maskFree]
  constructor
  · rintro ⟨built, _⟩
    have first : (appendNewBlock (createPumaSet oneThread.toPumaSet elementSize nodeSize : Heap α) 0 elementSize none
        0 0).isSome := appendNewBlock_isSome (fun t atTail => by cases atTail) (Finset.notMem_empty 0) accepted
    obtain ⟨h', run⟩ := Option.isSome_iff_exists.mp first
    obtain ⟨n, atNode, room⟩ := built _ h' 0 none 0 0 rfl run
    obtain ⟨m, atNode', capacity⟩ := appendNewBlock_node run
    rw [Option.some.inj (atNode.symm.trans atNode'), capacity] at room
    exact room
  · intro positive
    refine ⟨fun h h' l tail nextIndex block size run => ?_, fun h h' l A S block e size elements ok shape run => ?_⟩
    · obtain ⟨n, atNode, capacity⟩ := appendNewBlock_node run
      refine ⟨n, atNode, ?_⟩
      rw [capacity, Heap.capacityFor, size]
      exact positive
    · obtain ⟨n, atNode, within⟩ := pumallocOnThreadList_slot shape ok
        (by rw [Heap.capacityFor, size, elements]; exact positive) run
      exact ⟨n, atNode, within, disjoint_bucketBytes within elementSize⟩

end Alloc

/-- Elements as long as the array of a node are accepted, but the node has no slot for the first of them, and its
bytes begin in the word that is to record it. -/
theorem longElement_no_room : ∃ (h : Heap Unit) (n : PumaNode Unit), 8040 ≤ 8192 - sizeofPumaNode ∧
    pumallocOnThreadList (createPumaSet oneThread.toPumaSet 8040 8192) 0 0 = some (h, ⟨0, 0⟩) ∧ h.node 0 = some n ∧
    ¬ 1 ≤ n.capacity ∧ ¬ Disjoint (slotBytes n.capacity 8040 0) (bucketBytes 0) := by
  refine ⟨_, _, by decide, rfl, rfl, by decide, fun apart => ?_⟩
  have first : 152 ∈ slotBytes 0 8040 0 := Set.mem_Ico.mpr (by decide)
  have word : 152 ∈ bucketBytes 0 := Set.mem_Ico.mpr (by decide)
  exact Set.disjoint_left.mp apart first word

theorem shortElement_room_iff :
    ((∀ (h h' : Heap Unit) (l : ListPtr) (tail : Option NodePtr) (nextIndex : Nat) (block : NodePtr), h.nodeSize = 8192 →
        appendNewBlock h l 12 tail nextIndex block = some h' → ∃ n, h'.node block = some n ∧ 1 ≤ n.capacity) ∧
      ∀ (h h' : Heap Unit) (l : ListPtr) (A S : List NodePtr) (block : NodePtr) (e : ElemPtr), h.nodeSize = 8192 →
        (h.lists l).elementSize = 12 → h.Ok → Shape h l A S →
        pumallocOnThreadList h l block = some (h', e) → ∃ n, h'.node e.node = some n ∧ e.slot < n.capacity ∧
          Disjoint (slotBytes n.capacity 12 e.slot) (bucketBytes e.slot)) ↔
    12 + 8 < 8192 - sizeofPumaNode :=
  appendNewBlock_room_iff (by decide) (by decide)

end Puma
