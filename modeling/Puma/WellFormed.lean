import Puma.Cleanup
import Puma.Joined

namespace Puma

open DoublyLinked

variable {α : Type}

/-- Thread list `l` with the active nodes `A` and the inactive nodes `S` behind them: its
chain, both ends of it, and the number of active nodes. -/
structure Chained (h : Heap α) (l : ListPtr) (A S : List NodePtr) : Prop where
  chain : Segment h.next h.prev none (A ++ S) none
  nodup : (A ++ S).Nodup
  owned : ∀ p ∈ A ++ S, ∃ n, h.node p = some n ∧ n.threadList = l ∧ (n.active = true ↔ p ∈ A)
  head : (h.lists l).head = (A ++ S).head?
  tail : (h.lists l).tail = A.getLast?.or S.head?
  numNodes : (h.lists l).numNodes = A.length

/-- A thread list whose active nodes are numbered, with nothing on its inactive nodes. -/
structure Indexed (h : Heap α) (l : ListPtr) (A S : List NodePtr) : Prop extends Chained h l A S where
  index : ∀ i p n, A[i]? = some p → h.node p = some n → n.index = i
  empty : ∀ p ∈ S, ∀ n, h.node p = some n → n.toSlots.liveSlots = ∅

/-- Thread list `l` with the active nodes `A` and the inactive nodes `S` behind them: its
chain, its counters, and nothing on its inactive nodes. -/
structure WellLinked (h : Heap α) (l : ListPtr) (A S : List NodePtr) : Prop where
  chain : Segment h.next h.prev none (A ++ S) none
  nodup : (A ++ S).Nodup
  owned : ∀ p ∈ A ++ S, ∃ n, h.node p = some n ∧ n.threadList = l ∧ (n.active = true ↔ p ∈ A)
  index : ∀ i p n, A[i]? = some p → h.node p = some n → n.index = i
  head : (h.lists l).head = (A ++ S).head?
  tail : (h.lists l).tail = A.getLast?.or S.head?
  numNodes : (h.lists l).numNodes = A.length
  empty : ∀ p ∈ S, ∀ n, h.node p = some n → n.toSlots.liveSlots = ∅
  numElements : (h.lists l).numElements = h.count (A ++ S)

/-- A well-formed thread list, with the slots of its nodes in order. -/
structure WellFormed (h : Heap α) (l : ListPtr) (A S : List NodePtr) : Prop extends WellLinked h l A S where
  slots : ∀ p ∈ A ++ S, ∀ n, h.node p = some n → n.toSlots.Ok

section Cut

variable {h : Heap α} {l : ListPtr} {A S : List NodePtr}

theorem WellLinked.indexed (list : WellLinked h l A S) : Indexed h l A S :=
  ⟨⟨list.chain, list.nodup, list.owned, list.head, list.tail, list.numNodes⟩, list.index, list.empty⟩

theorem Indexed.wellLinked (list : Indexed h l A S) (numElements : (h.lists l).numElements = h.count (A ++ S)) :
    WellLinked h l A S :=
  ⟨list.chain, list.nodup, list.owned, list.index, list.head, list.tail, list.numNodes, list.empty, numElements⟩

theorem Chained.node (list : Chained h l A S) {p : NodePtr} (member : p ∈ A ++ S) :
    ∃ n, h.node p = some n ∧ n.threadList = l := by
  obtain ⟨n, atNode, owner, _⟩ := list.owned p member
  exact ⟨n, atNode, owner⟩

theorem WellLinked.node (list : WellLinked h l A S) {p : NodePtr} (member : p ∈ A ++ S) :
    ∃ n, h.node p = some n ∧ n.threadList = l := list.indexed.node member

theorem WellLinked.owner (list : WellLinked h l A S) {p : NodePtr} (member : p ∈ A ++ S) {n : PumaNode α}
    (atNode : h.node p = some n) : n.threadList = l := by
  obtain ⟨m, atNode', owner⟩ := list.node member
  rw [Option.some.inj (atNode.symm.trans atNode'), owner]

/-- There is nothing to read on an empty node. -/
theorem Heap.read_of_empty {e : ElemPtr} (empty : ∀ n, h.node e.node = some n → n.toSlots.liveSlots = ∅) :
    h.read e = none := by
  cases atNode : h.node e.node with
  | none => rw [Heap.read, Heap.slots, atNode]; rfl
  | some n =>
    rw [Heap.read_eq (Heap.slots_eq atNode), Slots.read, if_neg]
    rw [empty n atNode]
    exact Finset.notMem_empty _

/-- Only the active nodes hold elements to read. -/
theorem Indexed.active_of_read (list : Indexed h l A S) {e : ElemPtr} (member : e.node ∈ A ++ S)
    (live : (h.read e).isSome) : e.node ∈ A := by
  refine (List.mem_append.mp member).resolve_right fun spare => ?_
  rw [Heap.read_of_empty fun n atNode => list.empty e.node spare n atNode] at live
  cases live

/-- In a memory cut down to `c` the list has its shape, if `c` holds its chain and no other nodes of it. -/
theorem Indexed.shape (list : Indexed h l A S) {c : List NodePtr} (within : ∀ p ∈ A ++ S, p ∈ c)
    (own : ∀ p ∈ c, ∀ n, h.node p = some n → n.threadList = l → p ∈ A ++ S) : Shape (h.only c) l A S := by
  have joined := h.joined_only c
  have inside {p : NodePtr} {k : Links} (atLinks : (h.only c).links p = some k) (owner : k.threadList = l) :
      ∃ n, h.node p = some n ∧ n.toLinks = k ∧ p ∈ A ++ S := by
    obtain ⟨n, atNode, same⟩ := Heap.node_of_links atLinks
    have atNode' := joined.node atNode
    rw [Heap.node_only] at atNode
    split at atNode
    · rename_i member
      exact ⟨n, atNode', same, own p member n atNode' (by rw [← owner, ← same])⟩
    · cases atNode
  have links {p : NodePtr} (member : p ∈ A ++ S) : (h.only c).links p = h.links p := by
    rw [Heap.links, Heap.node_only, if_pos (within p member)]
    rfl
  have lists : (h.only c).lists = h.lists := joined.lists.symm
  exact {
    chain := list.chain.congr (fun p member => by rw [Heap.next, Heap.next, links member])
      fun p member => by rw [Heap.prev, Heap.prev, links member]
    nodup := list.nodup
    owned := fun p member => by
      obtain ⟨n, atNode, owner⟩ := list.node member
      exact ⟨n.toLinks, by rw [links member, Heap.links_eq atNode], owner⟩
    active := fun p k atLinks owner => by
      obtain ⟨n, atNode, same, member⟩ := inside atLinks owner
      obtain ⟨m, atNode', _, active⟩ := list.owned p member
      rw [← same, Option.some.inj (atNode.symm.trans atNode')]
      exact active
    index := fun i p k atIndex atLinks => by
      rw [links (List.mem_append_left S (List.mem_of_getElem? atIndex))] at atLinks
      obtain ⟨n, atNode, same⟩ := Heap.node_of_links atLinks
      rw [← same]
      exact list.index i p n atIndex atNode
    strays := fun p k atLinks owner outside => by
      obtain ⟨_, _, _, member⟩ := inside atLinks owner
      exact (outside member).elim
    head := by rw [lists, list.head]
    tail := by rw [lists, list.tail]
    numNodes := by rw [lists, list.numNodes] }

theorem WellLinked.shape (list : WellLinked h l A S) {c : List NodePtr} (within : ∀ p ∈ A ++ S, p ∈ c)
    (own : ∀ p ∈ c, ∀ n, h.node p = some n → n.threadList = l → p ∈ A ++ S) : Shape (h.only c) l A S :=
  list.indexed.shape within own

/-- The list is the same wherever its nodes and its record are. -/
theorem Indexed.congr {h' : Heap α} (list : Indexed h l A S) (node : ∀ p ∈ A ++ S, h'.node p = h.node p)
    (head : (h'.lists l).head = (h.lists l).head) (tail : (h'.lists l).tail = (h.lists l).tail)
    (numNodes : (h'.lists l).numNodes = (h.lists l).numNodes) : Indexed h' l A S := by
  have links {p : NodePtr} (member : p ∈ A ++ S) : h'.links p = h.links p := by
    rw [Heap.links, Heap.links, node p member]
  exact {
    chain := list.chain.congr (fun p member => by rw [Heap.next, Heap.next, links member])
      fun p member => by rw [Heap.prev, Heap.prev, links member]
    nodup := list.nodup
    owned := fun p member => by
      rw [node p member]
      exact list.owned p member
    index := fun i p n atIndex atNode => by
      rw [node p (List.mem_append_left S (List.mem_of_getElem? atIndex))] at atNode
      exact list.index i p n atIndex atNode
    head := by rw [head, list.head]
    tail := by rw [tail, list.tail]
    numNodes := by rw [numNodes, list.numNodes]
    empty := fun p spare n atNode => list.empty p spare n (by rw [← node p (List.mem_append_right A spare), atNode]) }

theorem WellLinked.congr {h' : Heap α} (list : WellLinked h l A S) (node : ∀ p ∈ A ++ S, h'.node p = h.node p)
    (head : (h'.lists l).head = (h.lists l).head) (tail : (h'.lists l).tail = (h.lists l).tail)
    (numNodes : (h'.lists l).numNodes = (h.lists l).numNodes)
    (numElements : (h'.lists l).numElements = (h.lists l).numElements) : WellLinked h' l A S := by
  refine (list.indexed.congr node head tail numNodes).wellLinked ?_
  rw [numElements, list.numElements]
  exact (Heap.count_congr fun p member => by rw [Heap.slots, Heap.slots, node p member]).symm

/-- The nodes of a chain are the same beside any other nodes. -/
theorem Shape.node_joined {o g : Heap α} (shape : Shape h l A S) (joined : Joined o h g) :
    ∀ p ∈ A ++ S, g.node p = h.node p := fun p member => by
  obtain ⟨n, atNode, _⟩ := shape.node member
  rw [atNode, joined.node atNode]

/-- A list of the right shape is well linked beside any other nodes. -/
theorem Shape.indexed {o g : Heap α} (shape : Shape h l A S) (joined : Joined o h g)
    (empty : ∀ p ∈ S, ∀ n, h.node p = some n → n.toSlots.liveSlots = ∅) : Indexed g l A S := by
  have list : Indexed h l A S := {
    chain := shape.chain
    nodup := shape.nodup
    owned := fun p member => by
      obtain ⟨n, atNode, owner⟩ := shape.node member
      exact ⟨n, atNode, owner, shape.active_iff atNode member⟩
    index := fun i p n atIndex atNode => shape.index i p _ atIndex (Heap.links_eq atNode)
    head := shape.head
    tail := shape.tail
    numNodes := shape.numNodes
    empty }
  refine list.congr (shape.node_joined joined) ?_ ?_ ?_ <;> rw [joined.lists]

theorem Shape.wellLinked {o g : Heap α} (shape : Shape h l A S) (joined : Joined o h g)
    (empty : ∀ p ∈ S, ∀ n, h.node p = some n → n.toSlots.liveSlots = ∅)
    (numElements : (h.lists l).numElements = h.count (A ++ S)) : WellLinked g l A S := by
  refine (shape.indexed joined empty).wellLinked ?_
  rw [joined.lists, numElements]
  exact (Heap.count_congr fun p member => by rw [Heap.slots, Heap.slots, shape.node_joined joined p member]).symm

/-- A well-formed list in the memory of its own nodes. -/
theorem WellFormed.only (list : WellFormed h l A S) :
    Shape (h.only (A ++ S)) l A S ∧ (h.only (A ++ S)).Ok ∧ (h.only (A ++ S)).elems A = h.elems A := by
  refine ⟨list.shape (fun _ member => member) fun _ member _ _ _ => member, fun p n atNode => ?_, ?_⟩
  · rw [Heap.node_only] at atNode
    split at atNode
    · rename_i member
      refine ⟨list.slots p member n atNode, fun inactive => ?_⟩
      obtain ⟨m, atNode', _, active⟩ := list.owned p member
      rw [← Option.some.inj (atNode.symm.trans atNode'), inactive] at active
      refine list.empty p ((List.mem_append.mp member).resolve_left fun inA => ?_) n atNode
      exact Bool.false_ne_true (active.mpr inA)
    · cases atNode
  · refine Heap.elems_congr fun p member => ?_
    rw [Heap.slots, Heap.node_only, if_pos (List.mem_append_left S member)]
    rfl

theorem WellFormed.counted (list : WellFormed h l A S) :
    ∀ p ∈ A ++ S, ∃ s, h.slots p = some s ∧ s.numElements = s.liveSlots.card := by
  intro p member
  obtain ⟨n, atNode, _⟩ := list.node member
  exact ⟨n.toSlots, Heap.slots_eq atNode, (list.slots p member n atNode).count⟩

/-- The inactive nodes hold no elements. -/
theorem WellLinked.elems_spare (list : WellLinked h l A S) : h.elems S = 0 := by
  refine Heap.elems_eq_zero fun p spare => ?_
  obtain ⟨n, atNode, _⟩ := list.node (List.mem_append_right A spare)
  rw [Heap.contents_eq (Heap.slots_eq atNode), Slots.contents_eq_zero]
  exact list.empty p spare n atNode

theorem WellFormed.numElements_eq (list : WellFormed h l A S) : (h.lists l).numElements = (h.elems A).card := by
  rw [list.numElements, Heap.count_eq_card list.counted, Heap.elems_append, list.elems_spare, add_zero]

theorem Shape.wellFormed {o g : Heap α} (shape : Shape h l A S) (ok : h.Ok) (joined : Joined o h g)
    (numElements : (h.lists l).numElements = (h.elems A).card) : WellFormed g l A S := by
  have empty : ∀ p ∈ S, ∀ n, h.node p = some n → n.toSlots.liveSlots = ∅ := fun p spare n atNode => by
    refine (ok p n atNode).2 ?_
    rw [← Bool.not_eq_true, shape.active_iff atNode (List.mem_append_right A spare)]
    exact shape.notMem_active spare
  have counted : ∀ p ∈ A ++ S, ∃ s, h.slots p = some s ∧ s.numElements = s.liveSlots.card := fun p member => by
    obtain ⟨n, atNode, _⟩ := shape.node member
    exact ⟨n.toSlots, Heap.slots_eq atNode, (ok p n atNode).1.count⟩
  have count : (h.lists l).numElements = h.count (A ++ S) := by
    rw [Heap.count_eq_card counted, Heap.elems_append, shape.elems_spare (ok.except none), add_zero, numElements]
  refine ⟨shape.wellLinked joined empty count, fun p member n atNode => ?_⟩
  obtain ⟨m, atNode', _⟩ := shape.node member
  rw [joined.node atNode'] at atNode
  rw [← Option.some.inj atNode]
  exact (ok p m atNode').1

/-- The slots of a node are the same beside other nodes. -/
theorem Joined.slots {o g : Heap α} (joined : Joined o h g) {p : NodePtr} {s : Slots α}
    (atSlots : h.slots p = some s) : g.slots p = some s := by
  obtain ⟨n, atNode, same⟩ := Heap.node_of_slots atSlots
  rw [Heap.slots_eq (joined.node atNode), same]

theorem Shape.elems_joined {o g : Heap α} (shape : Shape h l A S) (joined : Joined o h g) : g.elems A = h.elems A := by
  refine Heap.elems_congr fun p member => ?_
  obtain ⟨n, atNode, _⟩ := shape.node (List.mem_append_left S member)
  rw [Heap.slots_eq atNode, Heap.slots_eq (joined.node atNode)]

theorem Heap.slots_only {p : NodePtr} {c : List NodePtr} (member : p ∈ c) : (h.only c).slots p = h.slots p := by
  rw [Heap.slots, Heap.node_only, if_pos member]
  rfl

end Cut

end Puma
