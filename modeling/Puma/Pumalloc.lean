import Puma.Append

namespace Puma

variable {α : Type}

/-- No allocation starts from an empty tail without fresh slots in front of which
another empty node stands: `_getLastElement` would give up both, and only the tail
comes back. -/
def AllocSafe (h : Heap α) (l : ListPtr) : Prop :=
  ∀ t n p m, (h.lists l).tail = some t → h.node t = some n → n.numElements = 0 → n.capacity ≤ n.firstKnownFree →
    n.prev = some p → h.node p = some m → m.numElements ≠ 0

instance (h : Heap α) (l : ListPtr) : Decidable (AllocSafe h l) :=
  decidable_of_iff (∀ t ∈ (h.lists l).tail, ∀ n ∈ h.node t, n.numElements = 0 → n.capacity ≤ n.firstKnownFree →
      ∀ p ∈ n.prev, ∀ m ∈ h.node p, m.numElements ≠ 0)
    ⟨fun safe t n p m atTail atNode idle full front atFront => safe t atTail n atNode idle full p front m atFront,
      fun safe t atTail n atNode idle full p front m atFront => safe t n p m atTail atNode idle full front atFront⟩

/-- The allocation compacts a tail node that is compact already, if any. -/
def AllocCompact (h : Heap α) (l : ListPtr) : Prop :=
  ∀ t n, (h.lists l).tail = some t → h.node t = some n → n.numElements ≠ n.capacity →
    n.capacity ≤ n.firstKnownFree → n.toSlots.liveSlots = Finset.range n.numElements

instance (h : Heap α) (l : ListPtr) : Decidable (AllocCompact h l) :=
  decidable_of_iff (∀ t ∈ (h.lists l).tail, ∀ n ∈ h.node t, n.numElements ≠ n.capacity →
      n.capacity ≤ n.firstKnownFree → n.toSlots.liveSlots = Finset.range n.numElements)
    ⟨fun compact t n atTail atNode => compact t atTail n atNode, fun compact t atTail n atNode => compact t n atTail atNode⟩

/-- `r` is the last active node behind `B`, or the spare node behind the active nodes `B`. -/
def Candidate (A S : List NodePtr) (r : NodePtr) (B S₂ : List NodePtr) : Prop :=
  (A = B ++ [r] ∧ S = S₂) ∨ (A = B ∧ S = r :: S₂)

theorem Candidate.chain {A S : List NodePtr} {r : NodePtr} {B S₂ : List NodePtr} (candidate : Candidate A S r B S₂) :
    A ++ S = B ++ r :: S₂ := by
  rcases candidate with ⟨rfl, rfl⟩ | ⟨rfl, rfl⟩
  · simp
  · rfl

/-- The tail node has room, and is the last active node, or inactive and alone. -/
structure TailPost (h h' : Heap α) (l : ListPtr) (A S A' S' : List NodePtr) (r : NodePtr) : Prop
    extends Keeps h h' l A A' S' where
  ok : h'.Ok
  atTail : (h'.lists l).tail = some r
  room : ∀ n, h'.node r = some n → n.numElements < n.capacity
  safe : AllocSafe h l → AllocSafe h' l

/-- A list whose new tail stands behind a full node, or alone. -/
theorem AppendPost.tailPost {h h' : Heap α} {l : ListPtr} {A S S' : List NodePtr} {r : NodePtr}
    (post : AppendPost h h' l A S S' r) (held : ∀ t, A.getLast? = some t → ∃ i, (h.read ⟨t, i⟩).isSome) :
    TailPost h h' l A S (A ++ [r]) S' r := by
  have atTail : (h'.lists l).tail = some r := by rw [post.shape.tail]; simp
  obtain ⟨n, atNode, _⟩ := post.shape.node (p := r) (by simp)
  have vacant : n.toSlots.liveSlots = ∅ := by
    rw [← Slots.contents_eq_zero, ← Heap.contents_eq (Heap.slots_eq atNode)]
    exact post.empty
  obtain ⟨⟨counted, _, _⟩, _⟩ := post.ok r n atNode
  have zero : n.numElements = 0 := counted.empty_iff.mp vacant
  refine ⟨post.toKeeps, post.ok, atTail, fun n' atNode' => ?_, fun _ => ?_⟩
  · rw [← Option.some.inj (atNode.symm.trans atNode'), zero]
    exact counted.capacity_pos
  · intro t k p m tail atT _ _ before atP
    rw [← Option.some.inj (atTail.symm.trans tail)] at atT
    rw [post.shape.prev_eq (B := A) (D := S') (by simp) atT] at before
    obtain ⟨i, live⟩ := held p before
    rw [← post.read, Heap.read_eq (Heap.slots_eq atP), Slots.read_isSome] at live
    exact (((post.ok p m atP).1.toCounted).numElements_pos live).ne'

/-- Slot `i` of a node has been chosen for a new element, and the cursor is behind it. -/
structure SlotReserved (s : Slots α) (i : Nat) : Prop where
  within : i < s.capacity
  hole : i ∉ s.liveSlots
  behind : ∀ j ∈ s.liveSlots, j < i
  cursor : s.firstKnownFree = i + 1
  clean : s.dirty = false → s.liveSlots = Finset.range i ∧ s.numElements = i

/-- A store to the cursor of a node of the list. -/
theorem Keeps.cursor {h : Heap α} {l : ListPtr} {A S : List NodePtr} {r : NodePtr} {n : PumaNode α}
    (shape : Shape h l A S) (member : r ∈ A ++ S) (atNode : h.node r = some n) (dirty : Bool) (c : Nat) :
    Keeps h (h.setNode r { n with dirty := dirty, firstKnownFree := c }) l A A S where
  shape := shape.of_links_eq (Heap.links_setNode_same atNode rfl) rfl rfl rfl
  elems := by
    have contents : (h.setNode r { n with dirty := dirty, firstKnownFree := c }).contents = h.contents := by
      funext q
      rw [Heap.contents, Heap.slots_setNode]
      split
      · rename_i same
        rw [same, Heap.contents_eq (Heap.slots_eq atNode)]
        rfl
      · rfl
    rw [Heap.elems, contents, Heap.elems]
  numElements := rfl
  loc := by
    obtain ⟨m, atNode', owner⟩ := shape.node member
    have same := Option.some.inj (atNode.symm.trans atNode')
    subst same
    exact Local.setNode (fun k atOld => by rw [Option.some.inj (atOld.symm.trans atNode)]; exact owner) owner
  headIndex first := by
    have evolves : Evolves h (h.setNode r { n with dirty := dirty, firstKnownFree := c }) l :=
      Evolves.setNode atNode l rfl rfl
    exact evolves.headIndex first

theorem okExcept_cursor {h : Heap α} {r : NodePtr} {n : PumaNode α} (ok : h.OkExcept (some r))
    (atNode : h.node r = some n) (dirty : Bool) (c : Nat) :
    (h.setNode r { n with dirty := dirty, firstKnownFree := c }).OkExcept (some r) := by
  intro q m atNode'
  rw [Heap.node_setNode] at atNode'
  split at atNode'
  · rename_i same
    obtain ⟨counted, _, inactive⟩ := ok r n atNode
    cases Option.some.inj atNode'
    exact ⟨⟨counted.capacity_pos, counted.sized, counted.bits, counted.count⟩,
      fun other => (other (by rw [same])).elim, inactive⟩
  · exact ok q m atNode'

/-- What the choice of slot `i` in the tail `r` leaves behind: `r` is still the last
active node, or has become the spare node behind the active nodes `B`. -/
structure SlotPost (h h' : Heap α) (l : ListPtr) (A S A' S' B S₂ : List NodePtr) (r : NodePtr) (i : Nat) : Prop
    extends Keeps h h' l A A' S' where
  candidate : Candidate A' S' r B S₂
  ok : h'.OkExcept (some r)
  slot : ∃ n, h'.node r = some n ∧ n.index = B.length ∧ SlotReserved n.toSlots i

/-- The first slot behind the elements of a compact node. -/
theorem SlotReserved.compact {s : Slots α} {n : Nat} (slots : s.liveSlots = Finset.range n)
    (count : s.numElements = n) (cursor : s.firstKnownFree = n + 1) (room : n < s.capacity) : SlotReserved s n :=
  ⟨room, by rw [slots]; exact Finset.notMem_range_self, fun j live => by rwa [slots, Finset.mem_range] at live, cursor,
    fun _ => ⟨slots, count⟩⟩

/-- `_cleanupNode` gives up the tail only where `AllocSafe` lets it. -/
theorem CleanupPost.candidate {h h₁ h' : Heap α} {l : ListPtr} {B S A' S' : List NodePtr} {r : NodePtr}
    {n : PumaNode α} (post : CleanupPost h₁ h' l B r [] S A' S') (shape : Shape h l (B ++ [r]) S)
    (shape₁ : Shape h₁ l (B ++ [r]) S) (ok : h.Ok) (contents : h₁.contents = h.contents) (atNode : h.node r = some n)
    (late : n.capacity ≤ n.firstKnownFree) (safe : AllocSafe h l) : ∃ S₂, Candidate A' S' r B S₂ := by
  rcases post.place with ⟨D', rfl⟩ | ⟨before, spare⟩
  · have alone : D' = [] := by
      have bound := post.activePrefix.length_le
      simpa using bound
    exact ⟨S', Or.inl ⟨by rw [alone], rfl⟩⟩
  · obtain ⟨C, split⟩ := before
    rcases List.eq_nil_or_concat C with rfl | ⟨C', q, rfl⟩
    · rw [List.append_nil] at split
      subst split
      have chain := post.chainPrefix
      rw [List.append_assoc, List.prefix_append_right_inj, List.singleton_append] at chain
      cases S' with
      | nil => cases spare
      | cons s S₂ =>
        rw [List.cons_prefix_cons] at chain
        exact ⟨S₂, Or.inr ⟨rfl, by rw [chain.1]⟩⟩
    · -- The last node in front of the tail was given up too, so both held nothing.
      exfalso
      rw [List.concat_eq_append] at split
      have kept : h'.elems A' = h₁.elems A' := Heap.elems_congr fun p member =>
        post.before p (by rw [← split]; exact List.mem_append_left _ member)
      have total := post.elems
      rw [kept, ← split, Heap.elems_append, Heap.elems_append, Heap.elems_append, Heap.elems_singleton,
        Heap.elems_singleton, add_assoc, left_eq_add, add_eq_zero, add_eq_zero, contents] at total
      obtain ⟨⟨_, emptyQ⟩, emptyR⟩ := total
      have inChain : q ∈ B ++ [r] ++ S := by simp [← split]
      obtain ⟨m, atQ, _⟩ := shape.node inChain
      have zero {p : NodePtr} {k : PumaNode α} (atP : h.node p = some k) (empty : h.contents p = 0) :
          k.numElements = 0 := by
        rw [Heap.contents_eq (Heap.slots_eq atP), Slots.contents_eq_zero] at empty
        exact (ok p k atP).1.toCounted.empty_iff.mp empty
      have atTail : (h.lists l).tail = some r := by rw [shape.tail]; simp
      have prev : n.prev = some q := by
        rw [shape.prev_eq (B := B) (D := S) (by simp) atNode, ← split]
        simp
      exact safe r n q m atTail atNode (zero atNode emptyR) late prev atQ (zero atQ emptyQ)

theorem Slots.numElements_eq_of_contents {s s' : Slots α} (counted : s.Counted) (counted' : s'.Counted)
    (same : s'.contents = s.contents) : s'.numElements = s.numElements := by
  rw [counted.count, counted'.count, ← Slots.card_contents, ← Slots.card_contents, same]

/-- A tail node with room still has room once it has been cleaned up. -/
theorem CleanupPost.room {h h' : Heap α} {l : ListPtr} {B S A' S' : List NodePtr} {r : NodePtr} {n m : PumaNode α}
    (post : CleanupPost h h' l B r [] S A' S') (ok : h.OkExcept (some r)) (atNode : h.node r = some n)
    (room : n.numElements < n.capacity) (atNode' : h'.node r = some m) : m.numElements < m.capacity := by
  obtain ⟨⟨counted, _, _⟩, inactive⟩ := post.ok r m atNode'
  rcases post.place with ⟨D', rfl⟩ | ⟨_, spare⟩
  · have alone : D' = [] := by
      have bound := post.activePrefix.length_le
      simpa using bound
    subst alone
    have total := post.elems
    have before : h'.elems B = h.elems B := Heap.elems_congr post.before
    rw [Heap.elems_append, Heap.elems_append, before, add_right_inj, Heap.elems_singleton, Heap.elems_singleton,
      Heap.contents_eq (Heap.slots_eq atNode'), Heap.contents_eq (Heap.slots_eq atNode)] at total
    obtain ⟨s, atSlots, capacity⟩ := post.capacity _ (Heap.slots_eq atNode')
    rw [← Option.some.inj ((Heap.slots_eq atNode).symm.trans atSlots)] at capacity
    rw [Slots.numElements_eq_of_contents (ok r _ atNode).1 counted total, capacity]
    exact room
  · have off : m.active = false := by
      rw [← Bool.not_eq_true, post.shape.active_iff atNode' (List.mem_append_right A' spare)]
      exact post.shape.notMem_active spare
    rw [counted.empty_iff.mp (inactive off)]
    exact counted.capacity_pos

/-- The slow path on the last active node. -/
theorem nextFreeIndex_cleanup {h : Heap α} {l : ListPtr} {B S : List NodePtr} {r : NodePtr} {n : PumaNode α}
    (shape : Shape h l (B ++ [r]) S) (ok : h.Ok) (atNode : h.node r = some n) (room : n.numElements < n.capacity)
    (late : n.capacity ≤ n.firstKnownFree) (safe : AllocSafe h l) :
    ∃ h' i A' S' S₂, nextFreeIndex h l r = some (h', i) ∧ SlotPost h h' l (B ++ [r]) S A' S' B S₂ r i := by
  have member : r ∈ B ++ [r] ++ S := by simp
  have keeps₁ := Keeps.cursor shape member atNode n.dirty (n.firstKnownFree + 1)
  have ok₁ := okExcept_cursor (ok.except _) atNode n.dirty (n.firstKnownFree + 1)
  have atNode₁ := Heap.node_setNode_self h r { n with firstKnownFree := n.firstKnownFree + 1 }
  obtain ⟨h₂, A', S', run, post⟩ := cleanupNode_spec (D := []) keeps₁.shape ok₁
  have contents₁ : (h.setNode r { n with firstKnownFree := n.firstKnownFree + 1 }).contents = h.contents := by
    funext q
    rw [Heap.contents, Heap.slots_setNode]
    split
    · rename_i same
      rw [same, Heap.contents_eq (Heap.slots_eq atNode)]
      rfl
    · rfl
  obtain ⟨S₂, candidate⟩ := post.candidate shape keeps₁.shape ok contents₁ atNode late safe
  have member₂ : r ∈ A' ++ S' := by rw [candidate.chain]; simp
  obtain ⟨m, atNode₂, owner⟩ := post.shape.node member₂
  obtain ⟨⟨counted, _, _⟩, inactive⟩ := post.ok r m atNode₂
  have compact := post.compact _ (Heap.slots_eq atNode₂)
  have keeps₂ := (keeps₁.trans (post.keeps keeps₁.shape)).trans
    (Keeps.cursor post.shape member₂ atNode₂ m.dirty (m.numElements + 1))
  have roomy : m.numElements < m.capacity := post.room ok₁ atNode₁ room atNode₂
  refine ⟨h₂.setNode r { m with firstKnownFree := m.numElements + 1 }, m.numElements, A', S', S₂, ?_, keeps₂, candidate,
    okExcept_cursor (post.ok.except _) atNode₂ m.dirty _, ⟨_, Heap.node_setNode_self .., ?_, ?_⟩⟩
  · simp [nextFreeIndex, atNode, late, run, atNode₂]
  · obtain ⟨n₁, atN, _, index⟩ := post.evolves.node atNode₂
    have zero : n₁.index = B.length := keeps₁.shape.index_eq rfl atN
    exact index.trans zero
  · exact SlotReserved.compact compact rfl rfl roomy

/-- The choice of a slot that only writes the node's cursor. -/
theorem SlotPost.of_cursor {h : Heap α} {l : ListPtr} {A S B S₂ : List NodePtr} {r : NodePtr} {n : PumaNode α}
    (shape : Shape h l A S) (ok : h.Ok) (candidate : Candidate A S r B S₂) (atNode : h.node r = some n)
    (index : n.index = B.length) (dirty : Bool) (c : Nat) {i : Nat}
    (reserved : SlotReserved { n.toSlots with dirty := dirty, firstKnownFree := c } i) :
    SlotPost h (h.setNode r { n with dirty := dirty, firstKnownFree := c }) l A S A S B S₂ r i where
  toKeeps := Keeps.cursor shape (by rw [candidate.chain]; simp) atNode dirty c
  candidate := candidate
  ok := okExcept_cursor (ok.except _) atNode dirty c
  slot := ⟨_, Heap.node_setNode_self .., index, reserved⟩

theorem nextFreeIndex_spec {h : Heap α} {l : ListPtr} {A S : List NodePtr} {r : NodePtr} {n : PumaNode α}
    (shape : Shape h l A S) (ok : h.Ok) (first : HeadIndex h l) (atTail : (h.lists l).tail = some r)
    (atNode : h.node r = some n) (room : n.numElements < n.capacity) (safe : AllocSafe h l) :
    ∃ h' i A' S' B S₂, nextFreeIndex h l r = some (h', i) ∧ SlotPost h h' l A S A' S' B S₂ r i := by
  obtain ⟨fine, inactive⟩ := ok r n atNode
  have ends := shape.tail
  rw [atTail] at ends
  have cases : (∃ B, A = B ++ [r]) ∨ ∃ S₂, A = [] ∧ S = r :: S₂ := by
    rcases Option.or_eq_some_iff.mp ends.symm with last | ⟨missing, spare⟩
    · exact Or.inl (List.getLast?_eq_some_iff.mp last)
    · obtain ⟨S₂, split⟩ := List.head?_eq_some_iff.mp spare
      exact Or.inr ⟨S₂, List.getLast?_eq_none_iff.mp missing, split⟩
  by_cases late : n.capacity ≤ n.firstKnownFree
  · rcases cases with ⟨B, rfl⟩ | ⟨S₂, rfl, rfl⟩
    · obtain ⟨h', i, A', S', S₂, run, post⟩ := nextFreeIndex_cleanup shape ok atNode room late safe
      exact ⟨h', i, A', S', B, S₂, run, post⟩
    · have zero : n.index = 0 := first r _ (by rw [shape.head]; rfl) (Heap.links_eq atNode)
      have off : n.active = false := by
        rw [← Bool.not_eq_true, shape.active_iff atNode (by simp)]
        exact List.not_mem_nil
      have empty := fine.toCounted.empty_iff.mp (inactive off)
      have shape₁ := (Keeps.cursor shape (by simp) atNode n.dirty (n.firstKnownFree + 1)).shape
      have run := cleanupNode_inactive shape₁ (Heap.node_setNode_self ..)
      refine ⟨_, 0, [], r :: S₂, [], S₂, ?_, SlotPost.of_cursor shape ok (Or.inr ⟨rfl, rfl⟩) atNode zero
        false 1 (SlotReserved.compact (inactive off) empty rfl fine.capacity_pos)⟩
      simp only [nextFreeIndex, atNode, Option.bind_eq_bind, Option.bind_some, if_pos late, run,
        Heap.node_setNode_self, Heap.setNode_setNode, Option.pure_def]
      simp only [empty]
  · obtain ⟨B, S₂, candidate, index⟩ : ∃ B S₂, Candidate A S r B S₂ ∧ n.index = B.length := by
      rcases cases with ⟨B, rfl⟩ | ⟨S₂, rfl, rfl⟩
      · exact ⟨B, S, Or.inl ⟨rfl, rfl⟩, shape.index_eq rfl atNode⟩
      · exact ⟨[], S₂, Or.inr ⟨rfl, rfl⟩, first r _ (by rw [shape.head]; rfl) (Heap.links_eq atNode)⟩
    refine ⟨_, n.firstKnownFree, A, S, B, S₂, ?_, SlotPost.of_cursor shape ok candidate atNode index
      n.dirty (n.firstKnownFree + 1) ⟨not_le.mp late, fun live => ?_, fine.cursor, rfl, fun clean => ?_⟩⟩
    · simp [nextFreeIndex, atNode, late]
    · exact (Nat.lt_irrefl _ (fine.cursor _ live)).elim
    · obtain ⟨compact, cursor⟩ := fine.clean clean
      exact ⟨by rw [cursor]; exact compact, cursor.symm⟩

theorem allocElementOnNode_eq {h : Heap α} {r : NodePtr} {n : PumaNode α} (atNode : h.node r = some n) (i : Nat) :
    allocElementOnNode h r (getElement r i) = some ((h.setNode r { n with toSlots := n.toSlots.alloc i }).modifyList
      n.threadList fun tl => { tl with numElements := tl.numElements + 1 }) := by
  simp only [allocElementOnNode, getElement, getIndexOfElement, atNode, Option.bind_eq_bind, Option.bind_some,
    Option.pure_def]
  rfl

/-- `_allocElementOnNode` on a slot that has been chosen. -/
theorem SlotReserved.alloc_ok {s : Slots α} {i : Nat} (reserved : SlotReserved s i) (counted : s.Counted) :
    (s.alloc i).Ok where
  toCounted := counted.alloc reserved.within reserved.hole
  cursor j live := by
    have next : (s.alloc i).firstKnownFree = i + 1 := reserved.cursor
    rw [counted.liveSlots_alloc reserved.within, Finset.mem_insert] at live
    rw [next]
    rcases live with same | old
    · omega
    · have := reserved.behind j old
      omega
  clean clean := by
    obtain ⟨compact, count⟩ := reserved.clean clean
    have count' : (s.alloc i).numElements = i + 1 := congrArg (· + 1) count
    refine ⟨?_, reserved.cursor.trans count'.symm⟩
    rw [counted.liveSlots_alloc reserved.within, compact, count', Finset.range_add_one]

/-- What `_pumallocOnThreadList` has done when it calls `_allocElementOnNode`: `r` is
the last active node, and slot `i` of it has been chosen. -/
structure ReservePost (h h' : Heap α) (l : ListPtr) (A S : List NodePtr) (block : NodePtr) (B S₂ : List NodePtr)
    (r : NodePtr) (i : Nat) : Prop extends Keeps h h' l A (B ++ [r]) S₂ where
  ok : h'.OkExcept (some r)
  slot : ∃ n, h'.node r = some n ∧ SlotReserved n.toSlots i

/-- What `_pumallocOnThreadList` does: element `e` is new, in the last active node. -/
structure AllocPost (h h' : Heap α) (l : ListPtr) (A S : List NodePtr) (block : NodePtr) (A' S' : List NodePtr)
    (e : ElemPtr) : Prop where
  shape : Shape h' l A' S'
  ok : h'.Ok
  elems : ∃ x, h'.read e = some x ∧ h'.elems A' = x ::ₘ h.elems A
  numElements : (h'.lists l).numElements = (h.lists l).numElements + 1
  loc : Local h h' l
  headIndex : HeadIndex h l → HeadIndex h' l

/-- `_allocElementOnNode` on the slot that has been chosen. -/
theorem ReservePost.alloc {h h₁ h' : Heap α} {l : ListPtr} {A S : List NodePtr} {block : NodePtr} {B S₂ : List NodePtr}
    {r : NodePtr} {i : Nat} (post : ReservePost h h₁ l A S block B S₂ r i)
    (run : allocElementOnNode h₁ r (getElement r i) = some h') :
    AllocPost h h' l A S block (B ++ [r]) S₂ (getElement r i) ∧ ∃ s, h₁.slots r = some s ∧
      ∀ q, h'.slots q = if q = r then some (s.alloc i) else h₁.slots q := by
  obtain ⟨n, atNode, reserved⟩ := post.slot
  have inActive : r ∈ B ++ [r] := by simp
  obtain ⟨m, atNode', owner⟩ := post.shape.node (List.mem_append_left S₂ inActive)
  rw [← Option.some.inj (atNode.symm.trans atNode')] at owner
  obtain ⟨counted, _, _⟩ := post.ok r n atNode
  let marked := h₁.setNode r { n with toSlots := n.toSlots.alloc i }
  have same : h' = marked.modifyList l (fun tl => { tl with numElements := tl.numElements + 1 }) := by
    rw [allocElementOnNode_eq atNode, owner] at run
    exact (Option.some.inj run).symm
  subst same
  have slots : ∀ q, marked.slots q = if q = r then some (n.toSlots.alloc i) else h₁.slots q :=
    fun q => Heap.slots_setNode h₁ r q _
  have here : marked.slots r = some (n.toSlots.alloc i) := by rw [slots, if_pos rfl]
  have shape' : Shape marked l (B ++ [r]) S₂ :=
    post.shape.of_links_eq (Heap.links_setNode_same atNode rfl) rfl rfl rfl
  have stored : Evolves h₁ marked l := Evolves.setNode atNode l rfl rfl
  have live : i ∈ (n.toSlots.alloc i).liveSlots := by
    rw [counted.liveSlots_alloc reserved.within]
    exact Finset.mem_insert_self i _
  have loc : Local h₁ marked l := Local.setNode (fun k atOld => by
    rw [← Option.some.inj (atNode.symm.trans atOld)]; exact owner) owner
  refine ⟨⟨shape'.of_links_eq rfl (by simp) (by simp) (by simp), fun q k atNode' => ?_,
    ⟨n.elements i, ?_, ?_⟩, ?_, (post.loc.trans loc).trans (Local.modifyList _ l rfl rfl), fun zero => ?_⟩,
    n.toSlots, Heap.slots_eq atNode, slots⟩
  · rw [Heap.node_modifyList, Heap.node_setNode] at atNode'
    split at atNode'
    · rename_i equal
      rw [← Option.some.inj atNode']
      refine ⟨reserved.alloc_ok counted, fun off => ?_⟩
      have active : n.active = true := (post.shape.active_iff atNode (List.mem_append_left S₂ inActive)).mpr inActive
      rw [show n.active = false from off] at active
      cases active
    · rename_i apart
      obtain ⟨_, fine, inactive⟩ := post.ok q k atNode'
      exact ⟨fine fun equal => apart (Option.some.inj equal), inactive⟩
  · have atE : marked.read ⟨r, i⟩ = some (n.elements i) := by
      rw [Heap.read_eq (e := ⟨r, i⟩) here, Slots.read, if_pos live]
      rfl
    exact atE
  · obtain ⟨rest, before, after⟩ := Heap.elems_change (h := h₁) post.shape.nodup_active inActive
      fun q _ apart => by rw [slots, if_neg apart]
    have grown : marked.elems (B ++ [r]) = n.elements i ::ₘ h.elems A := by
      rw [← post.elems, before, after, Heap.contents_eq here, Heap.contents_eq (Heap.slots_eq atNode),
        counted.contents_alloc reserved.within reserved.hole, Multiset.cons_add]
    exact grown
  · rw [Heap.lists_modifyList_self, ← post.numElements]
    rfl
  · exact (stored.trans (Evolves.modifyList _ l rfl)).headIndex (post.headIndex zero)

variable [Inhabited α]

theorem tailWithRoom_spec {h h' : Heap α} {l : ListPtr} {A S : List NodePtr} {r block : NodePtr}
    (shape : Shape h l A S) (ok : h.Ok) (capacity : 0 < h.capacityFor (h.lists l).elementSize)
    (run : tailWithRoom h l block = some (h', r)) : ∃ A' S', TailPost h h' l A S A' S' r := by
  unfold tailWithRoom at run
  have ends := shape.tail
  cases atTail : (h.lists l).tail with
  | none =>
    rw [atTail] at run ends
    obtain ⟨noActive, noSpare⟩ := Option.or_eq_none_iff.mp ends.symm
    rw [List.getLast?_eq_none_iff] at noActive
    rw [List.head?_eq_none_iff] at noSpare
    subst noActive noSpare
    obtain ⟨S', post⟩ := appendPumaNode_spec shape ok id capacity run
    exact ⟨[r], S', post.tailPost (by simp)⟩
  | some t =>
    have inChain : t ∈ A ++ S := by
      rw [atTail] at ends
      rcases Option.or_eq_some_iff.mp ends.symm with last | ⟨_, spare⟩
      · exact List.mem_append_left S (List.mem_of_getLast? last)
      · exact List.mem_append_right A (List.mem_of_mem_head? spare)
    obtain ⟨n, atNode, _⟩ := shape.node inChain
    obtain ⟨⟨counted, _, _⟩, inactive⟩ := ok t n atNode
    simp only [atTail, atNode, Option.bind_eq_bind, Option.bind_some] at run
    by_cases full : n.numElements = n.capacity
    · -- A full node is active, so it is the last active one.
      have active : t ∈ A := by
        rw [← shape.active_iff atNode inChain]
        by_contra off
        have missing := counted.empty_iff.mp (inactive (by simpa using off))
        have positive := counted.capacity_pos
        omega
      have last : A.getLast? = some t := by
        rw [atTail] at ends
        rcases Option.or_eq_some_iff.mp ends.symm with last | ⟨missing, _⟩
        · exact last
        · rw [List.getLast?_eq_none_iff.mp missing] at active
          cases active
      rw [if_pos full] at run
      obtain ⟨S', post⟩ := appendPumaNode_spec shape ok (fun missing => by rw [missing] at active; cases active) capacity run
      refine ⟨A ++ [r], S', post.tailPost fun t' last' => ?_⟩
      rw [← Option.some.inj (last.symm.trans last')]
      have positive : 0 < n.toSlots.liveSlots.card := by
        rw [← counted.count, full]
        exact counted.capacity_pos
      obtain ⟨i, live⟩ := Finset.card_pos.mp positive
      exact ⟨i, by rw [Heap.read_eq (Heap.slots_eq atNode), Slots.read_isSome]; exact live⟩
    · rw [if_neg full] at run
      cases run
      refine ⟨A, S, Keeps.refl shape, ok, atTail, fun n' atNode' => ?_, id⟩
      rw [← Option.some.inj (atNode.symm.trans atNode')]
      exact lt_of_le_of_ne counted.numElements_le full

theorem reserveSlot_spec {h h' : Heap α} {l : ListPtr} {A S : List NodePtr} {r block : NodePtr} {i : Nat}
    (shape : Shape h l A S) (ok : h.Ok) (first : HeadIndex h l)
    (capacity : 0 < h.capacityFor (h.lists l).elementSize) (safe : AllocSafe h l)
    (run : reserveSlot h l block = some (h', r, i)) :
    ∃ B S₂, ReservePost h h' l A S block B S₂ r i := by
  simp only [reserveSlot, Option.bind_eq_bind] at run
  obtain ⟨⟨h₁, r₁⟩, found, run⟩ := Option.bind_eq_some_iff.mp run
  obtain ⟨A₁, S₁, tail⟩ := tailWithRoom_spec shape ok capacity found
  have inChain : r₁ ∈ A₁ ++ S₁ := by
    have ends := tail.shape.tail
    rw [tail.atTail] at ends
    rcases Option.or_eq_some_iff.mp ends.symm with last | ⟨_, spare⟩
    · exact List.mem_append_left _ (List.mem_of_getLast? last)
    · exact List.mem_append_right _ (List.mem_of_mem_head? spare)
  obtain ⟨n₁, atNode₁, _⟩ := tail.shape.node inChain
  obtain ⟨h₂, i₂, A₂, S', B, S₂, chosen, post⟩ := nextFreeIndex_spec tail.shape tail.ok (tail.headIndex first)
    tail.atTail atNode₁ (tail.room n₁ atNode₁) (tail.safe safe)
  obtain ⟨n, atNode, index, reserved⟩ := post.slot
  simp only [chosen, atNode, Option.bind_some, Option.pure_def, Option.some.injEq, Prod.mk.injEq] at run
  obtain ⟨rfl, rfl, rfl⟩ := run
  have keeps := tail.toKeeps.trans post.toKeeps
  rcases post.candidate with ⟨rfl, rfl⟩ | ⟨rfl, rfl⟩
  · have active : n.active = true := (post.shape.active_iff atNode (by simp)).mpr (by simp)
    have atTail : (h₂.lists l).tail = some r₁ := by rw [post.shape.tail]; simp
    have nothing : (h₂.modifyList l fun tl => { tl with
        numNodes := tl.numNodes + if n.active then 0 else 1, tail := some r₁ }).setNode r₁ { n with active := true } = h₂ := by
      rw [Heap.modifyList_eq_self (by simp [active, ← atTail]), ← active]
      exact Heap.setNode_eq_self atNode
    rw [nothing]
    exact ⟨B, S', keeps, post.ok, ⟨n, atNode, reserved⟩⟩
  · have off : n.active = false := by
      rw [← Bool.not_eq_true, post.shape.active_iff atNode (by simp)]
      exact post.shape.notMem_active (List.mem_cons_self ..)
    have activated : (h₂.modifyList l fun tl => { tl with
        numNodes := tl.numNodes + if n.active then 0 else 1, tail := some r₁ }).setNode r₁ { n with active := true } =
        activateSpare h₂ l r₁ n A₂.length := by
      rw [activateSpare, ← index]
      congr 1
      exact Heap.modifyList_congr (by simp [off, post.shape.numNodes, index])
    rw [activated]
    exact ⟨A₂, S₂, keeps.trans (activateSpare_keeps post.shape atNode post.ok),
      activateSpare_okExcept atNode post.ok _, ⟨_, Heap.node_setNode_self .., reserved⟩⟩

theorem pumallocOnThreadList_spec {h h' : Heap α} {l : ListPtr} {A S : List NodePtr} {e : ElemPtr} {block : NodePtr}
    (shape : Shape h l A S) (ok : h.Ok) (first : HeadIndex h l)
    (capacity : 0 < h.capacityFor (h.lists l).elementSize) (safe : AllocSafe h l)
    (run : pumallocOnThreadList h l block = some (h', e)) :
    ∃ A' S', AllocPost h h' l A S block A' S' e := by
  simp only [pumallocOnThreadList, Option.bind_eq_bind] at run
  obtain ⟨⟨h₁, r, i⟩, reserve, run⟩ := Option.bind_eq_some_iff.mp run
  obtain ⟨h₂, alloc, run⟩ := Option.bind_eq_some_iff.mp run
  cases run
  obtain ⟨B, S₂, post⟩ := reserveSlot_spec shape ok first capacity safe reserve
  exact ⟨_, _, (post.alloc alloc).1⟩

end Puma
