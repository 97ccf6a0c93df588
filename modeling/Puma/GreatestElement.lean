import Puma.Compact

namespace Puma

variable {α : Type} {h : Heap α} {l : ListPtr} {A S : List NodePtr}

/-- No live element of the nodes `c` is behind `e`: on a node with a greater index, or on the same node
in a greater slot. -/
structure Greatest (h : Heap α) (c : List NodePtr) (e : ElemPtr) : Prop where
  member : e.node ∈ c
  live : (h.read e).isSome
  greatest : ∀ e' n n', e'.node ∈ c → (h.read e').isSome → h.node e.node = some n → h.node e'.node = some n' →
    n'.index < n.index ∨ n'.index = n.index ∧ e'.slot ≤ e.slot

/-- Beside other nodes, what reads the slots alone is the same. -/
theorem Joined.read_congr {o h₀ g₀ g : Heap α} (before : Joined o h₀ g₀) (after : Joined o h g)
    (same : h.slots = h₀.slots) : g.read = g₀.read := by
  funext e
  refine Heap.read_congr ?_
  have slots := congrFun same e.node
  rw [Heap.slots, Heap.slots] at slots ⊢
  rw [after.nodes, before.nodes]
  cases here : h.node e.node with
  | none =>
    rw [here, Option.map_none, eq_comm, Option.map_eq_none_iff] at slots
    rw [slots]
  | some n =>
    rw [here] at slots
    obtain ⟨m, there, rest⟩ := Option.map_eq_some_iff.mp slots.symm
    rw [there, Option.some_or, Option.some_or, Option.map_some, Option.map_some, rest]

/-- The walk on the list's own nodes, and what it leaves beside the rest of the memory. -/
theorem Indexed.getLastElement (list : Indexed h l A S)
    (masks : ∀ p ∈ A, ∀ s, h.slots p = some s → s.freeMask.numElements = s.capacity) :
    ∃ h' result A' E, Puma.getLastElement h l = some (h', result) ∧ A = A' ++ E ∧ Indexed h' l A' (E ++ S) ∧
      h'.read = h.read ∧ ((A' = [] ∧ result = none) ∨ ∃ p i, LastLive h A' p i ∧ result = some ⟨p, i⟩) := by
  have shape := list.shape (fun _ member => member) fun _ member _ _ _ => member
  have joined := h.joined_only (A ++ S)
  have inside {p : NodePtr} (member : p ∈ A) : (h.only (A ++ S)).slots p = h.slots p :=
    Heap.slots_only (List.mem_append_left S member)
  have bound := shape.card_le_blocks
  rw [List.length_append] at bound
  obtain ⟨h₁, result, A', E, run, walk⟩ := getLastElementLoop_walk shape
    (fun p member s atSlots => masks p member s (by rw [← inside member, atSlots])) ((h.only (A ++ S)).blocks.card + 1)
    (by omega)
  obtain ⟨⟨h', _⟩, run', joined', rfl⟩ := (Joined.rule _).getLastElement joined (Set.mem_univ l) (h₁, result) run
  have given (p : NodePtr) (member : p ∈ E) (n : PumaNode α) (atNode : h.node p = some n) :
      n.toSlots.liveSlots = ∅ := by
    have zero := walk.empty p member
    have inA : p ∈ A := by rw [walk.split]; exact List.mem_append_right A' member
    rwa [Heap.contents_eq ((inside inA).trans (Heap.slots_eq atNode)), Slots.contents_eq_zero] at zero
  refine ⟨h', result, A', E, run', walk.split, walk.shape.indexed joined' fun p spare n atNode => ?_,
    joined.read_congr joined' walk.slots, ?_⟩
  · have slots := congrFun walk.slots p
    rw [Heap.slots_eq atNode] at slots
    obtain ⟨m, atOnly, same⟩ := Heap.node_of_slots slots.symm
    rw [← same]
    rcases List.mem_append.mp spare with inE | inS
    · exact given p inE m (joined.node atOnly)
    · exact list.empty p inS m (joined.node atOnly)
  · refine walk.result.imp_right fun ⟨p, i, ⟨atLast, s, atSlots, live⟩, nonempty⟩ => ⟨p, i, ⟨atLast, s, ?_, live⟩, nonempty⟩
    rw [← inside (by rw [walk.split]; exact List.mem_append_left E (List.mem_of_getLast? atLast)), atSlots]

/-- `_getLastElement` returns the greatest live element of a well-formed list, or `NULL` if it has none; it
moves no element and leaves a well-formed list that ends at the node of this element, or at its head. -/
theorem Indexed.getLastElement_greatest (list : Indexed h l A S)
    (masks : ∀ p ∈ A, ∀ s, h.slots p = some s → s.freeMask.numElements = s.capacity) :
    ∃ h' result A' S', Puma.getLastElement h l = some (h', result) ∧ Indexed h' l A' S' ∧ A' ++ S' = A ++ S ∧
      h'.read = h.read ∧ (result = none ↔ ∀ e, e.node ∈ A ++ S → h.read e = none) ∧
      (∀ e, result = some e → Greatest h (A ++ S) e) ∧
      (h'.lists l).tail = match result with
        | some e => some e.node
        | none => (h'.lists l).head := by
  obtain ⟨h', result, A', E, run, split, list', read, found⟩ := list.getLastElement masks
  have chain : A' ++ (E ++ S) = A ++ S := by rw [split, List.append_assoc]
  have left {e : ElemPtr} (member : e.node ∈ A ++ S) (live : (h.read e).isSome) : e.node ∈ A' :=
    list'.active_of_read (chain ▸ member) (read ▸ live)
  refine ⟨h', result, A', E ++ S, run, list', chain, read, ?_⟩
  rcases found with ⟨missing, rfl⟩ | ⟨p, i, ⟨atLast, s, atSlots, live, above⟩, rfl⟩
  · subst missing
    refine ⟨iff_of_true rfl fun e member => ?_, fun e nonempty => (by cases nonempty), ?_⟩
    · by_contra live
      exact List.not_mem_nil (left member (Option.ne_none_iff_isSome.mp live))
    · rw [list'.tail, list'.head]
      rfl
  · have inA' : p ∈ A' := List.mem_of_getLast? atLast
    have member : p ∈ A ++ S := by rw [← chain]; exact List.mem_append_left _ inA'
    have readable : (h.read ⟨p, i⟩).isSome := by
      rw [Heap.read_eq (e := ⟨p, i⟩) atSlots, Slots.read_isSome]
      exact live
    refine ⟨iff_of_false (by simp) fun nothing => ?_, fun e nonempty => ?_, ?_⟩
    · rw [nothing ⟨p, i⟩ member] at readable
      cases readable
    · cases nonempty
      refine ⟨member, readable, fun e' n n' inChain live' atNode atNode' => ?_⟩
      -- The node of the other element is active still, so it stands in front of the last one or is it.
      obtain ⟨j, atIndex⟩ := List.mem_iff_getElem?.mp (left inChain live')
      have place : A'[A'.length - 1]? = some p := by rw [← List.getLast?_eq_getElem?, atLast]
      have inList {k : Nat} {q : NodePtr} (atPlace : A'[k]? = some q) : A[k]? = some q := by
        rw [split, List.getElem?_append_left (List.getElem?_eq_some_iff.mp atPlace).1, atPlace]
      have before := (List.getElem?_eq_some_iff.mp atIndex).1
      have index := list.index _ p n (inList place) atNode
      have index' := list.index _ _ n' (inList atIndex) atNode'
      by_cases same : j = A'.length - 1
      · refine Or.inr ⟨by omega, above e'.slot ?_⟩
        rw [same, place] at atIndex
        rwa [Heap.read_eq (by rw [← Option.some.inj atIndex, atSlots]), Slots.read_isSome] at live'
      · exact Or.inl (by omega)
    · rw [list'.tail, atLast]
      rfl

/-- A list with an element behind a hole. -/
theorem getLastElement_hole : ∃ (h h' : Heap Unit) (result : Option ElemPtr), (h.read ⟨0, 1⟩).isSome ∧
    getLastElement h 0 = some (h', result) ∧ result.isSome := by
  obtain ⟨h, A, S, list, member, _, live, _⟩ := wellFormed_hole
  obtain ⟨h', result, A', S', run, _, _, _, missing, _⟩ := list.indexed.getLastElement_greatest fun p inA s atSlots => by
    obtain ⟨n, atNode, rfl⟩ := Heap.node_of_slots atSlots
    exact (list.slots p (List.mem_append_left S inA) n atNode).bits
  refine ⟨h, h', result, live, run, ?_⟩
  rw [← Option.ne_none_iff_isSome, Ne, missing]
  intro nothing
  rw [nothing ⟨0, 1⟩ (List.mem_append_left S member)] at live
  cases live

end Puma
