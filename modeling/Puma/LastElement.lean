import Puma.Shape

namespace Puma

open DoublyLinked

variable {α : Type}

theorem deactivateTail_slots {h : Heap α} {l : ListPtr} {p : NodePtr} {t : PumaNode α}
    (atNode : h.node p = some t) : (deactivateTail h l p t).slots = h.slots := by
  have store : (h.setNode p { t with active := false }).slots = h.slots := Heap.slots_setNode_same atNode rfl
  unfold deactivateTail
  split <;> exact store

theorem deactivateTail_node (h : Heap α) (l : ListPtr) (p q : NodePtr) (t : PumaNode α) :
    (deactivateTail h l p t).node q = if q = p then some { t with active := false } else h.node q := by
  have store := Heap.node_setNode h p q { t with active := false }
  unfold deactivateTail
  split <;> exact store

theorem deactivateTail_links (h : Heap α) (l : ListPtr) (p q : NodePtr) (t : PumaNode α) :
    (deactivateTail h l p t).links q = if q = p then some { t.toLinks with active := false } else h.links q := by
  rw [Heap.links, deactivateTail_node]
  split <;> rfl

theorem deactivateTail_numElements (h : Heap α) (l : ListPtr) (p : NodePtr) (t : PumaNode α) :
    ((deactivateTail h l p t).lists l).numElements = (h.lists l).numElements := by
  unfold deactivateTail
  split <;> simp

theorem deactivateTail_frame (h : Heap α) (l : ListPtr) {p : NodePtr} (t : PumaNode α) {c : List NodePtr}
    (member : p ∈ c) : Frame h (deactivateTail h l p t) l c := by
  have counted : Frame h (h.modifyList l fun tl => { tl with
      numNodes := if 0 < tl.numNodes then tl.numNodes - 1 else tl.numNodes }) l c :=
    Frame.modifyList h l c (fun _ => rfl) fun _ => rfl
  have stored := counted.trans (Frame.setNode _ l member { t with active := false }) fun _ inside => inside
  unfold deactivateTail
  split
  · exact stored
  · exact stored.trans (Frame.modifyList _ l c (fun _ => rfl) fun _ => rfl) fun _ inside => inside

theorem deactivateTail_evolves {h : Heap α} (l : ListPtr) {p : NodePtr} {t : PumaNode α}
    (atNode : h.node p = some t) : Evolves h (deactivateTail h l p t) l where
  links q k' atLinks := by
    rw [deactivateTail_links] at atLinks
    split at atLinks
    · rename_i same
      cases Option.some.inj atLinks
      rw [same]
      exact ⟨t.toLinks, Heap.links_eq atNode, rfl, rfl⟩
    · exact ⟨k', atLinks, rfl, rfl⟩
  head := by
    unfold deactivateTail
    split <;> simp

/-- The last active node becomes the first spare node. -/
theorem deactivateTail_shape {h : Heap α} {l : ListPtr} {A S : List NodePtr} {p : NodePtr} {t : PumaNode α}
    (shape : Shape h l (A ++ [p]) S) (atNode : h.node p = some t) :
    Shape (deactivateTail h l p t) l A (p :: S) := by
  have rejoin : A ++ p :: S = (A ++ [p]) ++ S := by simp
  have before : t.prev = A.getLast? := shape.prev_eq rejoin.symm atNode
  have apart : p ∉ A := fun member => by
    have distinct := (List.nodup_append.mp shape.nodup_active).2.2 p member p (by simp)
    exact distinct rfl
  refine shape.relabel rejoin (fun q => ?_) (fun q k atLinks own => ?_) (fun i q k atIndex atLinks => ?_) ?_ ?_ ?_
  · rw [deactivateTail_links]
    split
    · rename_i same
      rw [same, Heap.links_eq atNode]
      rfl
    · rfl
  · rw [deactivateTail_links] at atLinks
    split at atLinks
    · rename_i same
      cases Option.some.inj atLinks
      simp [same, apart]
    · rename_i distinct
      rw [shape.active q k atLinks own]
      simp [distinct]
  · have distinct : q ≠ p := fun same => apart (same ▸ List.mem_of_getElem? atIndex)
    rw [deactivateTail_links, if_neg distinct] at atLinks
    refine shape.index i q k ?_ atLinks
    obtain ⟨bound, _⟩ := List.getElem?_eq_some_iff.mp atIndex
    rw [List.getElem?_append_left bound, atIndex]
  · exact (deactivateTail_evolves l atNode).head
  · have atTail := shape.tail
    unfold deactivateTail
    split
    · rename_i first
      rw [before, List.getLast?_eq_none_iff] at first
      subst first
      simpa using atTail
    · rename_i before' first
      rw [← before, first]
      simp
  · have count := shape.numNodes
    rw [List.length_append, List.length_singleton] at count
    unfold deactivateTail
    split <;> simp [count]

/-- `p` holds the last element of a list with active nodes `A`, in slot `i`. -/
def LastLive (h : Heap α) (A : List NodePtr) (p : NodePtr) (i : Nat) : Prop :=
  A.getLast? = some p ∧ ∃ s, h.slots p = some s ∧ i ∈ s.liveSlots ∧ ∀ j ∈ s.liveSlots, j ≤ i

/-- What `_getLastElement` returns and leaves behind: the nodes `E` at the tail
were empty and are spare now, nothing else about the nodes has changed. -/
structure LastElementPost (h h' : Heap α) (l : ListPtr) (A S A' E : List NodePtr) (p₀ : Option NodePtr)
    (result : Option ElemPtr) : Prop where
  split : A = A' ++ E
  shape : Shape h' l A' (E ++ S)
  ok : h'.OkExcept p₀
  empty : ∀ p ∈ E, h.contents p = 0
  slots : h'.slots = h.slots
  numElements : (h'.lists l).numElements = (h.lists l).numElements
  frame : Frame h h' l A
  evolves : Evolves h h' l
  result : (A' = [] ∧ result = none) ∨ ∃ p i, LastLive h A' p i ∧ result = some ⟨p, i⟩

/-- The part of it that needs no more of the slots than masks of the right length. -/
structure LastElementWalk (h h' : Heap α) (l : ListPtr) (A S A' E : List NodePtr) (result : Option ElemPtr) : Prop where
  split : A = A' ++ E
  shape : Shape h' l A' (E ++ S)
  empty : ∀ p ∈ E, h.contents p = 0
  slots : h'.slots = h.slots
  numElements : (h'.lists l).numElements = (h.lists l).numElements
  frame : Frame h h' l A
  evolves : Evolves h h' l
  result : (A' = [] ∧ result = none) ∨ ∃ p i, LastLive h A' p i ∧ result = some ⟨p, i⟩

theorem getLastElementLoop_walk {h : Heap α} {l : ListPtr} {A S : List NodePtr} (shape : Shape h l A S)
    (masks : ∀ p ∈ A, ∀ s, h.slots p = some s → s.freeMask.numElements = s.capacity) (turns : Nat)
    (enough : A.length < turns) :
    ∃ h' result A' E, getLastElementLoop turns h l (h.lists l).tail = some (h', result) ∧
      LastElementWalk h h' l A S A' E result := by
  induction A using List.reverseRecOn generalizing h S turns with
  | nil =>
    refine ⟨h, none, [], [], ?_, rfl, shape, by simp, rfl, rfl, Frame.refl h l _, Evolves.refl h l,
      Or.inl ⟨rfl, rfl⟩⟩
    rw [shape.tail]
    obtain ⟨turns, rfl⟩ : ∃ k, turns = k + 1 := ⟨turns - 1, by omega⟩
    cases S with
    | nil => rfl
    | cons s S =>
      obtain ⟨n, atNode, owner⟩ := shape.node (p := s) (by simp)
      have inactive : n.active = false := by
        rw [← Bool.not_eq_true, shape.active_iff atNode (by simp)]
        exact List.not_mem_nil
      simp [getLastElementLoop, atNode, inactive]
  | append_singleton A p ih =>
    obtain ⟨turns, rfl⟩ : ∃ k, turns = k + 1 := ⟨turns - 1, by omega⟩
    obtain ⟨t, atNode, owner⟩ := shape.node (p := p) (by simp)
    have active : t.active = true := (shape.active_iff atNode (by simp)).mpr (by simp)
    have atTail : (h.lists l).tail = some p := by rw [shape.tail]; simp
    have bits : t.freeMask.numElements = t.capacity := masks p (by simp) _ (Heap.slots_eq atNode)
    have before : t.prev = A.getLast? := shape.prev_eq (D := S) (by simp) atNode
    cases last : pumaLastIndexOfValue t.freeMask maskNotFree with
    | some i =>
      obtain ⟨bound, held, after⟩ := pumaLastIndexOfValue_eq_some (Or.inl rfl) last
      refine ⟨h, some ⟨p, i⟩, A ++ [p], [], ?_, by simp, shape, by simp, rfl, rfl, Frame.refl h l _,
        Evolves.refl h l, Or.inr ⟨p, i, ⟨by simp, t.toSlots, Heap.slots_eq atNode, ?_, ?_⟩, rfl⟩⟩
      · simp [atTail, getLastElementLoop, atNode, active, last, getElement]
      · exact Slots.mem_liveSlots.mpr ⟨bits ▸ bound, held⟩
      · intro j live
        obtain ⟨jBound, jHeld⟩ := Slots.mem_liveSlots.mp live
        by_contra larger
        exact after j (by omega) (bits ▸ jBound) jHeld
    | none =>
      have empty : t.toSlots.liveSlots = ∅ := by
        refine Finset.eq_empty_of_forall_notMem fun j live => ?_
        obtain ⟨jBound, jHeld⟩ := Slots.mem_liveSlots.mp live
        exact pumaLastIndexOfValue_eq_none (Or.inl rfl) last (bits ▸ jBound) jHeld
      have step : getLastElementLoop (turns + 1) h l (h.lists l).tail =
          getLastElementLoop turns (deactivateTail h l p t) l ((deactivateTail h l p t).lists l).tail := by
        have atTail' := (deactivateTail_shape shape atNode).tail
        cases A with
        | nil =>
          -- The walk runs off the front: the head stays the tail, inactive.
          have off : t.prev = none := before
          have halt : ((deactivateTail h l p t).lists l).tail = some p := by rw [atTail']; simp
          have gone : (deactivateTail h l p t).node p = some { t with active := false } := by
            rw [deactivateTail_node, if_pos rfl]
          rw [atTail, halt]
          obtain ⟨turns, rfl⟩ : ∃ k, turns = k + 1 := ⟨turns - 1, by simp at enough; omega⟩
          simp [getLastElementLoop, atNode, active, last, off, gone]
        | cons a A =>
          have same : ((deactivateTail h l p t).lists l).tail = t.prev := by
            rw [atTail', before, List.getLast?_cons]
            rfl
          rw [atTail, same]
          simp [getLastElementLoop, atNode, active, last]
      have slots := deactivateTail_slots (l := l) atNode
      obtain ⟨h', result, A', E, run, post⟩ := ih (deactivateTail_shape shape atNode)
        (fun q member s atSlots => masks q (List.mem_append_left _ member) s (by rw [← slots, atSlots])) turns
        (by rw [List.length_append, List.length_singleton] at enough; omega)
      refine ⟨h', result, A', E ++ [p], step.trans run, ?_, ?_, ?_, post.slots.trans slots,
        post.numElements.trans (deactivateTail_numElements h l p t),
        (deactivateTail_frame h l t (by simp)).trans post.frame (fun q member => by simp [member]),
        (deactivateTail_evolves l atNode).trans post.evolves, ?_⟩
      · rw [post.split, List.append_assoc]
      · simpa using post.shape
      · intro q member
        rcases List.mem_append.mp member with inE | same
        · have zero := post.empty q inE
          rwa [Heap.contents, slots] at zero
        · rw [List.mem_singleton.mp same, Heap.contents_eq (Heap.slots_eq atNode), Slots.contents_eq_zero]
          exact empty
      · rcases post.result with none | ⟨q, i, ⟨atLast, s, atSlots, live⟩, some⟩
        · exact Or.inl none
        · exact Or.inr ⟨q, i, ⟨atLast, s, by rw [← atSlots, slots], live⟩, some⟩

/-- What was in order stays so: the nodes given up are empty. -/
theorem LastElementWalk.ok {h h' : Heap α} {l : ListPtr} {A S A' E : List NodePtr} {p₀ : Option NodePtr}
    {result : Option ElemPtr} (walk : LastElementWalk h h' l A S A' E result) (ok : h.OkExcept p₀) : h'.OkExcept p₀ := by
  intro q n' atNode'
  obtain ⟨n, atNode, _⟩ := walk.evolves.node atNode'
  have same : n'.toSlots = n.toSlots := by
    have slots := congrFun walk.slots q
    rw [Heap.slots_eq atNode', Heap.slots_eq atNode] at slots
    exact Option.some.inj slots
  obtain ⟨counted, fine, idle⟩ := ok q n atNode
  rw [same]
  refine ⟨counted, fine, fun inactive => ?_⟩
  by_cases inside : q ∈ A
  · rw [walk.split, List.mem_append] at inside
    rcases inside with kept | given
    · rw [(walk.shape.active_iff atNode' (List.mem_append_left _ kept)).mpr kept] at inactive
      cases inactive
    · have zero := walk.empty q given
      rwa [Heap.contents_eq (Heap.slots_eq atNode), Slots.contents_eq_zero] at zero
  · rw [walk.frame.nodes q inside, atNode] at atNode'
    exact idle (by rw [Option.some.inj atNode', inactive])

theorem getLastElementLoop_spec {h : Heap α} {l : ListPtr} {A S : List NodePtr} {p₀ : Option NodePtr}
    (shape : Shape h l A S) (ok : h.OkExcept p₀) (turns : Nat) (enough : A.length < turns) :
    ∃ h' result A' E, getLastElementLoop turns h l (h.lists l).tail = some (h', result) ∧
      LastElementPost h h' l A S A' E p₀ result := by
  obtain ⟨h', result, A', E, run, walk⟩ := getLastElementLoop_walk shape (fun p _ s atSlots => by
    obtain ⟨n, atNode, rfl⟩ := Heap.node_of_slots atSlots
    exact (ok p n atNode).1.bits) turns enough
  exact ⟨h', result, A', E, run, walk.split, walk.shape, walk.ok ok, walk.empty, walk.slots, walk.numElements,
    walk.frame, walk.evolves, walk.result⟩

/-- `_getLastElement` returns on every list of the right shape, and finds the
live element with the greatest node and slot. -/
theorem getLastElement_spec {h : Heap α} {l : ListPtr} {A S : List NodePtr} {p₀ : Option NodePtr}
    (shape : Shape h l A S) (ok : h.OkExcept p₀) :
    ∃ h' result A' E, getLastElement h l = some (h', result) ∧
      LastElementPost h h' l A S A' E p₀ result := by
  have bound := shape.card_le_blocks
  rw [List.length_append] at bound
  exact getLastElementLoop_spec shape ok _ (by omega)

end Puma
