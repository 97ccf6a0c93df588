import Puma.Compact
import Puma.Runs
import Puma.Transfer

namespace Puma

variable {α : Type}

/-- An operation that changes no slot of any node. -/
structure SlotsKept (h h' : Heap α) : Prop where
  blocks : h'.blocks = h.blocks
  nodes : ∀ q n', h'.node q = some n' → ∃ n dirty, h.node q = some n ∧
    n'.toSlots = { n.toSlots with dirty := dirty } ∧ (dirty = false → n.dirty = false)

theorem SlotsKept.refl (h : Heap α) : SlotsKept h h := ⟨rfl, fun _ n atNode => ⟨n, n.dirty, atNode, rfl, id⟩⟩

theorem SlotsKept.node {h h' : Heap α} (kept : SlotsKept h h') {q : NodePtr} {n : PumaNode α} (atNode : h.node q = some n) :
    ∃ n', h'.node q = some n' ∧ n'.capacity = n.capacity ∧ n'.numElements = n.numElements ∧
      n'.firstKnownFree = n.firstKnownFree ∧ n'.freeMask = n.freeMask ∧ n'.elements = n.elements := by
  have present : q ∈ h'.blocks := kept.blocks ▸ Heap.mem_blocks.mpr ⟨n, atNode⟩
  obtain ⟨n', atNode'⟩ := Heap.mem_blocks.mp present
  obtain ⟨m, dirty, atNode₀, same, _⟩ := kept.nodes q n' atNode'
  cases Option.some.inj (atNode.symm.trans atNode₀)
  exact ⟨n', atNode', by rw [same], by rw [same], by rw [same], by rw [same], by rw [same]⟩

theorem SlotsKept.node_eq_none {h h' : Heap α} (kept : SlotsKept h h') {q : NodePtr} :
    h'.node q = none ↔ h.node q = none := by
  have same : q ∈ h'.blocks ↔ q ∈ h.blocks := by rw [kept.blocks]
  simpa [Heap.mem_blocks, ← Option.isSome_iff_exists] using not_congr same

theorem SlotsKept.count {h h' : Heap α} (kept : SlotsKept h h') (c : List NodePtr) : h'.count c = h.count c := by
  refine Heap.count_congr fun q _ => ?_
  cases atNode : h.node q with
  | some n =>
    obtain ⟨n', atNode', _, count, _⟩ := kept.node atNode
    rw [Heap.slots_eq atNode', Heap.slots_eq atNode, Option.map_some, Option.map_some, count]
  | none => rw [Heap.slots, Heap.slots, kept.node_eq_none.mpr atNode, atNode]

/-- Slots that an operation keeps in a part of the memory are kept in all of it. -/
theorem SlotsKept.joined {o h₀ h₁ h h' : Heap α} (kept : SlotsKept h₀ h₁) (before : Joined o h₀ h) (after : Joined o h₁ h') :
    SlotsKept h h' where
  blocks := by
    ext q
    have same : (h₁.node q).isSome = (h₀.node q).isSome := by
      rw [Bool.eq_iff_iff, ← not_iff_not, Option.not_isSome_iff_eq_none, Option.not_isSome_iff_eq_none, kept.node_eq_none]
    rw [Heap.mem_blocks, Heap.mem_blocks, ← Option.isSome_iff_exists, ← Option.isSome_iff_exists, after.nodes,
      before.nodes, Option.isSome_or, Option.isSome_or, same]
  nodes q n' atNode' := by
    rw [after.nodes] at atNode'
    cases inside : h₁.node q with
    | some n₁ =>
      rw [inside] at atNode'
      cases atNode'
      obtain ⟨m, dirty, atNode, same⟩ := kept.nodes q _ inside
      exact ⟨m, dirty, before.node atNode, same⟩
    | none =>
      rw [inside] at atNode'
      exact ⟨n', n'.dirty, before.beside atNode', rfl, id⟩

/-- A list that an operation leaves alone in a part of the memory is left alone in all of it. -/
theorem Untouched.joined {o h₀ h₁ h h' : Heap α} {m : ListPtr} (untouched : Untouched h₀ h₁ m) (kept : SlotsKept h₀ h₁)
    (before : Joined o h₀ h) (after : Joined o h₁ h') : Untouched h h' m where
  nodes q n owner := by
    rw [after.nodes, before.nodes]
    have same := untouched.nodes q n owner
    cases inside : h₁.node q with
    | some n₁ =>
      obtain ⟨n₀, atNode₀⟩ : ∃ n₀, h₀.node q = some n₀ := by
        rw [← Option.ne_none_iff_exists', ne_eq, ← kept.node_eq_none, inside]
        exact Option.some_ne_none n₁
      rw [inside, atNode₀] at same
      rw [atNode₀]
      exact same
    | none => rw [kept.node_eq_none.mp inside]
  list := by rw [after.lists, before.lists, untouched.list]

/-- A list whose chain has its links, beside slots that are kept. -/
theorem Shape.wellLinked_of_kept {h h₁ o g : Heap α} {l : ListPtr} {A S : List NodePtr} (shape : Shape h₁ l A S)
    (joined : Joined o h₁ g) (kept : SlotsKept h h₁)
    (empty : ∀ p ∈ S, ∀ n, h.node p = some n → n.toSlots.liveSlots = ∅)
    (numElements : (h₁.lists l).numElements = h.count (A ++ S)) : WellLinked g l A S := by
  refine shape.wellLinked joined (fun p spare n atNode => ?_) (by rw [kept.count, numElements])
  obtain ⟨m, dirty, atNode₀, same, _⟩ := kept.nodes p n atNode
  have dead : n.toSlots.liveSlots = m.toSlots.liveSlots := by rw [same]; rfl
  rw [dead, empty p spare m atNode₀]

section Transfer

variable {h : Heap α} {source target : ListPtr} {As Ss At St : List NodePtr}

/-- What a transfer of the last `n` active nodes does to two well-formed lists. -/
structure LinkedTransfer (h h' : Heap α) (source target : ListPtr) (As Ss At St : List NodePtr) (n : Nat) : Prop where
  sourceOk : WellLinked h' source (As.take (As.length - n)) Ss
  targetOk : WellLinked h' target (At ++ As.drop (As.length - n)) St
  kept : SlotsKept h h'
  others : ∀ m, m ≠ source → m ≠ target → Untouched h h' m
  active : ∀ m, (h'.lists m).active = (h.lists m).active

/-- `_transferNNodes` moves the last `n` active nodes of one well-formed list behind the active nodes of the other. -/
theorem WellLinked.transferNNodes_moves (sourceOk : WellLinked h source As Ss) (targetOk : WellLinked h target At St)
    (apart : source ≠ target) {n : Nat} (positive : 1 ≤ n) (most : n ≤ (h.lists source).numNodes) :
    ∃ h', Puma.transferNNodes h n source target = some h' ∧ LinkedTransfer h h' source target As Ss At St n := by
  rw [sourceOk.numNodes] at most
  -- `K` stays, `M` goes.
  obtain ⟨K, atK⟩ : ∃ K, As.take (As.length - n) = K := ⟨_, rfl⟩
  obtain ⟨M, atM⟩ : ∃ M, As.drop (As.length - n) = M := ⟨_, rfl⟩
  have split : K ++ M = As := by rw [← atK, ← atM, List.take_append_drop]
  have length : M.length = n := by
    rw [← atM, List.length_drop]
    omega
  have moved : M ≠ [] := fun missing => by
    rw [missing, List.length_nil] at length
    omega
  -- The operation sees the nodes of the two lists only.
  have joined := h.joined_only ((As ++ Ss) ++ (At ++ St))
  generalize cut : h.only ((As ++ Ss) ++ (At ++ St)) = h₀ at joined
  generalize rest : h.without ((As ++ Ss) ++ (At ++ St)) = o at joined
  have sourceShape : Shape h₀ source As Ss := by
    rw [← cut]
    refine sourceOk.shape (fun p member => List.mem_append_left _ member) fun p member m atNode owner => ?_
    refine (List.mem_append.mp member).resolve_right fun inTarget => apart ?_
    exact owner.symm.trans (targetOk.owner inTarget atNode)
  have targetShape : Shape h₀ target At St := by
    rw [← cut]
    refine targetOk.shape (fun p member => List.mem_append_right _ member) fun p member m atNode owner => ?_
    refine (List.mem_append.mp member).resolve_left fun inSource => apart ?_
    exact (sourceOk.owner inSource atNode).symm.trans owner
  have node {p : NodePtr} (member : p ∈ As ++ Ss ∨ p ∈ At ++ St) : h₀.node p = h.node p := by
    rw [← cut, Heap.node_only, if_pos (List.mem_append.mpr member)]
  have count {c : List NodePtr} (within : ∀ p ∈ c, p ∈ As ++ Ss ∨ p ∈ At ++ St) : h₀.count c = h.count c :=
    Heap.count_congr fun p member => by rw [Heap.slots, Heap.slots, node (within p member)]
  have countM : h₀.count M = h.count M := count fun p inM => Or.inl (by rw [← split]; simp [inM])
  have sourceCount : (h.lists source).numElements = h.count K + h.count M + h.count Ss := by
    rw [sourceOk.numElements, ← split, Heap.count_append, Heap.count_append]
  have held : h₀.count M ≤ (h₀.lists source).numElements := by
    rw [countM, ← joined.lists]
    omega
  rw [← split] at sourceShape
  obtain ⟨h₁, run, post⟩ := transferNNodes_shapes ⟨apart, sourceShape, targetShape, moved, held⟩
  obtain ⟨h', run', joined'⟩ := (Joined.rule _).transferNNodes joined M.length (Set.mem_univ source) (Set.mem_univ target) h₁ run
  have kept : SlotsKept h₀ h₁ := ⟨post.blocks, fun q n' atNode' => by
    obtain ⟨m, dirty, atNode, _, same, clean⟩ := post.nodes q n' atNode'
    exact ⟨m, dirty, atNode, same, clean⟩⟩
  rw [length] at run'
  refine ⟨h', run', ?_, ?_, kept.joined joined joined', fun m notSource notTarget => ?_, fun m => ?_⟩
  · rw [atK]
    refine post.sourceShape.wellLinked_of_kept joined' kept (fun p spare m atNode => ?_) ?_
    · rw [node (Or.inl (List.mem_append_right As spare))] at atNode
      exact sourceOk.empty p spare m atNode
    · have inside : ∀ p ∈ K ++ Ss, p ∈ As ++ Ss ∨ p ∈ At ++ St := fun p member => Or.inl (by
        rw [← split]
        rcases List.mem_append.mp member with inK | inS
        · simp [inK]
        · simp [inS])
      rw [post.sourceCount, ← joined.lists, sourceCount, countM, count inside, Heap.count_append]
      omega
  · rw [atM]
    refine post.targetShape.wellLinked_of_kept joined' kept (fun p spare m atNode => ?_) ?_
    · rw [node (Or.inr (List.mem_append_right At spare))] at atNode
      exact targetOk.empty p spare m atNode
    · have inside : ∀ p ∈ At ++ M ++ St, p ∈ As ++ Ss ∨ p ∈ At ++ St := fun p member => by
        rw [← split]
        simp only [List.mem_append] at member ⊢
        tauto
      have before := targetOk.numElements
      rw [Heap.count_append] at before
      rw [post.targetCount, ← joined.lists, before, countM, count inside, Heap.count_append, Heap.count_append]
      omega
  · exact (post.others m notSource notTarget).joined kept joined joined'
  · rw [joined'.lists, joined.lists, post.active]

end Transfer

/-- The first thread fills two nodes and begins a third one; the second thread empties its second node, which a
pass makes spare. -/
def spareNodeCalls : List Call :=
  [.pumalloc 0 0, .pumalloc 1 3, .pumalloc 0 5, .pumalloc 0 1, .pumalloc 1 5, .pumalloc 1 4, .pumalloc 0 5, .pumalloc 0 2,
    .pufree ⟨4, 0⟩, .pufree ⟨3, 0⟩, .runKernel [1, 0]]

set_option maxRecDepth 8000 in
/-- Two of the three nodes move in behind the active node at 3, in front of the spare one at 4. -/
theorem transferNNodes_spare : ∃ (h h' : Heap Unit) (As Ss At St : List NodePtr), (h.lists 0).numNodes = 3 ∧
    (h.lists 1).tail = some 3 ∧ h.next 3 = some 4 ∧ transferNNodes h 2 0 1 = some h' ∧
    LinkedTransfer h h' 0 1 As Ss At St 2 := by
  obtain ⟨h, reachable, three, atTail, spare⟩ : ∃ h : Heap Unit,
      Reachable twoThreadsManual (fun h l => AllocSafe h l) h ∧ (h.lists 0).numNodes = 3 ∧ (h.lists 1).tail = some 3 ∧
        h.next 3 = some 4 := ⟨_, Reachable.of_safeCalls 4000 8192 spareNodeCalls (by decide) rfl, by decide, by decide, by decide⟩
  have setOk := reachable.ok fun _ _ safe => safe
  obtain ⟨As, Ss, source⟩ := setOk.each 0 (by decide)
  obtain ⟨At, St, target⟩ := setOk.each 1 (by decide)
  obtain ⟨h', run, post⟩ := (source.wellFormed setOk.ok).toWellLinked.transferNNodes_moves
    (target.wellFormed setOk.ok).toWellLinked (by decide) (show 1 ≤ 2 by decide) (three ▸ (show 2 ≤ 3 by decide))
  exact ⟨h, h', As, Ss, At, St, three, atTail, spare, run, post⟩

end Puma
