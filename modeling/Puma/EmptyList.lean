import Puma.Compact

namespace Puma

open DoublyLinked Simulation

variable {α : Type}

/-- The loop of `_emptyThreadList`, with the nodes that it passes to `_freePumaNode`. Each turn releases a
block, so the number of blocks bounds the turns. -/
def emptyThreadListLoop : Nat → Heap α → Option NodePtr → Option (Heap α × List NodePtr)
  | _, h, none => some (h, [])
  | 0, _, some _ => none
  | turns + 1, h, some node => do
    let n ← h.node node
    let nextNode := n.next
    let h ← freePumaNode h node
    let (h, freed) ← emptyThreadListLoop turns h nextNode
    pure (h, node :: freed)

def emptyThreadList (h : Heap α) (tl : ListPtr) : Option (Heap α × List NodePtr) :=
  emptyThreadListLoop (h.blocks.card + 1) h (h.lists tl).head

/-- Releasing the first node of a chain makes the next one the first. -/
theorem freePumaNode_head {h : Heap α} {c : NodePtr} {n : PumaNode α} (atNode : h.node c = some n)
    (first : n.prev = none) (behind : ∀ x, n.next = some x → ∃ m, h.node x = some m) :
    ∃ h', freePumaNode h c = some h' ∧ h'.nodeSize = h.nodeSize ∧
      h'.lists = (h.modifyList n.threadList fun tl => { tl with
        tail := if tl.tail = some c then none else tl.tail
        head := if tl.head = some c then n.next else tl.head }).lists ∧
      ∀ q, h'.node q = if q = c then none else
        (h.node q).map fun o => if n.next = some q then { o with prev := none } else o := by
  obtain ⟨h₁, listed⟩ : ∃ h₁, h.modifyList n.threadList (fun tl => { tl with
      tail := if tl.tail = some c then none else tl.tail
      head := if tl.head = some c then n.next else tl.head }) = h₁ := ⟨_, rfl⟩
  have nodes₁ : h₁.node = h.node := by rw [← listed]; rfl
  obtain ⟨h₂, stored⟩ : ∃ h₂, h₁.modifyNodeIf n.next (fun m => { m with prev := none }) = some h₂ := by
    cases after : n.next with
    | none => exact ⟨h₁, rfl⟩
    | some x =>
      obtain ⟨m, atNext⟩ := behind x after
      exact ⟨_, Heap.modifyNode_eq (by rw [nodes₁, atNext]) _⟩
  obtain ⟨lists₂, size₂, nodes₂⟩ := Heap.modifyNodeIf_node stored
  refine ⟨h₂.nufreeAligned c, ?_, ?_, ?_, fun q => ?_⟩
  · have noStore (f : PumaNode α → PumaNode α) : h₁.modifyNodeIf none f = some h₁ := rfl
    simp only [freePumaNode, atNode, first, Option.bind_eq_bind, Option.bind_some, listed, noStore, stored]
    rfl
  · rw [Heap.nodeSize_nufreeAligned, size₂, ← listed]
    rfl
  · rw [Heap.lists_nufreeAligned, lists₂, listed]
  · rw [Heap.node_nufreeAligned, nodes₂, nodes₁]

section Loop

variable {l : ListPtr}

/-- The loop releases the nodes of the chain one after the other and leaves the list without ends; the
counters of the list stay. -/
theorem emptyThreadListLoop_spec {h : Heap α} {C : List NodePtr} (chain : Segment h.next h.prev none C none)
    (nodup : C.Nodup) (owned : ∀ p ∈ C, ∃ n, h.node p = some n ∧ n.threadList = l) (head : (h.lists l).head = C.head?)
    (tail : ∀ t, (h.lists l).tail = some t → t ∈ C) {turns : Nat} (enough : C.length < turns) :
    ∃ h', emptyThreadListLoop turns h C.head? = some (h', C) ∧ h'.nodeSize = h.nodeSize ∧
      h'.lists l = { h.lists l with head := none, tail := none } ∧ (∀ m, m ≠ l → h'.lists m = h.lists m) ∧
      ∀ p, h'.node p = if p ∈ C then none else h.node p := by
  induction C generalizing h turns with
  | nil =>
    refine ⟨h, by cases turns <;> rfl, rfl, ?_, fun _ _ => rfl, fun p => by simp⟩
    have noTail : (h.lists l).tail = none :=
      Option.eq_none_iff_forall_ne_some.mpr fun t atTail => List.not_mem_nil (tail t atTail)
    rw [List.head?_nil] at head
    cases record : h.lists l
    rw [record] at head noTail
    cases head
    cases noTail
    rfl
  | cons c C ih =>
    obtain ⟨turns, rfl⟩ := Nat.exists_eq_succ_of_ne_zero (by omega : turns ≠ 0)
    rw [List.nodup_cons] at nodup
    rw [List.length_cons] at enough
    obtain ⟨n, atNode, owner⟩ := owned c (List.mem_cons_self ..)
    have first : n.prev = none := by rw [← Heap.prev_eq atNode, chain.1]
    have after : n.next = C.head? := by rw [← Heap.next_eq atNode, chain.2.1, Option.or_none]
    obtain ⟨h₁, freed, size₁, lists₁, nodes₁⟩ := freePumaNode_head atNode first fun x next => by
      obtain ⟨m, atNext, _⟩ := owned x (List.mem_cons_of_mem _ (List.mem_of_mem_head? (after ▸ next)))
      exact ⟨m, atNext⟩
    rw [owner] at lists₁
    have record : h₁.lists l = { h.lists l with
        tail := if (h.lists l).tail = some c then none else (h.lists l).tail
        head := C.head? } := by
      rw [lists₁, Heap.lists_modifyList_self, if_pos (show _ = some c from head), after]
    have other {q : NodePtr} (member : q ∈ C) : q ≠ c := fun same => nodup.1 (same ▸ member)
    have kept {q : NodePtr} (member : q ∈ C) :
        h₁.node q = (h.node q).map fun o => if C.head? = some q then { o with prev := none } else o := by
      rw [nodes₁, if_neg (other member), after]
    have sameNext {q : NodePtr} (member : q ∈ C) : h₁.next q = h.next q := by
      rw [Heap.next, Heap.next, Heap.links, Heap.links, kept member]
      cases h.node q with
      | none => rfl
      | some o => dsimp only [Option.map_some, Option.bind_some]; split <;> rfl
    have chain₁ : Segment h₁.next h₁.prev none C none := by
      refine chain.2.2.relink (fun q member _ => sameNext member) (fun q member inner => ?_) (fun q atHead => ?_)
        (fun q atLast => ?_) nodup.2
      · rw [Heap.prev, Heap.prev, Heap.links, Heap.links, kept member]
        simp only [if_neg inner, Option.map_id']
      · have member := List.mem_of_mem_head? atHead
        obtain ⟨m, atFirst, _⟩ := owned q (List.mem_cons_of_mem _ member)
        rw [Heap.prev, Heap.links, kept member, atFirst, atHead]
        simp
      · rw [sameNext (List.mem_of_getLast? atLast)]
        exact chain.2.2.next_last atLast
    have owned₁ (q : NodePtr) (member : q ∈ C) : ∃ m, h₁.node q = some m ∧ m.threadList = l := by
      obtain ⟨m, atQ, own⟩ := owned q (List.mem_cons_of_mem _ member)
      refine ⟨_, by rw [kept member, atQ]; rfl, ?_⟩
      dsimp only
      split <;> exact own
    have tail₁ (t : NodePtr) (atTail : (h₁.lists l).tail = some t) : t ∈ C := by
      rw [record] at atTail
      dsimp only at atTail
      split at atTail
      · cases atTail
      · rename_i notFirst
        rcases List.mem_cons.mp (tail t atTail) with rfl | inside
        · exact (notFirst atTail).elim
        · exact inside
    obtain ⟨h', run, size', list', others', nodes'⟩ :=
      ih chain₁ nodup.2 owned₁ (by rw [record]) tail₁ (Nat.lt_of_succ_lt_succ enough)
    refine ⟨h', ?_, size'.trans size₁, ?_, fun m apart => ?_, fun p => ?_⟩
    · simp only [List.head?_cons, emptyThreadListLoop, atNode, freed, after, run, Option.bind_eq_bind,
        Option.bind_some, Option.pure_def]
    · rw [list', record]
    · rw [others' m apart, lists₁, Heap.lists_modifyList_ne _ _ apart]
    · rw [nodes', nodes₁, after]
      by_cases here : p = c
      · simp [here]
      · by_cases inside : p ∈ C
        · simp [inside]
        · have notFirst : C.head? ≠ some p := fun atHead => inside (List.mem_of_mem_head? atHead)
          simp [here, inside, notFirst]

end Loop

section Alike

variable [Inhabited α]

/-- Calls of `_pumallocOnThreadList` one after the other, with the elements that they return; `blocks` are what
`posix_memalign` would return. -/
def pumallocs (threadList : ListPtr) : List NodePtr → Heap α → Option (Heap α × List ElemPtr)
  | [], h => some (h, [])
  | block :: blocks, h => do
    let (h, element) ← pumallocOnThreadList h threadList block
    let (h, elements) ← pumallocs threadList blocks h
    pure (h, element :: elements)

/-- To allocations that may use the blocks of `U`, list `l` is the same in both memories: its record, and its last
node, which is active, with its elements in front. -/
structure Alike (U : Set NodePtr) (h g : Heap α) (l : ListPtr) : Prop where
  nodeSize : g.nodeSize = h.nodeSize
  elementSize : (g.lists l).elementSize = (h.lists l).elementSize
  head : (g.lists l).head = (h.lists l).head
  tail : (g.lists l).tail = (h.lists l).tail
  numNodes : (g.lists l).numNodes = (h.lists l).numNodes
  numElements : (g.lists l).numElements = (h.lists l).numElements
  last : ∀ t, (h.lists l).tail = some t → ∃ n, h.node t = some n ∧ g.node t = some n ∧ n.threadList = l ∧
    n.active = true ∧ n.next = none ∧ n.firstKnownFree = n.numElements
  blocks : ∀ b ∈ U, b ∈ g.blocks ↔ b ∈ h.blocks

variable {U : Set NodePtr} {h g : Heap α} {l : ListPtr} {block : NodePtr}

/-- A new block behind the last nodes. -/
theorem Alike.appendNewBlock (alike : Alike U h g l) (usable : block ∈ U) (nextIndex : Nat) :
    Option.Rel (fun h₁ g₁ => Alike U h₁ g₁ l ∧ (h₁.lists l).tail = some block ∧
        h₁.node block = some (newPumaNode h l (h.lists l).elementSize (h.lists l).tail nextIndex))
      (appendNewBlock h l (h.lists l).elementSize (h.lists l).tail nextIndex block)
      (appendNewBlock g l (g.lists l).elementSize (g.lists l).tail nextIndex block) := by
  have linked (t : NodePtr) (atTail : (h.lists l).tail = some t) : ∃ n, h.node t = some n := by
    obtain ⟨n, atNode, _⟩ := alike.last t atTail
    exact ⟨n, atNode⟩
  have linked' (t : NodePtr) (atTail : (h.lists l).tail = some t) : ∃ n, g.node t = some n := by
    obtain ⟨n, _, atNode, _⟩ := alike.last t atTail
    exact ⟨n, atNode⟩
  rw [alike.tail, alike.elementSize]
  by_cases guard : block ∈ h.blocks ∨ h.nodeSize - sizeofPumaNode < (h.lists l).elementSize
  · have guard' : block ∈ g.blocks ∨ g.nodeSize - sizeofPumaNode < (h.lists l).elementSize := by
      rw [alike.blocks block usable, alike.nodeSize]
      exact guard
    rw [Puma.appendNewBlock, Puma.appendNewBlock, if_pos guard, if_pos guard']
    exact .none
  · rw [not_or, not_lt] at guard
    have fresh : block ∉ g.blocks := fun inUse => guard.1 ((alike.blocks block usable).mp inUse)
    obtain ⟨h₁, run⟩ : ∃ h₁, Puma.appendNewBlock h l (h.lists l).elementSize (h.lists l).tail nextIndex block = some h₁ :=
      Option.isSome_iff_exists.mp (appendNewBlock_isSome linked guard.1 guard.2)
    obtain ⟨g₁, run'⟩ : ∃ g₁, Puma.appendNewBlock g l (h.lists l).elementSize (h.lists l).tail nextIndex block = some g₁ :=
      Option.isSome_iff_exists.mp (appendNewBlock_isSome linked' fresh (alike.nodeSize.symm ▸ guard.2))
    have added := appendNewBlock_run linked run
    have added' := appendNewBlock_run linked' run'
    rw [run, run']
    have built : newPumaNode g l (h.lists l).elementSize (h.lists l).tail nextIndex =
        newPumaNode h l (h.lists l).elementSize (h.lists l).tail nextIndex := by
      rw [newPumaNode, newPumaNode, alike.nodeSize]
    have atBlock : h₁.node block = some (newPumaNode h l (h.lists l).elementSize (h.lists l).tail nextIndex) := by
      rw [added.nodes, if_pos rfl]
    refine .some ⟨?_, by rw [added.list], atBlock⟩
    exact {
      nodeSize := by rw [added.nodeSize, added'.nodeSize, alike.nodeSize]
      elementSize := by rw [added.list, added'.list, alike.elementSize]
      head := by rw [added.list, added'.list, alike.head]
      tail := by rw [added.list, added'.list]
      numNodes := by rw [added.list, added'.list, alike.numNodes]
      numElements := by rw [added.list, added'.list, alike.numElements]
      last := fun t atTail => by
        rw [added.list] at atTail
        cases atTail
        exact ⟨_, atBlock, by rw [added'.nodes, if_pos rfl, built], rfl, rfl, rfl, rfl⟩
      blocks := fun b inU => by
        rw [added.mem_blocks, added'.mem_blocks, alike.blocks b inU] }

/-- Behind an active tail, or in a list without nodes, `_appendPumaNode` builds a node. -/
theorem appendPumaNode_last (last : ∀ t, (h.lists l).tail = some t → ∃ n, h.node t = some n ∧ n.active = true ∧ n.next = none)
    (elementSize : Nat) (block : NodePtr) :
    ∃ nextIndex, (∀ t n, (h.lists l).tail = some t → h.node t = some n → nextIndex = n.index + 1) ∧
      ((h.lists l).tail = none → nextIndex = 0) ∧
      appendPumaNode h l elementSize block =
        (appendNewBlock h l elementSize (h.lists l).tail nextIndex block).bind fun h₁ => (h₁.node block).bind fun r =>
          some (h₁.modifyList l fun tl => { tl with numNodes := r.index + 1 }, block) := by
  cases atTail : (h.lists l).tail with
  | none =>
    refine ⟨0, fun t n now => (by cases now), fun _ => rfl, ?_⟩
    simp only [appendPumaNode, atTail, Option.bind_eq_bind, Option.pure_def, Option.bind_some]
  | some t =>
    obtain ⟨n, atNode, active, behind⟩ := last t atTail
    refine ⟨n.index + 1, fun t' n' now atNode' => ?_, fun now => (by cases now), ?_⟩
    · cases now
      rw [Option.some.inj (atNode.symm.trans atNode')]
    · simp only [appendPumaNode, atTail, atNode, active, behind, Option.bind_eq_bind, Option.pure_def,
        Option.bind_some, Bool.true_eq_false, if_false]

/-- The tail node that is to hold the next element is in the same place. -/
def SameTail (U : Set NodePtr) (l : ListPtr) (r s : Heap α × NodePtr) : Prop :=
  Alike U r.1 s.1 l ∧ (r.1.lists l).tail = some r.2 ∧ s.2 = r.2

theorem Alike.appendPumaNode (alike : Alike U h g l) (usable : block ∈ U) :
    Option.Rel (SameTail U l) (appendPumaNode h l (h.lists l).elementSize block)
      (appendPumaNode g l (g.lists l).elementSize block) := by
  obtain ⟨k, behind, first, run⟩ := appendPumaNode_last (fun t atTail => by
    obtain ⟨n, atNode, _, _, active, behind, _⟩ := alike.last t atTail
    exact ⟨n, atNode, active, behind⟩) (h.lists l).elementSize block
  obtain ⟨k', behind', first', run'⟩ := appendPumaNode_last (fun t atTail => by
    obtain ⟨n, _, atNode, _, active, behind, _⟩ := alike.last t (alike.tail ▸ atTail)
    exact ⟨n, atNode, active, behind⟩) (g.lists l).elementSize block
  have same : k' = k := by
    cases atTail : (h.lists l).tail with
    | none => rw [first atTail, first' (alike.tail.trans atTail)]
    | some t =>
      obtain ⟨n, atNode, atNode', _⟩ := alike.last t atTail
      rw [behind t n atTail atNode, behind' t n (alike.tail.trans atTail) atNode']
  rw [run, run', same]
  refine rel_bind (alike.appendNewBlock usable k) fun h₁ g₁ added => ?_
  obtain ⟨alike₁, atTail, _⟩ := added
  obtain ⟨n, atNode, atNode', _⟩ := alike₁.last block atTail
  simp only [Option.bind_some, atNode, atNode']
  refine .some ⟨?_, by simp [atTail], rfl⟩
  exact {
    nodeSize := alike₁.nodeSize
    elementSize := by simp [alike₁.elementSize]
    head := by simp [alike₁.head]
    tail := by simp [alike₁.tail]
    numNodes := by simp
    numElements := by simp [alike₁.numElements]
    last := fun t now => alike₁.last t (by simpa using now)
    blocks := alike₁.blocks }

theorem Alike.tailWithRoom (alike : Alike U h g l) (usable : block ∈ U) :
    Option.Rel (SameTail U l) (tailWithRoom h l block) (tailWithRoom g l block) := by
  cases atTail : (h.lists l).tail with
  | none =>
    simp only [Puma.tailWithRoom, atTail, alike.tail]
    exact alike.appendPumaNode usable
  | some t =>
    obtain ⟨n, atNode, atNode', _⟩ := alike.last t atTail
    simp only [Puma.tailWithRoom, atTail, alike.tail, atNode, atNode', Option.bind_eq_bind, Option.bind_some]
    split
    · exact alike.appendPumaNode usable
    · exact .some ⟨alike, atTail, rfl⟩

omit [Inhabited α] in
/-- With its elements in front, a node gets the next one behind them. -/
theorem nextFreeIndex_behind {t : NodePtr} {n : PumaNode α} (atNode : h.node t = some n)
    (cursor : n.firstKnownFree = n.numElements) : nextFreeIndex h l t = some (h.setNode t { n with
      dirty := if n.capacity ≤ n.numElements then false else n.dirty
      firstKnownFree := n.numElements + 1 }, n.numElements) := by
  by_cases full : n.capacity ≤ n.numElements
  · have stays : ¬ n.numElements < n.capacity := not_lt.mpr full
    simp [nextFreeIndex, atNode, cursor, full, cleanupNode, cleanupNodeLoop, cleanupTurn, stays, Heap.modifyNode]
  · simp [nextFreeIndex, atNode, cursor, full]

/-- The slots of such a node with one more element. -/
def Slots.append (s : Slots α) : Slots α :=
  Slots.alloc { s with
    dirty := if s.capacity ≤ s.numElements then false else s.dirty
    firstKnownFree := s.numElements + 1 } s.numElements

theorem pumallocOnThreadList_behind {h₁ : Heap α} {t : NodePtr} {n : PumaNode α}
    (room : tailWithRoom h l block = some (h₁, t)) (atTail : (h₁.lists l).tail = some t) (atNode : h₁.node t = some n)
    (owner : n.threadList = l) (active : n.active = true) (cursor : n.firstKnownFree = n.numElements) :
    pumallocOnThreadList h l block = some ((h₁.setNode t { n with toSlots := n.toSlots.append }).modifyList l
      (fun tl => { tl with numElements := tl.numElements + 1 }), getElement t n.numElements) := by
  let reserved : PumaNode α := { n with
    dirty := if n.capacity ≤ n.numElements then false else n.dirty
    firstKnownFree := n.numElements + 1 }
  have slot : reserveSlot h l block = some (h₁.setNode t reserved, t, n.numElements) := by
    have chosen : nextFreeIndex h₁ l t = some (h₁.setNode t reserved, n.numElements) :=
      nextFreeIndex_behind atNode cursor
    have on : reserved.active = true := active
    have kept : (h₁.setNode t reserved).modifyList l (fun tl => { tl with
        numNodes := tl.numNodes + if reserved.active then 0 else 1
        tail := some t }) = h₁.setNode t reserved := by
      refine Heap.modifyList_eq_self ?_
      rw [Heap.lists_setNode, on]
      simp [← atTail]
    simp only [reserveSlot, room, chosen, Heap.node_setNode_self, Option.bind_eq_bind, Option.bind_some, Option.pure_def,
      kept]
    rw [Heap.setNode_eq_self]
    rw [Heap.node_setNode_self, ← on]
  simp only [pumallocOnThreadList, slot, Option.bind_eq_bind, Option.bind_some]
  rw [allocElementOnNode_eq (Heap.node_setNode_self ..), Heap.setNode_setNode]
  simp only [Option.bind_some, Option.pure_def, reserved, owner]
  rfl

/-- An allocation on lists that look alike returns the same element, and they still do. -/
theorem Alike.pumallocOnThreadList (alike : Alike U h g l) (usable : block ∈ U) :
    Option.Rel (fun r s => Alike U r.1 s.1 l ∧ s.2 = r.2) (pumallocOnThreadList h l block)
      (pumallocOnThreadList g l block) := by
  rcases rel_cases (alike.tailWithRoom usable) with ⟨found, found'⟩ | ⟨⟨h₁, t₀⟩, ⟨g₁, t⟩, found, found', same⟩
  · simp only [Puma.pumallocOnThreadList, reserveSlot, found, found', Option.bind_eq_bind, Option.bind_none]
    exact .none
  · obtain ⟨alike₁, atTail, place⟩ := same
    dsimp only at alike₁ atTail place
    subst place
    obtain ⟨n, atNode, atNode', owner, active, behind, cursor⟩ := alike₁.last t atTail
    rw [pumallocOnThreadList_behind found atTail atNode owner active cursor,
      pumallocOnThreadList_behind found' (alike₁.tail.trans atTail) atNode' owner active cursor]
    refine .some ⟨?_, rfl⟩
    exact {
      nodeSize := alike₁.nodeSize
      elementSize := by simp [alike₁.elementSize]
      head := by simp [alike₁.head]
      tail := by simp [alike₁.tail]
      numNodes := by simp [alike₁.numNodes]
      numElements := by simp [alike₁.numElements]
      last := fun t' now => by
        rw [Heap.lists_modifyList_self, Heap.lists_setNode, atTail] at now
        cases now
        exact ⟨_, Heap.node_setNode_self .., Heap.node_setNode_self .., owner, active, behind, rfl⟩
      blocks := fun b inU => by
        rw [Heap.blocks_modifyList, Heap.blocks_modifyList, Heap.blocks_setNode atNode, Heap.blocks_setNode atNode',
          alike₁.blocks b inU] }

theorem Alike.pumallocs {blocks : List NodePtr} (alike : Alike U h g l) (usable : ∀ b ∈ blocks, b ∈ U) :
    Option.Rel (fun r s => Alike U r.1 s.1 l ∧ s.2 = r.2) (pumallocs l blocks h) (pumallocs l blocks g) := by
  induction blocks generalizing h g with
  | nil => exact .some ⟨alike, rfl⟩
  | cons block blocks ih =>
    simp only [Puma.pumallocs, Option.bind_eq_bind, Option.pure_def]
    refine rel_bind (alike.pumallocOnThreadList (usable block (List.mem_cons_self ..))) fun r s first => ?_
    obtain ⟨alike₁, same⟩ := first
    refine rel_bind (ih alike₁ fun b member => usable b (List.mem_cons_of_mem _ member)) fun r s rest => ?_
    exact .some ⟨rest.1, by rw [same, rest.2]⟩

end Alike

section Emptied

variable [Inhabited α] {h : Heap α} {l : ListPtr} {A S : List NodePtr}

/-- The ends and the counters of a list. -/
def PumaThreadList.ends (tl : PumaThreadList) : Option NodePtr × Option NodePtr × Nat × Nat :=
  (tl.head, tl.tail, tl.numNodes, tl.numElements)

/-- The nodes `freed` are those of the chain `C`, each of them once; the list is empty and from then on the
allocations on it, in any blocks not in use, are those on a new list. -/
structure Emptied (h h' : Heap α) (l : ListPtr) (C freed : List NodePtr) : Prop where
  once : ∀ p, freed.count p = if p ∈ C then 1 else 0
  nodes : ∀ p, h'.node p = if p ∈ C then none else h.node p
  ends : (h'.lists l).ends = (none, none, 0, 0)
  allocations : ∀ blocks, (∀ b ∈ blocks, b ∉ h'.blocks) →
    (pumallocs l blocks h').map (fun r => (r.2, (r.1.lists l).ends)) =
      (pumallocs l blocks (newThreadList l (h.lists l).elementSize h.nodeSize : Heap α)).map fun r => (r.2, (r.1.lists l).ends)

omit [Inhabited α] in
/-- The nodes of a list are in use. -/
theorem Chained.length_le (list : Chained h l A S) : (A ++ S).length ≤ h.blocks.card := by
  rw [← List.toFinset_card_of_nodup list.nodup]
  refine Finset.card_le_card fun p member => ?_
  obtain ⟨n, atNode, _⟩ := list.owned p (List.mem_toFinset.mp member)
  exact Heap.mem_blocks.mpr ⟨n, atNode⟩

omit [Inhabited α] in
/-- `_emptyThreadList` releases the nodes of the list, in their order, and clears its ends, not its counters. -/
theorem emptyThreadList_spec (list : Chained h l A S) : ∃ h', emptyThreadList h l = some (h', A ++ S) ∧
    h'.nodeSize = h.nodeSize ∧ h'.lists l = { h.lists l with head := none, tail := none } ∧
    ∀ p, h'.node p = if p ∈ A ++ S then none else h.node p := by
  have inside (t : NodePtr) (atTail : (h.lists l).tail = some t) : t ∈ A ++ S := by
    rw [list.tail] at atTail
    rcases Option.or_eq_some_iff.mp atTail with last | ⟨_, spare⟩
    · exact List.mem_append_left S (List.mem_of_getLast? last)
    · exact List.mem_append_right A (List.mem_of_mem_head? spare)
  obtain ⟨h', run, size, record, _, nodes⟩ := emptyThreadListLoop_spec list.chain list.nodup
    (fun p member => list.node member) list.head inside (Nat.lt_succ_of_le list.length_le)
  refine ⟨h', ?_, size, record, nodes⟩
  rw [emptyThreadList, list.head]
  exact run

/-- For a list with counters that match its chain: `_emptyThreadList` releases each of its nodes once and leaves it
as an empty list just when none of its nodes is active and none counts an element. -/
theorem emptyThreadList_empties_iff (list : Chained h l A S)
    (numElements : (h.lists l).numElements = h.count (A ++ S)) :
    (∃ h' freed, emptyThreadList h l = some (h', freed) ∧ Emptied h h' l (A ++ S) freed) ↔
      A = [] ∧ h.count S = 0 := by
  obtain ⟨h', run, size, record, nodes⟩ := emptyThreadList_spec list
  constructor
  · rintro ⟨h₁, freed, run₁, emptied⟩
    rw [run] at run₁
    cases run₁
    have ends := emptied.ends
    simp only [PumaThreadList.ends, record, Prod.mk.injEq, true_and] at ends
    obtain ⟨noNodes, noElements⟩ := ends
    have inactive : A = [] := by
      rw [list.numNodes] at noNodes
      exact List.length_eq_zero_iff.mp noNodes
    refine ⟨inactive, ?_⟩
    rw [numElements, inactive, List.nil_append] at noElements
    exact noElements
  · rintro ⟨rfl, nothing⟩
    have noNodes : (h.lists l).numNodes = 0 := list.numNodes
    have noElements : (h.lists l).numElements = 0 := by rw [numElements, List.nil_append, nothing]
    refine ⟨h', _, run, fun p => list.nodup.count, nodes, ?_, fun blocks unused => ?_⟩
    · simp only [PumaThreadList.ends, record, noNodes, noElements]
    · have alike : Alike { b | b ∈ blocks } h' (newThreadList l (h.lists l).elementSize h.nodeSize) l := {
        nodeSize := size.symm
        elementSize := by rw [record, newThreadList_record]; rfl
        head := by rw [record, newThreadList_record]; rfl
        tail := by rw [record, newThreadList_record]; rfl
        numNodes := by rw [record, newThreadList_record]; exact noNodes.symm
        numElements := by rw [record, newThreadList_record]; exact noElements.symm
        last := fun t atTail => by
          rw [record] at atTail
          cases atTail
        blocks := fun b member => iff_of_false (Finset.notMem_empty b) (unused b member) }
      rcases rel_cases (alike.pumallocs fun b member => member) with ⟨left, right⟩ | ⟨r, s, left, right, after, same⟩
      · rw [left, right]
      · rw [left, right]
        simp only [Option.map_some, same, PumaThreadList.ends, after.head, after.tail, after.numNodes,
          after.numElements]

end Emptied

/-- A list with an element behind a hole is not left empty. -/
theorem emptyThreadList_hole : ∃ (h : Heap Unit) (A S : List NodePtr), 0 ∈ A ∧
    ((∃ h' freed, emptyThreadList h 0 = some (h', freed) ∧ Emptied h h' 0 (A ++ S) freed) ↔ A = [] ∧ h.count S = 0) := by
  obtain ⟨h, A, S, list, member, _⟩ := wellFormed_hole
  exact ⟨h, A, S, member, emptyThreadList_empties_iff list.indexed.toChained list.numElements⟩

/-- After one allocation the list is emptied with both counters at one, and the next allocation counts a second
element. -/
theorem emptyThreadList_keeps_counters : ∃ (h h' : Heap Unit) (r : Heap Unit × ElemPtr),
    pumallocOnThreadList (newThreadList 0 4000 8192) 0 0 = some (h, ⟨0, 0⟩) ∧
    Chained h 0 [0] [] ∧ (h.lists 0).numElements = h.count [0] ∧ emptyThreadList h 0 = some (h', [0]) ∧
    (h'.lists 0).ends = (none, none, 1, 1) ∧ (¬ ∃ h' freed, emptyThreadList h 0 = some (h', freed) ∧ Emptied h h' 0 [0] freed) ∧
    pumallocOnThreadList h' 0 9 = some r ∧ (r.1.lists 0).ends = (some 9, some 9, 1, 2) := by
  refine ⟨_, _, _, rfl, ⟨⟨rfl, rfl, trivial⟩, by decide, fun p member => ?_, rfl, rfl, rfl⟩, rfl, rfl, rfl, ?_, rfl, rfl⟩
  · cases List.mem_singleton.mp member
    exact ⟨_, rfl, rfl, by decide⟩
  · rintro ⟨h₁, freed, run, emptied⟩
    cases run
    exact absurd emptied.ends (by decide)

end Puma
