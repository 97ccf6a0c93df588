import Puma.Cleanup

namespace Puma

open DoublyLinked

variable {α : Type}

/-- The first node of a list has index 0, also when it is inactive. -/
def HeadIndex (h : Heap α) (l : ListPtr) : Prop :=
  ∀ p k, (h.lists l).head = some p → h.links p = some k → k.index = 0

theorem Evolves.headIndex {h h' : Heap α} {l : ListPtr} (evolves : Evolves h h' l) (first : HeadIndex h l) :
    HeadIndex h' l := by
  intro p k' atHead atLinks
  obtain ⟨k, atLinks', _, index⟩ := evolves.links p k' atLinks
  rw [index]
  exact first p k (evolves.head ▸ atHead) atLinks'

/-- A list with active nodes has them numbered from its head on. -/
theorem Shape.headIndex {h : Heap α} {l : ListPtr} {A S : List NodePtr} {p : NodePtr} (shape : Shape h l (p :: A) S) :
    HeadIndex h l := by
  intro q k atHead atLinks
  rw [shape.head] at atHead
  exact shape.index 0 q k (by simpa using atHead) atLinks

/-- An operation that keeps the elements of list `l` and leaves the active nodes
`A'` and the spare nodes `S'`. -/
structure Keeps (h h' : Heap α) (l : ListPtr) (A A' S' : List NodePtr) : Prop where
  shape : Shape h' l A' S'
  elems : h'.elems A' = h.elems A
  numElements : (h'.lists l).numElements = (h.lists l).numElements
  loc : Local h h' l
  headIndex : HeadIndex h l → HeadIndex h' l

theorem Keeps.trans {h h' h'' : Heap α} {l : ListPtr} {A A' S' A'' S'' : List NodePtr} (first : Keeps h h' l A A' S')
    (second : Keeps h' h'' l A' A'' S'') : Keeps h h'' l A A'' S'' where
  shape := second.shape
  elems := second.elems.trans first.elems
  numElements := second.numElements.trans first.numElements
  loc := first.loc.trans second.loc
  headIndex zero := second.headIndex (first.headIndex zero)

theorem Keeps.refl {h : Heap α} {l : ListPtr} {A S : List NodePtr} (shape : Shape h l A S) : Keeps h h l A A S :=
  ⟨shape, rfl, rfl, Local.refl h l, id⟩

theorem Compaction.keeps {h h' : Heap α} {l : ListPtr} {A S A' S' : List NodePtr}
    (compaction : Compaction h h' l A S A' S') (shape : Shape h l A S) : Keeps h h' l A A' S' where
  shape := compaction.shape
  elems := compaction.elems
  numElements := compaction.numElements
  loc := compaction.frame.local shape compaction.evolves
  headIndex := compaction.evolves.headIndex

/-- Behind the positions of `A` there is only the one of the new last node. -/
theorem getElem?_concat_cases {A : List NodePtr} {p q : NodePtr} {i : Nat} (atIndex : (A ++ [p])[i]? = some q) :
    A[i]? = some q ∨ i = A.length ∧ q = p := by
  rcases lt_or_ge i A.length with inside | past
  · rw [List.getElem?_append_left inside] at atIndex
    exact Or.inl atIndex
  · have bound := (List.getElem?_eq_some_iff.mp atIndex).1
    rw [List.length_append, List.length_singleton] at bound
    rw [List.getElem?_append_right past] at atIndex
    exact Or.inr ⟨by omega, List.mem_singleton.mp (List.mem_of_getElem? atIndex)⟩

/-- The memory after `_appendPumaNode` has made the first spare node the tail. -/
def activateSpare (h : Heap α) (l : ListPtr) (spare : NodePtr) (s : PumaNode α) (nextIndex : Nat) : Heap α :=
  (h.modifyList l fun tl => { tl with tail := some spare, numNodes := nextIndex + 1 }).setNode spare
    { s with active := true, index := nextIndex }

theorem activateSpare_shape {h : Heap α} {l : ListPtr} {A S : List NodePtr} {p : NodePtr} {s : PumaNode α}
    (shape : Shape h l A (p :: S)) (atNode : h.node p = some s) :
    Shape (activateSpare h l p s A.length) l (A ++ [p]) S := by
  have rejoin : (A ++ [p]) ++ S = A ++ p :: S := by simp
  have outside : p ∉ A := shape.notMem_active (List.mem_cons_self ..)
  have links : ∀ q, (activateSpare h l p s A.length).links q =
      if q = p then some { s.toLinks with active := true, index := A.length } else h.links q :=
    fun q => Heap.links_setNode _ p q _
  refine shape.relabel rejoin (fun q => ?_) (fun q k atLinks own => ?_) (fun i q k atIndex atLinks => ?_) ?_ ?_ ?_
  · rw [links]
    split
    · rename_i same
      rw [same, Heap.links_eq atNode]
      rfl
    · rfl
  · rw [links] at atLinks
    split at atLinks
    · rename_i same
      rw [← Option.some.inj atLinks]
      simp [same]
    · rename_i distinct
      rw [shape.active q k atLinks own]
      simp [distinct]
  · rw [links] at atLinks
    split at atLinks
    · rename_i same
      rw [← Option.some.inj atLinks]
      rcases getElem?_concat_cases atIndex with before | ⟨last, _⟩
      · exact (outside (same ▸ List.mem_of_getElem? before)).elim
      · exact last.symm
    · rename_i distinct
      rcases getElem?_concat_cases atIndex with before | ⟨_, last⟩
      · exact shape.index i q k before atLinks
      · exact (distinct last).elim
  · simp [activateSpare]
  · simp [activateSpare]
  · simp [activateSpare]

theorem activateSpare_slots {h : Heap α} {l : ListPtr} {p : NodePtr} {s : PumaNode α} (atNode : h.node p = some s)
    (nextIndex : Nat) : (activateSpare h l p s nextIndex).slots = h.slots :=
  Heap.slots_setNode_same (h := h) atNode rfl

theorem activateSpare_okExcept {h : Heap α} {l : ListPtr} {p : NodePtr} {s : PumaNode α} {p₀ : Option NodePtr}
    (atNode : h.node p = some s) (ok : h.OkExcept p₀) (nextIndex : Nat) :
    (activateSpare h l p s nextIndex).OkExcept p₀ := by
  intro q n atNode'
  rw [activateSpare, Heap.node_setNode] at atNode'
  split at atNode'
  · rename_i same
    obtain ⟨counted, fine, _⟩ := ok p s atNode
    rw [← Option.some.inj atNode']
    exact ⟨counted, fun other => fine (same ▸ other), fun inactive => by cases inactive⟩
  · exact ok q n atNode'

/-- Activating the spare node keeps the elements, as it holds none. -/
theorem activateSpare_keeps {h : Heap α} {l : ListPtr} {A S : List NodePtr} {p : NodePtr} {s : PumaNode α}
    (shape : Shape h l A (p :: S)) (atNode : h.node p = some s) {p₀ : Option NodePtr} (ok : h.OkExcept p₀) :
    Keeps h (activateSpare h l p s A.length) l A (A ++ [p]) S := by
  have shape' := activateSpare_shape shape atNode
  have slots := activateSpare_slots (l := l) atNode A.length
  have inactive : s.active = false := by
    rw [← Bool.not_eq_true, shape.active_iff atNode (by simp)]
    exact shape.notMem_active (List.mem_cons_self ..)
  have nothing : (activateSpare h l p s A.length).contents p = 0 := by
    rw [Heap.contents, slots]
    exact ok.contents_eq_zero atNode inactive
  obtain ⟨n, atNode', owner⟩ := shape.node (p := p) (by simp)
  rw [← Option.some.inj (atNode.symm.trans atNode')] at owner
  refine ⟨shape', ?_, by simp [activateSpare], ?_, fun _ => ?_⟩
  · rw [Heap.elems_append, Heap.elems_singleton, nothing, add_zero]
    exact Heap.elems_congr fun q _ => by rw [slots]
  · refine (Local.modifyList h l rfl rfl).trans (Local.setNode (fun k atOld => ?_) owner)
    rw [← Option.some.inj (Eq.trans (Eq.symm atNode) atOld)]
    exact owner
  · cases A with
    | nil => exact shape'.headIndex
    | cons a A => exact shape'.headIndex

variable [Inhabited α]

theorem newPumaNode_liveSlots (h : Heap α) (l : ListPtr) (elementSize nextIndex : Nat) (tail : Option NodePtr) :
    (newPumaNode h l elementSize tail nextIndex).toSlots.liveSlots = ∅ := by
  refine Finset.eq_empty_of_forall_notMem fun i live => ?_
  obtain ⟨within, held⟩ := Slots.mem_liveSlots.mp live
  exact maskFree_ne_maskNotFree ((createPumaBitmaskForElemArray_get within).symm.trans held)

theorem newPumaNode_ok {h : Heap α} {elementSize : Nat} (capacity : 0 < h.capacityFor elementSize) (l : ListPtr)
    (nextIndex : Nat) (tail : Option NodePtr) : (newPumaNode h l elementSize tail nextIndex).toSlots.Ok where
  capacity_pos := capacity
  sized := createPumaBitmaskForElemArray_sized ..
  bits := rfl
  count := by rw [newPumaNode_liveSlots]; rfl
  cursor i live := by rw [newPumaNode_liveSlots] at live; cases live
  clean _ := ⟨newPumaNode_liveSlots .., rfl⟩

/-- The memory after `_appendPumaNode` has linked a new block behind the tail. -/
structure Appended (h h' : Heap α) (l : ListPtr) (elementSize nextIndex : Nat) (tail : Option NodePtr)
    (block : NodePtr) : Prop where
  fresh : h.node block = none
  nodes : ∀ q, h'.node q = if q = block then some (newPumaNode h l elementSize tail nextIndex)
    else if tail = some q then (h.node q).map fun t => { t with next := some block } else h.node q
  list : h'.lists l = { h.lists l with
    tail := some block, head := if (h.lists l).head = none then some block else (h.lists l).head }
  lists : ∀ m, m ≠ l → h'.lists m = h.lists m
  nodeSize : h'.nodeSize = h.nodeSize

theorem appendNewBlock_run {h h' : Heap α} {l : ListPtr} {elementSize nextIndex : Nat} {tail : Option NodePtr}
    {block : NodePtr} (linked : ∀ t, tail = some t → ∃ n, h.node t = some n)
    (run : appendNewBlock h l elementSize tail nextIndex block = some h') :
    Appended h h' l elementSize nextIndex tail block := by
  unfold appendNewBlock at run
  split at run
  · cases run
  · rename_i guard
    have fresh : h.node block = none := by
      cases atBlock : h.node block with
      | none => rfl
      | some n => exact (guard (Or.inl (Heap.mem_blocks.mpr ⟨n, atBlock⟩))).elim
    cases tail with
    | none =>
      cases run
      refine ⟨fresh, fun q => ?_, by simp, fun m other => ?_, rfl⟩
      · rw [Heap.node_modifyList, Heap.node_modifyList, Heap.node_setNode]
        simp
      · simp [other]
    | some t =>
      obtain ⟨n, atTail⟩ := linked t rfl
      have apart : t ≠ block := fun same => by
        rw [same, fresh] at atTail
        cases atTail
      simp only [Option.bind_eq_bind, Heap.modifyNodeIf, Heap.modifyNode, Heap.node_modifyList,
        Heap.node_setNode_ne _ _ apart, atTail,
        Option.map_some, Option.bind_some] at run
      cases run
      refine ⟨fresh, fun q => ?_, by simp, fun m other => ?_, rfl⟩
      · rw [Heap.node_modifyList, Heap.node_setNode, Heap.node_modifyList, Heap.node_setNode]
        by_cases here : q = t
        · subst here
          simp [apart, atTail]
        · simp [here, Ne.symm here]
      · simp [other]

section Appended

variable {h h' : Heap α} {l : ListPtr} {elementSize nextIndex : Nat} {tail : Option NodePtr} {block : NodePtr}

theorem Appended.mem_blocks (appended : Appended h h' l elementSize nextIndex tail block) {q : NodePtr} :
    q ∈ h'.blocks ↔ q = block ∨ q ∈ h.blocks := by
  rw [Heap.mem_blocks, Heap.mem_blocks, appended.nodes]
  by_cases new : q = block
  · simp [new]
  · by_cases last : tail = some q
    · simp [new, last]
    · simp [new, last]

/-- Every node but the new one is an old one with the same slots. -/
theorem Appended.node_old (appended : Appended h h' l elementSize nextIndex tail block) {q : NodePtr}
    (other : q ≠ block) {n' : PumaNode α} (atNode' : h'.node q = some n') :
    ∃ n, h.node q = some n ∧ n'.toSlots = n.toSlots ∧ n'.active = n.active ∧ n'.threadList = n.threadList ∧
      n'.index = n.index ∧ n'.prev = n.prev ∧ (tail ≠ some q → n' = n) := by
  rw [appended.nodes, if_neg other] at atNode'
  split at atNode'
  · rename_i last
    obtain ⟨n, atNode, rfl⟩ := Option.map_eq_some_iff.mp atNode'
    exact ⟨n, atNode, rfl, rfl, rfl, rfl, rfl, fun inner => (inner last).elim⟩
  · exact ⟨n', atNode', rfl, rfl, rfl, rfl, rfl, fun _ => rfl⟩

theorem Appended.slots (appended : Appended h h' l elementSize nextIndex tail block) {q : NodePtr}
    (other : q ≠ block) : h'.slots q = h.slots q := by
  rw [Heap.slots, Heap.slots, appended.nodes, if_neg other]
  split
  · rw [Option.map_map]; rfl
  · rfl

theorem Appended.slots_block (appended : Appended h h' l elementSize nextIndex tail block) :
    h'.slots block = some (newPumaNode h l elementSize tail nextIndex).toSlots := by
  rw [Heap.slots, appended.nodes, if_pos rfl]; rfl

theorem Appended.links_block (appended : Appended h h' l elementSize nextIndex tail block) :
    h'.links block = some ⟨none, tail, true, nextIndex, l⟩ := by
  rw [Heap.links, appended.nodes, if_pos rfl]; rfl

/-- The new block holds nothing, and nothing else has moved. -/
theorem Appended.read (appended : Appended h h' l elementSize nextIndex tail block) : h'.read = h.read := by
  funext e
  by_cases new : e.node = block
  · have missing : h.slots e.node = none := by rw [Heap.slots, new, appended.fresh]; rfl
    rw [Heap.read, Heap.read, missing, new, appended.slots_block, Option.bind_some, Slots.read,
      newPumaNode_liveSlots, if_neg (Finset.notMem_empty _)]
    rfl
  · exact Heap.read_congr (appended.slots new)

theorem Appended.ok (appended : Appended h h' l elementSize nextIndex tail block) (ok : h.Ok)
    (capacity : 0 < h.capacityFor elementSize) : h'.Ok := by
  intro q n' atNode'
  by_cases new : q = block
  · rw [appended.nodes, if_pos new] at atNode'
    rw [← Option.some.inj atNode']
    exact ⟨newPumaNode_ok capacity l nextIndex tail, fun _ => newPumaNode_liveSlots ..⟩
  · obtain ⟨n, atNode, slots, active, _⟩ := appended.node_old new atNode'
    rw [slots, active]
    exact ok q n atNode

theorem Appended.loc (appended : Appended h h' l elementSize nextIndex tail block)
    (own : ∀ t n, tail = some t → h.node t = some n → n.threadList = l) : Local h h' l where
  nodes q n other := by
    rw [appended.nodes]
    split
    · rename_i new
      rw [new, appended.fresh]
      refine ⟨fun stored => ?_, fun old => by cases old⟩
      rw [← Option.some.inj stored] at other
      exact (other rfl).elim
    split
    · rename_i last
      refine ⟨fun stored => ?_, fun old => (other (own q n last old)).elim⟩
      obtain ⟨m, atNode, rfl⟩ := Option.map_eq_some_iff.mp stored
      exact (other (own q m last atNode)).elim
    · exact Iff.rfl
  lists := appended.lists
  nodeSize := appended.nodeSize
  elementSize := by rw [appended.list]
  active := by rw [appended.list]

theorem Appended.links_old (appended : Appended h h' l elementSize nextIndex tail block) {q : NodePtr}
    (other : q ≠ block) {k' : Links} (atLinks' : h'.links q = some k') :
    ∃ k, h.links q = some k ∧ k'.active = k.active ∧ k'.threadList = k.threadList ∧ k'.index = k.index ∧
      (tail ≠ some q → k' = k) := by
  obtain ⟨n', atNode', rfl⟩ := Heap.node_of_links atLinks'
  obtain ⟨n, atNode, _, active, owner, index, _, same⟩ := appended.node_old other atNode'
  exact ⟨_, Heap.links_eq atNode, active, owner, index, fun inner => by rw [same inner]⟩

theorem Appended.prev_old (appended : Appended h h' l elementSize nextIndex tail block) {q : NodePtr}
    (other : q ≠ block) : h'.prev q = h.prev q := by
  rw [Heap.prev, Heap.prev, Heap.links, Heap.links, appended.nodes, if_neg other]
  split
  · rw [Option.map_map]
    cases h.node q <;> rfl
  · rfl

theorem Appended.next_old (appended : Appended h h' l elementSize nextIndex tail block) {q : NodePtr}
    (other : q ≠ block) {n : PumaNode α} (atNode : h.node q = some n) :
    h'.next q = if tail = some q then some block else h.next q := by
  rw [Heap.next, Heap.links, appended.nodes, if_neg other]
  split
  · rw [atNode]; rfl
  · rfl

/-- The block was no node of the list before. -/
theorem Appended.notMem {A : List NodePtr} (appended : Appended h h' l elementSize nextIndex tail block)
    (shape : Shape h l A []) : block ∉ A := fun member => by
  obtain ⟨n, atNode, _⟩ := shape.node (S := []) (List.mem_append_left [] member)
  rw [appended.fresh] at atNode
  cases atNode

/-- The new block is linked behind the last node. -/
theorem Appended.chain {A : List NodePtr} (appended : Appended h h' l elementSize nextIndex A.getLast? block)
    (shape : Shape h l A []) : Segment h'.next h'.prev none (A ++ [block]) none := by
  have chain := shape.chain
  have nodup := shape.nodup
  rw [List.append_nil] at chain nodup
  have next_block : h'.next block = none := by rw [Heap.next, appended.links_block]; rfl
  have prev_block : h'.prev block = A.getLast? := by rw [Heap.prev, appended.links_block]; rfl
  have prev_old {q : NodePtr} (member : q ∈ A) : h'.prev q = h.prev q :=
    appended.prev_old fun same => appended.notMem shape (same ▸ member)
  have next_old {q : NodePtr} (member : q ∈ A) : h'.next q = if A.getLast? = some q then some block else h.next q := by
    obtain ⟨n, atNode, _⟩ := shape.node (S := []) (List.mem_append_left [] member)
    exact appended.next_old (fun same => appended.notMem shape (same ▸ member)) atNode
  refine segment_append.mpr ⟨?_, segment_singleton.mpr ⟨prev_block.trans Option.or_none.symm, next_block⟩⟩
  refine chain.relink (fun q member inner => ?_) (fun q member _ => prev_old member) (fun q first => ?_)
    (fun q last => ?_) nodup
  · exact (next_old member).trans (if_neg inner)
  · exact (prev_old (List.mem_of_mem_head? first)).trans (chain.prev_head first)
  · exact (next_old (List.mem_of_getLast? last)).trans (if_pos last)

/-- The new block is the last active node, once the number of nodes is updated. -/
theorem Appended.shape {A : List NodePtr} (appended : Appended h h' l elementSize A.length A.getLast? block)
    (shape : Shape h l A []) :
    Shape (h'.modifyList l fun tl => { tl with numNodes := A.length + 1 }) l (A ++ [block]) [] := by
  have outside := appended.notMem shape
  have nodup := shape.nodup
  rw [List.append_nil] at nodup
  exact {
    chain := by
      rw [List.append_nil]
      exact appended.chain shape
    nodup := by
      rw [List.append_nil, List.nodup_append]
      exact ⟨nodup, by simp, fun q member r new same => outside (by rwa [← List.mem_singleton.mp new, ← same])⟩
    owned := fun q member => by
      rw [List.append_nil] at member
      rcases List.mem_append.mp member with old | new
      · obtain ⟨n, atNode, owner⟩ := shape.node (S := []) (List.mem_append_left [] old)
        have other : q ≠ block := fun same => outside (same ▸ old)
        rw [Heap.links_modifyList, Heap.links, appended.nodes, if_neg other, atNode]
        split
        · exact ⟨_, rfl, owner⟩
        · exact ⟨_, rfl, owner⟩
      · rw [List.mem_singleton.mp new, Heap.links_modifyList, appended.links_block]
        exact ⟨_, rfl, rfl⟩
    active := fun q k atLinks owner => by
      by_cases new : q = block
      · rw [new, Heap.links_modifyList, appended.links_block] at atLinks
        rw [← Option.some.inj atLinks]
        simp [new]
      · obtain ⟨k₀, atLinks₀, active, owner₀, _⟩ := appended.links_old new atLinks
        rw [active, shape.active q k₀ atLinks₀ (owner₀ ▸ owner)]
        simp [new]
    index := fun i q k atIndex atLinks => by
      by_cases new : q = block
      · rw [new, Heap.links_modifyList, appended.links_block] at atLinks
        rw [← Option.some.inj atLinks]
        rcases getElem?_concat_cases atIndex with before | ⟨last, _⟩
        · exact (outside (new ▸ List.mem_of_getElem? before)).elim
        · exact last.symm
      · obtain ⟨k₀, atLinks₀, _, _, index₀, _⟩ := appended.links_old new atLinks
        rw [index₀]
        rcases getElem?_concat_cases atIndex with before | ⟨_, last⟩
        · exact shape.index i q k₀ before atLinks₀
        · exact (new last).elim
    strays := fun q k atLinks owner away r after => by
      rw [List.append_nil, List.mem_append, List.mem_singleton, not_or] at away
      obtain ⟨k₀, atLinks₀, _, owner₀, _, same⟩ := appended.links_old away.2 atLinks
      have inner : A.getLast? ≠ some q := fun last => away.1 (List.mem_of_getLast? last)
      rw [same inner] at after
      obtain ⟨apart, k₁, atLinks₁, owner₁⟩ := shape.strays q k₀ atLinks₀ (owner₀ ▸ owner)
        (by simpa using away.1) r after
      rw [List.append_nil] at apart
      obtain ⟨n, atNode, same'⟩ := Heap.node_of_links atLinks₁
      have old : r ≠ block := fun new => by
        rw [new, appended.fresh] at atNode
        cases atNode
      have last : A.getLast? ≠ some r := fun last => apart (List.mem_of_getLast? last)
      refine ⟨by simp [apart, old], k₁, ?_, owner₁⟩
      rw [Heap.links_modifyList, Heap.links, appended.nodes, if_neg old, if_neg last]
      exact atLinks₁
    head := by
      rw [Heap.lists_modifyList_self, appended.list, shape.head]
      cases A <;> simp
    tail := by
      rw [Heap.lists_modifyList_self, appended.list]
      simp
    numNodes := by simp }

end Appended

/-- What `_appendPumaNode` does behind a full tail, or to an empty list: `r` is the new tail. -/
structure AppendPost (h h' : Heap α) (l : ListPtr) (A S S' : List NodePtr) (r : NodePtr) : Prop
    extends Keeps h h' l A (A ++ [r]) S' where
  ok : h'.Ok
  read : h'.read = h.read
  empty : h'.contents r = 0

theorem appendPumaNode_new {h h₁ : Heap α} {l : ListPtr} {A : List NodePtr} {block : NodePtr}
    (shape : Shape h l A []) (ok : h.Ok) (capacity : 0 < h.capacityFor (h.lists l).elementSize)
    (run : appendNewBlock h l (h.lists l).elementSize A.getLast? A.length block = some h₁) :
    AppendPost h (h₁.modifyList l fun tl => { tl with numNodes := A.length + 1 }) l A [] [] block ∧
      ∀ q, h₁.slots q = if q = block then some (newPumaNode h l (h.lists l).elementSize A.getLast? A.length).toSlots
        else h.slots q := by
  have linked : ∀ t, A.getLast? = some t → ∃ n, h.node t = some n := fun t last => by
    obtain ⟨n, atNode, _⟩ := shape.node (S := []) (List.mem_append_left [] (List.mem_of_getLast? last))
    exact ⟨n, atNode⟩
  have appended := appendNewBlock_run linked run
  have own : ∀ t n, A.getLast? = some t → h.node t = some n → n.threadList = l := fun t n last atNode => by
    obtain ⟨m, atNode', owner⟩ := shape.node (S := []) (List.mem_append_left [] (List.mem_of_getLast? last))
    rw [Option.some.inj (atNode.symm.trans atNode')]
    exact owner
  have old : ∀ q ∈ A, h₁.slots q = h.slots q := fun q member =>
    appended.slots fun same => appended.notMem shape (same ▸ member)
  have shape' := appended.shape shape
  have empty : h₁.contents block = 0 := by
    rw [Heap.contents_eq appended.slots_block, Slots.contents_eq_zero]
    exact newPumaNode_liveSlots ..
  refine ⟨⟨⟨shape', ?_, ?_, (appended.loc own).trans (Local.modifyList _ l rfl rfl), fun _ => ?_⟩,
    appended.ok ok capacity, appended.read, empty⟩, fun q => ?_⟩
  · have elems : h₁.elems (A ++ [block]) = h.elems A := by
      rw [Heap.elems_append, Heap.elems_congr old, Heap.elems_singleton, empty, add_zero]
    exact elems
  · rw [Heap.lists_modifyList_self, appended.list]
  · cases A with
    | nil => exact shape'.headIndex
    | cons a A => exact shape'.headIndex
  · split
    · rename_i same
      rw [same, appended.slots_block]
    · rename_i other
      exact appended.slots other

/-- A block that is not in use and can hold an element becomes a node. -/
theorem appendNewBlock_isSome {h : Heap α} {l : ListPtr} {elementSize nextIndex : Nat} {tail : Option NodePtr}
    {block : NodePtr} (linked : ∀ t, tail = some t → ∃ n, h.node t = some n) (fresh : block ∉ h.blocks)
    (fits : elementSize ≤ h.nodeSize - sizeofPumaNode) :
    (appendNewBlock h l elementSize tail nextIndex block).isSome := by
  have guard : ¬ (block ∈ h.blocks ∨ h.nodeSize - sizeofPumaNode < elementSize) := by
    rw [not_or, not_lt]
    exact ⟨fresh, fits⟩
  rw [appendNewBlock, if_neg guard]
  cases tail with
  | none => rfl
  | some t =>
    obtain ⟨n, atTail⟩ := linked t rfl
    have apart : t ≠ block := fun same => fresh (Heap.mem_blocks.mpr ⟨n, same ▸ atTail⟩)
    simp [Heap.modifyNodeIf, Heap.modifyNode, Heap.node_setNode_ne _ _ apart, atTail]

/-- Without spare nodes `_appendPumaNode` needs a new block. -/
theorem appendPumaNode_eq {h : Heap α} {l : ListPtr} {A : List NodePtr} (shape : Shape h l A []) (elementSize : Nat)
    (block : NodePtr) :
    appendPumaNode h l elementSize block = (appendNewBlock h l elementSize A.getLast? A.length block).map fun h₁ =>
      (h₁.modifyList l fun tl => { tl with numNodes := A.length + 1 }, block) := by
  have linked : ∀ t, A.getLast? = some t → ∃ n, h.node t = some n := fun t last => by
    obtain ⟨n, atNode, _⟩ := shape.node (S := []) (List.mem_append_left [] (List.mem_of_getLast? last))
    exact ⟨n, atNode⟩
  have atTail := shape.tail
  have start : appendPumaNode h l elementSize block =
      (appendNewBlock h l elementSize A.getLast? A.length block).bind fun h₁ => (h₁.node block).bind fun r =>
        some (h₁.modifyList l fun tl => { tl with numNodes := r.index + 1 }, block) := by
    rcases List.eq_nil_or_concat A with rfl | ⟨B, t, rfl⟩
    · simp only [appendPumaNode, atTail, List.getLast?_nil, List.head?_nil, Option.or_none, List.length_nil,
        Option.bind_eq_bind, Option.pure_def, Option.bind_some]
    · rw [List.concat_eq_append] at shape atTail ⊢
      have inChain : t ∈ (B ++ [t]) ++ [] := by simp
      obtain ⟨n, atNode, owner⟩ := shape.node inChain
      have active := (shape.active_iff atNode inChain).mpr (by simp)
      have index : n.index = B.length := shape.index_eq rfl atNode
      have after : n.next = none := shape.next_eq (B := B) (D := []) (by simp) atNode
      have atTail' : (h.lists l).tail = some t := by rw [atTail]; simp
      have last : (B ++ [t]).getLast? = some t := by simp
      simp only [appendPumaNode, atTail', atNode, active, after, last, index, List.length_append, List.length_singleton,
        Option.bind_eq_bind, Option.pure_def, Option.bind_some, Bool.true_eq_false, if_false]
  rw [start]
  cases append : appendNewBlock h l elementSize A.getLast? A.length block with
  | none => rfl
  | some h₁ =>
    obtain ⟨r, atNode, same⟩ := Heap.node_of_links (appendNewBlock_run linked append).links_block
    have index : r.index = A.length := by rw [same]
    rw [Option.bind_some, Option.map_some, atNode, Option.bind_some, index]

theorem appendPumaNode_spec {h h' : Heap α} {l : ListPtr} {A S : List NodePtr} {r block : NodePtr}
    (shape : Shape h l A S) (ok : h.Ok) (first : A = [] → S = [])
    (capacity : 0 < h.capacityFor (h.lists l).elementSize)
    (run : appendPumaNode h l (h.lists l).elementSize block = some (h', r)) :
    ∃ S', AppendPost h h' l A S S' r := by
  cases S with
  | nil =>
    rw [appendPumaNode_eq shape] at run
    obtain ⟨h₁, append, same⟩ := Option.map_eq_some_iff.mp run
    cases same
    exact ⟨[], (appendPumaNode_new shape ok capacity append).1⟩
  | cons s S =>
    rcases List.eq_nil_or_concat A with rfl | ⟨B, t, rfl⟩
    · cases first rfl
    · rw [List.concat_eq_append] at shape ⊢
      have inChain : t ∈ (B ++ [t]) ++ (s :: S) := by simp
      obtain ⟨n, atNode, owner⟩ := shape.node inChain
      have active := (shape.active_iff atNode inChain).mpr (by simp)
      have index : n.index = B.length := shape.index_eq rfl atNode
      have after : n.next = some s := shape.next_eq (B := B) (D := s :: S) (by simp) atNode
      have atTail : (h.lists l).tail = some t := by rw [shape.tail]; simp
      obtain ⟨m, atSpare, ownerS⟩ := shape.node (p := s) (by simp)
      have length : (B ++ [t]).length = B.length + 1 := by simp
      have same : h' = activateSpare h l s m (B ++ [t]).length ∧ r = s := by
        simp only [appendPumaNode, atTail, atNode, active, after, Option.bind_eq_bind,
          Option.bind_some, Bool.true_eq_false, if_false, Heap.modifyNode, Heap.node_modifyList, atSpare,
          Option.map_some, Heap.node_setNode_self, Option.pure_def, Option.some.injEq, Prod.mk.injEq] at run
        obtain ⟨rfl, rfl⟩ := run
        refine ⟨?_, rfl⟩
        rw [activateSpare, length, index, ← Heap.setNode_modifyList]
        simp [Heap.modifyList]
      obtain ⟨rfl, rfl⟩ := same
      have slots := activateSpare_slots (l := l) atSpare (B ++ [t]).length
      have inactive : m.active = false := by
        rw [← Bool.not_eq_true, shape.active_iff atSpare (by simp)]
        exact shape.notMem_active (List.mem_cons_self ..)
      refine ⟨S, activateSpare_keeps shape atSpare (ok.except none),
        (activateSpare_okExcept atSpare (ok.except none) _).ok, ?_, ?_⟩
      · funext e
        exact Heap.read_congr (by rw [slots])
      · rw [Heap.contents, slots]
        exact (ok.except none).contents_eq_zero atSpare inactive

end Puma
