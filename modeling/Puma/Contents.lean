import Puma.Shape

namespace Puma

variable {α β : Type}

/-- A node with the content of each slot rewritten. -/
def PumaNode.mapContents (f : Nat → α → β) (n : PumaNode α) : PumaNode β where
  toLinks := n.toLinks
  capacity := n.capacity
  numElements := n.numElements
  firstKnownFree := n.firstKnownFree
  freeMask := n.freeMask
  dirty := n.dirty
  elements i := f i (n.elements i)

theorem PumaNode.ok_mapContents {f : Nat → α → β} {n : PumaNode α} : (n.mapContents f).toSlots.Ok ↔ n.toSlots.Ok :=
  ⟨fun fine => ⟨⟨fine.capacity_pos, fine.sized, fine.bits, fine.count⟩, fine.cursor, fine.clean⟩,
    fun fine => ⟨⟨fine.capacity_pos, fine.sized, fine.bits, fine.count⟩, fine.cursor, fine.clean⟩⟩

namespace Heap

noncomputable def mapContents (f : ElemPtr → α → β) (h : Heap α) : Heap β where
  nodes := Finmap.keysLookupEquiv.symm
    ⟨(h.nodes.keys, fun p => (h.node p).map (PumaNode.mapContents fun i => f ⟨p, i⟩)), fun p => by
      rw [Option.isSome_map, node, Finmap.lookup_isSome, Finmap.mem_keys]⟩
  lists := h.lists
  nodeSize := h.nodeSize

theorem node_mapContents (f : ElemPtr → α → β) (h : Heap α) (p : NodePtr) :
    (h.mapContents f).node p = (h.node p).map (PumaNode.mapContents fun i => f ⟨p, i⟩) := by
  rw [node, mapContents, Finmap.keysLookupEquiv_symm_apply_lookup]

/-- Heaps with the same nodes, lists and node size are equal. -/
theorem ext_node {h h' : Heap α} (nodes : ∀ p, h.node p = h'.node p) (lists : h.lists = h'.lists)
    (size : h.nodeSize = h'.nodeSize) : h = h' := by
  cases h
  cases h'
  simp only [Heap.mk.injEq]
  exact ⟨Finmap.ext_lookup nodes, lists, size⟩

variable {f : ElemPtr → α → β} {h : Heap α}

theorem node_of_mapContents {p : NodePtr} {n' : PumaNode β} (atNode' : (h.mapContents f).node p = some n') :
    ∃ n, h.node p = some n ∧ n' = n.mapContents fun i => f ⟨p, i⟩ := by
  rw [node_mapContents] at atNode'
  obtain ⟨n, atNode, same⟩ := Option.map_eq_some_iff.mp atNode'
  exact ⟨n, atNode, same.symm⟩

theorem mapContents_eq {p : NodePtr} {n : PumaNode α} (atNode : h.node p = some n) :
    (h.mapContents f).node p = some (n.mapContents fun i => f ⟨p, i⟩) := by
  rw [node_mapContents, atNode]
  rfl

theorem links_mapContents (f : ElemPtr → α → β) (h : Heap α) : (h.mapContents f).links = h.links := by
  funext p
  rw [links, links, node_mapContents]
  cases h.node p <;> rfl

theorem blocks_mapContents (f : ElemPtr → α → β) (h : Heap α) : (h.mapContents f).blocks = h.blocks := by
  ext p
  rw [mem_blocks, mem_blocks, node_mapContents]
  cases h.node p <;> simp

theorem contents_mapContents {p : NodePtr} {n : PumaNode α} (atNode : h.node p = some n) :
    (h.mapContents f).contents p = n.toSlots.liveSlots.val.map fun i => f ⟨p, i⟩ (n.elements i) := by
  rw [contents_eq (slots_eq (mapContents_eq atNode))]
  rfl

theorem contents_none {p : NodePtr} (released : h.node p = none) : h.contents p = 0 := by
  simp [contents, slots, released]

theorem card_mapContents (f : ElemPtr → α → β) (h : Heap α) (c : List NodePtr) :
    ((h.mapContents f).elems c).card = (h.elems c).card := by
  induction c with
  | nil => rfl
  | cons p c ih =>
    rw [elems_cons, elems_cons, Multiset.card_add, Multiset.card_add, ih]
    congr 1
    cases atNode : h.node p with
    | none =>
      rw [contents_none atNode, contents_none (by rw [node_mapContents, atNode]; rfl)]
      rfl
    | some n =>
      rw [contents_mapContents atNode, Multiset.card_map, contents_eq (slots_eq atNode), Slots.card_contents]
      rfl

theorem ok_mapContents : (h.mapContents f).Ok ↔ h.Ok := by
  constructor
  · intro ok p n atNode
    obtain ⟨fine, inactive⟩ := ok p _ (mapContents_eq atNode)
    exact ⟨PumaNode.ok_mapContents.mp fine, inactive⟩
  · intro ok p n' atNode'
    obtain ⟨n, atNode, rfl⟩ := node_of_mapContents atNode'
    obtain ⟨fine, inactive⟩ := ok p n atNode
    exact ⟨PumaNode.ok_mapContents.mpr fine, inactive⟩

theorem isSome_read_mapContents (f : ElemPtr → α → β) (h : Heap α) (e : ElemPtr) :
    ((h.mapContents f).read e).isSome ↔ (h.read e).isSome := by
  rw [read, read, slots, slots, node_mapContents]
  cases h.node e.node with
  | none => rfl
  | some n =>
    simp only [Option.map_some, Option.bind_some, Slots.read_isSome]
    rfl

/-- The memory as far as `g` tells contents apart. -/
noncomputable def view (g : α → β) (h : Heap α) : Heap β := h.mapContents fun _ => g

theorem read_view (g : α → β) (h : Heap α) (e : ElemPtr) : (h.view g).read e = (h.read e).map g := by
  rw [read, read, slots, slots, view, node_mapContents]
  cases h.node e.node with
  | none => rfl
  | some n =>
    change (if e.slot ∈ n.toSlots.liveSlots then some (g (n.elements e.slot)) else none) =
      (if e.slot ∈ n.toSlots.liveSlots then some (n.elements e.slot) else none).map g
    split <;> rfl

theorem elems_view (g : α → β) (h : Heap α) (c : List NodePtr) : (h.view g).elems c = (h.elems c).map g := by
  induction c with
  | nil => rfl
  | cons p c ih =>
    rw [elems_cons, elems_cons, Multiset.map_add, ih]
    congr 1
    cases atNode : h.node p with
    | none =>
      rw [contents_none atNode, contents_none (by rw [view, node_mapContents, atNode]; rfl)]
      rfl
    | some n =>
      rw [view, contents_mapContents atNode, contents_eq (slots_eq atNode), Slots.contents, Multiset.map_map]
      rfl

/-- Memories with the same view have the same nodes but for what the view does not show. -/
theorem node_of_view_eq {g : α → β} {h h' : Heap α} (same : h'.view g = h.view g) {p : NodePtr} {n : PumaNode α}
    (atNode : h.node p = some n) :
    ∃ n', h'.node p = some n' ∧ n'.mapContents (fun _ => g) = n.mapContents fun _ => g := by
  have there : (h'.view g).node p = some (n.mapContents fun _ => g) := by
    rw [same]
    exact mapContents_eq atNode
  obtain ⟨n', atNode', equal⟩ := node_of_mapContents there
  exact ⟨n', atNode', equal.symm⟩

theorem view_view {γ : Type} (g : α → β) (k : β → γ) (h : Heap α) : (h.view g).view k = h.view (k ∘ g) := by
  refine ext_node (fun p => ?_) rfl rfl
  rw [view, view, view, node_mapContents, node_mapContents, node_mapContents, Option.map_map]
  rfl

theorem blocks_of_view_eq {g : α → β} {h h' : Heap α} (same : h'.view g = h.view g) : h'.blocks = h.blocks := by
  rw [← blocks_mapContents (fun _ => g) h', ← blocks_mapContents (fun _ => g) h]
  exact congrArg blocks same

theorem elems_of_view_eq {g : α → β} {h h' : Heap α} (same : h'.view g = h.view g) (c : List NodePtr) :
    (h'.elems c).map g = (h.elems c).map g := by
  rw [← elems_view, ← elems_view, same]

/-- The memory without the contents of the elements. -/
noncomputable abbrev skeleton (h : Heap α) : Heap Unit := h.view fun _ => ()

theorem skeleton_of_view_eq {g : α → β} {h h' : Heap α} (same : h'.view g = h.view g) :
    h'.skeleton = h.skeleton := by
  have := congrArg (Heap.view fun _ => ()) same
  rwa [view_view, view_view] at this

end Heap

theorem PumaNode.mapContents_inj {g : α → β} {n n' : PumaNode α}
    (same : n'.mapContents (fun _ => g) = n.mapContents fun _ => g) :
    n'.toLinks = n.toLinks ∧ n'.capacity = n.capacity ∧ n'.numElements = n.numElements ∧ n'.freeMask = n.freeMask ∧
      ∀ i, g (n'.elements i) = g (n.elements i) := by
  simp only [PumaNode.mapContents, PumaNode.mk.injEq, Slots.mk.injEq] at same
  obtain ⟨links, capacity, numElements, _, freeMask, _, elements⟩ := same
  exact ⟨links, capacity, numElements, freeMask, congrFun elements⟩

theorem Local.view {h h' : Heap α} {l : ListPtr} (loc : Local h h' l) (g : α → β) :
    Local (h.view g) (h'.view g) l where
  nodes q m other := by
    rw [Heap.view, Heap.view, Heap.node_mapContents, Heap.node_mapContents]
    constructor <;>
    · intro mapped
      obtain ⟨n, atNode, rfl⟩ := Option.map_eq_some_iff.mp mapped
      have same := loc.nodes q n other
      simp_all
  lists := loc.lists
  nodeSize := loc.nodeSize
  elementSize := loc.elementSize
  active := loc.active

end Puma
