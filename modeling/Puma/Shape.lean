import Puma.Slots
import Puma.Lib.DoublyLinked

namespace Puma

open DoublyLinked

variable {α : Type}

namespace Heap

theorem links_eq {h : Heap α} {p : NodePtr} {n : PumaNode α} (atNode : h.node p = some n) :
    h.links p = some n.toLinks := by
  rw [links, atNode]; rfl

theorem slots_eq {h : Heap α} {p : NodePtr} {n : PumaNode α} (atNode : h.node p = some n) :
    h.slots p = some n.toSlots := by
  rw [slots, atNode]; rfl

theorem node_of_links {h : Heap α} {p : NodePtr} {k : Links} (atLinks : h.links p = some k) :
    ∃ n, h.node p = some n ∧ n.toLinks = k := Option.map_eq_some_iff.mp atLinks

theorem node_of_slots {h : Heap α} {p : NodePtr} {s : Slots α} (atSlots : h.slots p = some s) :
    ∃ n, h.node p = some n ∧ n.toSlots = s := Option.map_eq_some_iff.mp atSlots

theorem next_eq {h : Heap α} {p : NodePtr} {n : PumaNode α} (atNode : h.node p = some n) :
    h.next p = n.next := by
  rw [next, links_eq atNode]; rfl

theorem prev_eq {h : Heap α} {p : NodePtr} {n : PumaNode α} (atNode : h.node p = some n) :
    h.prev p = n.prev := by
  rw [prev, links_eq atNode]; rfl

theorem links_setNode (h : Heap α) (p q : NodePtr) (n : PumaNode α) :
    (h.setNode p n).links q = if q = p then some n.toLinks else h.links q := by
  unfold links
  rw [node_setNode]
  split <;> rfl

theorem slots_setNode (h : Heap α) (p q : NodePtr) (n : PumaNode α) :
    (h.setNode p n).slots q = if q = p then some n.toSlots else h.slots q := by
  unfold slots
  rw [node_setNode]
  split <;> rfl

theorem next_setNode (h : Heap α) (p q : NodePtr) (n : PumaNode α) :
    (h.setNode p n).next q = if q = p then n.next else h.next q := by
  rw [next, links_setNode]
  split <;> rfl

theorem prev_setNode (h : Heap α) (p q : NodePtr) (n : PumaNode α) :
    (h.setNode p n).prev q = if q = p then n.prev else h.prev q := by
  rw [prev, links_setNode]
  split <;> rfl

/-- A store that keeps the links of a node keeps all links. -/
theorem links_setNode_same {h : Heap α} {p : NodePtr} {n m : PumaNode α} (atNode : h.node p = some n)
    (same : m.toLinks = n.toLinks) : (h.setNode p m).links = h.links := by
  funext q
  rw [links_setNode]
  split
  · rename_i equal
    rw [equal, links_eq atNode, same]
  · rfl

theorem slots_setNode_same {h : Heap α} {p : NodePtr} {n m : PumaNode α} (atNode : h.node p = some n)
    (same : m.toSlots = n.toSlots) : (h.setNode p m).slots = h.slots := by
  funext q
  rw [slots_setNode]
  split
  · rename_i equal
    rw [equal, slots_eq atNode, same]
  · rfl

@[simp] theorem links_modifyList (h : Heap α) (l : ListPtr) (f : PumaThreadList → PumaThreadList) :
    (h.modifyList l f).links = h.links := rfl

@[simp] theorem blocks_modifyList (h : Heap α) (l : ListPtr) (f : PumaThreadList → PumaThreadList) :
    (h.modifyList l f).blocks = h.blocks := rfl

theorem blocks_setNode {h : Heap α} {p : NodePtr} {n : PumaNode α} (atNode : h.node p = some n)
    (m : PumaNode α) : (h.setNode p m).blocks = h.blocks := by
  ext q
  rw [mem_blocks, mem_blocks]
  by_cases same : q = p
  · rw [same, node_setNode_self, atNode]
    simp
  · rw [node_setNode_ne _ _ same]

/-- The multiset of the elements on a node, and on all nodes of a chain. -/
def contents (h : Heap α) (p : NodePtr) : Multiset α := ((h.slots p).map Slots.contents).getD 0

def elems (h : Heap α) (c : List NodePtr) : Multiset α := (c.map h.contents).sum

theorem contents_eq {h : Heap α} {p : NodePtr} {s : Slots α} (atSlots : h.slots p = some s) :
    h.contents p = s.contents := by
  rw [contents, atSlots]; rfl

@[simp] theorem elems_nil (h : Heap α) : h.elems [] = 0 := rfl

@[simp] theorem elems_cons (h : Heap α) (p : NodePtr) (c : List NodePtr) :
    h.elems (p :: c) = h.contents p + h.elems c := by simp [elems]

@[simp] theorem elems_singleton (h : Heap α) (p : NodePtr) : h.elems [p] = h.contents p := by simp [elems]

@[simp] theorem elems_append (h : Heap α) (c d : List NodePtr) :
    h.elems (c ++ d) = h.elems c + h.elems d := by simp [elems]

theorem elems_congr {h h' : Heap α} {c : List NodePtr} (same : ∀ p ∈ c, h'.slots p = h.slots p) :
    h'.elems c = h.elems c := by
  unfold elems
  congr 1
  refine List.map_congr_left fun p member => ?_
  rw [contents, contents, same p member]

theorem elems_eq_zero {h : Heap α} {c : List NodePtr} (empty : ∀ p ∈ c, h.contents p = 0) :
    h.elems c = 0 := by
  refine List.sum_eq_zero fun x member => ?_
  obtain ⟨p, inChain, rfl⟩ := List.mem_map.mp member
  exact empty p inChain

/-- When only the slots of one node of the chain change, the rest of the elements stays. -/
theorem elems_change {h h' : Heap α} {c : List NodePtr} {p : NodePtr} (nodup : c.Nodup) (member : p ∈ c)
    (kept : ∀ q ∈ c, q ≠ p → h'.slots q = h.slots q) :
    ∃ rest, h.elems c = h.contents p + rest ∧ h'.elems c = h'.contents p + rest := by
  obtain ⟨B, D, rfl⟩ := List.append_of_mem member
  rw [List.nodup_middle, List.nodup_cons, List.mem_append, not_or] at nodup
  have keptB : h'.elems B = h.elems B := elems_congr fun q inB =>
    kept q (by simp [inB]) fun same => nodup.1.1 (same ▸ inB)
  have keptD : h'.elems D = h.elems D := elems_congr fun q inD =>
    kept q (by simp [inD]) fun same => nodup.1.2 (same ▸ inD)
  refine ⟨h.elems B + h.elems D, ?_, ?_⟩
  · rw [elems_append, elems_cons, add_left_comm]
  · rw [elems_append, elems_cons, keptB, keptD, add_left_comm]

/-- The number of elements that the nodes of a chain count. -/
def count (h : Heap α) (c : List NodePtr) : Nat := (c.map fun p => ((h.slots p).map Slots.numElements).getD 0).sum

@[simp] theorem count_nil (h : Heap α) : h.count [] = 0 := rfl

@[simp] theorem count_append (h : Heap α) (c d : List NodePtr) : h.count (c ++ d) = h.count c + h.count d := by
  simp [count]

theorem count_cons {h : Heap α} {p : NodePtr} {n : PumaNode α} (atNode : h.node p = some n) (c : List NodePtr) :
    h.count (p :: c) = n.numElements + h.count c := by
  simp [count, slots_eq atNode]

theorem count_congr {β : Type} {h : Heap α} {g : Heap β} {c : List NodePtr}
    (same : ∀ p ∈ c, (g.slots p).map Slots.numElements = (h.slots p).map Slots.numElements) : g.count c = h.count c := by
  unfold count
  congr 1
  exact List.map_congr_left fun p member => by rw [same p member]

/-- Nodes that count their live slots count the elements. -/
theorem count_eq_card {h : Heap α} {c : List NodePtr}
    (counted : ∀ p ∈ c, ∃ s, h.slots p = some s ∧ s.numElements = s.liveSlots.card) :
    h.count c = (h.elems c).card := by
  induction c with
  | nil => rfl
  | cons p c ih =>
    obtain ⟨s, atSlots, count⟩ := counted p (List.mem_cons_self ..)
    obtain ⟨n, atNode, same⟩ := node_of_slots atSlots
    rw [count_cons atNode, elems_cons, Multiset.card_add, contents_eq atSlots, Slots.card_contents,
      ← count, ← same, ih fun q member => counted q (List.mem_cons_of_mem _ member)]

end Heap

/-- The shape of thread list `l`: its chain is `A ++ S` with the active nodes `A` in
front. Nodes of the list outside the chain, if any, are inactive too and do not
lead back into it. -/
structure Shape (h : Heap α) (l : ListPtr) (A S : List NodePtr) : Prop where
  chain : Segment h.next h.prev none (A ++ S) none
  nodup : (A ++ S).Nodup
  owned : ∀ p ∈ A ++ S, ∃ k, h.links p = some k ∧ k.threadList = l
  active : ∀ p k, h.links p = some k → k.threadList = l → (k.active = true ↔ p ∈ A)
  index : ∀ i p k, A[i]? = some p → h.links p = some k → k.index = i
  strays : ∀ p k, h.links p = some k → k.threadList = l → p ∉ A ++ S → ∀ q, k.next = some q →
    q ∉ A ++ S ∧ ∃ k', h.links q = some k' ∧ k'.threadList = l
  head : (h.lists l).head = (A ++ S).head?
  tail : (h.lists l).tail = A.getLast?.or S.head?
  numNodes : (h.lists l).numNodes = A.length

/-- What an operation on the nodes `c` of list `l` leaves alone. -/
structure Frame (h h' : Heap α) (l : ListPtr) (c : List NodePtr) : Prop where
  nodes : ∀ q, q ∉ c → h'.node q = h.node q
  lists : ∀ m, m ≠ l → h'.lists m = h.lists m
  nodeSize : h'.nodeSize = h.nodeSize
  elementSize : (h'.lists l).elementSize = (h.lists l).elementSize
  active : (h'.lists l).active = (h.lists l).active

theorem Frame.refl (h : Heap α) (l : ListPtr) (c : List NodePtr) : Frame h h l c :=
  ⟨fun _ _ => rfl, fun _ _ => rfl, rfl, rfl, rfl⟩

theorem Frame.trans {h h' h'' : Heap α} {l : ListPtr} {c c' : List NodePtr} (first : Frame h h' l c)
    (second : Frame h' h'' l c') (within : ∀ q ∈ c', q ∈ c) : Frame h h'' l c where
  nodes q outside := (second.nodes q fun member => outside (within q member)).trans (first.nodes q outside)
  lists m other := (second.lists m other).trans (first.lists m other)
  nodeSize := second.nodeSize.trans first.nodeSize
  elementSize := second.elementSize.trans first.elementSize
  active := second.active.trans first.active

theorem Frame.mono {h h' : Heap α} {l : ListPtr} {c c' : List NodePtr} (frame : Frame h h' l c)
    (within : ∀ q ∈ c, q ∈ c') : Frame h h' l c' :=
  { frame with nodes := fun q outside => frame.nodes q fun inside => outside (within q inside) }

/-- A store to a node of the chain. -/
theorem Frame.setNode (h : Heap α) (l : ListPtr) {c : List NodePtr} {p : NodePtr} (member : p ∈ c)
    (n : PumaNode α) : Frame h (h.setNode p n) l c where
  nodes _ outside := Heap.node_setNode_ne _ _ fun same => outside (same ▸ member)
  lists _ _ := rfl
  nodeSize := rfl
  elementSize := rfl
  active := rfl

theorem Frame.modifyList (h : Heap α) (l : ListPtr) (c : List NodePtr) {f : PumaThreadList → PumaThreadList}
    (size : ∀ tl, (f tl).elementSize = tl.elementSize) (active : ∀ tl, (f tl).active = tl.active) :
    Frame h (h.modifyList l f) l c where
  nodes _ _ := rfl
  lists m other := Heap.lists_modifyList_ne _ _ other
  nodeSize := rfl
  elementSize := by rw [Heap.lists_modifyList_self, size]
  active := by rw [Heap.lists_modifyList_self, active]

/-- What an operation on list `l` does to the links at most: no node is added or
changes its list or its index, and the head stays. -/
structure Evolves (h h' : Heap α) (l : ListPtr) : Prop where
  links : ∀ q k', h'.links q = some k' →
    ∃ k, h.links q = some k ∧ k'.threadList = k.threadList ∧ k'.index = k.index
  head : (h'.lists l).head = (h.lists l).head

theorem Evolves.node {h h' : Heap α} {l : ListPtr} (evolves : Evolves h h' l) {q : NodePtr} {n' : PumaNode α}
    (atNode' : h'.node q = some n') :
    ∃ n, h.node q = some n ∧ n'.threadList = n.threadList ∧ n'.index = n.index := by
  obtain ⟨k, atLinks, owner, index⟩ := evolves.links q _ (Heap.links_eq atNode')
  obtain ⟨n, atNode, same⟩ := Heap.node_of_links atLinks
  exact ⟨n, atNode, by rw [owner, ← same], by rw [index, ← same]⟩

theorem Evolves.blocks {h h' : Heap α} {l : ListPtr} (evolves : Evolves h h' l) : h'.blocks ⊆ h.blocks := by
  intro q member
  obtain ⟨n', atNode'⟩ := Heap.mem_blocks.mp member
  obtain ⟨n, atNode, _⟩ := evolves.node atNode'
  exact Heap.mem_blocks.mpr ⟨n, atNode⟩

theorem Evolves.refl (h : Heap α) (l : ListPtr) : Evolves h h l :=
  ⟨fun _ k' atLinks => ⟨k', atLinks, rfl, rfl⟩, rfl⟩

theorem Evolves.trans {h h' h'' : Heap α} {l : ListPtr} (first : Evolves h h' l) (second : Evolves h' h'' l) :
    Evolves h h'' l where
  links q k'' atLinks := by
    obtain ⟨k', atLinks', owner', index'⟩ := second.links q k'' atLinks
    obtain ⟨k, atLinks, owner, index⟩ := first.links q k' atLinks'
    exact ⟨k, atLinks, owner'.trans owner, index'.trans index⟩
  head := second.head.trans first.head

theorem Evolves.setNode {h : Heap α} {p : NodePtr} {n : PumaNode α} (atNode : h.node p = some n) (l : ListPtr)
    {m : PumaNode α} (owner : m.threadList = n.threadList) (index : m.index = n.index) :
    Evolves h (h.setNode p m) l where
  links q k' atLinks := by
    rw [Heap.links_setNode] at atLinks
    split at atLinks
    · rename_i same
      cases Option.some.inj atLinks
      rw [same]
      exact ⟨n.toLinks, Heap.links_eq atNode, owner, index⟩
    · exact ⟨k', atLinks, rfl, rfl⟩
  head := rfl

theorem Evolves.modifyList (h : Heap α) (l : ListPtr) {f : PumaThreadList → PumaThreadList}
    (head : (f (h.lists l)).head = (h.lists l).head) : Evolves h (h.modifyList l f) l where
  links _ k' atLinks := ⟨k', atLinks, rfl, rfl⟩
  head := by rw [Heap.lists_modifyList_self, head]

/-- An operation on list `l` takes no node from another list and changes none. -/
structure Local (h h' : Heap α) (l : ListPtr) : Prop where
  nodes : ∀ q n, n.threadList ≠ l → (h'.node q = some n ↔ h.node q = some n)
  lists : ∀ m, m ≠ l → h'.lists m = h.lists m
  nodeSize : h'.nodeSize = h.nodeSize
  elementSize : (h'.lists l).elementSize = (h.lists l).elementSize
  active : (h'.lists l).active = (h.lists l).active

/-- An operation leaves list `m` and all of its nodes alone. -/
structure Untouched (h h' : Heap α) (m : ListPtr) : Prop where
  nodes : ∀ q n, n.threadList = m → (h'.node q = some n ↔ h.node q = some n)
  list : h'.lists m = h.lists m

theorem Local.untouched {h h' : Heap α} {l m : ListPtr} (loc : Local h h' l) (other : m ≠ l) : Untouched h h' m :=
  ⟨fun q n owner => loc.nodes q n (owner ▸ other), loc.lists m other⟩

theorem Local.refl (h : Heap α) (l : ListPtr) : Local h h l := ⟨fun _ _ _ => Iff.rfl, fun _ _ => rfl, rfl, rfl, rfl⟩

theorem Local.trans {h h' h'' : Heap α} {l : ListPtr} (first : Local h h' l) (second : Local h' h'' l) :
    Local h h'' l where
  nodes q n other := (second.nodes q n other).trans (first.nodes q n other)
  lists m other := (second.lists m other).trans (first.lists m other)
  nodeSize := second.nodeSize.trans first.nodeSize
  elementSize := second.elementSize.trans first.elementSize
  active := second.active.trans first.active

/-- A store to a node that belongs to `l`, or to a fresh block that then does. -/
theorem Local.setNode {h : Heap α} {p : NodePtr} {l : ListPtr} {n : PumaNode α}
    (before : ∀ m, h.node p = some m → m.threadList = l) (after : n.threadList = l) : Local h (h.setNode p n) l where
  nodes q m other := by
    rw [Heap.node_setNode]
    split
    · rename_i same
      subst same
      exact ⟨fun stored => (other (by rw [← Option.some.inj stored, after])).elim, fun old => (other (before m old)).elim⟩
    · exact Iff.rfl
  lists _ _ := rfl
  nodeSize := rfl
  elementSize := rfl
  active := rfl

theorem Local.modifyList (h : Heap α) (l : ListPtr) {f : PumaThreadList → PumaThreadList}
    (size : (f (h.lists l)).elementSize = (h.lists l).elementSize)
    (active : (f (h.lists l)).active = (h.lists l).active) : Local h (h.modifyList l f) l where
  nodes _ _ _ := Iff.rfl
  lists m other := Heap.lists_modifyList_ne _ _ other
  nodeSize := rfl
  elementSize := by rw [Heap.lists_modifyList_self, size]
  active := by rw [Heap.lists_modifyList_self, active]

theorem Untouched.links {h h' : Heap α} {m : ListPtr} (untouched : Untouched h h' m) {q : NodePtr} {k : Links}
    (owner : k.threadList = m) : h'.links q = some k ↔ h.links q = some k := by
  constructor <;> intro atLinks <;> obtain ⟨n, atNode, same⟩ := Heap.node_of_links atLinks <;> subst same
  · exact Heap.links_eq ((untouched.nodes q n owner).mp atNode)
  · exact Heap.links_eq ((untouched.nodes q n owner).mpr atNode)

/-- Where a node is linked. -/
def Links.place (k : Links) : Option NodePtr × Option NodePtr × ListPtr := (k.next, k.prev, k.threadList)

theorem Heap.links_of_place {h h' : Heap α} {q : NodePtr} (same : (h'.links q).map Links.place = (h.links q).map Links.place)
    {k' : Links} (atLinks : h'.links q = some k') : ∃ k, h.links q = some k ∧ k.place = k'.place := by
  rw [atLinks, Option.map_some] at same
  exact Option.map_eq_some_iff.mp same.symm

namespace Shape

variable {h h' : Heap α} {l : ListPtr} {A S : List NodePtr}

/-- The shape only reads the links of the list's own nodes and three fields of the list. -/
theorem frame {β : Type} {h' : Heap β} (shape : Shape h l A S)
    (same : ∀ q k, k.threadList = l → (h'.links q = some k ↔ h.links q = some k))
    (head : (h'.lists l).head = (h.lists l).head) (tail : (h'.lists l).tail = (h.lists l).tail)
    (numNodes : (h'.lists l).numNodes = (h.lists l).numNodes) : Shape h' l A S := by
  have own : ∀ p ∈ A ++ S, h'.links p = h.links p := by
    intro p member
    obtain ⟨k, atLinks, owner⟩ := shape.owned p member
    rw [atLinks, same p k owner]
    exact atLinks
  exact {
    chain := shape.chain.congr (fun p member => by rw [Heap.next, Heap.next, own p member])
      fun p member => by rw [Heap.prev, Heap.prev, own p member]
    nodup := shape.nodup
    owned := fun p member => by rw [own p member]; exact shape.owned p member
    active := fun p k atLinks owner => shape.active p k ((same p k owner).mp atLinks) owner
    index := fun i p k atIndex atLinks => by
      rw [own p (List.mem_append_left S (List.mem_of_getElem? atIndex))] at atLinks
      exact shape.index i p k atIndex atLinks
    strays := fun p k atLinks owner outside q after => by
      obtain ⟨away, k', atLinks', owner'⟩ := shape.strays p k ((same p k owner).mp atLinks) owner outside q after
      exact ⟨away, k', (same q k' owner').mpr atLinks', owner'⟩
    head := head.trans shape.head
    tail := tail.trans shape.tail
    numNodes := numNodes.trans shape.numNodes }

theorem of_links_eq {β : Type} {h' : Heap β} (shape : Shape h l A S) (same : h'.links = h.links)
    (head : (h'.lists l).head = (h.lists l).head) (tail : (h'.lists l).tail = (h.lists l).tail)
    (numNodes : (h'.lists l).numNodes = (h.lists l).numNodes) : Shape h' l A S :=
  shape.frame (fun _ _ _ => by rw [same]) head tail numNodes

/-- Every node of the chain can be dereferenced. -/
theorem node (shape : Shape h l A S) {p : NodePtr} (member : p ∈ A ++ S) :
    ∃ n, h.node p = some n ∧ n.threadList = l := by
  obtain ⟨k, atLinks, owner⟩ := shape.owned p member
  obtain ⟨n, atNode, same⟩ := Heap.node_of_links atLinks
  exact ⟨n, atNode, by rw [← owner, ← same]⟩

theorem active_iff (shape : Shape h l A S) {p : NodePtr} {n : PumaNode α} (atNode : h.node p = some n)
    (member : p ∈ A ++ S) : n.active = true ↔ p ∈ A := by
  obtain ⟨m, atNode', owner⟩ := shape.node member
  have same := Option.some.inj (atNode.symm.trans atNode')
  subst same
  exact shape.active p _ (Heap.links_eq atNode) owner

theorem notMem_spare (shape : Shape h l A S) {p : NodePtr} (member : p ∈ A) : p ∉ S :=
  fun spare => (List.nodup_append.mp shape.nodup).2.2 p member p spare rfl

theorem notMem_active (shape : Shape h l A S) {p : NodePtr} (spare : p ∈ S) : p ∉ A :=
  fun member => shape.notMem_spare member spare

theorem nodup_active (shape : Shape h l A S) : A.Nodup := (List.nodup_append.mp shape.nodup).1

theorem card_le_blocks (shape : Shape h l A S) : (A ++ S).length ≤ h.blocks.card := by
  rw [← List.toFinset_card_of_nodup shape.nodup]
  refine Finset.card_le_card fun p member => ?_
  obtain ⟨n, atNode, _⟩ := shape.node (List.mem_toFinset.mp member)
  exact Heap.mem_blocks.mpr ⟨n, atNode⟩

/-- The index of a node of the chain's active part. -/
theorem index_eq (shape : Shape h l A S) {B D : List NodePtr} {p : NodePtr} {n : PumaNode α}
    (split : A = B ++ p :: D) (atNode : h.node p = some n) : n.index = B.length := by
  refine shape.index B.length p _ ?_ (Heap.links_eq atNode)
  rw [split]
  simp

theorem next_eq (shape : Shape h l A S) {B D : List NodePtr} {p : NodePtr} {n : PumaNode α}
    (split : A ++ S = B ++ p :: D) (atNode : h.node p = some n) : n.next = D.head? := by
  have chain := shape.chain
  rw [split] at chain
  rw [← Heap.next_eq atNode, chain.at.2, Option.or_none]

theorem prev_eq (shape : Shape h l A S) {B D : List NodePtr} {p : NodePtr} {n : PumaNode α}
    (split : A ++ S = B ++ p :: D) (atNode : h.node p = some n) : n.prev = B.getLast? := by
  have chain := shape.chain
  rw [split] at chain
  rw [← Heap.prev_eq atNode, chain.at.1, Option.or_none]

/-- An operation that only activates, deactivates or numbers nodes of the chain keeps the chain; its nodes are active
and numbered as they are after it. -/
theorem relabel {A' S' : List NodePtr} (shape : Shape h l A S) (chain : A' ++ S' = A ++ S)
    (same : ∀ q, (h'.links q).map Links.place = (h.links q).map Links.place)
    (active : ∀ p k, h'.links p = some k → k.threadList = l → (k.active = true ↔ p ∈ A'))
    (index : ∀ i p k, A'[i]? = some p → h'.links p = some k → k.index = i)
    (head : (h'.lists l).head = (h.lists l).head) (tail : (h'.lists l).tail = A'.getLast?.or S'.head?)
    (numNodes : (h'.lists l).numNodes = A'.length) : Shape h' l A' S' := by
  have next : h'.next = h.next := by
    funext q
    have place := congrArg (fun o => o.bind Prod.fst) (same q)
    rw [Option.bind_map, Option.bind_map] at place
    exact place
  have prev : h'.prev = h.prev := by
    funext q
    have place := congrArg (fun o => o.bind fun k => k.2.1) (same q)
    rw [Option.bind_map, Option.bind_map] at place
    exact place
  exact {
    chain := by rw [next, prev, chain]; exact shape.chain
    nodup := by rw [chain]; exact shape.nodup
    owned := fun q member => by
      obtain ⟨k, atLinks, owner⟩ := shape.owned q (chain ▸ member)
      obtain ⟨k', atLinks', place⟩ := Heap.links_of_place (same q).symm atLinks
      exact ⟨k', atLinks', (congrArg (fun k => k.2.2) place).trans owner⟩
    active := active
    index := index
    strays := fun q k' atLinks' owner outside r after => by
      rw [chain] at outside ⊢
      obtain ⟨k, atLinks, place⟩ := Heap.links_of_place (same q) atLinks'
      obtain ⟨away, m, atNext, owner₁⟩ := shape.strays q k atLinks ((congrArg (fun k => k.2.2) place).trans owner) outside r
        ((congrArg Prod.fst place).trans after)
      obtain ⟨m', atNext', place'⟩ := Heap.links_of_place (same r).symm atNext
      exact ⟨away, m', atNext', (congrArg (fun k => k.2.2) place').trans owner₁⟩
    head := by rw [head, shape.head, chain]
    tail := tail
    numNodes := numNodes }

/-- An operation on other lists keeps the shape. -/
theorem of_untouched (shape : Shape h l A S) (untouched : Untouched h h' l) : Shape h' l A S := by
  refine shape.frame (fun q k owner => untouched.links owner) ?_ ?_ ?_
  all_goals rw [untouched.list]

end Shape

/-- An operation inside the chain that moves no node to another list is local. -/
theorem Frame.local {h h' : Heap α} {l : ListPtr} {A S : List NodePtr} (frame : Frame h h' l (A ++ S))
    (shape : Shape h l A S) (evolves : Evolves h h' l) : Local h h' l where
  nodes q n other := by
    by_cases inside : q ∈ A ++ S
    · obtain ⟨m, atNode, owner⟩ := shape.node inside
      refine ⟨fun after => ?_, fun before => ?_⟩
      · obtain ⟨m', atNode', same, _⟩ := evolves.node after
        rw [same, Option.some.inj (atNode'.symm.trans atNode)] at other
        exact (other owner).elim
      · rw [Option.some.inj (before.symm.trans atNode)] at other
        exact (other owner).elim
    · rw [frame.nodes q inside]
  lists := frame.lists
  nodeSize := frame.nodeSize
  elementSize := frame.elementSize
  active := frame.active

/-- What holds of every node at every point of every operation, except that
the slots of one node may be in the middle of it. -/
def Heap.OkExcept (h : Heap α) (p₀ : Option NodePtr) : Prop :=
  ∀ p n, h.node p = some n →
    n.toSlots.Counted ∧ (some p ≠ p₀ → n.toSlots.Ok) ∧ (n.active = false → n.toSlots.liveSlots = ∅)

/-- What holds of every node between operations. -/
def Heap.Ok (h : Heap α) : Prop :=
  ∀ p n, h.node p = some n → n.toSlots.Ok ∧ (n.active = false → n.toSlots.liveSlots = ∅)

theorem Heap.Ok.except {h : Heap α} (ok : h.Ok) (p₀ : Option NodePtr) : h.OkExcept p₀ :=
  fun p n atNode => ⟨(ok p n atNode).1.toCounted, fun _ => (ok p n atNode).1, (ok p n atNode).2⟩

theorem Heap.OkExcept.ok {h : Heap α} (ok : h.OkExcept none) : h.Ok :=
  fun p n atNode => ⟨(ok p n atNode).2.1 (by simp), (ok p n atNode).2.2⟩

theorem Heap.OkExcept.contents_eq_zero {h : Heap α} {p₀ : Option NodePtr} (ok : h.OkExcept p₀) {p : NodePtr}
    {n : PumaNode α} (atNode : h.node p = some n) (inactive : n.active = false) : h.contents p = 0 := by
  rw [Heap.contents_eq (Heap.slots_eq atNode), Slots.contents_eq_zero]
  exact (ok p n atNode).2.2 inactive

/-- The spare nodes hold nothing. -/
theorem Shape.elems_spare {h : Heap α} {l : ListPtr} {A S : List NodePtr} (shape : Shape h l A S)
    {p₀ : Option NodePtr} (ok : h.OkExcept p₀) : h.elems S = 0 := by
  refine Heap.elems_eq_zero fun p spare => ?_
  obtain ⟨n, atNode, _⟩ := shape.node (List.mem_append_right A spare)
  refine ok.contents_eq_zero atNode ?_
  rw [← Bool.not_eq_true, shape.active_iff atNode (List.mem_append_right A spare)]
  exact shape.notMem_active spare

end Puma
