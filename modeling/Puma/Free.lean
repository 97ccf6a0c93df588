import Puma.Shape

namespace Puma

open DoublyLinked

variable {α : Type}

/-- A store through a pointer that may be `NULL`. -/
theorem Heap.modifyNodeIf_node {h h' : Heap α} {p : Option NodePtr} {f : PumaNode α → PumaNode α}
    (run : h.modifyNodeIf p f = some h') :
    h'.lists = h.lists ∧ h'.nodeSize = h.nodeSize ∧
      ∀ q, h'.node q = (h.node q).map fun n => if p = some q then f n else n := by
  cases p with
  | none =>
    cases run
    exact ⟨rfl, rfl, fun q => by simp⟩
  | some p =>
    obtain ⟨n, atNode, rfl⟩ := Option.map_eq_some_iff.mp run
    refine ⟨rfl, rfl, fun q => ?_⟩
    rw [Heap.node_setNode]
    by_cases same : q = p
    · rw [same, atNode]
      simp
    · have other : ¬ p = q := fun equal => same equal.symm
      simp [same, other]

/-- The list after the block behind `p` has been released: if that was the tail, `p` is. -/
def PumaThreadList.dropTail (tl : PumaThreadList) (x p : NodePtr) : PumaThreadList :=
  { tl with tail := if tl.tail = some x then some p else tl.tail }

/-- Releasing a block that is not the head of its list rewrites the two neighbours' links. -/
theorem freePumaNode_run {h : Heap α} {x p : NodePtr} {n m : PumaNode α} (atNode : h.node x = some n)
    (before : n.prev = some p) (atPrev : h.node p = some m)
    (linked : ∀ y, n.next = some y → y ≠ x ∧ y ≠ p ∧ ∃ o, h.node y = some o)
    (notHead : (h.lists n.threadList).head ≠ some x) :
    ∃ h', freePumaNode h x = some h' ∧
      h'.lists = (h.modifyList n.threadList fun tl => tl.dropTail x p).lists ∧ h'.nodeSize = h.nodeSize ∧
      ∀ q, h'.node q = if q = x then none else if q = p then some { m with next := n.next }
        else if n.next = some q then (h.node q).map fun o => { o with prev := some p } else h.node q := by
  have listNow : h.modifyList n.threadList (fun tl => { tl with
      tail := if tl.tail = some x then n.prev else tl.tail
      head := if tl.head = some x then n.next else tl.head }) =
      h.modifyList n.threadList fun tl => tl.dropTail x p :=
    Heap.modifyList_congr (by simp only [if_neg notHead, before, PumaThreadList.dropTail])
  generalize started : h.modifyList n.threadList (fun tl => tl.dropTail x p) = h₀ at listNow
  have same₀ : h₀.node = h.node := by rw [← started]; rfl
  have size₀ : h₀.nodeSize = h.nodeSize := by rw [← started]; rfl
  rw [← same₀] at atPrev
  cases after : n.next with
  | none =>
    refine ⟨(h₀.setNode p { m with next := none }).nufreeAligned x, ?_, rfl, size₀, ?_⟩
    · simp only [freePumaNode, atNode, Option.bind_eq_bind, Option.bind_some, listNow]
      simp [before, after, Heap.modifyNodeIf, Heap.modifyNode_eq atPrev]
    · intro q
      rw [Heap.node_nufreeAligned, Heap.node_setNode, same₀]
      simp
  | some y =>
    obtain ⟨yx, yp, o, atNext⟩ := linked y after
    have atNext' : (h₀.setNode p { m with next := some y }).node y = some o := by
      rw [Heap.node_setNode_ne _ _ yp, same₀, atNext]
    refine ⟨((h₀.setNode p { m with next := some y }).setNode y { o with prev := some p }).nufreeAligned x,
      ?_, rfl, size₀, ?_⟩
    · simp only [freePumaNode, atNode, Option.bind_eq_bind, Option.bind_some, listNow]
      simp [before, after, Heap.modifyNodeIf, Heap.modifyNode_eq atPrev, Heap.modifyNode_eq atNext']
    · intro q
      rw [Heap.node_nufreeAligned, Heap.node_setNode, Heap.node_setNode, same₀]
      by_cases qy : q = y
      · subst qy
        simp [yx, yp, atNext]
      · simp [qy, Ne.symm qy]

/-- What releasing the spare node behind an active one does: nothing, or the whole spare
part of the chain is cut off. -/
structure ReleasePost (h h' : Heap α) (l : ListPtr) (A S S' : List NodePtr) : Prop where
  shape : Shape h' l A S'
  slots : ∀ q n', h'.node q = some n' →
    ∃ n, h.node q = some n ∧ n'.toSlots = n.toSlots ∧ n'.active = n.active
  kept : ∀ q ∈ A ++ S', h'.slots q = h.slots q
  lists : h'.lists = h.lists
  frame : Frame h h' l (A ++ S)
  evolves : Evolves h h' l
  cut : S' <+: S

theorem ReleasePost.refl {h : Heap α} {l : ListPtr} {A S : List NodePtr} (shape : Shape h l A S) :
    ReleasePost h h l A S S :=
  ⟨shape, fun _ n atNode => ⟨n, atNode, rfl, rfl⟩, fun _ _ => rfl, rfl, Frame.refl h l _, Evolves.refl h l,
    List.prefix_rfl⟩

theorem ReleasePost.okExcept {h h' : Heap α} {l : ListPtr} {A S S' : List NodePtr} {p₀ : Option NodePtr}
    (post : ReleasePost h h' l A S S') (ok : h.OkExcept p₀) : h'.OkExcept p₀ := by
  intro q n' atNode'
  obtain ⟨n, atNode, slots, active⟩ := post.slots q n' atNode'
  rw [slots, active]
  exact ok q n atNode

/-- A node behind the first spare node, or off the chain, leads to neither the
active nodes nor that spare node. -/
theorem Shape.next_outside {h : Heap α} {l : ListPtr} {A rest : List NodePtr} {x : NodePtr}
    (shape : Shape h l A (x :: rest)) {q r : NodePtr} {k : Links} (atLinks : h.links q = some k)
    (owner : k.threadList = l) (inactive : q ∉ A) (other : q ≠ x) (after : k.next = some r) :
    r ∉ A ∧ r ≠ x ∧ ∃ k', h.links r = some k' ∧ k'.threadList = l := by
  by_cases inRest : q ∈ rest
  · obtain ⟨C, D, split⟩ := List.append_of_mem inRest
    obtain ⟨n, atNode, same⟩ := Heap.node_of_links atLinks
    have whole : A ++ x :: rest = (A ++ x :: C) ++ q :: D := by simp [split]
    have behind := shape.next_eq whole atNode
    rw [← same] at after
    have inD : r ∈ D := List.mem_of_mem_head? (behind.symm.trans after)
    have nodup := (List.nodup_append.mp shape.nodup).2.1
    have inRest' : r ∈ rest := by simp [split, inD]
    refine ⟨fun active => shape.notMem_spare active (List.mem_cons_of_mem _ inRest'), fun same => ?_, ?_⟩
    · exact (List.nodup_cons.mp nodup).1 (same ▸ inRest')
    · exact shape.owned r (by simp [inRest'])
  · obtain ⟨away, owned⟩ := shape.strays q k atLinks owner (by simp [inactive, other, inRest]) r after
    exact ⟨fun active => away (List.mem_append_left _ active), fun same => away (by simp [same]), owned⟩

/-- The memory after the spare node `x` behind `p` has been released and `p` has
forgotten its successor. -/
structure SpareCut (h h' : Heap α) (p x : NodePtr) (m n : PumaNode α) : Prop where
  nodes : ∀ q, h'.node q = if q = p then some { m with next := none } else if q = x then none
    else if n.next = some q then (h.node q).map fun o => { o with prev := some p } else h.node q
  lists : h'.lists = h.lists
  nodeSize : h'.nodeSize = h.nodeSize

section SpareCut

variable {h h' : Heap α} {l : ListPtr} {B rest : List NodePtr} {p x : NodePtr} {m n : PumaNode α}

theorem SpareCut.links (cut : SpareCut h h' p x m n) (q : NodePtr) :
    h'.links q = if q = p then some { m.toLinks with next := none } else if q = x then none
      else if n.next = some q then (h.links q).map fun k => { k with prev := some p } else h.links q := by
  rw [Heap.links, cut.nodes]
  split
  · rfl
  split
  · rfl
  split
  · rw [Heap.links, Option.map_map, Option.map_map]; rfl
  · rfl

theorem SpareCut.slots (cut : SpareCut h h' p x m n) (atNode : h.node p = some m) {q : NodePtr} {n' : PumaNode α}
    (atNode' : h'.node q = some n') :
    ∃ n, h.node q = some n ∧ n'.toSlots = n.toSlots ∧ n'.active = n.active := by
  rw [cut.nodes] at atNode'
  split at atNode'
  · rename_i same
    cases Option.some.inj atNode'
    exact ⟨m, same ▸ atNode, rfl, rfl⟩
  split at atNode'
  · cases atNode'
  split at atNode'
  · obtain ⟨o, atOld, rfl⟩ := Option.map_eq_some_iff.mp atNode'
    exact ⟨o, atOld, rfl, rfl⟩
  · exact ⟨n', atNode', rfl, rfl⟩

theorem SpareCut.evolves (cut : SpareCut h h' p x m n) (atNode : h.node p = some m) (l : ListPtr) :
    Evolves h h' l := by
  refine ⟨fun q k' atLinks => ?_, by rw [cut.lists]⟩
  rw [cut.links] at atLinks
  split at atLinks
  · rename_i same
    cases Option.some.inj atLinks
    exact ⟨m.toLinks, same ▸ Heap.links_eq atNode, rfl, rfl⟩
  split at atLinks
  · cases atLinks
  split at atLinks
  · obtain ⟨k, atLinks', rfl⟩ := Option.map_eq_some_iff.mp atLinks
    exact ⟨k, atLinks', rfl, rfl⟩
  · exact ⟨k', atLinks, rfl, rfl⟩

/-- A node that is neither `p` nor `x` keeps its owner and its successor. -/
theorem SpareCut.links_other (cut : SpareCut h h' p x m n) {q : NodePtr} (notP : q ≠ p) (notX : q ≠ x)
    {k : Links} (atLinks : h.links q = some k) :
    ∃ k', h'.links q = some k' ∧ k'.threadList = k.threadList ∧ k'.next = k.next := by
  rw [cut.links, if_neg notP, if_neg notX]
  split
  · exact ⟨{ k with prev := some p }, by rw [atLinks, Option.map_some], rfl, rfl⟩
  · exact ⟨k, atLinks, rfl, rfl⟩

/-- The active nodes in front of `p` are out of reach of the stores. -/
theorem SpareCut.node_active (cut : SpareCut h h' p x m n) (shape : Shape h l (B ++ [p]) (x :: rest))
    (nextX : n.next = rest.head?) {q : NodePtr} (member : q ∈ B ++ [p]) (other : q ≠ p) :
    h'.node q = h.node q := by
  have spare := shape.notMem_spare member
  have notX : q ≠ x := fun same => spare (by simp [same])
  have notNext : n.next ≠ some q := fun after => by
    rw [nextX] at after
    exact spare (List.mem_cons_of_mem _ (List.mem_of_mem_head? after))
  rw [cut.nodes, if_neg other, if_neg notX, if_neg notNext]

theorem SpareCut.shape (cut : SpareCut h h' p x m n) (shape : Shape h l (B ++ [p]) (x :: rest))
    (atNode : h.node p = some m) (nextX : n.next = rest.head?) : Shape h' l (B ++ [p]) [] := by
  have chain := (segment_append.mp shape.chain).1
  have links_active {q : NodePtr} (member : q ∈ B ++ [p]) (other : q ≠ p) : h'.links q = h.links q := by
    rw [Heap.links, Heap.links, cut.node_active shape nextX member other]
  have prevP : h'.prev p = h.prev p := by
    rw [Heap.prev, cut.links, if_pos rfl, Heap.prev, Heap.links_eq atNode]
    rfl
  have prev_active {q : NodePtr} (member : q ∈ B ++ [p]) : h'.prev q = h.prev q := by
    by_cases same : q = p
    · rw [same, prevP]
    · rw [Heap.prev, Heap.prev, links_active member same]
  have evolves := cut.evolves atNode l
  exact {
    chain := by
      rw [List.append_nil]
      refine chain.relink (fun q member inner => ?_) (fun q member _ => prev_active member) (fun q first => ?_)
        (fun q last => ?_) shape.nodup_active
      · have other : q ≠ p := fun same => inner (by simp [same])
        rw [Heap.next, Heap.next, links_active member other]
      · rw [prev_active (List.mem_of_mem_head? first)]
        exact chain.prev_head first
      · have same : q = p := by simpa using last.symm
        rw [Heap.next, cut.links, if_pos same]
        rfl
    nodup := by rw [List.append_nil]; exact shape.nodup_active
    owned := fun q member => by
      rw [List.append_nil] at member
      obtain ⟨k, atLinks, owner⟩ := shape.owned q (List.mem_append_left _ member)
      by_cases same : q = p
      · have atP := Heap.links_eq atNode
        rw [← same, atLinks] at atP
        rw [cut.links, if_pos same]
        exact ⟨_, rfl, by rw [← owner, Option.some.inj atP]⟩
      · rw [links_active member same]
        exact ⟨k, atLinks, owner⟩
    active := fun q k atLinks owner => by
      obtain ⟨n', atNode', same⟩ := Heap.node_of_links atLinks
      obtain ⟨o, atOld, _, activeSame⟩ := cut.slots atNode atNode'
      obtain ⟨k₀, atLinks₀, owner₀, _⟩ := evolves.links q k atLinks
      have old := shape.active q k₀ atLinks₀ (owner₀ ▸ owner)
      rw [Heap.links_eq atOld] at atLinks₀
      rw [← old, ← same, ← Option.some.inj atLinks₀, activeSame]
    index := fun i q k atIndex atLinks => by
      obtain ⟨k₀, atLinks₀, _, index₀⟩ := evolves.links q k atLinks
      rw [index₀]
      exact shape.index i q k₀ atIndex atLinks₀
    strays := fun q k atLinks owner outside r after => by
      rw [List.append_nil] at outside ⊢
      have notP : q ≠ p := fun same => outside (by simp [same])
      have notX : q ≠ x := fun same => by
        rw [cut.links, if_neg notP, if_pos same] at atLinks
        cases atLinks
      obtain ⟨k₀, atLinks₀, owner₀, _⟩ := evolves.links q k atLinks
      obtain ⟨k', atLinks', _, next'⟩ := cut.links_other notP notX atLinks₀
      rw [Option.some.inj (atLinks.symm.trans atLinks'), next'] at after
      obtain ⟨away, distinct, k₁, atLinks₁, owner₁⟩ :=
        shape.next_outside atLinks₀ (owner₀ ▸ owner) outside notX after
      obtain ⟨k₂, atLinks₂, owner₂, _⟩ := cut.links_other (fun same => away (by simp [same])) distinct atLinks₁
      exact ⟨away, k₂, atLinks₂, owner₂.trans owner₁⟩
    head := by
      rw [evolves.head, shape.head]
      cases B <;> simp
    tail := by
      rw [cut.lists, shape.tail]
      simp
    numNodes := by rw [cut.lists, shape.numNodes] }

theorem SpareCut.frame (cut : SpareCut h h' p x m n) (nextX : n.next = rest.head?) :
    Frame h h' l (B ++ [p] ++ x :: rest) := by
  refine ⟨fun q outside => ?_, fun k _ => by rw [cut.lists], cut.nodeSize, by rw [cut.lists], by rw [cut.lists]⟩
  have notP : q ≠ p := fun same => outside (by simp [same])
  have notX : q ≠ x := fun same => outside (by simp [same])
  have notNext : n.next ≠ some q := fun after => by
    rw [nextX] at after
    exact outside (by simp [List.mem_of_mem_head? after])
  rw [cut.nodes, if_neg notP, if_neg notX, if_neg notNext]

end SpareCut

theorem releaseSpareNode_run {h : Heap α} {l : ListPtr} {B rest : List NodePtr} {p x : NodePtr}
    (shape : Shape h l (B ++ [p]) (x :: rest)) {m n : PumaNode α} (atNode : h.node p = some m)
    (atSpare : h.node x = some n) (low : m.numElements < m.capacity / 2) :
    ∃ h', releaseSpareNode h p = some h' ∧ SpareCut h h' p x m n := by
  have inActive : p ∈ B ++ [p] := by simp
  have inChain : x ∈ (B ++ [p]) ++ x :: rest := by simp
  have spare : x ∉ B ++ [p] := shape.notMem_active (List.mem_cons_self ..)
  have apart : p ≠ x := fun same => spare (same ▸ inActive)
  have inactive : n.active = false := by
    rw [← Bool.not_eq_true, shape.active_iff atSpare inChain]
    exact spare
  have nextP : m.next = some x := shape.next_eq (B := B) (D := x :: rest) (by simp) atNode
  have prevX : n.prev = some p := by
    rw [shape.prev_eq (B := B ++ [p]) (D := rest) rfl atSpare]
    simp
  have nextX : n.next = rest.head? := shape.next_eq (B := B ++ [p]) (D := rest) rfl atSpare
  obtain ⟨n', atSpare', ownerX⟩ := shape.node inChain
  rw [← Option.some.inj (atSpare.symm.trans atSpare')] at ownerX
  have restNodup : (x :: rest).Nodup := (List.nodup_append.mp shape.nodup).2.1
  have linked : ∀ y, n.next = some y → y ≠ x ∧ y ≠ p ∧ ∃ o, h.node y = some o := by
    intro y after
    rw [nextX] at after
    have inRest := List.mem_of_mem_head? after
    refine ⟨fun same => (List.nodup_cons.mp restNodup).1 (same ▸ inRest), fun same => ?_, ?_⟩
    · exact shape.notMem_spare inActive (List.mem_cons_of_mem _ (same ▸ inRest))
    · obtain ⟨o, atY, _⟩ := shape.node (p := y) (by simp [inRest])
      exact ⟨o, atY⟩
  have notTail : (h.lists n.threadList).tail ≠ some x := by
    rw [ownerX, shape.tail]
    simpa using apart
  have notHead : (h.lists n.threadList).head ≠ some x := by
    rw [ownerX, shape.head]
    intro atHead
    cases B with
    | nil => exact apart (by simpa using atHead)
    | cons b B => exact spare (by simp [show b = x by simpa using atHead])
  obtain ⟨h₁, released, lists, nodeSize, nodes⟩ := freePumaNode_run atSpare prevX atNode linked notHead
  rw [Heap.modifyList_eq_self (by simp only [PumaThreadList.dropTail, if_neg notTail])] at lists
  have atNode₁ : h₁.node p = some { m with next := n.next } := by rw [nodes, if_neg apart, if_pos rfl]
  refine ⟨h₁.setNode p { m with next := none }, ?_, fun q => ?_, lists, nodeSize⟩
  · simp [releaseSpareNode, atNode, low, nextP, atSpare, inactive, released, Heap.modifyNode_eq atNode₁]
  · rw [Heap.node_setNode]
    split
    · rfl
    · rename_i other
      rw [nodes, if_neg other]

/-- The spare node behind the last active node is released and the rest of the
spare chain, if any, is cut off with it. -/
theorem releaseSpareNode_cut {h : Heap α} {l : ListPtr} {B rest : List NodePtr} {p x : NodePtr}
    (shape : Shape h l (B ++ [p]) (x :: rest)) {m n : PumaNode α} (atNode : h.node p = some m)
    (atSpare : h.node x = some n) (low : m.numElements < m.capacity / 2) :
    ∃ h', releaseSpareNode h p = some h' ∧
      ReleasePost h h' l (B ++ [p]) (x :: rest) [] := by
  obtain ⟨h', run, cut⟩ := releaseSpareNode_run shape atNode atSpare low
  have nextX : n.next = rest.head? := shape.next_eq (B := B ++ [p]) (D := rest) rfl atSpare
  refine ⟨h', run, cut.shape shape atNode nextX, fun q n' atNode' => cut.slots atNode atNode', fun q member => ?_,
    cut.lists, cut.frame nextX, cut.evolves atNode l, List.nil_prefix⟩
  rw [List.append_nil] at member
  by_cases same : q = p
  · rw [same, Heap.slots, cut.nodes, if_pos rfl, Heap.slots_eq atNode]
    rfl
  · rw [Heap.slots, Heap.slots, cut.node_active shape nextX member same]

theorem releaseSpareNode_spec {h : Heap α} {l : ListPtr} {A S : List NodePtr} (shape : Shape h l A S)
    {p : NodePtr} {m : PumaNode α} (member : p ∈ A) (atNode : h.node p = some m) :
    ∃ h' S', releaseSpareNode h p = some h' ∧ ReleasePost h h' l A S S' := by
  obtain ⟨B, D, split⟩ := List.append_of_mem member
  have nextP : m.next = (D ++ S).head? := shape.next_eq (B := B) (by rw [split]; simp) atNode
  have stay (run : releaseSpareNode h p = some h) :
      ∃ h' S', releaseSpareNode h p = some h' ∧ ReleasePost h h' l A S S' := ⟨h, S, run, ReleasePost.refl shape⟩
  by_cases low : m.numElements < m.capacity / 2
  · cases D with
    | cons d D =>
      -- The node behind `p` is active, so nothing is released.
      have inActive : d ∈ A := by rw [split]; simp
      obtain ⟨o, atNext, _⟩ := shape.node (List.mem_append_left S inActive)
      have active := (shape.active_iff atNext (List.mem_append_left S inActive)).mpr inActive
      exact stay (by simp [releaseSpareNode, atNode, low, nextP, atNext, active])
    | nil =>
      cases S with
      | nil => exact stay (by simp [releaseSpareNode, atNode, low, nextP])
      | cons x rest =>
        obtain ⟨o, atSpare, _⟩ := shape.node (p := x) (by simp)
        subst split
        obtain ⟨h', run, post⟩ := releaseSpareNode_cut shape atNode atSpare low
        exact ⟨h', [], run, post⟩
  · exact stay (by simp [releaseSpareNode, atNode, low])

/-- What `_freeElementOnNode` leaves behind when it frees live slot `i` of the
active node `p` of the list. -/
structure FreePost (h h' : Heap α) (l : ListPtr) (A S S' : List NodePtr) (p : NodePtr) (i : Nat) : Prop where
  shape : Shape h' l A S'
  freed : ∀ s, h.slots p = some s → h'.slots p = some (s.free i)
  kept : ∀ q ∈ A ++ S', q ≠ p → h'.slots q = h.slots q
  numElements : (h'.lists l).numElements = sizeSub (h.lists l).numElements 1
  frame : Frame h h' l (A ++ S)
  evolves : Evolves h h' l
  cut : S' <+: S

theorem freeElementOnNode_spec {h : Heap α} {l : ListPtr} {A S : List NodePtr} (shape : Shape h l A S)
    {p₀ : Option NodePtr} (ok : h.OkExcept p₀) {p : NodePtr} {i : Nat} {n : PumaNode α} (member : p ∈ A)
    (atNode : h.node p = some n) (live : i ∈ n.toSlots.liveSlots) :
    ∃ h' S', freeElementOnNode h ⟨p, i⟩ p = some h' ∧ FreePost h h' l A S S' p i ∧ h'.OkExcept p₀ := by
  have inChain : p ∈ A ++ S := List.mem_append_left S member
  obtain ⟨m, atNode', owner⟩ := shape.node inChain
  rw [← Option.some.inj (atNode.symm.trans atNode')] at owner
  -- The memory between the marking of the slot and the release of a spare node.
  let marked := (h.setNode p { n with toSlots := n.toSlots.free i }).modifyList l fun tl =>
    { tl with numElements := sizeSub tl.numElements 1 }
  have run : freeElementOnNode h ⟨p, i⟩ p = releaseSpareNode marked p := by
    simp only [freeElementOnNode, atNode, Option.bind_eq_bind, Option.bind_some, marked, ← owner]
    rfl
  have links : marked.links = h.links := Heap.links_setNode_same atNode rfl
  have slots : ∀ q, marked.slots q = if q = p then some (n.toSlots.free i) else h.slots q :=
    fun q => Heap.slots_setNode h p q _
  have shape' : Shape marked l A S := shape.of_links_eq links (by simp [marked]) (by simp [marked]) (by simp [marked])
  have frame : Frame h marked l (A ++ S) :=
    (Frame.setNode h l inChain _).trans (Frame.modifyList _ l _ (fun _ => rfl) fun _ => rfl) fun _ inside => inside
  have stored : Evolves h (h.setNode p { n with toSlots := n.toSlots.free i }) l := Evolves.setNode atNode l rfl rfl
  have evolves : Evolves h marked l := stored.trans (Evolves.modifyList _ l rfl)
  have active : n.active = true := (shape.active_iff atNode inChain).mpr member
  have ok' : marked.OkExcept p₀ := by
    intro q m atMarked
    have atMarked' : (if q = p then some { n with toSlots := n.toSlots.free i } else h.node q) = some m := by
      rw [← Heap.node_setNode]; exact atMarked
    split at atMarked'
    · rename_i same
      cases Option.some.inj atMarked'
      obtain ⟨counted, fine, _⟩ := ok p n atNode
      exact ⟨counted.free live, fun other => (fine (same ▸ other)).free live,
        fun inactive => absurd active (by simp [show n.active = false from inactive])⟩
    · exact ok q m atMarked'
  have atMarked : marked.node p = some { n with toSlots := n.toSlots.free i } := Heap.node_setNode_self h p _
  obtain ⟨h', S', released, post⟩ := releaseSpareNode_spec shape' member atMarked
  refine ⟨h', S', run.trans released, ⟨post.shape, fun s atSlots => ?_, fun q inside other => ?_, ?_,
    frame.trans post.frame fun _ inside => inside, evolves.trans post.evolves, post.cut⟩, post.okExcept ok'⟩
  · rw [post.kept p (List.mem_append_left S' member), slots, if_pos rfl]
    rw [Heap.slots_eq atNode] at atSlots
    rw [Option.some.inj atSlots]
  · rw [post.kept q inside, slots, if_neg other]
  · rw [post.lists]
    simp [marked]

/-- The elements of the list are the old ones without the freed one. -/
theorem FreePost.elems {h h' : Heap α} {l : ListPtr} {A S S' : List NodePtr} {p₀ : Option NodePtr} {p : NodePtr}
    {i : Nat} {s : Slots α} (post : FreePost h h' l A S S' p i) (shape : Shape h l A S) (ok : h.OkExcept p₀)
    (member : p ∈ A) (atSlots : h.slots p = some s) (live : i ∈ s.liveSlots) :
    s.elements i ::ₘ h'.elems A = h.elems A := by
  obtain ⟨rest, before, after⟩ := Heap.elems_change shape.nodup_active member fun q inside other =>
    post.kept q (List.mem_append_left S' inside) other
  obtain ⟨n, atNode, same⟩ := Heap.node_of_slots atSlots
  have counted : s.Counted := same ▸ (ok p n atNode).1
  rw [before, after, Heap.contents_eq (post.freed s atSlots), Heap.contents_eq atSlots, ← counted.contents_free live,
    Multiset.cons_add]

end Puma
