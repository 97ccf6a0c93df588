import Puma.Pass

namespace Puma

open DoublyLinked

variable {σ α : Type}

/-- The test at the end of `_freeElementOnNode`, for a node `p` left with `count`
elements: the inactive node `x` behind it is to be released. -/
structure Releases (h : Heap α) (p : NodePtr) (count : Nat) (x : NodePtr) (m : PumaNode α) : Prop where
  low : ∃ n, h.node p = some n ∧ count < n.capacity / 2 ∧ n.next = some x
  atSpare : h.node x = some m
  inactive : m.active = false

/-- A call of `_freeElementOnNode` on node `p` does not release a spare node with
another one behind it. -/
def SafeFree (h : Heap α) (p : NodePtr) : Prop :=
  ∀ n x m, h.node p = some n → Releases h p (sizeSub n.numElements 1) x m → m.next = none

instance (h : Heap α) (p : NodePtr) : Decidable (SafeFree h p) :=
  decidable_of_iff (∀ n ∈ h.node p, sizeSub n.numElements 1 < n.capacity / 2 → ∀ x ∈ n.next, ∀ m ∈ h.node x,
      m.active = false → m.next = none) <| by
    constructor
    · rintro safe n x m atNode ⟨⟨n', atNode', low, behind⟩, atSpare, inactive⟩
      cases atNode.symm.trans atNode'
      exact safe n atNode low x behind m atSpare inactive
    · exact fun safe n atNode low x behind m atSpare inactive =>
        safe n x m atNode ⟨⟨n, atNode, low, behind⟩, atSpare, inactive⟩

/-- The calls of `_freeElementOnNode` that the loop of `_cleanupNode` makes, each
with the memory that it finds. -/
def cleanupNodeFrees : Nat → Heap α → NodePtr → ListPtr → List (Heap α × ElemPtr)
  | 0, _, _, _ => []
  | turns + 1, h, currentNode, list =>
    match cleanupTurn h currentNode list with
    | some (h, some lastElement) => (h, lastElement) ::
        match freeElementOnNode h lastElement (getNodeForElement lastElement) with
        | some h => cleanupNodeFrees turns h currentNode list
        | none => []
    | _ => []

/-- The calls of `_freeElementOnNode` inside `_cleanupNode`. -/
def cleanupNodeCalls (h : Heap α) (currentNode : NodePtr) (list : ListPtr) : List (Heap α × ElemPtr) :=
  match h.node currentNode with
  | some n => cleanupNodeFrees (n.capacity + 1) h currentNode list
  | none => []

/-- The calls of `_freeElementOnNode` on the slow path of an allocation. -/
def nextFreeIndexFrees (h : Heap α) (threadList : ListPtr) (tail : NodePtr) : List (Heap α × ElemPtr) :=
  match h.node tail with
  | none => []
  | some t =>
    if t.capacity ≤ t.firstKnownFree then
      cleanupNodeCalls (h.setNode tail { t with firstKnownFree := t.firstKnownFree + 1 }) tail threadList
    else []

/-- The calls of `_freeElementOnNode` inside an allocation. -/
def pumallocFrees [Inhabited α] (h : Heap α) (threadList : ListPtr) (block : NodePtr) : List (Heap α × ElemPtr) :=
  match tailWithRoom h threadList block with
  | some (h, tail) => nextFreeIndexFrees h threadList tail
  | none => []

/-- The nodes of the only thread list `l`, and the blocks in use, are the chain `C`. -/
structure Linked (h : Heap α) (l : ListPtr) (C : List NodePtr) : Prop where
  chain : Segment h.next h.prev none C none
  nodup : C.Nodup
  owner : ∀ p n, h.node p = some n → n.threadList = l
  blocks : h.blocks = C.toFinset
  head : (h.lists l).head = C.head?
  tail : ∀ t, (h.lists l).tail = some t → t ∈ C
  empty : (h.lists l).tail = none → C = []

namespace Linked

variable {h h' : Heap α} {l : ListPtr} {C : List NodePtr}

theorem mem (linked : Linked h l C) {p : NodePtr} : p ∈ C ↔ ∃ n, h.node p = some n := by
  rw [← Heap.mem_blocks, linked.blocks, List.mem_toFinset]

theorem next_eq (linked : Linked h l C) {B D : List NodePtr} {p : NodePtr} {n : PumaNode α} (split : C = B ++ p :: D)
    (atNode : h.node p = some n) : n.next = D.head? := by
  have chain := linked.chain
  rw [split] at chain
  rw [← Heap.next_eq atNode, chain.at.2, Option.or_none]

theorem prev_eq (linked : Linked h l C) {B D : List NodePtr} {p : NodePtr} {n : PumaNode α} (split : C = B ++ p :: D)
    (atNode : h.node p = some n) : n.prev = B.getLast? := by
  have chain := linked.chain
  rw [split] at chain
  rw [← Heap.prev_eq atNode, chain.at.1, Option.or_none]

/-- A store that keeps a node's links to its neighbours. -/
theorem setNode (linked : Linked h l C) {p : NodePtr} {n m : PumaNode α} (atNode : h.node p = some n)
    (next : m.next = n.next) (prev : m.prev = n.prev) (owner : m.threadList = n.threadList) :
    Linked (h.setNode p m) l C where
  chain := by
    refine linked.chain.congr (fun q _ => ?_) fun q _ => ?_
    · rw [Heap.next_setNode]
      split
      · rename_i same
        rw [same, Heap.next_eq atNode, next]
      · rfl
    · rw [Heap.prev_setNode]
      split
      · rename_i same
        rw [same, Heap.prev_eq atNode, prev]
      · rfl
  nodup := linked.nodup
  owner q k atNode' := by
    rw [Heap.node_setNode] at atNode'
    split at atNode'
    · rw [← Option.some.inj atNode', owner]
      exact linked.owner p n atNode
    · exact linked.owner q k atNode'
  blocks := by rw [Heap.blocks_setNode atNode, linked.blocks]
  head := linked.head
  tail := linked.tail
  empty := linked.empty

/-- A store to the list that keeps its head and leaves its tail on the chain. -/
theorem modifyList (linked : Linked h l C) {m : ListPtr} {f : PumaThreadList → PumaThreadList}
    (head : (f (h.lists m)).head = (h.lists m).head)
    (tail : (f (h.lists m)).tail = (h.lists m).tail ∨ ∃ t ∈ C, (f (h.lists m)).tail = some t) :
    Linked (h.modifyList m f) l C := by
  refine ⟨linked.chain, linked.nodup, linked.owner, linked.blocks, ?_, fun t atTail => ?_, fun atTail => ?_⟩ <;>
    by_cases here : l = m
  · subst here
    rw [Heap.lists_modifyList_self, head]
    exact linked.head
  · rw [Heap.lists_modifyList_ne _ _ here]
    exact linked.head
  · subst here
    rw [Heap.lists_modifyList_self] at atTail
    rcases tail with same | ⟨s, member, now⟩
    · exact linked.tail t (same ▸ atTail)
    · rw [← Option.some.inj (now.symm.trans atTail)]
      exact member
  · rw [Heap.lists_modifyList_ne _ _ here] at atTail
    exact linked.tail t atTail
  · subst here
    rw [Heap.lists_modifyList_self] at atTail
    rcases tail with same | ⟨s, _, now⟩
    · exact linked.empty (same ▸ atTail)
    · rw [now] at atTail
      cases atTail
  · rw [Heap.lists_modifyList_ne _ _ here] at atTail
    exact linked.empty atTail

/-- Writes to the contents of elements leave the chain alone. -/
theorem view {β : Type} {g : α → β} (linked : Linked h l C) (same : h'.view g = h.view g) : Linked h' l C := by
  have links : h'.links = h.links := by
    rw [← Heap.links_mapContents (fun _ => g) h', ← Heap.links_mapContents (fun _ => g) h]
    exact congrArg Heap.links same
  have lists : h'.lists = h.lists := by
    have := congrArg Heap.lists same
    exact this
  refine ⟨linked.chain.congr (fun q _ => by rw [Heap.next, Heap.next, links]) fun q _ => by
    rw [Heap.prev, Heap.prev, links], linked.nodup, fun p n' atNode' => ?_, ?_, by rw [lists]; exact linked.head,
    by rw [lists]; exact linked.tail, by rw [lists]; exact linked.empty⟩
  · have atLinks := Heap.links_eq atNode'
    rw [links] at atLinks
    obtain ⟨n, atNode, equal⟩ := Heap.node_of_links atLinks
    rw [← linked.owner p n atNode]
    exact congrArg Links.threadList equal.symm
  · rw [Heap.blocks_of_view_eq same, linked.blocks]

/-- Two neighbours on the chain are apart from the rest of it. -/
theorem nodup_split {B D : List NodePtr} {p x : NodePtr} (linked : Linked h l (B ++ p :: x :: D)) :
    x ∉ B ++ [p] ∧ x ∉ D ∧ (B ++ [p] ++ D).Nodup := by
  have nodup := linked.nodup
  rw [show B ++ p :: x :: D = (B ++ [p]) ++ x :: D by simp, List.nodup_middle, List.nodup_cons, List.mem_append,
    not_or] at nodup
  exact ⟨nodup.1.1, nodup.1.2, nodup.2⟩

theorem behind {B D : List NodePtr} {p x y : NodePtr} (linked : Linked h l (B ++ p :: x :: D))
    (first : D.head? = some y) : y ≠ x ∧ y ≠ p ∧ ∃ o, h.node y = some o := by
  obtain ⟨_, outD, nodup⟩ := linked.nodup_split
  have inD := List.mem_of_mem_head? first
  refine ⟨fun same => outD (same ▸ inD), fun same => ?_, linked.mem.mp (by simp [inD])⟩
  exact (List.nodup_append.mp nodup).2.2 p (by simp) p (same ▸ inD) rfl

/-- What releasing the node `x` does, which stands behind `p` and in front of `D`. -/
structure Unlinked (h h' : Heap α) (l : ListPtr) (p x : NodePtr) (D : List NodePtr) : Prop where
  next : ∀ q, q ≠ x → h'.next q = if q = p then D.head? else h.next q
  prev : ∀ q, q ≠ x → h'.prev q = if D.head? = some q then some p else h.prev q
  owner : ∀ q k, h'.node q = some k → k.threadList = l
  blocks : h'.blocks = h.blocks.erase x
  list : h'.lists l = (h.lists l).dropTail x p

theorem freePumaNode_unlinked {B D : List NodePtr} {p x : NodePtr} (linked : Linked h l (B ++ p :: x :: D))
    (run : Puma.freePumaNode h x = some h') : Unlinked h h' l p x D := by
  have split : B ++ p :: x :: D = (B ++ [p]) ++ x :: D := by simp
  obtain ⟨n, atNode⟩ := linked.mem.mp (show x ∈ B ++ p :: x :: D by simp)
  obtain ⟨m, atPrev⟩ := linked.mem.mp (show p ∈ B ++ p :: x :: D by simp)
  obtain ⟨outB, _, _⟩ := linked.nodup_split
  have apart : x ≠ p := fun same => outB (by simp [same])
  have before : n.prev = some p := by
    rw [linked.prev_eq split atNode]
    simp
  have after : n.next = D.head? := linked.next_eq split atNode
  have notHead : (h.lists n.threadList).head ≠ some x := by
    rw [linked.owner x n atNode, linked.head, split]
    intro atHead
    rw [List.head?_append, Option.or_of_isSome (by simp)] at atHead
    exact outB (List.mem_of_mem_head? atHead)
  obtain ⟨h₁, released, lists, _, nodes⟩ := freePumaNode_run atNode before atPrev
    (fun y first => linked.behind (after ▸ first)) notHead
  cases Option.some.inj (released.symm.trans run)
  refine ⟨fun q other => ?_, fun q other => ?_, fun q k atNode' => ?_, ?_, ?_⟩
  · rw [Heap.next, Heap.links, nodes, if_neg other]
    split
    · exact after
    · split
      · rw [Heap.next, Heap.links]
        cases h.node q <;> rfl
      · rfl
  · rw [Heap.prev, Heap.links, nodes, if_neg other]
    split
    · rename_i same
      rw [if_neg fun first => (linked.behind first).2.1 same, same, Heap.prev_eq atPrev]
      rfl
    · rw [after]
      split
      · rename_i first
        obtain ⟨o, atNext⟩ := (linked.behind first).2.2
        rw [atNext]
        rfl
      · rfl
  · rw [nodes] at atNode'
    split at atNode'
    · cases atNode'
    split at atNode'
    · rw [← Option.some.inj atNode']
      exact linked.owner p m atPrev
    split at atNode'
    · obtain ⟨o, atOld, rfl⟩ := Option.map_eq_some_iff.mp atNode'
      exact linked.owner q o atOld
    · exact linked.owner q k atNode'
  · ext q
    rw [Finset.mem_erase, Heap.mem_blocks, Heap.mem_blocks, nodes]
    by_cases gone : q = x
    · simp [gone]
    · by_cases here : q = p
      · simp [here, apart.symm, atPrev]
      · by_cases first : n.next = some q
        · cases h.node q <;> simp [gone, here, first]
        · simp [gone, here, first]
  · rw [lists, linked.owner x n atNode, Heap.lists_modifyList_self]

/-- Unlinking and releasing a node behind another one. -/
theorem freePumaNode {B D : List NodePtr} {p x : NodePtr} (linked : Linked h l (B ++ p :: x :: D))
    (run : Puma.freePumaNode h x = some h') :
    Linked h' l (B ++ p :: D) ∧ h'.next p = D.head? := by
  have split : B ++ p :: x :: D = (B ++ [p]) ++ x :: D := by simp
  have short : B ++ p :: D = (B ++ [p]) ++ D := by simp
  obtain ⟨outB, outD, nodup⟩ := linked.nodup_split
  have apart : x ≠ p := fun same => outB (by simp [same])
  have unlinked := linked.freePumaNode_unlinked run
  have outside {q : NodePtr} (member : q ∈ (B ++ [p]) ++ D) : q ≠ x := fun same => by
    rcases List.mem_append.mp (same ▸ member) with inB | inD
    · exact outB inB
    · exact outD inD
  refine ⟨⟨?_, short ▸ nodup, unlinked.owner, ?_, ?_, fun t atTail => ?_, fun atTail => ?_⟩, by
    rw [unlinked.next p apart.symm, if_pos rfl]⟩
  · rw [short]
    have chain := linked.chain
    rw [split] at chain
    refine chain.remove (split ▸ linked.nodup) (fun q member inner => ?_) (fun q member inner => ?_)
      (fun q last => ?_) fun q first => ?_
    · rw [unlinked.next q (outside member), if_neg fun same => inner (by simp [same])]
    · rw [unlinked.prev q (outside member), if_neg inner]
    · have same : q = p := by simpa using last.symm
      rw [same, unlinked.next p apart.symm, if_pos rfl, Option.or_none]
    · rw [unlinked.prev q (linked.behind first).1, if_pos first]
      simp
  · rw [unlinked.blocks, linked.blocks]
    ext q
    simp only [Finset.mem_erase, List.mem_toFinset, List.mem_append, List.mem_cons]
    constructor
    · rintro ⟨other, inB | same | same | inD⟩
      · exact Or.inl inB
      · exact Or.inr (Or.inl same)
      · exact (other same).elim
      · exact Or.inr (Or.inr inD)
    · intro member
      refine ⟨outside (short ▸ by simpa using member), ?_⟩
      tauto
  · rw [unlinked.list, PumaThreadList.dropTail, linked.head]
    cases B <;> rfl
  · rw [unlinked.list, PumaThreadList.dropTail] at atTail
    dsimp only at atTail
    split at atTail
    · simp [← Option.some.inj atTail]
    · rename_i other
      have inside := linked.tail t atTail
      have notX : t ≠ x := fun same => other (same ▸ atTail)
      simp only [List.mem_append, List.mem_cons, notX, false_or] at inside ⊢
      exact inside
  · rw [unlinked.list, PumaThreadList.dropTail] at atTail
    dsimp only at atTail
    split at atTail
    · cases atTail
    · have missing := linked.empty atTail
      simp at missing

/-- A marked slot: the links and the list's ends stay. -/
theorem mark (linked : Linked h l C) {p : NodePtr} {n : PumaNode α} (atNode : h.node p = some n) (s : Slots α)
    (count : Nat → Nat) :
    Linked ((h.setNode p { n with toSlots := s }).modifyList n.threadList fun tl =>
      { tl with numElements := count tl.numElements }) l C :=
  (linked.setNode (m := { n with toSlots := s }) atNode rfl rfl rfl).modifyList rfl (Or.inl rfl)

theorem allocElementOnNode (linked : Linked h l C) {p : NodePtr} {e : ElemPtr}
    (run : Puma.allocElementOnNode h p e = some h') : Linked h' l C := by
  obtain ⟨n, atNode, run⟩ := Option.bind_eq_some_iff.mp run
  cases run
  exact linked.mark atNode _ (· + 1)

/-- The end of `_freeElementOnNode`, when the released node has nothing behind it. -/
theorem releaseSpareNode (linked : Linked h l C) {p : NodePtr}
    (safe : ∀ n x m, h.node p = some n → Releases h p n.numElements x m → m.next = none)
    (run : Puma.releaseSpareNode h p = some h') : ∃ C', Linked h' l C' := by
  simp only [Puma.releaseSpareNode, Option.bind_eq_bind] at run
  obtain ⟨n, atNode, run⟩ := Option.bind_eq_some_iff.mp run
  split at run
  · rename_i low
    split at run
    · cases run
      exact ⟨C, linked⟩
    · rename_i x behind
      obtain ⟨m, atSpare, run⟩ := Option.bind_eq_some_iff.mp run
      split at run
      · cases run
        exact ⟨C, linked⟩
      · rename_i off
        obtain ⟨h₁, freed, run⟩ := Option.bind_eq_some_iff.mp run
        obtain ⟨B, D, rfl⟩ := List.append_of_mem (linked.mem.mpr ⟨n, atNode⟩)
        have first := linked.next_eq rfl atNode
        rw [behind] at first
        obtain ⟨D', rfl⟩ := List.head?_eq_some_iff.mp first.symm
        have last : m.next = none := safe n x m atNode ⟨⟨n, atNode, low, behind⟩, atSpare, by simpa using off⟩
        rw [linked.next_eq (B := B ++ [p]) (D := D') (by simp) atSpare] at last
        obtain ⟨linked₁, nextP⟩ := linked.freePumaNode freed
        obtain ⟨k, atNode₁⟩ := linked₁.mem.mp (show p ∈ B ++ p :: D' by simp)
        rw [Heap.modifyNode_eq atNode₁] at run
        cases run
        rw [Heap.next_eq atNode₁, last] at nextP
        exact ⟨_, linked₁.setNode atNode₁ nextP.symm rfl rfl⟩
  · cases run
    exact ⟨C, linked⟩

theorem freeElementOnNode (linked : Linked h l C) {e : ElemPtr} {p : NodePtr} (safe : SafeFree h p)
    (run : Puma.freeElementOnNode h e p = some h') : ∃ C', Linked h' l C' := by
  simp only [Puma.freeElementOnNode, Option.bind_eq_bind] at run
  obtain ⟨n, atNode, run⟩ := Option.bind_eq_some_iff.mp run
  refine (linked.mark atNode _ (sizeSub · 1)).releaseSpareNode (fun k x m atMarked release => ?_) run
  rw [Heap.node_modifyList, Heap.node_setNode_self] at atMarked
  cases Option.some.inj atMarked
  obtain ⟨⟨k, atP, low, behind⟩, atSpare, off⟩ := release
  rw [Heap.node_modifyList, Heap.node_setNode_self] at atP
  cases Option.some.inj atP
  rw [Heap.node_modifyList, Heap.node_setNode] at atSpare
  split at atSpare
  · -- A node does not stand behind itself.
    rename_i same
    obtain ⟨B, D, rfl⟩ := List.append_of_mem (linked.mem.mpr ⟨n, atNode⟩)
    have nodup := linked.nodup
    have first := linked.next_eq rfl atNode
    have after : n.next = some x := behind
    rw [after, same] at first
    obtain ⟨D', rfl⟩ := List.head?_eq_some_iff.mp first.symm
    simp [List.nodup_append] at nodup
  · exact safe n x m atNode ⟨⟨n, atNode, low, behind⟩, atSpare, off⟩

theorem getLastElementLoop (linked : Linked h l C) {turns : Nat} {tail : Option NodePtr}
    (inside : ∀ t, tail = some t → t ∈ C) {r : Option ElemPtr}
    (run : Puma.getLastElementLoop turns h l tail = some (h', r)) : Linked h' l C := by
  induction turns generalizing h tail with
  | zero =>
    cases tail with
    | none => cases run; exact linked
    | some t => cases run
  | succ turns ih =>
    cases tail with
    | none => cases run; exact linked
    | some t =>
      simp only [Puma.getLastElementLoop, Option.bind_eq_bind] at run
      obtain ⟨n, atNode, run⟩ := Option.bind_eq_some_iff.mp run
      split at run
      · split at run
        · have before : ∀ q, n.prev = some q → q ∈ C := fun q same => by
            obtain ⟨B, D, rfl⟩ := List.append_of_mem (inside t rfl)
            rw [linked.prev_eq rfl atNode] at same
            exact List.mem_append_left _ (List.mem_of_getLast? same)
          refine ih ?_ before run
          unfold deactivateTail
          have fewer : Linked (h.modifyList l fun tl => { tl with
              numNodes := if 0 < tl.numNodes then tl.numNodes - 1 else tl.numNodes }) l C :=
            linked.modifyList rfl (Or.inl rfl)
          have off := fewer.setNode (p := t) (m := { n with active := false }) atNode rfl rfl rfl
          dsimp only
          split
          · exact off
          · rename_i q same
            exact off.modifyList rfl (Or.inr ⟨q, before q same, rfl⟩)
        · cases run
          exact linked
      · cases run
        exact linked

theorem getLastElement (linked : Linked h l C) {r : Option ElemPtr} (run : Puma.getLastElement h l = some (h', r)) :
    Linked h' l C := linked.getLastElementLoop linked.tail run

theorem copyElement (linked : Linked h l C) {target source : ElemPtr}
    (run : Puma.copyElement h target source = some h') : Linked h' l C := by
  obtain ⟨s, _, run⟩ := Option.bind_eq_some_iff.mp run
  obtain ⟨n, atNode, rfl⟩ := Option.map_eq_some_iff.mp run
  exact linked.setNode atNode rfl rfl rfl

theorem cleanupTurn (linked : Linked h l C) {p : NodePtr} {r : Option ElemPtr}
    (run : Puma.cleanupTurn h p l = some (h', r)) : Linked h' l C := by
  simp only [Puma.cleanupTurn, Option.bind_eq_bind] at run
  obtain ⟨n, _, run⟩ := Option.bind_eq_some_iff.mp run
  split at run
  · obtain ⟨⟨h₁, lastElement⟩, found, run⟩ := Option.bind_eq_some_iff.mp run
    have linked₁ := linked.getLastElement found
    split at run
    · obtain ⟨_, _, run⟩ := Option.bind_eq_some_iff.mp run
      obtain ⟨_, _, run⟩ := Option.bind_eq_some_iff.mp run
      split at run
      · cases run
        exact linked₁
      · obtain ⟨h₂, marked, run⟩ := Option.bind_eq_some_iff.mp run
        obtain ⟨h₃, copied, run⟩ := Option.bind_eq_some_iff.mp run
        cases run
        exact (linked₁.allocElementOnNode marked).copyElement copied
    · cases run
      exact linked₁
  · cases run
    exact linked

theorem cleanupNodeLoop (linked : Linked h l C) {turns : Nat} {p : NodePtr}
    (safe : ∀ call ∈ cleanupNodeFrees turns h p l, SafeFree call.1 call.2.node)
    (run : Puma.cleanupNodeLoop turns h p l = some h') : ∃ C', Linked h' l C' := by
  induction turns generalizing h C with
  | zero => cases run
  | succ turns ih =>
    simp only [Puma.cleanupNodeLoop, Option.bind_eq_bind] at run
    obtain ⟨⟨h₁, moved⟩, turn, run⟩ := Option.bind_eq_some_iff.mp run
    have linked₁ := linked.cleanupTurn turn
    cases moved with
    | none =>
      cases run
      exact ⟨C, linked₁⟩
    | some e =>
      obtain ⟨h₂, freed, run⟩ := Option.bind_eq_some_iff.mp run
      simp only [cleanupNodeFrees, turn, freed, List.forall_mem_cons] at safe
      obtain ⟨C₂, linked₂⟩ := linked₁.freeElementOnNode safe.1 freed
      exact ih linked₂ safe.2 run

theorem cleanupNode (linked : Linked h l C) {p : NodePtr}
    (safe : ∀ call ∈ cleanupNodeCalls h p l, SafeFree call.1 call.2.node) (run : Puma.cleanupNode h p l = some h') :
    ∃ C', Linked h' l C' := by
  simp only [Puma.cleanupNode, Option.bind_eq_bind] at run
  obtain ⟨n, atNode, run⟩ := Option.bind_eq_some_iff.mp run
  obtain ⟨h₁, loop, run⟩ := Option.bind_eq_some_iff.mp run
  simp only [cleanupNodeCalls, atNode] at safe
  obtain ⟨C', linked'⟩ := linked.cleanupNodeLoop safe loop
  obtain ⟨m, atNode', rfl⟩ := Option.map_eq_some_iff.mp run
  exact ⟨C', linked'.setNode atNode' rfl rfl rfl⟩

section Alloc

variable [Inhabited α]

/-- What linking the new block `block` behind the node `tail` does. -/
structure LinkedBehind (h h' : Heap α) (l : ListPtr) (tail : Option NodePtr) (block : NodePtr) : Prop where
  next : ∀ q, h'.next q = if tail = some q then some block else if q = block then none else h.next q
  prev : ∀ q, h'.prev q = if q = block then tail else h.prev q
  owner : ∀ q k, h'.node q = some k → k.threadList = l
  blocks : h'.blocks = insert block h.blocks
  list : h'.lists l =
    { h.lists l with tail := some block, head := if (h.lists l).head = none then some block else (h.lists l).head }

theorem appendNewBlock_linkedBehind (linked : Linked h l C) {elementSize nextIndex : Nat} {tail : Option NodePtr}
    {block : NodePtr} (last : C.getLast? = tail)
    (run : Puma.appendNewBlock h l elementSize tail nextIndex block = some h') :
    block ∉ C ∧ LinkedBehind h h' l tail block := by
  simp only [Puma.appendNewBlock, Option.bind_eq_bind, Option.pure_def] at run
  split at run
  · cases run
  rename_i fits
  rw [not_or] at fits
  obtain ⟨h₁, linkedTail, run⟩ := Option.bind_eq_some_iff.mp run
  cases run
  have fresh : block ∉ C := fun inside => fits.1 (Heap.mem_blocks.mpr (linked.mem.mp inside))
  refine ⟨fresh, ?_⟩
  have new : (newPumaNode h l elementSize tail nextIndex).threadList = l ∧
      (newPumaNode h l elementSize tail nextIndex).prev = tail ∧
      (newPumaNode h l elementSize tail nextIndex).next = none := ⟨rfl, rfl, rfl⟩
  generalize newPumaNode h l elementSize tail nextIndex = n at linkedTail new
  obtain ⟨owner, before, after⟩ := new
  have base : (h.setNode block n).blocks = insert block h.blocks := by
    ext q
    rw [Finset.mem_insert, Heap.mem_blocks, Heap.mem_blocks, Heap.node_setNode]
    by_cases same : q = block <;> simp [same]
  have owned : ∀ q k, (h.setNode block n).node q = some k → k.threadList = l := fun q k atNode => by
    rw [Heap.node_setNode] at atNode
    split at atNode
    · rw [← Option.some.inj atNode, owner]
    · exact linked.owner q k atNode
  have listNow (h₂ : Heap α) (lists : h₂.lists = ((h.setNode block n).modifyList l fun tl =>
      { tl with tail := some block }).lists) : (h₂.modifyList l fun tl =>
      { tl with head := if tl.head = none then some block else tl.head }).lists l = { h.lists l with
        tail := some block, head := if (h.lists l).head = none then some block else (h.lists l).head } := by
    rw [Heap.lists_modifyList_self, lists, Heap.lists_modifyList_self]
    rfl
  cases tail with
  | none =>
    cases linkedTail
    refine ⟨fun q => ?_, fun q => ?_, owned, base, listNow _ rfl⟩
    · have := Heap.next_setNode h block q n
      rw [after] at this
      exact this.trans (by simp)
    · have := Heap.prev_setNode h block q n
      rw [before] at this
      exact this
  | some t =>
    have inside : t ∈ C := List.mem_of_getLast? last
    have apart : t ≠ block := fun same => fresh (same ▸ inside)
    obtain ⟨m, atTail⟩ := linked.mem.mp inside
    have atTail' : ((h.setNode block n).modifyList l fun tl => { tl with tail := some block }).node t = some m := by
      rw [Heap.node_modifyList, Heap.node_setNode_ne _ _ apart, atTail]
    rw [Heap.modifyNodeIf, Heap.modifyNode_eq atTail'] at linkedTail
    cases linkedTail
    refine ⟨fun q => ?_, fun q => ?_, fun q k atNode => ?_, ?_, listNow _ rfl⟩
    · have there := Heap.next_setNode ((h.setNode block n).modifyList l fun tl => { tl with tail := some block }) t q
        { m with next := some block }
      refine there.trans ?_
      by_cases same : q = t
      · simp [same]
      · have other : ¬ some t = some q := fun equal => same (Option.some.inj equal).symm
        rw [if_neg same, if_neg other, ← after]
        exact Heap.next_setNode h block q n
    · have there := Heap.prev_setNode ((h.setNode block n).modifyList l fun tl => { tl with tail := some block }) t q
        { m with next := some block }
      refine there.trans ?_
      by_cases same : q = t
      · rw [if_pos same, same, if_neg apart, Heap.prev_eq atTail]
      · rw [if_neg same, ← before]
        exact Heap.prev_setNode h block q n
    · rw [Heap.node_modifyList, Heap.node_setNode] at atNode
      split at atNode
      · rw [← Option.some.inj atNode]
        exact linked.owner t m atTail
      · exact owned q k atNode
    · rw [Heap.blocks_modifyList, Heap.blocks_setNode atTail', Heap.blocks_modifyList, base]

/-- A new block behind the last node of the chain. -/
theorem appendNewBlock (linked : Linked h l C) {elementSize nextIndex : Nat} {tail : Option NodePtr} {block : NodePtr}
    (last : C.getLast? = tail) (run : Puma.appendNewBlock h l elementSize tail nextIndex block = some h') :
    Linked h' l (C ++ [block]) := by
  obtain ⟨fresh, behind⟩ := linked.appendNewBlock_linkedBehind last run
  refine ⟨segment_append.mpr ⟨?_, segment_singleton.mpr ⟨?_, ?_⟩⟩, ?_, behind.owner, ?_, ?_, fun t atTail => ?_,
    fun atTail => ?_⟩
  · refine linked.chain.relink (fun q member inner => ?_) (fun q member _ => ?_) (fun q atHead => ?_)
      (fun q atLast => ?_) linked.nodup
    · have other : q ≠ block := fun same => fresh (same ▸ member)
      rw [behind.next, if_neg fun same => inner (last.trans same), if_neg other]
    · rw [behind.prev, if_neg fun same : q = block => fresh (same ▸ member)]
    · rw [behind.prev, if_neg fun same : q = block => fresh (same ▸ List.mem_of_mem_head? atHead),
        linked.chain.prev_head atHead]
    · rw [behind.next, if_pos (last.symm.trans atLast)]
      rfl
  · rw [behind.prev, if_pos rfl, ← last, Option.or_none]
  · rw [behind.next, if_neg fun same => fresh (List.mem_of_getLast? (last.trans same)), if_pos rfl]
  · rw [List.nodup_append]
    refine ⟨linked.nodup, List.nodup_singleton block, fun q member b same equal => fresh ?_⟩
    rw [List.mem_singleton] at same
    rw [← same, ← equal]
    exact member
  · rw [behind.blocks, linked.blocks]
    ext q
    simp
  · rw [behind.list]
    have old := linked.head
    dsimp only
    cases C with
    | nil => simp [old]
    | cons p C => simp [old]
  · rw [behind.list] at atTail
    simp [← Option.some.inj atTail]
  · rw [behind.list] at atTail
    cases atTail

theorem appendPumaNode (linked : Linked h l C) {elementSize : Nat} {block r : NodePtr}
    (run : Puma.appendPumaNode h l elementSize block = some (h', r)) : ∃ C', Linked h' l C' := by
  have counted {h₁ : Heap α} {r₁ : NodePtr} {C₁ : List NodePtr} (linked₁ : Linked h₁ l C₁)
      (rest : ((h₁.node r₁).bind fun n =>
        some (h₁.modifyList l fun tl => { tl with numNodes := n.index + 1 }, r₁)) = some (h', r)) :
      ∃ C', Linked h' l C' := by
    obtain ⟨n, _, rest⟩ := Option.bind_eq_some_iff.mp rest
    cases rest
    exact ⟨C₁, linked₁.modifyList rfl (Or.inl rfl)⟩
  simp only [Puma.appendPumaNode, Option.bind_eq_bind, Option.pure_def] at run
  split at run
  · rename_i missing
    obtain ⟨h₂, appended, run⟩ := Option.bind_eq_some_iff.mp run
    exact counted (linked.appendNewBlock (by rw [linked.empty missing]; rfl) appended) run
  · rename_i t atTail
    obtain ⟨k, atNode, run⟩ := Option.bind_eq_some_iff.mp run
    obtain ⟨B, D, rfl⟩ := List.append_of_mem (linked.tail t atTail)
    have after := linked.next_eq rfl atNode
    split at run
    · exact counted (linked.setNode (m := { k with active := true }) atNode rfl rfl rfl) run
    · split at run
      · rename_i s behind
        obtain ⟨h₂, stored, run⟩ := Option.bind_eq_some_iff.mp run
        obtain ⟨m, atSpare, rfl⟩ := Option.map_eq_some_iff.mp stored
        rw [behind] at after
        have inside : s ∈ B ++ t :: D :=
          List.mem_append_right B (List.mem_cons_of_mem _ (List.mem_of_mem_head? after.symm))
        have moved : Linked (h.modifyList l fun tl => { tl with tail := some s }) l (B ++ t :: D) :=
          linked.modifyList rfl (Or.inr ⟨s, inside, rfl⟩)
        exact counted (moved.setNode (m := { m with active := true, index := k.index + 1 }) atSpare rfl rfl rfl) run
      · rename_i behind
        obtain ⟨h₂, appended, run⟩ := Option.bind_eq_some_iff.mp run
        rw [behind] at after
        have last : D = [] := List.head?_eq_none_iff.mp after.symm
        exact counted (linked.appendNewBlock (by simp [last]) appended) run

theorem tailWithRoom (linked : Linked h l C) {block r : NodePtr} (run : Puma.tailWithRoom h l block = some (h', r)) :
    ∃ C', Linked h' l C' := by
  unfold Puma.tailWithRoom at run
  split at run
  · exact linked.appendPumaNode run
  · obtain ⟨t, _, run⟩ := Option.bind_eq_some_iff.mp run
    split at run
    · exact linked.appendPumaNode run
    · cases run
      exact ⟨C, linked⟩

omit [Inhabited α] in
theorem nextFreeIndex (linked : Linked h l C) {tail : NodePtr} {i : Nat}
    (safe : ∀ call ∈ nextFreeIndexFrees h l tail, SafeFree call.1 call.2.node)
    (run : Puma.nextFreeIndex h l tail = some (h', i)) : ∃ C', Linked h' l C' := by
  simp only [Puma.nextFreeIndex, Option.bind_eq_bind] at run
  obtain ⟨t, atNode, run⟩ := Option.bind_eq_some_iff.mp run
  simp only [nextFreeIndexFrees, atNode] at safe
  have linked₁ := linked.setNode atNode (m := { t with firstKnownFree := t.firstKnownFree + 1 }) rfl rfl rfl
  split at run
  · rename_i late
    rw [if_pos late] at safe
    obtain ⟨h₂, cleaned, run⟩ := Option.bind_eq_some_iff.mp run
    obtain ⟨t₂, atNode₂, run⟩ := Option.bind_eq_some_iff.mp run
    cases run
    obtain ⟨C', linked'⟩ := linked₁.cleanupNode safe cleaned
    exact ⟨C', linked'.setNode atNode₂ rfl rfl rfl⟩
  · cases run
    exact ⟨C, linked₁⟩

theorem pumallocOnThreadList (linked : Linked h l C) {block : NodePtr} {e : ElemPtr}
    (safe : ∀ call ∈ pumallocFrees h l block, SafeFree call.1 call.2.node)
    (run : Puma.pumallocOnThreadList h l block = some (h', e)) : ∃ C', Linked h' l C' := by
  simp only [Puma.pumallocOnThreadList, reserveSlot, Option.bind_eq_bind] at run
  obtain ⟨⟨h₁, r, i⟩, reserved, run⟩ := Option.bind_eq_some_iff.mp run
  obtain ⟨⟨h₂, r₂⟩, found, reserved⟩ := Option.bind_eq_some_iff.mp reserved
  obtain ⟨⟨h₃, i₃⟩, chosen, reserved⟩ := Option.bind_eq_some_iff.mp reserved
  obtain ⟨t, atNode, reserved⟩ := Option.bind_eq_some_iff.mp reserved
  cases reserved
  obtain ⟨h₄, marked, run⟩ := Option.bind_eq_some_iff.mp run
  cases run
  simp only [pumallocFrees, found] at safe
  obtain ⟨C₂, linked₂⟩ := linked.tailWithRoom found
  obtain ⟨C₃, linked₃⟩ := linked₂.nextFreeIndex safe chosen
  have active : Linked ((h₃.modifyList l fun tl => { tl with
      numNodes := tl.numNodes + if t.active then 0 else 1, tail := some r₂ }).setNode r₂ { t with active := true })
      l C₃ :=
    (linked₃.modifyList rfl (Or.inr ⟨r₂, linked₃.mem.mpr ⟨t, atNode⟩, rfl⟩)).setNode (n := t) atNode rfl rfl rfl
  exact ⟨C₃, active.allocElementOnNode marked⟩

end Alloc

end Linked

end Puma
