import Puma.Autobalance
import Puma.Bag
import Puma.Lib.Refinement
import Puma.Locality

namespace Puma

open Refinement Simulation

variable {α : Type}

/-- The nodes of a list and its record, and nothing else. -/
noncomputable def Heap.part (h : Heap α) (l : ListPtr) : Heap α :=
  { h.only (h.nodesAt l).toList with lists := fun m => if m = l then h.lists l else .empty false 0 }

/-- The memory without the nodes of a list. -/
noncomputable def Heap.rest (h : Heap α) (l : ListPtr) : Heap α := h.without (h.nodesAt l).toList

section Part

variable {h h' : Heap α} {l : ListPtr}

theorem Heap.node_part (h : Heap α) (l : ListPtr) (p : NodePtr) :
    (h.part l).node p = if p ∈ h.nodesAt l then h.node p else none := by
  have only := h.node_only (h.nodesAt l).toList p
  simp only [Finset.mem_toList] at only
  exact only

theorem Heap.node_part_eq_some {p : NodePtr} {n : PumaNode α} :
    (h.part l).node p = some n ↔ h.node p = some n ∧ n.threadList = l := by
  rw [Heap.node_part]
  constructor
  · intro atNode
    split at atNode
    · rename_i inside
      obtain ⟨m, atNode', owner⟩ := Heap.mem_nodesAt.mp inside
      cases Option.some.inj (atNode'.symm.trans atNode)
      exact ⟨atNode, owner⟩
    · cases atNode
  · rintro ⟨atNode, owner⟩
    rw [if_pos (Heap.mem_nodesAt.mpr ⟨n, atNode, owner⟩), atNode]

@[simp] theorem Heap.lists_part_self (h : Heap α) (l : ListPtr) : (h.part l).lists l = h.lists l := if_pos rfl

@[simp] theorem Heap.nodeSize_part (h : Heap α) (l : ListPtr) : (h.part l).nodeSize = h.nodeSize :=
  (Heap.lists_without h _).2

theorem Heap.node_rest (h : Heap α) (l : ListPtr) (p : NodePtr) :
    (h.rest l).node p = if p ∈ h.nodesAt l then none else h.node p := by
  have without := h.node_without (h.nodesAt l).toList p
  simp only [Finset.mem_toList] at without
  exact without

theorem Heap.beside_part (h : Heap α) (l : ListPtr) : Beside l (h.rest l) (h.part l) h where
  nodes p := by
    rw [Heap.node_part, Heap.node_rest]
    split <;> simp
  apart p n atNode := by
    obtain ⟨atNode', owner⟩ := Heap.node_part_eq_some.mp atNode
    rw [Heap.node_rest, if_pos (Heap.mem_nodesAt.mpr ⟨n, atNode', owner⟩)]
  owned p n atNode := (Heap.node_part_eq_some.mp atNode).2
  list := (h.lists_part_self l).symm
  others m _ := by rw [Heap.rest, (Heap.lists_without h _).1]
  alone m other := if_neg other
  nodeSize := (h.nodeSize_part l).symm
  size := by rw [h.nodeSize_part, Heap.rest, (Heap.lists_without h _).2]

/-- The other nodes of a memory belong to other lists. -/
theorem Heap.rest_foreign {p : NodePtr} {n : PumaNode α} (atNode : (h.rest l).node p = some n) : n.threadList ≠ l := by
  rw [Heap.node_rest] at atNode
  split at atNode
  · cases atNode
  · rename_i outside
    exact fun owner => outside (Heap.mem_nodesAt.mpr ⟨n, atNode, owner⟩)

/-- What was done beside the rest of a memory is the list's part of the new one. -/
theorem Beside.part_eq {k : Heap α} (beside : Beside l (h.rest l) k h') : h'.part l = k := by
  refine Heap.ext_node (fun p => ?_) (funext fun m => ?_) ?_
  · refine Option.ext fun n => ?_
    rw [Heap.node_part_eq_some, beside.nodes, Option.or_eq_some_iff]
    constructor
    · rintro ⟨atNode | ⟨_, atRest⟩, owner⟩
      · exact atNode
      · exact absurd owner (Heap.rest_foreign atRest)
    · intro atNode
      exact ⟨Or.inl atNode, beside.owned p n atNode⟩
  · by_cases same : m = l
    · subst same
      rw [Heap.lists_part_self, beside.list]
    · rw [beside.alone m same]
      exact if_neg same
  · rw [Heap.nodeSize_part, beside.nodeSize]

/-- And the parts of the other lists are as they were. -/
theorem Beside.part_other {k : Heap α} (beside : Beside l (h.rest l) k h') {m : ListPtr} (other : m ≠ l) :
    h'.part m = h.part m := by
  have before := h.beside_part l
  refine Heap.ext_node (fun p => Option.ext fun n => ?_) (funext fun m' => ?_) ?_
  · rw [Heap.node_part_eq_some, Heap.node_part_eq_some, and_congr_left_iff]
    intro owner
    have foreign : n.threadList ≠ l := owner ▸ other
    rw [beside.nodes, before.nodes, Option.or_eq_some_iff, Option.or_eq_some_iff]
    constructor
    · rintro (inside | ⟨_, atRest⟩)
      · exact absurd (beside.owned p n inside) foreign
      · cases inside : (h.part l).node p with
        | none => exact Or.inr ⟨rfl, atRest⟩
        | some n' => cases (before.apart p n' inside).symm.trans atRest
    · rintro (inside | ⟨_, atRest⟩)
      · exact absurd (before.owned p n inside) foreign
      · cases inside : k.node p with
        | none => exact Or.inr ⟨rfl, atRest⟩
        | some n' => cases (beside.apart p n' inside).symm.trans atRest
  · change (if m' = m then h'.lists m else _) = if m' = m then h.lists m else _
    rw [beside.others m other, before.others m other]
  · rw [Heap.nodeSize_part, Heap.nodeSize_part, beside.nodeSize, beside.size, before.nodeSize, before.size]

/-- A memory is known by its parts. -/
theorem Heap.ext_part (parts : ∀ l, h.part l = h'.part l) : h = h' := by
  refine Heap.ext_node (fun p => Option.ext fun n => ?_) (funext fun l => ?_) ?_
  · have same := congrArg (fun k => k.node p = some n) (parts n.threadList)
    simpa [Heap.node_part_eq_some] using same
  · rw [← h.lists_part_self, parts, Heap.lists_part_self]
  · rw [← h.nodeSize_part 0, parts, Heap.nodeSize_part]

theorem Heap.untouched_part (h : Heap α) (l : ListPtr) : Untouched h (h.part l) l where
  nodes q n owner := by
    rw [Heap.node_part_eq_some]
    exact and_iff_left owner
  list := h.lists_part_self l

theorem ListInv.part (inv : ListInv h l) : ListInv (h.part l) l := by
  obtain ⟨ok, capacity, A, S, list⟩ := inv
  refine ⟨fun p n atNode => ok p n (Heap.node_part_eq_some.mp atNode).1, ?_, A, S, list.of_untouched (h.untouched_part l)⟩
  rw [Heap.lists_part_self, Heap.capacityFor, Heap.nodeSize_part]
  exact capacity

end Part

section Returns

variable [Inhabited α] {h : Heap α} {l : ListPtr} {A S : List NodePtr} {block : NodePtr}

theorem appendPumaNode_isSome (shape : Shape h l A S) (capacity : 0 < h.capacityFor (h.lists l).elementSize)
    (fresh : block ∉ h.blocks) : (appendPumaNode h l (h.lists l).elementSize block).isSome := by
  have fits := createPumaBitmaskForElemArray_fits capacity
  have new (tail : Option NodePtr) (nextIndex : Nat) (linked : ∀ t, tail = some t → ∃ n, h.node t = some n) :
      ∃ h₁ r, appendNewBlock h l (h.lists l).elementSize tail nextIndex block = some h₁ ∧ h₁.node block = some r := by
    obtain ⟨h₁, run⟩ := Option.isSome_iff_exists.mp (appendNewBlock_isSome linked fresh fits)
    exact ⟨h₁, _, run, by rw [(appendNewBlock_run linked run).nodes, if_pos rfl]⟩
  unfold Puma.appendPumaNode
  cases atTail : (h.lists l).tail with
  | none =>
    obtain ⟨h₁, r, run, atNode⟩ := new none 0 fun t missing => by cases missing
    simp [run, atNode]
  | some tail =>
    have ends := shape.tail
    rw [atTail] at ends
    have inChain : tail ∈ A ++ S := by
      rcases Option.or_eq_some_iff.mp ends.symm with last | ⟨_, spare⟩
      · exact List.mem_append_left S (List.mem_of_getLast? last)
      · exact List.mem_append_right A (List.mem_of_mem_head? spare)
    obtain ⟨t, atNode, _⟩ := shape.node inChain
    by_cases active : t.active = false
    · simp [atNode, active, Heap.node_setNode_self]
    · cases after : t.next with
      | none =>
        obtain ⟨h₁, r, run, atBlock⟩ := new (some tail) (t.index + 1) fun t' same => by
          cases same
          exact ⟨t, atNode⟩
        simp [atNode, active, after, run, atBlock]
      | some spare =>
        obtain ⟨B, D, split⟩ := List.append_of_mem inChain
        have inChain' : spare ∈ A ++ S := by
          have next := shape.next_eq split atNode
          rw [after] at next
          rw [split]
          exact List.mem_append_right B (List.mem_cons_of_mem tail (List.mem_of_mem_head? next.symm))
        obtain ⟨s, atSpare, _⟩ := shape.node inChain'
        simp [atNode, active, after, Heap.modifyNode, atSpare, Heap.node_setNode_self]

/-- A block that is not in use is enough for an allocation. -/
theorem ListInv.pumalloc_isSome (inv : ListInv h l) (safe : AllocSafe h l) (fresh : block ∉ h.blocks) :
    (pumallocOnThreadList h l block).isSome := by
  obtain ⟨ok, capacity, A, S, list⟩ := inv
  have append := appendPumaNode_isSome list.toShape capacity fresh
  have found : (tailWithRoom h l block).isSome := by
    unfold Puma.tailWithRoom
    cases atTail : (h.lists l).tail with
    | none => exact append
    | some tail =>
      have ends := list.tail
      rw [atTail] at ends
      have inChain : tail ∈ A ++ S := by
        rcases Option.or_eq_some_iff.mp ends.symm with last | ⟨_, spare⟩
        · exact List.mem_append_left S (List.mem_of_getLast? last)
        · exact List.mem_append_right A (List.mem_of_mem_head? spare)
      obtain ⟨t, atNode, _⟩ := list.node inChain
      simp only [atNode, Option.bind_eq_bind, Option.bind_some]
      split
      · exact append
      · rfl
  obtain ⟨⟨h₁, r⟩, run⟩ := Option.isSome_iff_exists.mp found
  obtain ⟨A₁, S₁, tail⟩ := tailWithRoom_spec list.toShape ok capacity run
  have ends := tail.shape.tail
  rw [tail.atTail] at ends
  have inChain : r ∈ A₁ ++ S₁ := by
    rcases Option.or_eq_some_iff.mp ends.symm with last | ⟨_, spare⟩
    · exact List.mem_append_left _ (List.mem_of_getLast? last)
    · exact List.mem_append_right _ (List.mem_of_mem_head? spare)
  obtain ⟨n, atNode, _⟩ := tail.shape.node inChain
  obtain ⟨h₂, i, A₂, S₂, B, S₃, chosen, post⟩ := nextFreeIndex_spec tail.shape tail.ok (tail.headIndex list.headIndex)
    tail.atTail atNode (tail.room n atNode) (tail.safe safe)
  obtain ⟨m, atNode₂, _⟩ := post.slot
  simp [pumallocOnThreadList, reserveSlot, run, chosen, atNode₂, allocElementOnNode_eq (Heap.node_setNode_self ..)]

end Returns

/-- What the owner of a list may do: the calls of the library, and reads of its nodes and of its record, as the
loops of a pass make them. -/
inductive Op (α : Type)
  | pumalloc (block : NodePtr)
  | pufree (e : ElemPtr)
  | write (e : ElemPtr) (x : α)
  | cleanupNode (node : NodePtr)
  | recordRunTime (elapsed : ℚ)
  | readNode (node : NodePtr)
  | readList

/-- What it gets to see. -/
inductive Seen (α : Type)
  | nothing
  | element (e : ElemPtr)
  | node (n : PumaNode α)
  | list (tl : PumaThreadList)

/-- An address of the owner's, and a block that `posix_memalign` can return. -/
def Op.Own (l : ListPtr) (h : Heap α) : Op α → Prop
  | pumalloc block => AllocSafe h l ∧ block ∉ h.blocks
  | pufree e => h.Live l e
  | write e _ => h.Live l e
  | cleanupNode node => ∃ n, h.node node = some n ∧ n.threadList = l ∧ n.active = true
  | recordRunTime _ => True
  | readNode node => ∃ n, h.node node = some n ∧ n.threadList = l
  | readList => True

def Op.perform [Inhabited α] (l : ListPtr) (h : Heap α) : Op α → Option (Heap α × Seen α)
  | pumalloc block => (pumallocOnThreadList h l block).map fun r => (r.1, .element r.2)
  | pufree e => (Puma.pufree h e).map fun h' => (h', .nothing)
  | write e x => (h.write e x).map fun h' => (h', .nothing)
  | cleanupNode node => (Puma.cleanupNode h node l).map fun h' => (h', .nothing)
  | recordRunTime elapsed => some (h.modifyList l fun tl => tl.recordRunTime elapsed, .nothing)
  | readNode node => (h.node node).map fun n => (h, .node n)
  | readList => some (h, .list (h.lists l))

section Ops

variable [Inhabited α] {h h' : Heap α} {l : ListPtr} {op : Op α} {seen : Seen α}

/-- An operation does on a list's part of the memory what it does on the whole. -/
theorem Beside.perform {o g : Heap α} (beside : Beside l o h g) (own : op.Own l g) :
    Carries (With (Beside l o)) (op.perform l h) (op.perform l g) := by
  cases op with
  | pumalloc block =>
    refine (beside.pumallocOnThreadList own.2).map fun r r' both => ⟨both.1, ?_⟩
    dsimp only
    rw [both.2]
  | pufree e => exact ((Beside.rule l o).freeElementOnNode beside e _).map fun h₁ g₁ beside₁ => ⟨beside₁, rfl⟩
  | write e x => exact ((Beside.rule l o).modifyNode beside e.node (by intro; rfl)).map fun h₁ g₁ beside₁ => ⟨beside₁, rfl⟩
  | cleanupNode node => exact ((Beside.rule l o).cleanupNode beside rfl node).map fun h₁ g₁ beside₁ => ⟨beside₁, rfl⟩
  | recordRunTime elapsed =>
    exact Carries.some (show With (Beside l o) _ _ from ⟨beside.modifyList fun tl => tl.recordRunTime elapsed, rfl⟩)
  | readNode node =>
    intro r run
    obtain ⟨n, atNode, rfl⟩ := Option.map_eq_some_iff.mp run
    exact ⟨(g, .node n), Option.map_eq_some_iff.mpr ⟨n, beside.node atNode, rfl⟩, beside, rfl⟩
  | readList =>
    refine Carries.some ⟨beside, ?_⟩
    dsimp only
    rw [beside.list]

omit [Inhabited α] in
theorem Op.Own.part (own : op.Own l h) : op.Own l (h.part l) := by
  have live {e : ElemPtr} (there : h.Live l e) : (h.part l).Live l e := by
    obtain ⟨n, atNode, owner, slot⟩ := there
    exact ⟨n, Heap.node_part_eq_some.mpr ⟨atNode, owner⟩, owner, slot⟩
  cases op with
  | pumalloc block =>
    refine ⟨fun t n p m tail atT zero late before atP => ?_, fun member => own.2 ?_⟩
    · rw [Heap.lists_part_self] at tail
      exact own.1 t n p m tail (Heap.node_part_eq_some.mp atT).1 zero late before (Heap.node_part_eq_some.mp atP).1
    · obtain ⟨n, atNode⟩ := Heap.mem_blocks.mp member
      exact Heap.mem_blocks.mpr ⟨n, (Heap.node_part_eq_some.mp atNode).1⟩
  | pufree e => exact live own
  | write e x => exact live own
  | cleanupNode node =>
    obtain ⟨n, atNode, owner, active⟩ := own
    exact ⟨n, Heap.node_part_eq_some.mpr ⟨atNode, owner⟩, owner, active⟩
  | recordRunTime elapsed => trivial
  | readNode node =>
    obtain ⟨n, atNode, owner⟩ := own
    exact ⟨n, Heap.node_part_eq_some.mpr ⟨atNode, owner⟩, owner⟩
  | readList => trivial

/-- An operation of a list's owner is one of the steps that keep the list in order, or a read. -/
theorem Op.Own.run (own : op.Own l h) (performed : op.perform l h = some (h', seen)) : ListRun AllocSafe l h h' := by
  cases op with
  | pumalloc block =>
    obtain ⟨⟨h₁, e⟩, run, same⟩ := Option.map_eq_some_iff.mp performed
    cases same
    exact .single (.pumalloc block own.1 run)
  | pufree e =>
    obtain ⟨h₁, run, same⟩ := Option.map_eq_some_iff.mp performed
    cases same
    exact .single (.pufree e own run)
  | write e x =>
    obtain ⟨h₁, run, same⟩ := Option.map_eq_some_iff.mp performed
    cases same
    have live : h.Live l e := own
    obtain ⟨y, there⟩ := live.read
    obtain ⟨h₂, _, _, _, _, run', _, skeleton⟩ := Heap.write_spec there x
    cases Option.some.inj (run.symm.trans run')
    exact .single (.write skeleton)
  | cleanupNode node =>
    obtain ⟨h₁, run, same⟩ := Option.map_eq_some_iff.mp performed
    cases same
    obtain ⟨n, atNode, owner, active⟩ := own
    exact .single (.cleanup atNode owner active run)
  | recordRunTime elapsed =>
    cases performed
    exact .single (.recordRunTime elapsed)
  | readNode node =>
    obtain ⟨n, _, same⟩ := Option.map_eq_some_iff.mp performed
    cases same
    exact .refl
  | readList =>
    cases performed
    exact .refl

/-- An operation of a list's owner comes back and leaves the list in order. -/
theorem Op.Own.returns (own : op.Own l h) (inv : ListInv h l) :
    ∃ h' seen, op.perform l h = some (h', seen) ∧ ListInv h' l := by
  have returned : (op.perform l h).isSome := by
    cases op with
    | pumalloc block =>
      rw [Op.perform, Option.isSome_map]
      exact inv.pumalloc_isSome own.1 own.2
    | pufree e =>
      obtain ⟨ok, _, A, S, list⟩ := inv
      have live : h.Live l e := own
      have member := live.active list.toShape ok
      obtain ⟨n, atNode, _, inside⟩ := live
      obtain ⟨h', _, run, _⟩ := freeElementOnNode_spec list.toShape (ok.except none) member atNode inside
      exact Option.isSome_iff_exists.mpr ⟨(h', .nothing), Option.map_eq_some_iff.mpr ⟨h', run, rfl⟩⟩
    | write e x =>
      have live : h.Live l e := own
      obtain ⟨y, there⟩ := live.read
      obtain ⟨h', _, _, _, _, run, _⟩ := Heap.write_spec there x
      rw [Op.perform, run]
      rfl
    | cleanupNode node =>
      obtain ⟨n, atNode, owner, active⟩ := own
      obtain ⟨ok, _, A, S, list⟩ := inv
      obtain ⟨B, D, rfl⟩ := List.append_of_mem ((list.active _ _ (Heap.links_eq atNode) owner).mp active)
      obtain ⟨h', _, _, run, _⟩ := cleanupNode_spec list.toShape (ok.except (some node))
      rw [Op.perform, run]
      rfl
    | recordRunTime elapsed => rfl
    | readNode node =>
      obtain ⟨n, atNode, _⟩ := own
      rw [Op.perform, atNode]
      rfl
    | readList => rfl
  obtain ⟨⟨h', seen⟩, run⟩ := Option.isSome_iff_exists.mp returned
  exact ⟨h', seen, run, ((own.run run).inv (fun _ here => here) inv).1⟩

/-- An operation is one on its list's part, and the parts of the other lists are as they were. -/
theorem Op.onPart (own : op.Own l h) (inv : ListInv (h.part l) l) (run : op.perform l h = some (h', seen)) :
    op.perform l (h.part l) = some (h'.part l, seen) ∧ ListInv (h'.part l) l ∧ ∀ m, m ≠ l → h'.part m = h.part m := by
  obtain ⟨k, seen', alone, inv'⟩ := own.part.returns inv
  obtain ⟨⟨g, seen''⟩, run', beside, same⟩ := (h.beside_part l).perform own _ alone
  cases Option.some.inj (run.symm.trans run')
  dsimp only at beside same
  rw [beside.part_eq, ← same]
  exact ⟨alone, inv', fun m other => beside.part_other other⟩

end Ops

/-- An operation of the owner of a list, with what it has seen. -/
structure OpEvent (α : Type) where
  list : ListPtr
  op : Op α
  seen : Seen α

section Runs

variable [Inhabited α]

/-- One of the threads performs an operation on its list, without a lock. -/
inductive OpStep (lists : List ListPtr) (h : Heap α) : List (OpEvent α) → Heap α → Prop
  | perform {l : ListPtr} {op : Op α} {h' : Heap α} {seen : Seen α} (member : l ∈ lists) (own : op.Own l h)
      (run : op.perform l h = some (h', seen)) : OpStep lists h [⟨l, op, seen⟩] h'

variable {h h' : Heap α} {events : List (OpEvent α)} {lists : List ListPtr}

/-- A run is, list by list, one of the list's owner alone. -/
theorem OpStep.project (start : ∀ l ∈ lists, ListInv h l) (run : Run (OpStep lists) h events h') (l : ListPtr) :
    Run (OpStep [l]) (h.part l) (events.filter fun e => e.list = l) (h'.part l) := by
  refine (Run.project (fun l => OpStep [l]) (fun g => ∀ l ∈ lists, ListInv (g.part l) l) (fun l g => g.part l) OpEvent.list
    (fun g events g' inv step => ?_) (fun l member => (start l member).part) run).2 l
  obtain ⟨member, own, run⟩ := step
  rename_i m op seen
  obtain ⟨alone, kept, others⟩ := op.onPart own (inv m member) run
  refine ⟨fun k inLists => ?_, _, rfl, .perform (List.mem_singleton_self m) own.part alone, fun k other => others k other⟩
  by_cases same : k = m
  · rw [same]
    exact kept
  · rw [others k same]
    exact inv k inLists

/-- What the owner of a list does decides what it sees and what becomes of the list. -/
theorem OpStep.functional {l : ListPtr} {e e' : OpEvent α} {k k' k'' : Heap α} (first : OpStep [l] k [e] k')
    (second : OpStep [l] k [e'] k'') (same : e.op = e'.op) : e = e' ∧ k' = k'' := by
  obtain ⟨member, _, run⟩ := first
  obtain ⟨member', _, run'⟩ := second
  dsimp only at same
  subst same
  rw [List.mem_singleton] at member member'
  subst member member'
  rw [run] at run'
  cases run'
  exact ⟨rfl, rfl⟩

theorem OpStep.mem_lists (run : Run (OpStep lists) h events h') : ∀ e ∈ events, e.list ∈ lists := by
  induction run with
  | refl =>
    intro e member
    cases member
  | tail _ last ih =>
    obtain ⟨inLists, _, _⟩ := last
    intro e member
    rcases List.mem_append.mp member with before | now
    · exact ih e before
    · rw [List.mem_singleton.mp now]
      exact inLists

/-- However the threads' operations follow each other, what became of each list and what its thread has seen is what comes
of this thread's operations on its part of the memory alone. -/
theorem Reachable.isolated {set : CreatedSet} {allowed : Allowed α} (safe : ∀ g l, allowed g l → AllocSafe g l)
    (reachable : Reachable set allowed h) (run : Run (OpStep set.tidToThreadList) h events h') (l : ListPtr) :
    Run (OpStep [l]) (h.part l) (events.filter fun e => e.list = l) (h'.part l) :=
  OpStep.project (fun _ member => (reachable.ok safe).inv member) run l

/-- Two interleavings of the same operations of each thread lead to the same memory, and each thread has seen the same. -/
theorem Reachable.interleavings_agree {set : CreatedSet} {allowed : Allowed α} {h'' : Heap α} {events' : List (OpEvent α)}
    (safe : ∀ g l, allowed g l → AllocSafe g l) (reachable : Reachable set allowed h)
    (run : Run (OpStep set.tidToThreadList) h events h') (run' : Run (OpStep set.tidToThreadList) h events' h'')
    (same : ∀ l ∈ set.tidToThreadList, (events.filter fun e => e.list = l).map OpEvent.op =
      (events'.filter fun e => e.list = l).map OpEvent.op) :
    h' = h'' ∧ ∀ l, (events.filter fun e => e.list = l) = events'.filter fun e => e.list = l := by
  have setOk := reachable.ok safe
  have missing {events : List (OpEvent α)} {g : Heap α} (run : Run (OpStep set.tidToThreadList) h events g) {l : ListPtr}
      (out : l ∉ set.tidToThreadList) : (events.filter fun e => e.list = l) = [] := by
    rw [List.filter_eq_nil_iff]
    intro e member own
    exact out (of_decide_eq_true own ▸ OpStep.mem_lists run e member)
  have agree (l : ListPtr) : (events.filter fun e => e.list = l) = (events'.filter fun e => e.list = l) ∧
      h'.part l = h''.part l := by
    refine Run.determined OpEvent.op (fun k done k' step => ?_) (fun k e e' k' k'' => OpStep.functional)
      (OpStep.project (fun _ member => setOk.inv member) run l) (OpStep.project (fun _ member => setOk.inv member) run' l) ?_
    · obtain ⟨_, _, _⟩ := step
      exact ⟨_, rfl⟩
    · by_cases inLists : l ∈ set.tidToThreadList
      · exact same l inLists
      · rw [missing run inLists, missing run' inLists]
  exact ⟨Heap.ext_part fun l => (agree l).2, fun l => (agree l).1⟩

end Runs

section Two

/-- A new set of two threads, with room for two elements in each node. -/
theorem twoThreads_new : Reachable twoThreads (fun h l => AllocSafe h l) (createPumaSet twoThreads.toPumaSet 4000 8192 : Heap Unit) :=
  ⟨4000, 8192, by decide, .refl⟩

/-- Each of two threads allocates an element, in one order and in the other. -/
theorem twoThreads_pumallocs : ∃ h h' : Heap Unit,
    Run (OpStep [0, 1]) (createPumaSet twoThreads.toPumaSet 4000 8192)
      [⟨0, .pumalloc 0, .element ⟨0, 0⟩⟩, ⟨1, .pumalloc 5, .element ⟨5, 0⟩⟩] h ∧
    Run (OpStep [0, 1]) (createPumaSet twoThreads.toPumaSet 4000 8192)
      [⟨1, .pumalloc 5, .element ⟨5, 0⟩⟩, ⟨0, .pumalloc 0, .element ⟨0, 0⟩⟩] h' := by
  have pumalloc {h h' : Heap Unit} {e : ElemPtr} (l : ListPtr) (block : NodePtr) (member : l ∈ [0, 1])
      (fresh : block ∉ h.blocks) (empty : (h.lists l).tail = none) (run : pumallocOnThreadList h l block = some (h', e)) :
      OpStep [0, 1] h [⟨l, .pumalloc block, .element e⟩] h' := by
    refine .perform member ⟨fun t n p m atTail => ?_, fresh⟩ (by rw [Op.perform, run]; rfl)
    rw [empty] at atTail
    cases atTail
  exact ⟨_, _, (Run.single (pumalloc 0 0 (by decide) (by decide) rfl rfl)).tail (pumalloc 1 5 (by decide) (by decide) rfl rfl),
    (Run.single (pumalloc 1 5 (by decide) (by decide) rfl rfl)).tail (pumalloc 0 0 (by decide) (by decide) rfl rfl)⟩

theorem twoThreads_isolated : ∃ h : Heap Unit,
    Run (OpStep [1]) ((createPumaSet twoThreads.toPumaSet 4000 8192 : Heap Unit).part 1)
      [⟨1, .pumalloc 5, .element ⟨5, 0⟩⟩] (h.part 1) := by
  obtain ⟨h, _, run, _⟩ := twoThreads_pumallocs
  exact ⟨h, Reachable.isolated (fun _ _ safe => safe) twoThreads_new run 1⟩

theorem twoThreads_agree : ∃ h h' : Heap Unit, (∃ events, Run (OpStep [0, 1]) (createPumaSet twoThreads.toPumaSet 4000 8192) events h) ∧
    (∃ events, Run (OpStep [0, 1]) (createPumaSet twoThreads.toPumaSet 4000 8192) events h') ∧ h = h' := by
  obtain ⟨h, h', run, run'⟩ := twoThreads_pumallocs
  refine ⟨h, h', ⟨_, run⟩, ⟨_, run'⟩, (Reachable.interleavings_agree (fun _ _ safe => safe) twoThreads_new run run' ?_).1⟩
  intro l member
  have cases : l = 0 ∨ l = 1 := by simpa [twoThreads] using member
  rcases cases with rfl | rfl <;> rfl

end Two

end Puma
