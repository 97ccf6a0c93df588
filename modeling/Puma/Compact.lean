import Puma.ThreadRuns
import Puma.WellFormed

namespace Puma

open Relation

variable {α : Type}

section Operations

variable {h : Heap α} {l : ListPtr} {A S : List NodePtr}

/-- The lists of a run are well formed. -/
theorem ThreadListOk.wellFormed (list : ThreadListOk h l A S) (ok : h.Ok) : WellFormed h l A S := by
  have alone : Joined (h.without h.blocks.toList) h h := by
    have missing (p : NodePtr) : (h.without h.blocks.toList).node p = none := by
      rw [Heap.node_without]
      cases atNode : h.node p with
      | none => simp
      | some n => simp [Heap.mem_blocks.mpr ⟨n, atNode⟩]
    exact ⟨fun p => by rw [missing, Option.or_none], fun p _ _ => missing p, rfl, rfl⟩
  exact list.toShape.wellFormed ok alone list.count

/-- What freeing a live element does to its list. -/
structure Freed (h h' : Heap α) (l : ListPtr) (A S' : List NodePtr) (p : NodePtr) (i : Nat) : Prop where
  list : WellFormed h' l A S'
  here : ∀ s, h.slots p = some s → h'.slots p = some (s.free i)
  kept : ∀ q ∈ A, q ≠ p → h'.slots q = h.slots q

theorem WellFormed.pufree (list : WellFormed h l A S) {p : NodePtr} (member : p ∈ A) {n : PumaNode α}
    (atNode : h.node p = some n) {i : Nat} (live : i ∈ n.toSlots.liveSlots) :
    ∃ h' S', pufree h ⟨p, i⟩ = some h' ∧ Freed h h' l A S' p i := by
  obtain ⟨shape, ok, elems⟩ := list.only
  have joined := h.joined_only (A ++ S)
  have atOnly : (h.only (A ++ S)).node p = some n := by
    rw [Heap.node_only, if_pos (List.mem_append_left S member), atNode]
  obtain ⟨h₁, S', run, post, ok₁⟩ := freeElementOnNode_spec shape (ok.except none) member atOnly live
  obtain ⟨h', run', joined'⟩ := (Joined.rule _).freeElementOnNode joined ⟨p, i⟩ p h₁ run
  have fewer := post.elems shape (ok.except none) member (Heap.slots_eq atOnly) live
  have count : (h₁.lists l).numElements = (h₁.elems A).card := by
    have cards := congrArg Multiset.card fewer
    have before := list.numElements_eq
    rw [Multiset.card_cons, elems, ← before, joined.lists] at cards
    rw [post.numElements, sizeSub_of_le (by omega)]
    omega
  have slots {q : NodePtr} (inA : q ∈ A) : h'.slots q = h₁.slots q := by
    obtain ⟨m, atNode₁, _⟩ := post.shape.node (List.mem_append_left S' inA)
    rw [Heap.slots_eq atNode₁, joined'.slots (Heap.slots_eq atNode₁)]
  refine ⟨h', S', run', post.shape.wellFormed ok₁.ok joined' count, fun s atSlots => ?_, fun q inA other => ?_⟩
  · rw [slots member]
    exact post.freed s (by rw [Heap.slots_only (List.mem_append_left S member), atSlots])
  · rw [slots inA, post.kept q (List.mem_append_left S' inA) other, Heap.slots_only (List.mem_append_left S inA)]

/-- What cleaning up its active node `p` does to a list. -/
structure Cleaned (h h' : Heap α) (l : ListPtr) (B : List NodePtr) (p : NodePtr) (D A' S' : List NodePtr) : Prop where
  list : WellFormed h' l A' S'
  activePrefix : A' <+: B ++ p :: D
  elems : h'.elems A' = h.elems (B ++ p :: D)
  numElements : (h'.lists l).numElements = (h.lists l).numElements
  before : ∀ q ∈ B, h'.slots q = h.slots q
  place : (∃ D', A' = B ++ p :: D') ∨ (A' <+: B ∧ p ∈ S')
  compact : ∃ n', h'.node p = some n' ∧ n'.index = B.length ∧ n'.toSlots.liveSlots = Finset.range n'.numElements ∧
    (n'.numElements = n'.capacity ∨ A' <+: B ++ [p])

theorem WellFormed.cleanupNode {B D : List NodePtr} {p : NodePtr} (list : WellFormed h l (B ++ p :: D) S) :
    ∃ h' A' S', cleanupNode h p l = some h' ∧ Cleaned h h' l B p D A' S' := by
  obtain ⟨shape, ok, elems⟩ := list.only
  have joined := h.joined_only (B ++ p :: D ++ S)
  obtain ⟨h₁, A', S', run, post⟩ := cleanupNode_spec shape (ok.except (some p))
  obtain ⟨h', run', joined'⟩ := (Joined.rule _).cleanupNode joined (Set.mem_univ l) p h₁ run
  have inChain : p ∈ A' ++ S' := by
    rcases post.place with ⟨D', rfl⟩ | ⟨_, spare⟩
    · simp
    · exact List.mem_append_right A' spare
  obtain ⟨n', atNode₁, _⟩ := post.shape.node inChain
  have numElements : (h₁.lists l).numElements = (h.lists l).numElements := by rw [post.numElements, joined.lists]
  have same : h'.elems A' = h.elems (B ++ p :: D) := by rw [post.shape.elems_joined joined', post.elems, elems]
  have count : (h₁.lists l).numElements = (h₁.elems A').card := by
    rw [numElements, list.numElements_eq, post.elems, elems]
  refine ⟨h', A', S', run', post.shape.wellFormed post.ok joined' count, post.activePrefix, same, ?_, fun q inB => ?_,
    post.place, n', joined'.node atNode₁, ?_, post.compact _ (Heap.slots_eq atNode₁),
    post.last.imp_left fun full => full _ (Heap.slots_eq atNode₁)⟩
  · rw [joined'.lists, numElements]
  · have inside : q ∈ B ++ p :: D ++ S := by simp [inB]
    obtain ⟨m, atNode, _⟩ := shape.node inside
    have kept := post.before q inB
    rw [Heap.slots_eq atNode] at kept
    rw [joined'.slots kept, ← Heap.slots_eq atNode, Heap.slots_only inside]
  · obtain ⟨n₀, atNode₀, _, index⟩ := post.evolves.node atNode₁
    rw [index, shape.index_eq rfl atNode₀]

/-- `_cleanupNode` of any active node of a well-formed list moves elements from the end of the list
into the node until it is full or the last one, and none in front of it. -/
theorem WellFormed.cleanupNode_compacts (list : WellFormed h l A S) {p : NodePtr} (member : p ∈ A) :
    ∃ h' A' S' n', Puma.cleanupNode h p l = some h' ∧ WellFormed h' l A' S' ∧
      h'.elems (A' ++ S') = h.elems (A ++ S) ∧ (h'.lists l).numElements = (h.lists l).numElements ∧
      p ∈ A' ++ S' ∧ h'.node p = some n' ∧ n'.toSlots.liveSlots = Finset.range n'.numElements ∧
      (n'.numElements = n'.capacity ∨
        ∀ q ∈ A' ++ S', ∀ m, h'.node q = some m → n'.index < m.index → m.toSlots.liveSlots = ∅) ∧
      ∀ q ∈ A, ∀ n m, h.node p = some n → h.node q = some m → m.index < n.index → h'.slots q = h.slots q := by
  obtain ⟨B, D, rfl⟩ := List.append_of_mem member
  obtain ⟨h', A', S', run, post⟩ := list.cleanupNode
  obtain ⟨n', atNode', index, compact, last⟩ := post.compact
  have inChain : p ∈ A' ++ S' := by
    rcases post.place with ⟨D', rfl⟩ | ⟨_, spare⟩
    · simp
    · exact List.mem_append_right A' spare
  refine ⟨h', A', S', n', run, post.list, ?_, post.numElements, inChain, atNode', compact,
    last.imp_right fun short q inside m atNode later => ?_, fun q inA n m atNode atNodeQ earlier => ?_⟩
  · rw [Heap.elems_append, Heap.elems_append, post.list.elems_spare, list.elems_spare, post.elems]
  · rcases List.mem_append.mp inside with inA' | spare
    · -- No active node has an index behind that of `p`.
      obtain ⟨i, atIndex⟩ := List.mem_iff_getElem?.mp inA'
      have same := post.list.index i q m atIndex atNode
      have bound := (List.getElem?_eq_some_iff.mp atIndex).1
      have length := short.length_le
      rw [List.length_append, List.length_singleton] at length
      omega
    · exact post.list.empty q spare m atNode
  · obtain ⟨i, atIndex⟩ := List.mem_iff_getElem?.mp inA
    have same := list.index i q m atIndex atNodeQ
    have here := list.index B.length p n (by simp) atNode
    rw [List.getElem?_append_left (by omega)] at atIndex
    exact post.before q (List.mem_of_getElem? atIndex)

end Operations

/-- A list with an element behind a hole. -/
theorem wellFormed_hole : ∃ (h : Heap Unit) (A S : List NodePtr), WellFormed h 0 A S ∧ 0 ∈ A ∧
    h.read ⟨0, 0⟩ = none ∧ (h.read ⟨0, 1⟩).isSome ∧ h.lists 1 = .empty false 0 := by
  obtain ⟨h, reachable, live, hole, there, other⟩ : ∃ h : Heap Unit, ThreadReachable (Permit.allocSafe 0) 0 h ∧
      h.Live 0 ⟨0, 1⟩ ∧ h.read ⟨0, 0⟩ = none ∧ (h.read ⟨0, 1⟩).isSome ∧ h.lists 1 = .empty false 0 := by
    refine ⟨_, ⟨4000, 8192, by decide, ((ReflTransGen.single
      (.pumalloc 0 (fun t n p m atTail => ?_) (fun _ _ => trivial) rfl)).tail
      (.pumalloc 9 (fun t n p m atTail atNode _ _ before => ?_) (fun _ _ => trivial) rfl)).tail
      (.pufree ⟨0, 0⟩ ⟨_, rfl, rfl, by decide⟩ trivial rfl)⟩, ⟨_, rfl, rfl, by decide⟩, rfl, rfl, rfl⟩
    · cases atTail
    · cases atTail
      cases atNode
      cases before
  obtain ⟨ok, _, A, S, list⟩ := reachable.inv
  exact ⟨h, A, S, list.wellFormed ok, live.active list.toShape ok, hole, there, other⟩

theorem cleanupNode_compacts_hole : ∃ (h h' : Heap Unit) (n' : PumaNode Unit), h.read ⟨0, 0⟩ = none ∧
    cleanupNode h 0 0 = some h' ∧ h'.node 0 = some n' ∧ n'.toSlots.liveSlots = Finset.range n'.numElements := by
  obtain ⟨h, A, S, list, member, hole, _⟩ := wellFormed_hole
  obtain ⟨h', A', S', n', run, _, _, _, _, atNode', compact, _⟩ := list.cleanupNode_compacts member
  exact ⟨h, h', n', hole, run, atNode', compact⟩

end Puma
