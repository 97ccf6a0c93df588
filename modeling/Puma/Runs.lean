import Puma.Calls

namespace Puma

open DoublyLinked

variable {α : Type}

/-- The active nodes of list `l` are its chain from the head up to the tail, numbered
from 0 on, and counted by `numNodes` and by `_countNodes`; without active nodes the
tail is the head. -/
structure ChainOk (h : Heap α) (l : ListPtr) (A S : List NodePtr) : Prop where
  chain : Segment h.next h.prev none (A ++ S) none
  head : (h.lists l).head = (A ++ S).head?
  tail : (h.lists l).tail = if A = [] then (h.lists l).head else A.getLast?
  active : ∀ p n, h.node p = some n → n.threadList = l → (n.active = true ↔ p ∈ A)
  index : ∀ i p n, A[i]? = some p → h.node p = some n → n.threadList = l ∧ n.index = i
  numNodes : (h.lists l).numNodes = A.length
  countNodes : countNodes h l = some A.length

/-- `_countNodes` counts the active nodes in front of the first inactive one. -/
theorem countNodesFrom_eq {h : Heap α} {l : ListPtr} {A S : List NodePtr} (shape : Shape h l A S) {B D : List NodePtr}
    (split : A = B ++ D) {turns : Nat} (enough : D.length < turns) :
    countNodesFrom turns h (D ++ S).head? = some D.length := by
  induction D generalizing B turns with
  | nil =>
    obtain ⟨turns, rfl⟩ : ∃ t, turns = t + 1 := Nat.exists_eq_succ_of_ne_zero (by omega)
    cases S with
    | nil => rfl
    | cons s S =>
      obtain ⟨n, atNode, _⟩ := shape.node (p := s) (by simp)
      have off : n.active = false := by
        rw [← Bool.not_eq_true, shape.active_iff atNode (by simp)]
        exact shape.notMem_active (List.mem_cons_self ..)
      simp [countNodesFrom, atNode, off]
  | cons c D ih =>
    obtain ⟨turns, rfl⟩ : ∃ t, turns = t + 1 := Nat.exists_eq_succ_of_ne_zero (by omega)
    obtain ⟨n, atNode, _⟩ := shape.node (p := c) (by simp [split])
    have on : n.active = true := (shape.active_iff atNode (by simp [split])).mpr (by simp [split])
    have behind : n.next = (D ++ S).head? := shape.next_eq (B := B) (by simp [split]) atNode
    rw [List.length_cons] at enough
    have rest := ih (B := B ++ [c]) (by simp [split]) (Nat.lt_of_succ_lt_succ enough)
    simp only [List.cons_append, List.head?_cons, countNodesFrom, atNode, Option.bind_eq_bind, Option.bind_some, on,
      if_true, behind, rest, Option.map_some, List.length_cons]

theorem ThreadListOk.counted_chain {h : Heap α} {l : ListPtr} {A S : List NodePtr} (list : ThreadListOk h l A S) :
    ChainOk h l A S where
  chain := list.chain
  head := list.head
  tail := by
    rw [list.tail, list.head]
    cases A with
    | nil => rfl
    | cons p A =>
      rw [if_neg (List.cons_ne_nil p A), Option.or_of_isSome (by simp)]
  active p n atNode owner := list.active p _ (Heap.links_eq atNode) owner
  index i p n atIndex atNode := by
    obtain ⟨m, atNode', owner⟩ := list.node (List.mem_append_left S (List.mem_of_getElem? atIndex))
    rw [← Option.some.inj (atNode.symm.trans atNode')] at owner
    exact ⟨owner, list.index i p _ atIndex (Heap.links_eq atNode)⟩
  numNodes := list.numNodes
  countNodes := by
    have bound := list.card_le_blocks
    rw [List.length_append] at bound
    rw [Puma.countNodes, list.head]
    exact countNodesFrom_eq list.toShape (B := []) rfl (by omega)

/-- Every list of a set in order has such a chain, also the lists that no thread uses. -/
theorem SetOk.chains {h : Heap α} {lists : List ListPtr} (setOk : SetOk h lists) (l : ListPtr) :
    ∃ A S, ChainOk h l A S := by
  by_cases member : l ∈ lists
  · obtain ⟨A, S, list⟩ := setOk.each l member
    exact ⟨A, S, list.counted_chain⟩
  · have idle := setOk.idle l member
    refine ⟨[], [], trivial, by rw [idle]; rfl, by rw [if_pos rfl, idle]; rfl, fun p n atNode owner => ?_,
      fun i p n atIndex => (by cases atIndex), by rw [idle]; rfl, ?_⟩
    · exact (member (owner ▸ setOk.owner p n atNode)).elim
    · rw [Puma.countNodes, idle]
      rfl

/-- One thread in one domain. -/
def oneThread : CreatedSet where
  domains := [[0]]
  tidToThreadList := [0]
  autoBalance := false
  splitter _ _ := 0
  threads := by decide
  distinct := by decide
  cpus := by decide
  placed := by decide

/-- Two threads in two domains. -/
def twoThreads : CreatedSet where
  domains := [[0], [1]]
  tidToThreadList := [0, 1]
  autoBalance := true
  splitter _ _ := 0
  threads := by decide
  distinct := by decide
  cpus := by decide
  placed := by decide

/-- Two threads whose lists nobody balances. -/
def twoThreadsManual : CreatedSet := { twoThreads with autoBalance := false }

/-- Elements come and go on two nodes of the first thread and stay on the one of the second; twice an
allocation starts from a tail without fresh slots, and at the end a hole is left. -/
def busyCalls : List Call :=
  [.pumalloc 0 0, .pumalloc 1 1, .pumalloc 0 3, .pumalloc 0 2, .pumalloc 0 3, .pufree ⟨2, 0⟩, .pumalloc 0 3,
   .pufree ⟨2, 0⟩, .pufree ⟨2, 1⟩, .pumalloc 0 3, .runKernel [0, 1], .pufree ⟨0, 0⟩]

set_option maxRecDepth 8000 in
/-- What the calls leave: elements behind the hole, in the next node, and with the other thread. -/
theorem busyCalls_run : ∃ h : Heap Unit, Reachable twoThreads (fun h l => AllocSafe h l) h ∧
    (h.read ⟨0, 0⟩).isNone ∧ (h.read ⟨0, 1⟩).isSome ∧ (h.read ⟨1, 0⟩).isSome ∧ (h.read ⟨2, 0⟩).isSome := by
  refine ⟨_, Reachable.of_safeCalls 4000 8192 busyCalls (by decide) rfl, ?_⟩
  decide

/-- Three nodes with one slot each, of which the last two are emptied: the next allocation gives up
both, and brings only the last one back. -/
def gapCalls : List Call :=
  [.pumalloc 0 0, .pumalloc 0 1, .pumalloc 0 2, .pufree ⟨1, 0⟩, .pufree ⟨2, 0⟩, .pumalloc 0 3]

set_option maxRecDepth 4000 in
/-- What the calls leave: elements in the first and in the last node, and an inactive node between them. -/
theorem gapCalls_run : ∃ h : Heap Unit, Reachable oneThread (fun _ _ => True) h ∧
    (h.read ⟨0, 0⟩).isSome ∧ (h.read ⟨2, 0⟩).isSome ∧ (h.lists 0).numNodes = 2 ∧ countNodes h 0 = some 1 ∧
    (runKernelList oneThread.toPumaSet (⟨(), h⟩ : World Unit Unit) [fun _ => idleKernel] (idleOracle h [0])).map
      (fun r => r.2.length) = some 1 := by
  refine ⟨_, Reachable.of_calls 8000 8192 gapCalls (by decide) rfl, ?_⟩
  decide

section Runs

variable [Inhabited α]

/-- After safe allocations a pass over the set meets every live element once with each kernel. -/
theorem Reachable.runsEachOnce {set : CreatedSet} {h : Heap α}
    (reachable : Reachable set (fun h l => AllocSafe h l) h) : RunsEachOnce set h :=
  (reachable.ok fun _ _ safe => safe).visitsEachOnce

end Runs

/-- Three elements on two threads, each visited once. -/
theorem twoThreads_runsEachOnce : ∃ h : Heap Unit, (h.read ⟨0, 1⟩).isSome ∧ (h.read ⟨1, 0⟩).isSome ∧
    (h.read ⟨2, 0⟩).isSome ∧ RunsEachOnce twoThreads h := by
  obtain ⟨h, reachable, _, behind, other, next⟩ := busyCalls_run
  exact ⟨h, behind, other, next, Reachable.runsEachOnce reachable⟩

/-- Behind the gap, a pass meets no element. -/
theorem gap_not_runsEachOnce : ∃ h : Heap Unit, Reachable oneThread (fun _ _ => True) h ∧
    ¬ RunsEachOnce oneThread h := by
  obtain ⟨h, reachable, first, last, _, _, one⟩ := gapCalls_run
  refine ⟨h, reachable, fun each => ?_⟩
  obtain ⟨h₁, w', visits, _, _, _, run, order⟩ := each Unit () [fun _ => idleKernel] (idleOracle h [0])
    (fun kernel member thread => by
      rw [List.mem_singleton.mp member]
      exact ⟨idleKernel_writes _, idleKernel_returns⟩)
    ⟨fun thread => by cases thread <;> simp [idleOracle, oneThread], Nat.lt_succ_self _⟩
  rw [run, Option.map_some, Option.some.injEq, List.length_map] at one
  -- One visit cannot be both to the first and to the last element.
  have seen (e : ElemPtr) (live : (h.read e).isSome) : ∃ v ∈ visits, v.content.2 = e := by
    have applied := order e
    rw [if_pos live] at applied
    have member : 0 ∈ Puma.applied visits e := by rw [applied]; simp
    obtain ⟨v, inside, _⟩ := List.mem_map.mp member
    exact ⟨v, (List.mem_filter.mp inside).1, of_decide_eq_true (List.mem_filter.mp inside).2⟩
  obtain ⟨v, visits_eq⟩ := List.length_eq_one_iff.mp one
  obtain ⟨v₁, in₁, at₁⟩ := seen _ first
  obtain ⟨v₂, in₂, at₂⟩ := seen _ last
  rw [visits_eq, List.mem_singleton] at in₁ in₂
  rw [in₁] at at₁
  rw [in₂, at₁] at at₂
  cases at₂

section Runs

variable [Inhabited α]

/-- After safe allocations the active nodes of every list are its chain up to the tail. -/
theorem Reachable.chainOk {set : CreatedSet} {h : Heap α} (reachable : Reachable set (fun h l => AllocSafe h l) h)
    (l : ListPtr) : ∃ A S, ChainOk h l A S :=
  (reachable.ok fun _ _ safe => safe).chains l

end Runs

/-- The chain of a list with elements in two nodes. -/
theorem twoThreads_chainOk : ∃ h : Heap Unit, (h.read ⟨0, 1⟩).isSome ∧ (h.read ⟨2, 0⟩).isSome ∧
    ∃ A S, ChainOk h 0 A S := by
  obtain ⟨h, reachable, _, behind, _, next⟩ := busyCalls_run
  exact ⟨h, behind, next, Reachable.chainOk reachable 0⟩

/-- `_countNodes` stops at the gap, where `numNodes` counts the node behind it. -/
theorem gap_not_chainOk : ∃ h : Heap Unit, Reachable oneThread (fun _ _ => True) h ∧
    ¬ ∃ A S, ChainOk h 0 A S := by
  obtain ⟨h, reachable, _, _, numNodes, count, _⟩ := gapCalls_run
  refine ⟨h, reachable, fun ⟨A, S, chain⟩ => ?_⟩
  have both := chain.countNodes.symm.trans count
  rw [← chain.numNodes, numNodes] at both
  cases both

end Puma
