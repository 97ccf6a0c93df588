import Puma.Lib.Refinement
import Puma.Runs

namespace Puma

open Refinement

variable {α : Type}

/-- The threads inside `_destroyThreadListWorker`, each with its `currentNode`, and the blocks that have been passed
to `nufree_aligned`, the last one first. -/
structure DestroyState (α : Type) where
  heap : Heap α
  currentNode : Nat → Option NodePtr
  released : List NodePtr

def DestroyState.start (set : PumaSet) (h : Heap α) : DestroyState α where
  heap := h
  currentNode thread := (set.tidToThreadList[thread]?).bind fun tl => (h.lists tl).head
  released := []

/-- A turn of the loop, with the number of the thread. It needs the block of the node. -/
inductive DestroyStep (s : DestroyState α) : List Nat → DestroyState α → Prop
  | release (thread : Nat) (currentNode : NodePtr) (here : s.currentNode thread = some currentNode) (n : PumaNode α)
      (atNode : s.heap.node currentNode = some n) : DestroyStep s [thread]
        { heap := s.heap.nufreeAligned currentNode
          currentNode := Function.update s.currentNode thread n.next
          released := currentNode :: s.released }

/-- Block `p` lies on the chain of a list of the set. -/
def OnChain (set : PumaSet) (h : Heap α) (p : NodePtr) : Prop :=
  ∃ l ∈ set.tidToThreadList, ∃ A S, ThreadListOk h l A S ∧ p ∈ A ++ S

/-- The threads have released a front part of each chain, and nothing else. -/
structure DestroyInv (set : PumaSet) (h : Heap α) (s : DestroyState α) : Prop where
  node : ∀ p, s.heap.node p = if p ∈ s.released then none else h.node p
  nodup : s.released.Nodup
  only : ∀ p ∈ s.released, OnChain set h p
  each : ∀ thread l A S, set.tidToThreadList[thread]? = some l → ThreadListOk h l A S →
    ∃ R C, A ++ S = R ++ C ∧ s.currentNode thread = C.head? ∧ ∀ p ∈ A ++ S, p ∈ s.released ↔ p ∈ R
  idle : ∀ thread, set.tidToThreadList[thread]? = none → s.currentNode thread = none

theorem DestroyInv.start (set : PumaSet) (h : Heap α) : DestroyInv set h (.start set h) where
  node p := by simp [DestroyState.start]
  nodup := List.nodup_nil
  only := nofun
  each thread l A S atThread list := ⟨[], A ++ S, rfl, by simp [DestroyState.start, atThread, list.head], by
    simp [DestroyState.start]⟩
  idle thread missing := by simp [DestroyState.start, missing]

section Steps

variable {set : CreatedSet} {h : Heap α} {s : DestroyState α}

/-- A thread's node is one of its list that is still there, and the rest of the chain lies behind it. -/
theorem DestroyInv.currentNode (inv : DestroyInv set.toPumaSet h s) {thread : Nat} {l : ListPtr} {A S : List NodePtr}
    (atThread : set.tidToThreadList[thread]? = some l) (list : ThreadListOk h l A S) {c : NodePtr}
    (here : s.currentNode thread = some c) : ∃ R C n, A ++ S = R ++ c :: C ∧ (∀ p ∈ A ++ S, p ∈ s.released ↔ p ∈ R) ∧
      h.node c = some n ∧ s.heap.node c = some n ∧ n.threadList = l ∧ n.next = C.head? := by
  obtain ⟨R, C, split, head, released⟩ := inv.each thread l A S atThread list
  rw [here] at head
  obtain ⟨C, rfl⟩ : ∃ C', C = c :: C' := by
    cases C with
    | nil => cases head
    | cons d C =>
      cases head
      exact ⟨C, rfl⟩
  have member : c ∈ A ++ S := by simp [split]
  have fresh : c ∉ s.released := by
    rw [released c member]
    have nodup := list.nodup
    rw [split, List.nodup_append] at nodup
    exact fun old => nodup.2.2 c old c (List.mem_cons_self ..) rfl
  obtain ⟨n, atNode, owner⟩ := list.node member
  exact ⟨R, C, n, split, released, atNode, by rw [inv.node, if_neg fresh, atNode], owner, list.next_eq split atNode⟩

/-- A thread that has a node has a list. -/
theorem DestroyInv.thread (inv : DestroyInv set.toPumaSet h s) (setOk : SetOk h set.tidToThreadList) {thread : Nat}
    {c : NodePtr} (here : s.currentNode thread = some c) :
    ∃ l A S, set.tidToThreadList[thread]? = some l ∧ ThreadListOk h l A S := by
  cases atThread : set.tidToThreadList[thread]? with
  | none =>
    rw [inv.idle thread atThread] at here
    cases here
  | some l =>
    obtain ⟨A, S, list⟩ := setOk.each l (List.mem_of_getElem? atThread)
    exact ⟨l, A, S, rfl, list⟩

/-- The lists of two threads have no node in common. -/
theorem CreatedSet.apart {t thread : Nat} {l m : ListPtr} {A S : List NodePtr} {c : NodePtr} {n : PumaNode α}
    (atThread : set.tidToThreadList[thread]? = some l) (atNode : h.node c = some n) (owner : n.threadList = l)
    (other : t ≠ thread) (atT : set.tidToThreadList[t]? = some m) (list : ThreadListOk h m A S) : c ∉ A ++ S := by
  intro member
  obtain ⟨k, atC, owner'⟩ := list.node member
  cases Option.some.inj (atC.symm.trans atNode)
  exact set.list_ne atT atThread other (owner'.symm.trans owner)

theorem DestroyInv.step (inv : DestroyInv set.toPumaSet h s) (setOk : SetOk h set.tidToThreadList) {events : List Nat}
    {s' : DestroyState α} (step : DestroyStep s events s') :
    DestroyInv set.toPumaSet h s' ∧ events.length = 1 ∧ s'.released.length = s.released.length + 1 := by
  cases step with
  | release thread c here n atNode =>
    obtain ⟨l, A, S, atThread, list⟩ := inv.thread setOk here
    obtain ⟨R, C, n', split, released, atNode', still, owner, next⟩ := inv.currentNode atThread list here
    cases Option.some.inj (atNode.symm.trans still)
    refine ⟨⟨fun p => ?_, ?_, ?_, fun t m A' S' atT list' => ?_, fun t missing => ?_⟩, rfl, rfl⟩
    · rw [Heap.node_nufreeAligned, inv.node]
      by_cases same : p = c <;> simp [same]
    · refine List.nodup_cons.mpr ⟨fun old => ?_, inv.nodup⟩
      rw [inv.node, if_pos old] at still
      cases still
    · exact List.forall_mem_cons.mpr ⟨⟨l, List.mem_of_getElem? atThread, A, S, list, by simp [split]⟩, inv.only⟩
    · by_cases same : t = thread
      · subst same
        obtain ⟨R', C', n', split', released', atC, _, _, next'⟩ := inv.currentNode atT list' here
        cases Option.some.inj (atC.symm.trans atNode')
        refine ⟨R' ++ [c], C', by simp [split'], by dsimp only; rw [Function.update_self, next'], fun p inside => ?_⟩
        rw [List.mem_cons, List.mem_append, List.mem_singleton, released' p inside, or_comm]
      · obtain ⟨R', C', split', head', released'⟩ := inv.each t m A' S' atT list'
        refine ⟨R', C', split', by dsimp only; rw [Function.update_of_ne same, head'], fun p inside => ?_⟩
        have other : p ≠ c := fun equal => CreatedSet.apart atThread atNode' owner same atT list' (equal ▸ inside)
        rw [List.mem_cons, or_iff_right other]
        exact released' p inside
    · have other : t ≠ thread := by
        rintro rfl
        rw [missing] at atThread
        cases atThread
      dsimp only
      rw [Function.update_of_ne other]
      exact inv.idle t missing

theorem DestroyInv.run {schedule : List Nat} (setOk : SetOk h set.tidToThreadList)
    (run : Run DestroyStep (.start set.toPumaSet h) schedule s) :
    DestroyInv set.toPumaSet h s ∧ schedule.length = s.released.length := by
  induction run with
  | refl => exact ⟨.start set.toPumaSet h, rfl⟩
  | tail _ last ih =>
    obtain ⟨inv, length⟩ := ih
    obtain ⟨inv', one, more⟩ := inv.step setOk last
    exact ⟨inv', by rw [List.length_append, length, one, more]⟩

/-- A walk that has not ended finds its next node. -/
theorem DestroyInv.progress (inv : DestroyInv set.toPumaSet h s) (setOk : SetOk h set.tidToThreadList) {thread : Nat}
    {c : NodePtr} (here : s.currentNode thread = some c) : ∃ s', DestroyStep s [thread] s' := by
  obtain ⟨l, A, S, atThread, list⟩ := inv.thread setOk here
  obtain ⟨R, C, n, _, _, _, still, _⟩ := inv.currentNode atThread list here
  exact ⟨_, .release thread c here n still⟩

/-- At the end the chains are gone. -/
theorem DestroyInv.ended (inv : DestroyInv set.toPumaSet h s) (all : ∀ thread, s.currentNode thread = none) {p : NodePtr} :
    p ∈ s.released ↔ OnChain set.toPumaSet h p := by
  refine ⟨inv.only p, fun ⟨l, member, A, S, list, inside⟩ => ?_⟩
  obtain ⟨thread, atThread⟩ := List.mem_iff_getElem?.mp member
  obtain ⟨R, C, split, head, released⟩ := inv.each thread l A S atThread list
  rw [all thread] at head
  have empty : C = [] := List.head?_eq_none_iff.mp head.symm
  rw [released p inside]
  rwa [split, empty, List.append_nil] at inside

end Steps

section Whole

variable [Inhabited α] {allowed : Allowed α}

/-- Whatever the order of the threads' steps: no block is released twice or read after its release, no thread gets stuck,
the walks end, and then just the blocks on the chains have been released, with all elements. -/
theorem Reachable.destroyPumaSet {set : CreatedSet} {h : Heap α} (safe : ∀ g l, allowed g l → AllocSafe g l)
    (reachable : Reachable set allowed h) {schedule : List Nat} {s : DestroyState α}
    (run : Run DestroyStep (.start set.toPumaSet h) schedule s) :
    s.released.Nodup ∧ (∀ p, s.heap.node p = if p ∈ s.released then none else h.node p) ∧
      schedule.length ≤ h.blocks.card ∧ (∀ thread c, s.currentNode thread = some c → ∃ s', DestroyStep s [thread] s') ∧
      ((∀ thread, s.currentNode thread = none) →
        (∀ p, p ∈ s.released ↔ OnChain set.toPumaSet h p) ∧ ∀ e, s.heap.read e = none) := by
  have setOk := reachable.ok safe
  obtain ⟨inv, length⟩ := DestroyInv.run setOk run
  refine ⟨inv.nodup, inv.node, ?_, fun thread c here => inv.progress setOk here, fun all =>
    ⟨fun p => inv.ended all, fun e => ?_⟩⟩
  · rw [length, ← List.toFinset_card_of_nodup inv.nodup]
    refine Finset.card_le_card fun p member => ?_
    obtain ⟨l, _, A, S, list, inside⟩ := inv.only p (List.mem_toFinset.mp member)
    obtain ⟨n, atNode, _⟩ := list.node inside
    exact Heap.mem_blocks.mpr ⟨n, atNode⟩
  · by_cases gone : e.node ∈ s.released
    · rw [Heap.read, Heap.slots, inv.node, if_pos gone]
      rfl
    · have same : s.heap.read e = h.read e := Heap.read_congr (by rw [Heap.slots, Heap.slots, inv.node, if_neg gone])
      rw [same, ← Option.not_isSome_iff_eq_none]
      intro there
      obtain ⟨l, live⟩ := Heap.live_of_read there
      obtain ⟨A, S, list⟩ := setOk.each l (setOk.member live)
      exact gone ((inv.ended all).mpr ⟨l, setOk.member live, A, S, list,
        List.mem_append_left S (live.active list.toShape setOk.ok)⟩)

end Whole

set_option maxRecDepth 8000 in
/-- Two threads release what they have kept: the first one two blocks, the other one in between. -/
theorem twoThreads_destroyed : ∃ (h : Heap Unit) (s : DestroyState Unit),
    Run DestroyStep (.start twoThreads.toPumaSet h) [0, 1, 0] s ∧ (h.read ⟨0, 1⟩).isSome ∧ (h.read ⟨1, 0⟩).isSome ∧
      (h.read ⟨2, 0⟩).isSome ∧ s.released = [2, 1, 0] ∧ ∀ e, s.heap.read e = none := by
  obtain ⟨h, reachable, behind, other, next, s, run, released, ended⟩ :
      ∃ h : Heap Unit, Reachable twoThreads (fun h l => AllocSafe h l) h ∧ (h.read ⟨0, 1⟩).isSome ∧
        (h.read ⟨1, 0⟩).isSome ∧ (h.read ⟨2, 0⟩).isSome ∧ ∃ s, Run DestroyStep (.start twoThreads.toPumaSet h) [0, 1, 0] s ∧
          s.released = [2, 1, 0] ∧ ∀ thread, s.currentNode thread = none := by
    refine ⟨_, Reachable.of_safeCalls 4000 8192 busyCalls (by decide) rfl, by decide, by decide, by decide, _,
      ((Run.single (DestroyStep.release 0 0 rfl _ rfl)).tail (.release 1 1 rfl _ rfl)).tail (.release 0 2 rfl _ rfl), rfl,
      fun thread => ?_⟩
    rcases thread with _ | _ | thread <;> rfl
  exact ⟨h, s, run, behind, other, next, released,
    ((Reachable.destroyPumaSet (fun _ _ safe => safe) reachable run).2.2.2.2 ended).2⟩

end Puma
