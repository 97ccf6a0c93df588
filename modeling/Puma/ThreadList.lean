import Mathlib.Logic.Relation
import Puma.Contents
import Puma.Kernel
import Puma.Pumalloc

namespace Puma

open Relation

variable {α : Type}

/-- A thread list between two operations: its shape, the number of its first
node, and its count of the elements. -/
structure ThreadListOk (h : Heap α) (l : ListPtr) (A S : List NodePtr) : Prop extends Shape h l A S where
  headIndex : HeadIndex h l
  count : (h.lists l).numElements = (h.elems A).card

theorem Keeps.listOk {h h' : Heap α} {l : ListPtr} {A S A' S' : List NodePtr} (keeps : Keeps h h' l A A' S')
    (ok : ThreadListOk h l A S) : ThreadListOk h' l A' S' :=
  ⟨keeps.shape, keeps.headIndex ok.headIndex, by rw [keeps.numElements, keeps.elems, ok.count]⟩

theorem AllocPost.listOk {h h' : Heap α} {l : ListPtr} {A S : List NodePtr} {block : NodePtr} {A' S' : List NodePtr}
    {e : ElemPtr} (post : AllocPost h h' l A S block A' S' e) (list : ThreadListOk h l A S) : ThreadListOk h' l A' S' where
  toShape := post.shape
  headIndex := post.headIndex list.headIndex
  count := by
    obtain ⟨x, _, elems⟩ := post.elems
    rw [post.numElements, elems, Multiset.card_cons, list.count]

/-- An operation on other lists keeps this one, and its elements. -/
theorem ThreadListOk.elems_untouched {h h' : Heap α} {l : ListPtr} {A S : List NodePtr} (ok : ThreadListOk h l A S)
    (untouched : Untouched h h' l) : h'.elems A = h.elems A := by
  refine Heap.elems_congr fun p member => ?_
  obtain ⟨n, atNode, owner⟩ := ok.node (List.mem_append_left S member)
  rw [Heap.slots, Heap.slots, atNode, (untouched.nodes p n owner).mpr atNode]

theorem ThreadListOk.of_untouched {h h' : Heap α} {l : ListPtr} {A S : List NodePtr} (ok : ThreadListOk h l A S)
    (untouched : Untouched h h' l) : ThreadListOk h' l A S where
  toShape := ok.toShape.of_untouched untouched
  headIndex p k atHead atLinks := by
    rw [untouched.list] at atHead
    have member : p ∈ A ++ S := by
      rw [ok.head] at atHead
      exact List.mem_of_mem_head? atHead
    obtain ⟨k₀, atLinks₀, owner⟩ := ok.owned p member
    have same := (untouched.links owner).mpr atLinks₀
    rw [Option.some.inj (atLinks.symm.trans same)]
    exact ok.headIndex p k₀ atHead atLinks₀
  count := by rw [untouched.list, ok.count, ok.elems_untouched untouched]

/-- The order of a list does not depend on the contents of its elements. -/
theorem threadListOk_mapContents {β : Type} {f : ElemPtr → α → β} {h : Heap α} {l : ListPtr} {A S : List NodePtr} :
    ThreadListOk (h.mapContents f) l A S ↔ ThreadListOk h l A S := by
  have links := Heap.links_mapContents f h
  have card := Heap.card_mapContents f h A
  constructor
  · intro list
    refine ⟨list.toShape.of_links_eq links.symm rfl rfl rfl, fun p k atHead atLinks => ?_, by rw [← card]; exact list.count⟩
    rw [← links] at atLinks
    exact list.headIndex p k atHead atLinks
  · intro list
    refine ⟨list.toShape.of_links_eq links rfl rfl rfl, fun p k atHead atLinks => ?_, by rw [card]; exact list.count⟩
    rw [links] at atLinks
    exact list.headIndex p k atHead atLinks

/-- In which memory a run may allocate on a list. -/
abbrev Allowed (α : Type) := Heap α → ListPtr → Prop

/-- `e` is a live element of list `l`. -/
def Heap.Live (h : Heap α) (l : ListPtr) (e : ElemPtr) : Prop :=
  ∃ n, h.node e.node = some n ∧ n.threadList = l ∧ e.slot ∈ n.toSlots.liveSlots

/-- A step of the thread that owns list `l`; a write changes the contents of any elements. -/
inductive ListStep [Inhabited α] (allowed : Allowed α) (l : ListPtr) : Heap α → Heap α → Prop
  | pumalloc {h h' : Heap α} {e : ElemPtr} (block : NodePtr) (here : allowed h l) (run : pumallocOnThreadList h l block = some (h', e)) : ListStep allowed l h h'
  | pufree {h h' : Heap α} (e : ElemPtr) (live : h.Live l e) (run : pufree h e = some h') :
      ListStep allowed l h h'
  | write {h h' : Heap α} (same : h'.skeleton = h.skeleton) : ListStep allowed l h h'
  | cleanup {h h' : Heap α} {p : NodePtr} {n : PumaNode α} (atNode : h.node p = some n) (owner : n.threadList = l)
      (active : n.active = true) (run : cleanupNode h p l = some h') : ListStep allowed l h h'
  | recordRunTime {h : Heap α} (elapsed : ℚ) :
      ListStep allowed l h (h.modifyList l fun tl => tl.recordRunTime elapsed)

/-- What every step of its owner keeps of a list. -/
structure StepPost (h h' : Heap α) (l : ListPtr) (A' S' : List NodePtr) : Prop where
  ok : h'.Ok
  list : ThreadListOk h' l A' S'
  loc : Local h.skeleton h'.skeleton l

theorem Heap.Live.active {h : Heap α} {l : ListPtr} {A S : List NodePtr} {e : ElemPtr} (live : h.Live l e)
    (shape : Shape h l A S) (ok : h.Ok) : e.node ∈ A := by
  obtain ⟨n, atNode, owner, inside⟩ := live
  refine (shape.active e.node _ (Heap.links_eq atNode) owner).mp ?_
  by_contra off
  rw [(ok e.node n atNode).2 (by simpa using off)] at inside
  cases inside

theorem pufree_step {h h' : Heap α} {l : ListPtr} {A S : List NodePtr} {e : ElemPtr} (ok : h.Ok)
    (list : ThreadListOk h l A S) (live : h.Live l e) (run : pufree h e = some h') :
    ∃ S', FreePost h h' l A S S' e.node e.slot ∧ StepPost h h' l A S' := by
  have member := live.active list.toShape ok
  obtain ⟨n, atNode, owner, inside⟩ := live
  obtain ⟨h₁, S', freed, post, ok₁⟩ := freeElementOnNode_spec list.toShape (ok.except none) member atNode inside
  cases Option.some.inj (freed.symm.trans run)
  refine ⟨S', post, ok₁.ok, ⟨post.shape, post.evolves.headIndex list.headIndex, ?_⟩,
    (post.frame.local list.toShape post.evolves).view _⟩
  have fewer := post.elems list.toShape (ok.except none) member (Heap.slots_eq atNode) inside
  have cards := congrArg Multiset.card fewer
  rw [Multiset.card_cons, ← list.count] at cards
  rw [post.numElements, sizeSub_of_le (by omega)]
  omega

/-- Writes to the contents of elements leave every list in order. -/
theorem write_step {h h' : Heap α} {l : ListPtr} {A S : List NodePtr} (ok : h.Ok) (list : ThreadListOk h l A S)
    (same : h'.skeleton = h.skeleton) : StepPost h h' l A S where
  ok := by
    have before : h.skeleton.Ok := Heap.ok_mapContents.mpr ok
    rw [← same] at before
    exact Heap.ok_mapContents.mp before
  list := by
    have before : ThreadListOk h.skeleton l A S := threadListOk_mapContents.mpr list
    rw [← same] at before
    exact threadListOk_mapContents.mp before
  loc := same ▸ Local.refl _ l

/-- Cleaning up an active node. -/
theorem cleanup_step {h h' : Heap α} {l : ListPtr} {A S : List NodePtr} {p : NodePtr} (ok : h.Ok)
    (list : ThreadListOk h l A S) (member : p ∈ A) (run : cleanupNode h p l = some h') :
    ∃ A' S', StepPost h h' l A' S' := by
  obtain ⟨B, D, rfl⟩ := List.append_of_mem member
  obtain ⟨h₁, A', S', cleaned, post⟩ := cleanupNode_spec list.toShape (ok.except (some p))
  cases Option.some.inj (cleaned.symm.trans run)
  have keeps := post.keeps list.toShape
  exact ⟨A', S', post.ok, keeps.listOk list, keeps.loc.view _⟩

theorem recordRunTime_step {h : Heap α} {l : ListPtr} {A S : List NodePtr} (ok : h.Ok)
    (list : ThreadListOk h l A S) (elapsed : ℚ) :
    StepPost h (h.modifyList l fun tl => tl.recordRunTime elapsed) l A S where
  ok := ok
  list := by
    refine ⟨list.toShape.of_links_eq rfl ?_ ?_ ?_, fun p k atHead => list.headIndex p k ?_, ?_⟩
    · rw [Heap.lists_modifyList_self]; rfl
    · rw [Heap.lists_modifyList_self]; rfl
    · rw [Heap.lists_modifyList_self]; rfl
    · rw [Heap.lists_modifyList_self] at atHead; exact atHead
    · rw [Heap.lists_modifyList_self]; exact list.count
  loc := (Local.modifyList h l rfl rfl).view _

theorem Local.capacityFor {h h' : Heap α} {l : ListPtr} (loc : Local h h' l) (m : ListPtr) :
    h'.capacityFor (h'.lists m).elementSize = h.capacityFor (h.lists m).elementSize := by
  by_cases same : m = l
  · rw [Heap.capacityFor, Heap.capacityFor, loc.nodeSize, same, loc.elementSize]
  · rw [Heap.capacityFor, Heap.capacityFor, loc.nodeSize, loc.lists m same]

theorem Local.capacityFor_view {β : Type} {g : α → β} {h h' : Heap α} {l : ListPtr}
    (loc : Local (h.view g) (h'.view g) l) (m : ListPtr) :
    h'.capacityFor (h'.lists m).elementSize = h.capacityFor (h.lists m).elementSize := loc.capacityFor m

/-- What the owner of a list may assume of it, and keeps. -/
def ListInv (h : Heap α) (l : ListPtr) : Prop :=
  h.Ok ∧ 0 < h.capacityFor (h.lists l).elementSize ∧ ∃ A S, ThreadListOk h l A S

theorem ListInv.mapContents {β : Type} {h : Heap α} {l : ListPtr} (inv : ListInv h l) (f : ElemPtr → α → β) :
    ListInv (h.mapContents f) l := by
  obtain ⟨ok, capacity, A, S, list⟩ := inv
  exact ⟨Heap.ok_mapContents.mpr ok, capacity, A, S, threadListOk_mapContents.mpr list⟩

/-- If the block is in use, its node belongs to list `l`. -/
def Heap.Owned (h : Heap α) (l : ListPtr) (p : NodePtr) : Prop := ∀ n, h.node p = some n → n.threadList = l

theorem Local.owned {h h' : Heap α} {l : ListPtr} {p : NodePtr} (loc : Local h.skeleton h'.skeleton l)
    (owned : h.Owned l p) : h'.Owned l p := by
  intro n atNode
  by_contra other
  have before := (loc.nodes p _ other).mp (Heap.mapContents_eq atNode)
  obtain ⟨m, atNode', same⟩ := Heap.node_of_mapContents before
  exact other ((congrArg (fun n => n.threadList) same).trans (owned m atNode'))

/-- From a node of a list, `next` leads to nodes of the same list only. -/
theorem ListInv.next {h : Heap α} {l : ListPtr} (inv : ListInv h l) {p q : NodePtr} {n : PumaNode α}
    (atNode : h.node p = some n) (owner : n.threadList = l) (after : n.next = some q) : h.Owned l q := by
  obtain ⟨_, _, A, S, list⟩ := inv
  intro m atNext
  by_cases inside : p ∈ A ++ S
  · obtain ⟨C, D, split⟩ := List.append_of_mem inside
    have behind := list.next_eq split atNode
    have member : q ∈ A ++ S := by
      rw [split]
      exact List.mem_append_right C (List.mem_cons_of_mem _ (List.mem_of_mem_head? (behind.symm.trans after)))
    obtain ⟨m', atNext', owner'⟩ := list.node member
    rw [Option.some.inj (atNext.symm.trans atNext')]
    exact owner'
  · obtain ⟨_, k, atLinks, owner'⟩ := list.strays p _ (Heap.links_eq atNode) owner inside q after
    rw [Heap.links_eq atNext] at atLinks
    rw [← owner', ← Option.some.inj atLinks]

theorem ListInv.owned_head {h : Heap α} {l : ListPtr} (inv : ListInv h l) {p : NodePtr} (atHead : (h.lists l).head = some p) :
    h.Owned l p := by
  obtain ⟨_, _, A, S, list⟩ := inv
  intro n atNode
  rw [list.head] at atHead
  obtain ⟨m, atNode', owner⟩ := list.node (List.mem_of_mem_head? atHead)
  rw [Option.some.inj (atNode.symm.trans atNode')]
  exact owner

section Steps

variable [Inhabited α] {allowed : Allowed α} {l : ListPtr}

theorem ListStep.spec {h h' : Heap α} {A S : List NodePtr} (step : ListStep allowed l h h') (ok : h.Ok)
    (list : ThreadListOk h l A S) (capacity : 0 < h.capacityFor (h.lists l).elementSize)
    (safe : ∀ g, allowed g l → AllocSafe g l) :
    ∃ A' S', StepPost h h' l A' S' := by
  cases step with
  | pumalloc block here run =>
    obtain ⟨A', S', post⟩ := pumallocOnThreadList_spec list.toShape ok list.headIndex capacity (safe h here) run
    exact ⟨A', S', post.ok, post.listOk list, post.loc.view _⟩
  | pufree e live run =>
    obtain ⟨S', _, post⟩ := pufree_step ok list live run
    exact ⟨A, S', post⟩
  | write same => exact ⟨A, S, write_step ok list same⟩
  | cleanup atNode owner active run =>
    have member := (list.active _ _ (Heap.links_eq atNode) owner).mp active
    exact cleanup_step ok list member run
  | recordRunTime elapsed => exact ⟨A, S, recordRunTime_step ok list elapsed⟩

/-- Any number of steps of the owner of a list. -/
abbrev ListRun (allowed : Allowed α) (l : ListPtr) : Heap α → Heap α → Prop := ReflTransGen (ListStep allowed l)

theorem ListRun.spec {h h' : Heap α} {A S : List NodePtr} (run : ListRun allowed l h h') (ok : h.Ok)
    (list : ThreadListOk h l A S) (capacity : 0 < h.capacityFor (h.lists l).elementSize)
    (safe : ∀ g, allowed g l → AllocSafe g l) :
    ∃ A' S', StepPost h h' l A' S' := by
  induction run with
  | refl => exact ⟨A, S, ok, list, Local.refl _ l⟩
  | tail _ step ih =>
    obtain ⟨A₁, S₁, first⟩ := ih
    obtain ⟨A', S', second⟩ := step.spec first.ok first.list
      (by rw [first.loc.capacityFor_view]; exact capacity) safe
    exact ⟨A', S', second.ok, second.list, first.loc.trans second.loc⟩

theorem ListRun.inv {h h' : Heap α} (run : ListRun allowed l h h')
    (safe : ∀ g, allowed g l → AllocSafe g l) (inv : ListInv h l) : ListInv h' l ∧ Local h.skeleton h'.skeleton l := by
  obtain ⟨ok, capacity, A, S, list⟩ := inv
  obtain ⟨A', S', post⟩ := run.spec ok list capacity safe
  exact ⟨⟨post.ok, by rw [post.loc.capacityFor_view]; exact capacity, A', S', post.list⟩, post.loc⟩

end Steps

end Puma
