import Mathlib.Algebra.BigOperators.Group.Finset.Piecewise
import Puma.Set

namespace Puma

variable {α : Type}

namespace Heap

/-- The nodes of a list, on its chain or not. -/
def nodesAt (h : Heap α) (l : ListPtr) : Finset NodePtr :=
  h.blocks.filter fun p => (h.links p).map Links.threadList = some l

/-- The contents of the elements of a list. -/
def bag (h : Heap α) (l : ListPtr) : Multiset α := ∑ p ∈ h.nodesAt l, h.contents p

/-- The contents of all elements. -/
def total (h : Heap α) : Multiset α := ∑ p ∈ h.blocks, h.contents p

theorem mem_nodesAt {h : Heap α} {l : ListPtr} {p : NodePtr} :
    p ∈ h.nodesAt l ↔ ∃ n, h.node p = some n ∧ n.threadList = l := by
  rw [nodesAt, Finset.mem_filter, mem_blocks]
  constructor
  · rintro ⟨⟨n, atNode⟩, owner⟩
    rw [links_eq atNode, Option.map_some, Option.some.injEq] at owner
    exact ⟨n, atNode, owner⟩
  · rintro ⟨n, atNode, rfl⟩
    exact ⟨⟨n, atNode⟩, by rw [links_eq atNode]; rfl⟩

end Heap

theorem Shape.bag_eq {h : Heap α} {l : ListPtr} {A S : List NodePtr} (shape : Shape h l A S) (ok : h.Ok) :
    h.bag l = h.elems A := by
  have active : A.toFinset ⊆ h.nodesAt l := fun p member => by
    obtain ⟨n, atNode, owner⟩ := shape.node (List.mem_append_left S (List.mem_toFinset.mp member))
    exact Heap.mem_nodesAt.mpr ⟨n, atNode, owner⟩
  have rest : ∀ p ∈ h.nodesAt l, p ∉ A.toFinset → h.contents p = 0 := fun p member outside => by
    obtain ⟨n, atNode, owner⟩ := Heap.mem_nodesAt.mp member
    have inactive : n.active = false := by
      rw [← Bool.not_eq_true, shape.active p _ (Heap.links_eq atNode) owner]
      rwa [List.mem_toFinset] at outside
    exact (ok.except none).contents_eq_zero atNode inactive
  rw [Heap.bag, ← Finset.sum_subset active rest, List.sum_toFinset _ shape.nodup_active, Heap.elems]

/-- The elements of a set are those of its lists. -/
theorem SetOk.total_eq {h : Heap α} {lists : List ListPtr} (set : SetOk h lists) (nodup : lists.Nodup) :
    h.total = (lists.map h.bag).sum := by
  have each (l : ListPtr) : h.bag l =
      ∑ p ∈ h.blocks, if (h.links p).map Links.threadList = some l then h.contents p else 0 := by
    rw [Heap.bag, Heap.nodesAt, Finset.sum_filter]
  rw [← List.sum_toFinset h.bag nodup, Finset.sum_congr rfl fun l _ => each l, Finset.sum_comm, Heap.total]
  refine Finset.sum_congr rfl fun p member => ?_
  obtain ⟨n, atNode⟩ := Heap.mem_blocks.mp member
  have alone (l : ListPtr) : (h.links p).map Links.threadList = some l ↔ n.threadList = l := by
    rw [Heap.links_eq atNode, Option.map_some, Option.some.injEq]
  simp only [alone]
  rw [Finset.sum_ite_eq, if_pos (List.mem_toFinset.mpr (set.owner p n atNode))]

theorem Untouched.bag {h h' : Heap α} {m : ListPtr} (untouched : Untouched h h' m) : h'.bag m = h.bag m := by
  have nodes : h'.nodesAt m = h.nodesAt m := by
    ext p
    rw [Heap.mem_nodesAt, Heap.mem_nodesAt]
    constructor <;>
    · rintro ⟨n, atNode, owner⟩
      have same := untouched.nodes p n owner
      exact ⟨n, by simp_all, owner⟩
  rw [Heap.bag, nodes]
  refine Finset.sum_congr rfl fun p member => ?_
  obtain ⟨n, atNode, owner⟩ := Heap.mem_nodesAt.mp member
  rw [Heap.contents_eq (Heap.slots_eq atNode), Heap.contents_eq (Heap.slots_eq ((untouched.nodes p n owner).mpr atNode))]

/-- An operation on one list leaves the contents of the others alone. -/
theorem Local.bag {h h' : Heap α} {l m : ListPtr} (loc : Local h h' l) (other : m ≠ l) : h'.bag m = h.bag m :=
  (loc.untouched other).bag

/-- The balancer loses and adds no element. -/
theorem Rebalanced.total {h h' : Heap α} (rebalanced : Rebalanced h h') : h'.total = h.total := by
  rw [Heap.total, Heap.total, rebalanced.blocks, rebalanced.contents]

/-- `*element = x`, where `element` is an address that `pumalloc` has returned. -/
def Heap.write (h : Heap α) (e : ElemPtr) (x : α) : Option (Heap α) :=
  h.modifyNode e.node fun n => { n with toSlots := n.toSlots.store e.slot x }

theorem Heap.skeleton_setElements {h : Heap α} {p : NodePtr} {n : PumaNode α} (atNode : h.node p = some n)
    (elements : Nat → α) : (h.setNode p { n with elements := elements }).skeleton = h.skeleton := by
  refine Heap.ext_node (fun q => ?_) rfl rfl
  rw [skeleton, skeleton, Heap.view, Heap.view, Heap.node_mapContents, Heap.node_mapContents, Heap.node_setNode]
  split
  · rename_i same
    rw [same, atNode]
    rfl
  · rfl

/-- What a write to a live element does. -/
theorem Heap.write_spec {h : Heap α} {e : ElemPtr} {y : α} (there : h.read e = some y) (x : α) :
    ∃ h' n, h.node e.node = some n ∧ e.slot ∈ n.toSlots.liveSlots ∧ n.elements e.slot = y ∧
      h.write e x = some h' ∧ h' = h.setNode e.node { n with toSlots := n.toSlots.store e.slot x } ∧
      h'.skeleton = h.skeleton := by
  cases atNode : h.node e.node with
  | none => simp [Heap.read, Heap.slots, atNode] at there
  | some n =>
    rw [Heap.read_eq (Heap.slots_eq atNode), Slots.read] at there
    split at there
    · rename_i live
      exact ⟨_, n, rfl, live, Option.some.inj there, Heap.modifyNode_eq atNode _, rfl,
        Heap.skeleton_setElements atNode _⟩
    · cases there

/-- The contents after a store through one node. -/
theorem Heap.contents_setNode (h : Heap α) (p q : NodePtr) (n : PumaNode α) :
    (h.setNode p n).contents q = if q = p then n.toSlots.contents else h.contents q := by
  rw [Heap.contents, Heap.slots_setNode, Heap.contents]
  split <;> rfl

theorem Heap.Live.read {h : Heap α} {l : ListPtr} {e : ElemPtr} (live : h.Live l e) : ∃ x, h.read e = some x := by
  obtain ⟨n, atNode, _, inside⟩ := live
  exact ⟨n.elements e.slot, by rw [Heap.read_eq (Heap.slots_eq atNode), Slots.read, if_pos inside]⟩

section Calls

variable {h h' : Heap α} {lists : List ListPtr} {l : ListPtr} {e : ElemPtr}

/-- A write replaces one element of the list that it belongs to. -/
theorem SetOk.write (set : SetOk h lists) (live : h.Live l e) {y : α} (there : h.read e = some y) (x : α) :
    ∃ h' rest, h.write e x = some h' ∧ SetOk h' lists ∧ h.bag l = y ::ₘ rest ∧ h'.bag l = x ::ₘ rest ∧
      ∀ m, m ≠ l → h'.bag m = h.bag m := by
  obtain ⟨A, S, list⟩ := set.each l (set.member live)
  have inside := live.active list.toShape set.ok
  obtain ⟨h', n, atNode, slot, held, run, same, skeleton⟩ := Heap.write_spec there x
  obtain ⟨m, atNode', owner, _⟩ := live
  cases Option.some.inj (atNode.symm.trans atNode')
  have set' : SetOk h' lists := by
    have before : SetOk h.skeleton lists := setOk_mapContents.mpr set
    rw [← skeleton] at before
    exact setOk_mapContents.mp before
  have post := write_step set.ok list skeleton
  have counted := (set.ok e.node n atNode).1.toCounted
  obtain ⟨rest, before, after⟩ := Heap.elems_change list.nodup_active inside fun q _ other =>
    show h'.slots q = h.slots q by rw [same, Heap.slots_setNode, if_neg other]
  rw [same, Heap.contents_setNode, if_pos rfl, ← same, counted.contents_store slot] at after
  rw [Heap.contents_eq (Heap.slots_eq atNode), ← counted.contents_free slot, held] at before
  refine ⟨h', (n.toSlots.free e.slot).contents + rest, run, set', ?_, ?_, fun k other => ?_⟩
  · rw [list.bag_eq set.ok, before, Multiset.cons_add]
  · rw [post.list.bag_eq post.ok, after, Multiset.cons_add]
  · refine Untouched.bag ⟨fun q c owned => ?_, by rw [same]; rfl⟩
    rw [same, Heap.node_setNode]
    split
    · rename_i here
      rw [here, atNode]
      constructor <;> intro stored
      · exact absurd (by rw [← owner, ← owned, ← Option.some.inj stored]) (Ne.symm other)
      · exact absurd (by rw [← owner, ← owned, ← Option.some.inj stored]) (Ne.symm other)
    · rfl

/-- A freed element leaves its list. -/
theorem SetOk.pufree (set : SetOk h lists) (live : h.Live l e) {x : α} (there : h.read e = some x)
    (run : Puma.pufree h e = some h') :
    SetOk h' lists ∧ h.bag l = x ::ₘ h'.bag l ∧ ∀ m, m ≠ l → h'.bag m = h.bag m := by
  have member := set.member live
  obtain ⟨A, S, list⟩ := set.each l member
  have inside := live.active list.toShape set.ok
  obtain ⟨S', freed, post⟩ := pufree_step set.ok list live run
  obtain ⟨n, atNode, _, slot⟩ := live
  rw [Heap.read_eq (Heap.slots_eq atNode), Slots.read, if_pos slot, Option.some.injEq] at there
  have fewer := freed.elems list.toShape (set.ok.except none) inside (Heap.slots_eq atNode) slot
  have loc := freed.frame.local list.toShape freed.evolves
  have capacity : 0 < h'.capacityFor (h'.lists l).elementSize := by
    rw [loc.capacityFor]
    exact set.capacity l member
  refine ⟨set.local member ⟨post.ok, capacity, A, S', post.list⟩ loc, ?_, fun m other => loc.bag other⟩
  rw [list.bag_eq set.ok, post.list.bag_eq post.ok, ← there, fewer]

variable [Inhabited α]

/-- A new element joins the list that it is allocated on, with whatever its slot held before. -/
theorem SetOk.pumallocOnThreadList (set : SetOk h lists) (member : l ∈ lists) (safe : AllocSafe h l) {block : NodePtr}
    (run : Puma.pumallocOnThreadList h l block = some (h', e)) :
    ∃ x, SetOk h' lists ∧ h'.Live l e ∧ h'.read e = some x ∧ h'.bag l = x ::ₘ h.bag l ∧
      ∀ m, m ≠ l → h'.bag m = h.bag m := by
  obtain ⟨A, S, list⟩ := set.each l member
  simp only [Puma.pumallocOnThreadList, Option.bind_eq_bind] at run
  obtain ⟨⟨h₁, r, i⟩, reserve, run⟩ := Option.bind_eq_some_iff.mp run
  obtain ⟨h₂, alloc, run⟩ := Option.bind_eq_some_iff.mp run
  cases run
  obtain ⟨B, S₂, reserved⟩ := reserveSlot_spec list.toShape set.ok list.headIndex (set.capacity l member) safe reserve
  have post := (reserved.alloc alloc).1
  obtain ⟨x, there, elems⟩ := post.elems
  have capacity : 0 < h'.capacityFor (h'.lists l).elementSize := by
    rw [post.loc.capacityFor]
    exact set.capacity l member
  have set' := set.local member ⟨post.ok, capacity, _, S₂, post.listOk list⟩ post.loc
  refine ⟨x, set', ?_, there, ?_, fun m other => post.loc.bag other⟩
  · obtain ⟨n, atNode, owner⟩ := post.shape.node (p := r) (by simp)
    refine ⟨n, atNode, owner, ?_⟩
    rw [← Slots.read_isSome, ← Heap.read_eq (e := getElement r i) (Heap.slots_eq atNode), there]
    rfl
  · rw [list.bag_eq set.ok, post.shape.bag_eq post.ok, elems]

end Calls

end Puma
