import Puma.Joined
import Puma.ThreadList

namespace Puma

open Simulation

variable {α : Type}

/-- Memory `g` is memory `h`, which holds list `l` only, and the nodes and lists of `o` beside it. -/
structure Beside (l : ListPtr) (o h g : Heap α) : Prop where
  nodes : ∀ p, g.node p = (h.node p).or (o.node p)
  apart : ∀ p n, h.node p = some n → o.node p = none
  owned : ∀ p n, h.node p = some n → n.threadList = l
  list : g.lists l = h.lists l
  others : ∀ m, m ≠ l → g.lists m = o.lists m
  alone : ∀ m, m ≠ l → h.lists m = .empty false 0
  nodeSize : g.nodeSize = h.nodeSize
  size : h.nodeSize = o.nodeSize

section Stores

variable {l : ListPtr} {o h g : Heap α}

theorem Beside.node (beside : Beside l o h g) {p : NodePtr} {n : PumaNode α} (atNode : h.node p = some n) :
    g.node p = some n := by
  rw [beside.nodes, atNode]
  rfl

/-- A store to a block that is not beside. -/
theorem Beside.insert (beside : Beside l o h g) {p : NodePtr} (inside : o.node p = none) {m : PumaNode α}
    (owner : m.threadList = l) : Beside l o (h.setNode p m) (g.setNode p m) where
  nodes q := by
    rw [Heap.node_setNode, Heap.node_setNode, beside.nodes]
    split <;> rfl
  apart q k atNode := by
    rw [Heap.node_setNode] at atNode
    split at atNode
    · rename_i same
      rw [same]
      exact inside
    · exact beside.apart q k atNode
  owned q k atNode := by
    rw [Heap.node_setNode] at atNode
    split at atNode
    · rw [← Option.some.inj atNode]
      exact owner
    · exact beside.owned q k atNode
  list := beside.list
  others := beside.others
  alone := beside.alone
  nodeSize := beside.nodeSize
  size := beside.size

theorem Beside.modifyList (beside : Beside l o h g) (f : PumaThreadList → PumaThreadList) :
    Beside l o (h.modifyList l f) (g.modifyList l f) where
  nodes := beside.nodes
  apart := beside.apart
  owned := beside.owned
  list := by rw [Heap.lists_modifyList_self, Heap.lists_modifyList_self, beside.list]
  others m other := by rw [Heap.lists_modifyList_ne _ _ other, beside.others m other]
  alone m other := by rw [Heap.lists_modifyList_ne _ _ other, beside.alone m other]
  nodeSize := beside.nodeSize
  size := beside.size

theorem Beside.nufreeAligned (beside : Beside l o h g) {p : NodePtr} {n : PumaNode α} (atNode : h.node p = some n) :
    Beside l o (h.nufreeAligned p) (g.nufreeAligned p) where
  nodes q := by
    rw [Heap.node_nufreeAligned, Heap.node_nufreeAligned, beside.nodes]
    split
    · rename_i same
      rw [same, beside.apart p n atNode]
      rfl
    · rfl
  apart q k atNode' := by
    rw [Heap.node_nufreeAligned] at atNode'
    split at atNode'
    · cases atNode'
    · exact beside.apart q k atNode'
  owned q k atNode' := by
    rw [Heap.node_nufreeAligned] at atNode'
    split at atNode'
    · cases atNode'
    · exact beside.owned q k atNode'
  list := beside.list
  others := beside.others
  alone := beside.alone
  nodeSize := beside.nodeSize
  size := beside.size

/-- Stores to the nodes and to the record of the list leave alone what is beside it. -/
theorem Beside.rule (l : ListPtr) (o : Heap α) : PairRule {l} (Beside l o) where
  node beside atNode := beside.node atNode
  owner beside atNode := beside.owned _ _ atNode
  setNode beside atNode owner := beside.insert (beside.apart _ _ atNode) owner
  nufreeAligned beside atNode := beside.nufreeAligned atNode
  list beside inside := by
    cases inside
    exact beside.list
  modifyList f beside inside := by
    cases inside
    exact beside.modifyList f

end Stores

section Alloc

variable [Inhabited α] {l : ListPtr} {o h g : Heap α} {block : NodePtr}

/-- A block that is used nowhere becomes a node on both sides. -/
theorem Beside.appendNewBlock (beside : Beside l o h g) (fresh : block ∉ g.blocks) (elementSize : Nat)
    (tail : Option NodePtr) (nextIndex : Nat) : Carries (Beside l o) (appendNewBlock h l elementSize tail nextIndex block)
      (appendNewBlock g l elementSize tail nextIndex block) := by
  unfold Puma.appendNewBlock
  rw [beside.nodeSize]
  split
  · exact Carries.none _
  · rename_i guard
    rw [not_or] at guard
    have free : o.node block = none := by
      rw [Heap.mem_blocks, not_exists] at fresh
      have nothing := Option.eq_none_iff_forall_ne_some.mpr fresh
      rw [beside.nodes, Option.or_eq_none_iff] at nothing
      exact nothing.2
    have guard' : ¬ (block ∈ g.blocks ∨ h.nodeSize - sizeofPumaNode < elementSize) := by
      rw [not_or]
      exact ⟨fresh, guard.2⟩
    have built : (newPumaNode g l elementSize tail nextIndex : PumaNode α) = newPumaNode h l elementSize tail nextIndex := by
      rw [newPumaNode, newPumaNode, beside.nodeSize]
    rw [if_neg guard', built]
    have beside₁ := (beside.insert (m := newPumaNode h l elementSize tail nextIndex) free rfl).modifyList fun tl =>
      { tl with tail := some block }
    exact ((Beside.rule l o).modifyNodeIf beside₁ tail (by intro; rfl)).bind fun h₂ g₂ _ beside₂ => Carries.some (beside₂.modifyList _)

theorem Beside.appendPumaNode (beside : Beside l o h g) (fresh : block ∉ g.blocks) (elementSize : Nat) :
    Carries (With (Beside l o)) (appendPumaNode h l elementSize block) (appendPumaNode g l elementSize block) := by
  -- The last step, once the new tail node is known.
  have count {h₁ g₁ : Heap α} {r : NodePtr} (beside₁ : Beside l o h₁ g₁) :
      Carries (With (Beside l o)) ((h₁.node r).bind fun n => some (h₁.modifyList l fun tl =>
        { tl with numNodes := n.index + 1 }, r)) ((g₁.node r).bind fun n => some (g₁.modifyList l fun tl =>
        { tl with numNodes := n.index + 1 }, r)) :=
    (Beside.rule l o).read beside₁ r fun n _ _ => Carries.some (show With (Beside l o) _ _ from
      ⟨beside₁.modifyList fun tl => { tl with numNodes := n.index + 1 }, rfl⟩)
  unfold Puma.appendPumaNode
  rw [beside.list]
  cases (h.lists l).tail with
  | none =>
    simp only [Option.bind_eq_bind, Option.pure_def, Option.bind_some]
    exact (beside.appendNewBlock fresh _ _ _).bind fun h₁ g₁ _ beside₁ => count beside₁
  | some tail =>
    simp only [Option.bind_eq_bind, Option.pure_def]
    refine (Beside.rule l o).read beside tail fun t atTail _ => ?_
    split
    · exact count ((Beside.rule l o).store beside atTail (by rfl))
    · cases t.next with
      | none =>
        simp only [Option.bind_some]
        exact (beside.appendNewBlock fresh _ _ _).bind fun h₁ g₁ _ beside₁ => count beside₁
      | some spare =>
        simp only [Option.bind_some]
        refine ((Beside.rule l o).modifyNode (beside.modifyList _) spare (by intro; rfl)).bind fun h₁ g₁ _ beside₁ => count beside₁

theorem Beside.tailWithRoom (beside : Beside l o h g) (fresh : block ∉ g.blocks) :
    Carries (With (Beside l o)) (tailWithRoom h l block) (tailWithRoom g l block) := by
  unfold Puma.tailWithRoom
  rw [beside.list]
  cases (h.lists l).tail with
  | none => exact beside.appendPumaNode fresh _
  | some tail =>
    refine (Beside.rule l o).read beside tail fun t _ _ => ?_
    split
    · exact beside.appendPumaNode fresh _
    · exact Carries.some ⟨beside, rfl⟩

omit [Inhabited α] in
theorem Beside.nextFreeIndex (beside : Beside l o h g) (tail : NodePtr) :
    Carries (With (Beside l o)) (nextFreeIndex h l tail) (nextFreeIndex g l tail) := by
  unfold Puma.nextFreeIndex
  refine (Beside.rule l o).read beside tail fun t atTail _ => ?_
  have cursor := (Beside.rule l o).store (m := { t with firstKnownFree := t.firstKnownFree + 1 }) beside atTail rfl
  dsimp only
  split
  · refine ((Beside.rule l o).cleanupNode cursor rfl tail).bind fun h₁ g₁ _ beside₁ => ?_
    refine (Beside.rule l o).read beside₁ tail fun t₁ atTail₁ _ => Carries.some ⟨?_, rfl⟩
    exact (Beside.rule l o).store beside₁ atTail₁ (by rfl)
  · exact Carries.some ⟨cursor, rfl⟩

theorem Beside.reserveSlot (beside : Beside l o h g) (fresh : block ∉ g.blocks) :
    Carries (With (Beside l o)) (reserveSlot h l block) (reserveSlot g l block) := by
  unfold Puma.reserveSlot
  refine (beside.tailWithRoom fresh).bind fun x y _ both => ?_
  obtain ⟨h₁, r⟩ := x
  obtain ⟨g₁, r'⟩ := y
  obtain ⟨beside₁, same⟩ := both
  dsimp only at beside₁ same
  subst same
  refine (beside₁.nextFreeIndex r).bind fun x y _ both => ?_
  obtain ⟨h₂, i⟩ := x
  obtain ⟨g₂, i'⟩ := y
  obtain ⟨beside₂, same⟩ := both
  dsimp only at beside₂ same
  subst same
  refine (Beside.rule l o).read beside₂ r fun t atNode _ => Carries.some ⟨?_, rfl⟩
  exact (Beside.rule l o).store (p := r) (n := t) (beside₂.modifyList _) atNode rfl

theorem Beside.pumallocOnThreadList (beside : Beside l o h g) (fresh : block ∉ g.blocks) :
    Carries (With (Beside l o)) (pumallocOnThreadList h l block) (pumallocOnThreadList g l block) := by
  unfold Puma.pumallocOnThreadList
  refine (beside.reserveSlot fresh).bind fun x y _ both => ?_
  obtain ⟨h₁, r, i⟩ := x
  obtain ⟨g₁, r', i'⟩ := y
  obtain ⟨beside₁, same⟩ := both
  dsimp only at beside₁ same
  cases same
  exact ((Beside.rule l o).allocElementOnNode beside₁ r _).bind fun h₂ g₂ _ beside₂ => Carries.some ⟨beside₂, rfl⟩

end Alloc

end Puma
