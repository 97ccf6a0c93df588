import Puma.LastElement
import Puma.Free

namespace Puma

variable {α : Type}

/-- What compaction does to a list: elements move between its active nodes, nodes
at the tail become spare, spare nodes go. -/
structure Compaction (h h' : Heap α) (l : ListPtr) (A S A' S' : List NodePtr) : Prop where
  shape : Shape h' l A' S'
  activePrefix : A' <+: A
  chainPrefix : A' ++ S' <+: A ++ S
  elems : h'.elems A' = h.elems A
  numElements : (h'.lists l).numElements = (h.lists l).numElements
  frame : Frame h h' l (A ++ S)
  evolves : Evolves h h' l

theorem Compaction.refl {h : Heap α} {l : ListPtr} {A S : List NodePtr} (shape : Shape h l A S) :
    Compaction h h l A S A S :=
  ⟨shape, List.prefix_rfl, List.prefix_rfl, rfl, rfl, Frame.refl h l _, Evolves.refl h l⟩

theorem Compaction.trans {h h' h'' : Heap α} {l : ListPtr} {A S A' S' A'' S'' : List NodePtr}
    (first : Compaction h h' l A S A' S') (second : Compaction h' h'' l A' S' A'' S'') :
    Compaction h h'' l A S A'' S'' where
  shape := second.shape
  activePrefix := second.activePrefix.trans first.activePrefix
  chainPrefix := second.chainPrefix.trans first.chainPrefix
  elems := second.elems.trans first.elems
  numElements := second.numElements.trans first.numElements
  frame := first.frame.trans second.frame fun _ inside => first.chainPrefix.subset inside
  evolves := first.evolves.trans second.evolves

/-- Giving up the empty nodes at the tail is a compaction. -/
theorem LastElementPost.compaction {h h' : Heap α} {l : ListPtr} {A S A' E : List NodePtr} {p₀ : Option NodePtr}
    {result : Option ElemPtr} (post : LastElementPost h h' l A S A' E p₀ result) :
    Compaction h h' l A S A' (E ++ S) where
  shape := post.shape
  activePrefix := ⟨E, post.split.symm⟩
  chainPrefix := by rw [post.split, List.append_assoc]
  elems := by
    rw [Heap.elems_congr (h := h) fun p _ => by rw [post.slots], post.split, Heap.elems_append,
      Heap.elems_eq_zero post.empty, add_zero]
  numElements := post.numElements
  frame := post.frame.mono fun _ inside => List.mem_append_left S inside
  evolves := post.evolves

/-- The memory after `_allocElementOnNode` and `memcpy` have put `x` into the hole `i`. -/
def fillHole (h : Heap α) (l : ListPtr) (p : NodePtr) (n : PumaNode α) (i : Nat) (x : α) : Heap α :=
  (h.setNode p { n with toSlots := (n.toSlots.alloc i).store i x }).modifyList l fun tl =>
    { tl with numElements := tl.numElements + 1 }

theorem fill_run {h : Heap α} {p q : NodePtr} {n m : PumaNode α} (atNode : h.node p = some n)
    (atLast : h.node q = some m) {i t : Nat} :
    (do let h ← allocElementOnNode h p ⟨p, i⟩
        copyElement h ⟨p, i⟩ ⟨q, t⟩) = some (fillHole h n.threadList p n i (m.elements t)) := by
  have marked : allocElementOnNode h p ⟨p, i⟩ = some ((h.setNode p { n with toSlots := n.toSlots.alloc i }).modifyList
      n.threadList fun tl => { tl with numElements := tl.numElements + 1 }) := by
    simp only [allocElementOnNode, atNode, Option.bind_eq_bind, Option.bind_some]
    rfl
  simp only [marked, Option.bind_eq_bind, Option.bind_some, copyElement, Heap.modifyNode, Heap.node_modifyList,
    Heap.node_setNode_self, Heap.node_setNode]
  split
  · rename_i same
    subst same
    cases Option.some.inj (atNode.symm.trans atLast)
    simp only [Option.bind_some, Option.map_some, Heap.setNode_modifyList, Heap.setNode_setNode]
    rfl
  · simp only [atLast, Option.bind_some, Option.map_some, Heap.setNode_modifyList, Heap.setNode_setNode]
    rfl

/-- One more element on the list, moved into the hole `i` of `p`. -/
theorem fillHole_shape {h : Heap α} {l : ListPtr} {A S : List NodePtr} (shape : Shape h l A S) {p : NodePtr}
    {n : PumaNode α} (atNode : h.node p = some n) (i : Nat) (x : α) : Shape (fillHole h l p n i x) l A S :=
  shape.of_links_eq (Heap.links_setNode_same atNode rfl) (by simp [fillHole]) (by simp [fillHole]) (by simp [fillHole])

theorem fillHole_slots (h : Heap α) (l : ListPtr) (p q : NodePtr) (n : PumaNode α) (i : Nat) (x : α) :
    (fillHole h l p n i x).slots q = if q = p then some ((n.toSlots.alloc i).store i x) else h.slots q :=
  Heap.slots_setNode h p q _

theorem fillHole_node (h : Heap α) (l : ListPtr) (p q : NodePtr) (n : PumaNode α) (i : Nat) (x : α) :
    (fillHole h l p n i x).node q =
      if q = p then some { n with toSlots := (n.toSlots.alloc i).store i x } else h.node q :=
  Heap.node_setNode h p q _

theorem fillHole_frame (h : Heap α) (l : ListPtr) {c : List NodePtr} {p : NodePtr} (member : p ∈ c) (n : PumaNode α)
    (i : Nat) (x : α) : Frame h (fillHole h l p n i x) l c :=
  (Frame.setNode h l member _).trans (Frame.modifyList _ l c (fun _ => rfl) fun _ => rfl) fun _ inside => inside

theorem fillHole_evolves {h : Heap α} (l : ListPtr) {p : NodePtr} {n : PumaNode α} (atNode : h.node p = some n)
    (i : Nat) (x : α) : Evolves h (fillHole h l p n i x) l := by
  have stored : Evolves h (h.setNode p { n with toSlots := (n.toSlots.alloc i).store i x }) l :=
    Evolves.setNode atNode l rfl rfl
  exact stored.trans (Evolves.modifyList _ l rfl)

theorem fillHole_okExcept {h : Heap α} {l : ListPtr} {p : NodePtr} {n : PumaNode α} (ok : h.OkExcept (some p))
    (atNode : h.node p = some n) (active : n.active = true) {i : Nat} (within : i < n.capacity)
    (hole : i ∉ n.toSlots.liveSlots) (x : α) : (fillHole h l p n i x).OkExcept (some p) := by
  intro q m atNode'
  rw [fillHole_node] at atNode'
  split at atNode'
  · rename_i same
    cases Option.some.inj atNode'
    exact ⟨((ok p n atNode).1.alloc within hole).store i x, fun other => (other (by rw [same])).elim,
      fun inactive => absurd active (by simp [show n.active = false from inactive])⟩
  · exact ok q m atNode'

theorem fillHole_elems {h : Heap α} {l : ListPtr} {p₀ : Option NodePtr} {p : NodePtr} {n : PumaNode α} (ok : h.OkExcept p₀)
    (atNode : h.node p = some n) {i : Nat} (within : i < n.capacity) (hole : i ∉ n.toSlots.liveSlots) (x : α)
    {c : List NodePtr} (nodup : c.Nodup) (member : p ∈ c) :
    (fillHole h l p n i x).elems c = x ::ₘ h.elems c := by
  have counted := (ok p n atNode).1
  obtain ⟨rest, before, after⟩ := Heap.elems_change (h := h) nodup member fun q _ other => by
    rw [fillHole_slots, if_neg other]
  have here : (fillHole h l p n i x).slots p = some ((n.toSlots.alloc i).store i x) := by
    rw [fillHole_slots, if_pos rfl]
  have live : i ∈ (n.toSlots.alloc i).liveSlots := by
    rw [counted.liveSlots_alloc within]
    exact Finset.mem_insert_self i _
  have filled : ((n.toSlots.alloc i).store i x).contents = x ::ₘ n.toSlots.contents := by
    rw [(counted.alloc within hole).contents_store live]
    congr 1
    have taken := (counted.alloc within hole).contents_free live
    rw [counted.contents_alloc within hole] at taken
    exact (Multiset.cons_inj_right _).mp taken
  rw [before, after, Heap.contents_eq here, Heap.contents_eq (Heap.slots_eq atNode), filled, Multiset.cons_add]

/-- Where compaction leaves the node `p` behind `B` that it worked on: compact, and
still active or given up with every node behind it. -/
structure Compacted (h h' : Heap α) (B : List NodePtr) (p : NodePtr) (A' S' : List NodePtr) : Prop where
  before : ∀ q ∈ B, h'.slots q = h.slots q
  compact : ∀ s', h'.slots p = some s' → s'.liveSlots = Finset.range s'.numElements
  capacity : ∀ s', h'.slots p = some s' → ∃ s, h.slots p = some s ∧ s'.capacity = s.capacity
  place : (∃ D', A' = B ++ p :: D') ∨ (A' <+: B ∧ p ∈ S')
  last : (∀ s', h'.slots p = some s' → s'.numElements = s'.capacity) ∨ A' <+: B ++ [p]

/-- A turn of the loop of `_cleanupNode` that moves the last element, at slot `t`
of `q`, into a hole of `p` at or behind `j`, before it frees slot `t`. -/
structure TurnMove (h h' : Heap α) (l : ListPtr) (B : List NodePtr) (p : NodePtr) (D S D' S' : List NodePtr)
    (q : NodePtr) (t j : Nat) : Prop where
  shape : Shape h' l (B ++ p :: D') S'
  ok : h'.OkExcept (some p)
  activePrefix : B ++ p :: D' <+: B ++ p :: D
  chain : (B ++ p :: D') ++ S' = (B ++ p :: D) ++ S
  last : q ∈ p :: D'
  live : ∃ n, h'.node q = some n ∧ t ∈ n.toSlots.liveSlots ∧
    n.elements t ::ₘ h.elems (B ++ p :: D) = h'.elems (B ++ p :: D')
  before : ∀ q ∈ B, h'.slots q = h.slots q
  filled : ∀ s', h'.slots p = some s' → (∀ i ≤ j, i ∈ s'.liveSlots) ∧ (q = p → j < t) ∧
    ∃ s, h.slots p = some s ∧ s'.capacity = s.capacity ∧ (q = p → t ∈ s.liveSlots)
  numElements : (h'.lists l).numElements = (h.lists l).numElements + 1
  frame : Frame h h' l (B ++ p :: D ++ S)
  evolves : Evolves h h' l

/-- A node without holes is compact. -/
theorem Slots.Counted.compact_of_full {s : Slots α} (ok : s.Counted) (full : s.numElements = s.capacity) :
    s.liveSlots = Finset.range s.numElements := by
  refine Finset.eq_of_subset_of_card_le (full ▸ s.liveSlots_subset) ?_
  rw [Finset.card_range, ok.count]

/-- A node whose first hole lies behind all its elements is compact. -/
theorem Slots.Counted.compact_of_hole {s : Slots α} (ok : s.Counted) {i : Nat}
    (before : ∀ j < i, j ∈ s.liveSlots) (after : ∀ j ∈ s.liveSlots, j < i) :
    s.liveSlots = Finset.range s.numElements := by
  have slots : s.liveSlots = Finset.range i := by
    ext j
    rw [Finset.mem_range]
    exact ⟨after j, before j⟩
  rw [ok.count, slots, Finset.card_range]

theorem Slots.Counted.firstHole {s : Slots α} (ok : s.Counted) (room : s.numElements < s.capacity) :
    ∃ i, pumaFirstIndexOfValue s.freeMask maskFree = some i ∧ i < s.capacity ∧ i ∉ s.liveSlots ∧
      ∀ j < i, j ∈ s.liveSlots := by
  have binary : maskFree = 0 ∨ maskFree = 1 := Or.inr rfl
  cases found : pumaFirstIndexOfValue s.freeMask maskFree with
  | none =>
    obtain ⟨i, within, hole⟩ := ok.exists_hole room
    have free := (Slots.notMem_liveSlots within).mp hole
    exact (pumaFirstIndexOfValue_eq_none binary found (ok.bits ▸ within) free).elim
  | some i =>
    obtain ⟨bound, free, first⟩ := pumaFirstIndexOfValue_eq_some binary found
    have within : i < s.capacity := ok.bits ▸ bound
    refine ⟨i, rfl, within, (Slots.notMem_liveSlots within).mpr free, fun j below => ?_⟩
    by_contra hole
    exact first j below ((Slots.notMem_liveSlots (below.trans within)).mp hole)

section Turn

variable {h : Heap α} {l : ListPtr} {B D S : List NodePtr} {p : NodePtr}

/-- The memory in which the last element of the list has been found behind a hole
of `p`, and copied into it. -/
theorem cleanupTurn_move (shape : Shape h l (B ++ p :: D) S) {n : PumaNode α} (atNode : h.node p = some n)
    {i : Nat} (within : i < n.capacity) (hole : i ∉ n.toSlots.liveSlots) (first : ∀ j < i, j ∈ n.toSlots.liveSlots)
    {h₁ : Heap α} {D' E : List NodePtr} {result : Option ElemPtr}
    (post : LastElementPost h h₁ l (B ++ p :: D) S (B ++ p :: D') E (some p) result) {q : NodePtr} {t : Nat}
    (last : LastLive h (B ++ p :: D') q t) (behind : q = p → i < t) {j : Nat} (reached : j ≤ i) :
    ∃ h₂, (do let h ← allocElementOnNode h₁ p ⟨p, i⟩
              copyElement h ⟨p, i⟩ ⟨q, t⟩) = some h₂ ∧
      TurnMove h h₂ l B p D S D' (E ++ S) q t j := by
  obtain ⟨atLast, s, atSlots, live, greatest⟩ := last
  have shape₁ := post.shape
  have inActive : p ∈ B ++ p :: D' := by simp
  obtain ⟨n₁, atNode₁, owner₁⟩ := shape₁.node (List.mem_append_left _ inActive)
  have active₁ := (shape₁.active_iff atNode₁ (List.mem_append_left _ inActive)).mpr inActive
  have sameSlots : n₁.toSlots = n.toSlots := by
    have there := Heap.slots_eq atNode₁
    rw [post.slots, Heap.slots_eq atNode] at there
    exact (Option.some.inj there).symm
  have within₁ : i < n₁.capacity := by rw [sameSlots]; exact within
  have hole₁ : i ∉ n₁.toSlots.liveSlots := by rw [sameSlots]; exact hole
  have atSlots₁ : h₁.slots q = some s := by rw [post.slots, atSlots]
  obtain ⟨m, atNodeQ, sameQ⟩ := Heap.node_of_slots atSlots₁
  refine ⟨fillHole h₁ l p n₁ i (m.elements t), by rw [← owner₁]; exact fill_run atNode₁ atNodeQ, ?_⟩
  have compaction := post.compaction
  have counted := (post.ok p n₁ atNode₁).1
  exact {
    shape := fillHole_shape shape₁ atNode₁ i _
    ok := fillHole_okExcept post.ok atNode₁ active₁ within₁ hole₁ _
    activePrefix := compaction.activePrefix
    chain := by rw [post.split, List.append_assoc (B ++ p :: D')]
    last := by
      rw [List.getLast?_append_cons] at atLast
      exact List.mem_of_getLast? atLast
    live := by
      have elems : (fillHole h₁ l p n₁ i (m.elements t)).elems (B ++ p :: D') =
          m.elements t ::ₘ h.elems (B ++ p :: D) := by
        rw [fillHole_elems post.ok atNode₁ within₁ hole₁ _ shape₁.nodup_active inActive, compaction.elems]
      rw [elems]
      by_cases same : q = p
      · subst same
        have unmoved : i ≠ t := Nat.ne_of_lt (behind rfl)
        cases Option.some.inj (atNode₁.symm.trans atNodeQ)
        refine ⟨_, by rw [fillHole_node, if_pos rfl], ?_, ?_⟩
        · rw [Slots.liveSlots_store, counted.liveSlots_alloc within₁, sameQ]
          exact Finset.mem_insert_of_mem live
        · congr 1
          exact Function.update_of_ne unmoved.symm _ _
      · exact ⟨m, by rw [fillHole_node, if_neg same, atNodeQ], by rw [sameQ]; exact live, rfl⟩
    before := fun r inB => by
      have other : r ≠ p := fun same => by
        have nodup := shape.nodup_active
        rw [List.nodup_middle, List.nodup_cons] at nodup
        exact nodup.1 (List.mem_append_left D (same ▸ inB))
      rw [fillHole_slots, if_neg other, post.slots]
    filled := fun s' atSlots' => by
      rw [fillHole_slots, if_pos rfl] at atSlots'
      cases Option.some.inj atSlots'
      refine ⟨fun k low => ?_, fun same => ?_, n.toSlots, Heap.slots_eq atNode, by rw [← sameSlots]; rfl, fun same => ?_⟩
      · rw [Slots.liveSlots_store, counted.liveSlots_alloc within₁, Finset.mem_insert, sameSlots]
        rcases Nat.lt_or_eq_of_le (low.trans reached) with below | equal
        · exact Or.inr (first k below)
        · exact Or.inl equal
      · have := behind same
        omega
      · subst same
        rw [Option.some.inj ((Heap.slots_eq atNode).symm.trans atSlots)]
        exact live
    numElements := by simp [fillHole, post.numElements]
    frame := compaction.frame.trans (fillHole_frame h₁ l inActive n₁ i _)
      fun r inside => List.mem_append_left S (compaction.activePrefix.subset inside)
    evolves := compaction.evolves.trans (fillHole_evolves l atNode₁ i _) }

/-- The turn finds no hole: the node stays as it is. -/
theorem Compacted.full {n : PumaNode α} (atNode : h.node p = some n) (counted : n.toSlots.Counted)
    (full : n.numElements = n.capacity) : Compacted h h B p (B ++ p :: D) S := by
  have atSlots := Heap.slots_eq atNode
  refine ⟨fun _ _ => rfl, fun s atSlots' => ?_, fun s' atSlots' => ⟨s', atSlots', rfl⟩, Or.inl ⟨D, rfl⟩,
    Or.inl fun s atSlots' => ?_⟩
  · rw [← Option.some.inj (atSlots.symm.trans atSlots')]
    exact counted.compact_of_full full
  · rw [← Option.some.inj (atSlots.symm.trans atSlots')]
    exact full

section Last

variable {h₁ : Heap α} {A₁ E : List NodePtr} {result : Option ElemPtr}

/-- The search for the last element gave the node up, as an empty one. -/
theorem LastElementPost.given_up (post : LastElementPost h h₁ l (B ++ p :: D) S A₁ E (some p) result)
    {n : PumaNode α} (atNode : h.node p = some n) (counted : n.toSlots.Counted) (inE : p ∈ E) {C : List NodePtr}
    (split : B = A₁ ++ C) : Compacted h h₁ B p A₁ (E ++ S) where
  before q _ := by rw [post.slots]
  compact s atSlots := by
    have empty := post.empty p inE
    rw [post.slots, Heap.slots_eq atNode] at atSlots
    rw [Heap.contents_eq (Heap.slots_eq atNode), Slots.contents_eq_zero] at empty
    rw [← Option.some.inj atSlots, empty, counted.empty_iff.mp empty, Finset.range_zero]
  capacity s' atSlots := ⟨s', by rw [← post.slots, atSlots], rfl⟩
  place := Or.inr ⟨⟨C, split.symm⟩, List.mem_append_left S inE⟩
  last := Or.inr ⟨C ++ [p], by rw [split, List.append_assoc]⟩

/-- The search ends in front of the node, or not. -/
theorem LastElementPost.cases (post : LastElementPost h h₁ l (B ++ p :: D) S A₁ E (some p) result) :
    (∃ C, B = A₁ ++ C ∧ p ∈ E) ∨ ∃ D', A₁ = B ++ p :: D' := by
  rcases List.append_eq_append_iff.mp post.split with ⟨C, rfl, right⟩ | ⟨C, rfl, right⟩
  · cases C with
    | nil =>
      rw [List.nil_append] at right
      exact Or.inl ⟨[], by simp, by simp [← right]⟩
    | cons c C =>
      rw [List.cons_append, List.cons.injEq] at right
      exact Or.inr ⟨C, by rw [right.1]⟩
  · exact Or.inl ⟨C, rfl, by simp [right]⟩

/-- What the turn does once it has found a hole and the last element. -/
theorem cleanupTurn_found {n m n₁ : PumaNode α} (atNode : h.node p = some n) (room : n.numElements < n.capacity)
    {i : Nat} (found : pumaFirstIndexOfValue n.freeMask maskFree = some i) {q : NodePtr} {t : Nat}
    (run : getLastElement h l = some (h₁, some ⟨q, t⟩)) (atLast : h₁.node q = some m) (atNode₁ : h₁.node p = some n₁) :
    cleanupTurn h p l = if m.index < n₁.index ∨ (m.index = n₁.index ∧ (ElemPtr.mk p i).ge ⟨q, t⟩) then
        some (h₁, none)
      else (do
        let h ← allocElementOnNode h₁ p ⟨p, i⟩
        let h ← copyElement h ⟨p, i⟩ ⟨q, t⟩
        pure (h, some ⟨q, t⟩)) := by
  simp only [cleanupTurn, atNode, Option.bind_eq_bind, Option.bind_some, if_pos room, run, found,
    getNodeForElement, getElement, atLast, atNode₁]
  rfl

end Last

theorem cleanupTurn_spec (shape : Shape h l (B ++ p :: D) S) (ok : h.OkExcept (some p)) {j : Nat}
    (filled : ∀ s, h.slots p = some s → ∀ i < j, i ∈ s.liveSlots) :
    (∃ h' A' S', cleanupTurn h p l = some (h', none) ∧ Compaction h h' l (B ++ p :: D) S A' S' ∧
      h'.OkExcept (some p) ∧ Compacted h h' B p A' S') ∨
    ∃ h' q t D' S', cleanupTurn h p l = some (h', some ⟨q, t⟩) ∧ TurnMove h h' l B p D S D' S' q t j := by
  have member : p ∈ B ++ p :: D := by simp
  obtain ⟨n, atNode, owner⟩ := shape.node (List.mem_append_left S member)
  have counted := (ok p n atNode).1
  have atSlots := Heap.slots_eq atNode
  by_cases room : n.numElements < n.capacity
  · obtain ⟨i, found, within, hole, first⟩ := counted.firstHole room
    have reached : j ≤ i := by
      by_contra before
      exact hole (filled n.toSlots atSlots i (by omega))
    obtain ⟨h₁, result, A₁, E, run, post⟩ := getLastElement_spec shape ok
    have compaction := post.compaction
    have chain : A₁ ++ (E ++ S) = (B ++ p :: D) ++ S := by rw [post.split, List.append_assoc]
    rcases post.result with ⟨none₁, none₂⟩ | ⟨q, t, last, found'⟩
    · subst none₁ none₂
      have inE : p ∈ E := by rw [← List.nil_append E, ← post.split]; exact member
      exact Or.inl ⟨h₁, [], E ++ S, by simp [cleanupTurn, atNode, room, run], compaction, post.ok,
        post.given_up atNode counted inE (List.nil_append B).symm⟩
    · subst found'
      have inA₁ : q ∈ A₁ := List.mem_of_getLast? last.1
      obtain ⟨m, atLast, _⟩ := post.shape.node (List.mem_append_left (E ++ S) inA₁)
      obtain ⟨n₁, atNode₁, _⟩ := post.shape.node (p := p) (by rw [chain]; simp)
      have turn := cleanupTurn_found atNode room found run atLast atNode₁
      have indexP : n₁.index = B.length := by
        obtain ⟨n₀, atNode₀, _, same⟩ := post.evolves.node atNode₁
        rw [same, shape.index_eq rfl atNode₀]
      have indexQ : m.index + 1 = A₁.length := by
        obtain ⟨C, splitQ⟩ := List.getLast?_eq_some_iff.mp last.1
        rw [post.shape.index_eq splitQ atLast, splitQ]
        simp
      rcases post.cases with ⟨C, splitB, inE⟩ | ⟨D', rfl⟩
      · -- `p` has been given up, and the last element lies in front of it.
        have earlier : m.index < n₁.index := by
          rw [indexP, splitB, List.length_append]
          omega
        exact Or.inl ⟨h₁, A₁, E ++ S, turn.trans (if_pos (Or.inl earlier)), compaction, post.ok,
          post.given_up atNode counted inE splitB⟩
      · have later : ¬ m.index < n₁.index := by
          rw [List.length_append, List.length_cons] at indexQ
          omega
        by_cases stop : m.index = n₁.index ∧ (ElemPtr.mk p i).ge ⟨q, t⟩
        · -- The last element lies in front of the hole, so there is none behind it.
          have alone : D' = [] := by
            rw [stop.1, indexP, List.length_append, List.length_cons] at indexQ
            exact List.length_eq_zero_iff.mp (by omega)
          subst alone
          have same : p = q := by simpa using last.1
          subst same
          have order : t ≤ i := by simpa [ElemPtr.ge] using stop.2
          obtain ⟨s, atSlots', _, greatest⟩ := last.2
          cases Option.some.inj (atSlots.symm.trans atSlots')
          have compact := counted.compact_of_hole first fun k live =>
            lt_of_le_of_ne ((greatest k live).trans order) fun equal => hole (equal ▸ live)
          refine Or.inl ⟨h₁, _, E ++ S, turn.trans (if_pos (Or.inr stop)), compaction, post.ok,
            ⟨fun q _ => by rw [post.slots], fun s atSlots₁ => ?_,
              fun s' atSlots' => ⟨s', by rw [← post.slots, atSlots'], rfl⟩, Or.inl ⟨[], rfl⟩, Or.inr List.prefix_rfl⟩⟩
          rw [post.slots, atSlots] at atSlots₁
          rw [← Option.some.inj atSlots₁]
          exact compact
        · have behind : q = p → i < t := fun same => by
            subst same
            by_contra order
            refine stop ⟨?_, by simp [ElemPtr.ge]; omega⟩
            rw [Option.some.inj (atLast.symm.trans atNode₁)]
          obtain ⟨h₂, move, post'⟩ := cleanupTurn_move shape atNode within hole first post last behind reached
          refine Or.inr ⟨h₂, q, t, D', E ++ S, turn.trans ?_, post'⟩
          rw [if_neg (not_or.mpr ⟨later, stop⟩)]
          simp only [Option.bind_eq_bind] at move ⊢
          rw [← Option.bind_assoc, move]
          rfl
  · have full : n.numElements = n.capacity := le_antisymm counted.numElements_le (not_lt.mp room)
    exact Or.inl ⟨h, B ++ p :: D, S, by simp [cleanupTurn, atNode, room], Compaction.refl shape, ok,
      Compacted.full atNode counted full⟩

theorem TurnMove.notMem_before {h₂ : Heap α} {D' S' : List NodePtr} {q : NodePtr} {t j : Nat}
    (move : TurnMove h h₂ l B p D S D' S' q t j) {r : NodePtr} (inB : r ∈ B) (late : r ∈ p :: D') : False :=
  (List.nodup_append.mp move.shape.nodup_active).2.2 r inB r late rfl

/-- A turn that moved an element is a compaction once the slot that it came from
has been freed. -/
theorem TurnMove.compaction {h₂ h₃ : Heap α} {D' S' S'' : List NodePtr} {q : NodePtr} {t j : Nat}
    (move : TurnMove h h₂ l B p D S D' S' q t j)
    (free : FreePost h₂ h₃ l (B ++ p :: D') S' S'' q t) : Compaction h h₃ l (B ++ p :: D) S (B ++ p :: D') S'' where
  shape := free.shape
  activePrefix := move.activePrefix
  chainPrefix := by
    rw [← move.chain]
    exact (List.prefix_append_right_inj _).mpr free.cut
  elems := by
    obtain ⟨n, atNode, live, moved⟩ := move.live
    have taken := free.elems move.shape move.ok (List.mem_append_right B move.last) (Heap.slots_eq atNode) live
    rw [← moved] at taken
    exact (Multiset.cons_inj_right _).mp taken
  numElements := by
    rw [free.numElements, move.numElements, sizeSub_of_le (Nat.le_add_left 1 _)]
    rfl
  frame := move.frame.trans free.frame fun r inside => by rw [move.chain] at inside; exact inside
  evolves := move.evolves.trans free.evolves

theorem TurnMove.filled_free {h₂ h₃ : Heap α} {D' S' S'' : List NodePtr} {q : NodePtr} {t j : Nat}
    (move : TurnMove h h₂ l B p D S D' S' q t j) (free : FreePost h₂ h₃ l (B ++ p :: D') S' S'' q t) :
    ∀ s', h₃.slots p = some s' → (∀ i < j + 1, i ∈ s'.liveSlots) ∧
      ∃ s, h.slots p = some s ∧ s'.capacity = s.capacity := by
  intro s' atSlots'
  by_cases same : q = p
  · subst same
    obtain ⟨n, atNode, live, _⟩ := move.live
    obtain ⟨below, behind, s, atSlots, capacity, _⟩ := move.filled _ (Heap.slots_eq atNode)
    rw [free.freed _ (Heap.slots_eq atNode)] at atSlots'
    have late := behind rfl
    rw [← Option.some.inj atSlots', (move.ok q n atNode).1.liveSlots_free (Slots.lt_capacity live)]
    refine ⟨fun i low => Finset.mem_erase.mpr ⟨?_, below i (by omega)⟩, s, atSlots, capacity⟩
    omega
  · rw [free.kept p (by simp) fun equal => same equal.symm] at atSlots'
    obtain ⟨below, _, s, atSlots, capacity, _⟩ := move.filled s' atSlots'
    exact ⟨fun i low => below i (by omega), s, atSlots, capacity⟩

/-- The loop of `_cleanupNode` on an active node `p` whose first `j` slots are live. -/
theorem cleanupNodeLoop_spec (shape : Shape h l (B ++ p :: D) S) (ok : h.OkExcept (some p)) (turns : Nat) {j : Nat}
    (filled : ∀ s, h.slots p = some s → ∀ i < j, i ∈ s.liveSlots)
    (enough : ∀ s, h.slots p = some s → s.capacity + 1 ≤ turns + j) :
    ∃ h' A' S', cleanupNodeLoop turns h p l = some h' ∧ Compaction h h' l (B ++ p :: D) S A' S' ∧
      h'.OkExcept (some p) ∧ Compacted h h' B p A' S' := by
  induction turns generalizing h D S j with
  | zero =>
    obtain ⟨n, atNode, _⟩ := shape.node (p := p) (by simp)
    have bound := enough _ (Heap.slots_eq atNode)
    have live := filled _ (Heap.slots_eq atNode) n.capacity (by omega)
    exact (Nat.lt_irrefl _ (Slots.lt_capacity live)).elim
  | succ turns ih =>
    rcases cleanupTurn_spec shape ok filled with
      ⟨h', A', S', run, compaction, ok', compacted⟩ | ⟨h₂, q, t, D', S', run, move⟩
    · exact ⟨h', A', S', by simp [cleanupNodeLoop, run], compaction, ok', compacted⟩
    · have inActive : q ∈ B ++ p :: D' := List.mem_append_right B move.last
      obtain ⟨n, atNode, live, _⟩ := move.live
      obtain ⟨h₃, S'', freed, free, ok₃⟩ := freeElementOnNode_spec move.shape move.ok inActive atNode live
      have compaction := move.compaction free
      have filled₃ := move.filled_free free
      obtain ⟨h', A', S₃, rest, compaction', ok', compacted⟩ := ih compaction.shape ok₃ (j := j + 1)
        (fun s atSlots => (filled₃ s atSlots).1) (fun s atSlots => by
          obtain ⟨_, s₀, atSlots₀, capacity⟩ := filled₃ s atSlots
          have bound := enough s₀ atSlots₀
          omega)
      refine ⟨h', A', S₃, ?_, compaction.trans compaction', ok',
        ⟨fun r inB => ?_, compacted.compact, fun s' atSlots' => ?_, compacted.place,
          compacted.last⟩⟩
      · simp only [cleanupNodeLoop, run, Option.bind_eq_bind, Option.bind_some, getNodeForElement, freed]
        exact rest
      · have other : r ≠ q := fun same => move.notMem_before inB (same ▸ move.last)
        rw [compacted.before r inB, free.kept r (by simp [inB]) other, move.before r inB]
      · obtain ⟨s₃, atSlots₃, same⟩ := compacted.capacity s' atSlots'
        obtain ⟨_, s, atSlots, same₃⟩ := filled₃ s₃ atSlots₃
        exact ⟨s, atSlots, same.trans same₃⟩

end Turn

/-- What `_cleanupNode` does to the active node `p` of the chain `B ++ p :: D`. -/
structure CleanupPost (h h' : Heap α) (l : ListPtr) (B : List NodePtr) (p : NodePtr) (D S A' S' : List NodePtr) : Prop
    extends Compaction h h' l (B ++ p :: D) S A' S', Compacted h h' B p A' S' where
  ok : h'.Ok

theorem cleanupNode_spec {h : Heap α} {l : ListPtr} {B D S : List NodePtr} {p : NodePtr}
    (shape : Shape h l (B ++ p :: D) S) (ok : h.OkExcept (some p)) :
    ∃ h' A' S', cleanupNode h p l = some h' ∧ CleanupPost h h' l B p D S A' S' := by
  obtain ⟨n, atNode, _⟩ := shape.node (p := p) (by simp)
  obtain ⟨h₁, A', S', run, compaction, ok₁, compacted⟩ := cleanupNodeLoop_spec shape ok (n.capacity + 1)
    (j := 0) (fun _ _ i low => absurd low (Nat.not_lt_zero i)) (fun s atSlots => by
      rw [← Option.some.inj ((Heap.slots_eq atNode).symm.trans atSlots)])
  have inChain : p ∈ A' ++ S' := by
    rcases compacted.place with ⟨D', rfl⟩ | ⟨_, spare⟩
    · simp
    · exact List.mem_append_right A' spare
  obtain ⟨m, atNode₁, owner⟩ := compaction.shape.node inChain
  let clean : PumaNode α := { m with dirty := false, firstKnownFree := m.numElements }
  have slots : ∀ q, (h₁.setNode p clean).slots q = if q = p then some clean.toSlots else h₁.slots q :=
    fun q => Heap.slots_setNode h₁ p q clean
  have contents : ∀ q, (h₁.setNode p clean).contents q = h₁.contents q := by
    intro q
    rw [Heap.contents, slots]
    split
    · rename_i same
      rw [same, Heap.contents_eq (Heap.slots_eq atNode₁)]
      rfl
    · rfl
  have compact : m.toSlots.liveSlots = Finset.range m.numElements :=
    compacted.compact _ (Heap.slots_eq atNode₁)
  have tidy : Compaction h₁ (h₁.setNode p clean) l A' S' A' S' := {
    shape := compaction.shape.of_links_eq (Heap.links_setNode_same atNode₁ rfl) rfl rfl rfl
    activePrefix := List.prefix_rfl
    chainPrefix := List.prefix_rfl
    elems := by simp only [Heap.elems, funext contents]
    numElements := rfl
    frame := Frame.setNode h₁ l inChain clean
    evolves := Evolves.setNode atNode₁ l rfl rfl }
  refine ⟨h₁.setNode p clean, A', S', ?_, compaction.trans tidy, ⟨?_, ?_, ?_, compacted.place,
    compacted.last.imp_left fun full s' atSlots' => ?_⟩, ?_⟩
  · simp only [cleanupNode, atNode, Option.bind_eq_bind, Option.bind_some, run]
    exact Heap.modifyNode_eq atNode₁ _
  · intro q inB
    have other : q ≠ p := fun same => by
      have nodup := shape.nodup_active
      rw [List.nodup_middle, List.nodup_cons] at nodup
      exact nodup.1 (List.mem_append_left D (same ▸ inB))
    rw [slots, if_neg other, compacted.before q inB]
  · intro s atSlots
    rw [slots, if_pos rfl] at atSlots
    rw [← Option.some.inj atSlots]
    exact compact
  · intro s' atSlots'
    rw [slots, if_pos rfl] at atSlots'
    obtain ⟨s, atSlots, same⟩ := compacted.capacity _ (Heap.slots_eq atNode₁)
    exact ⟨s, atSlots, by rw [← same, ← Option.some.inj atSlots']⟩
  · rw [slots, if_pos rfl] at atSlots'
    rw [← Option.some.inj atSlots']
    exact full m.toSlots (Heap.slots_eq atNode₁)
  · intro q k atNode'
    rw [Heap.node_setNode] at atNode'
    split at atNode'
    · cases Option.some.inj atNode'
      obtain ⟨counted, _, inactive⟩ := ok₁ p m atNode₁
      refine ⟨⟨⟨counted.capacity_pos, counted.sized, counted.bits, counted.count⟩, fun i live => ?_, fun _ => ⟨compact, rfl⟩⟩,
        inactive⟩
      have low : i ∈ m.toSlots.liveSlots := live
      rw [compact] at low
      exact Finset.mem_range.mp low
    · rename_i other
      obtain ⟨_, fine, inactive⟩ := ok₁ q k atNode'
      exact ⟨fine fun same => other (Option.some.inj same), inactive⟩

/-- `_cleanupNode` of an empty node with no active node around. -/
theorem cleanupNode_inactive {h : Heap α} {l : ListPtr} {S : List NodePtr} {p : NodePtr} {n : PumaNode α}
    (shape : Shape h l [] (p :: S)) (atNode : h.node p = some n) :
    cleanupNode h p l = some (h.setNode p { n with dirty := false, firstKnownFree := n.numElements }) := by
  have inactive : n.active = false := by
    rw [← Bool.not_eq_true, shape.active_iff atNode (by simp)]
    exact List.not_mem_nil
  have atTail : (h.lists l).tail = some p := shape.tail
  have nothing : getLastElement h l = some (h, none) := by
    simp [getLastElement, atTail, getLastElementLoop, atNode, inactive]
  have turn : cleanupTurn h p l = some (h, none) := by
    unfold cleanupTurn
    simp only [atNode, nothing, Option.bind_eq_bind, Option.bind_some]
    split <;> rfl
  simp only [cleanupNode, atNode, Option.bind_eq_bind, Option.bind_some, cleanupNodeLoop, turn, Option.pure_def]
  exact Heap.modifyNode_eq atNode _

end Puma
