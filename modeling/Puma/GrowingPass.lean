import Mathlib.Order.Lattice.Nat
import Puma.AllocationOrder

namespace Puma

variable {σ α : Type} [Inhabited α] {l : ListPtr}

/-- List `l` only grows: allocations on it, writes to elements, and the bookkeeping of a pass; `new` are
the addresses that the allocations have returned. -/
inductive Growth (l : ListPtr) (start : Heap α) : Heap α → List ElemPtr → Prop
  | start : Growth l start start []
  | pumalloc {h h' : Heap α} {new : List ElemPtr} {e : ElemPtr} (before : Growth l start h new) (block : NodePtr)
      (run : pumallocOnThreadList h l block = some (h', e)) : Growth l start h' (new ++ [e])
  | write {h h' : Heap α} {new : List ElemPtr} (before : Growth l start h new)
      (same : h'.view (fun _ => ()) = h.view fun _ => ()) : Growth l start h' new
  | recordRunTime {h : Heap α} {new : List ElemPtr} (before : Growth l start h new) (elapsed : ℚ) :
      Growth l start (h.modifyList l fun tl => tl.recordRunTime elapsed) new

theorem Growth.trans {h₁ h₂ h₃ : Heap α} {first second : List ElemPtr} (growth : Growth l h₁ h₂ first)
    (later : Growth l h₂ h₃ second) : Growth l h₁ h₃ (first ++ second) := by
  induction later with
  | start =>
    rw [List.append_nil]
    exact growth
  | pumalloc _ block run ih =>
    rw [← List.append_assoc]
    exact .pumalloc ih block run
  | write _ same ih => exact .write ih same
  | recordRunTime _ elapsed ih => exact .recordRunTime ih elapsed

/-- The new elements stand behind the old ones. -/
theorem Growth.inOrder {h h' : Heap α} {nodes : List NodePtr} {allocated new : List ElemPtr} (growth : Growth l h h' new)
    (order : InOrder h l nodes allocated) (positive : 0 < h.capacityFor (h.lists l).elementSize) :
    h'.capacityFor (h'.lists l).elementSize = h.capacityFor (h.lists l).elementSize ∧
      ∃ nodes', nodes <+: nodes' ∧ InOrder h' l nodes' (allocated ++ new) := by
  induction growth with
  | start => exact ⟨rfl, nodes, List.prefix_rfl, by rwa [List.append_nil]⟩
  | pumalloc _ block run ih =>
    obtain ⟨capacity, nodes₁, longer, order₁⟩ := ih
    obtain ⟨nodes₂, longer₂, order₂, loc, _⟩ := order₁.pumalloc (by rw [capacity]; exact positive) run
    exact ⟨(loc.capacityFor l).trans capacity, nodes₂, longer.trans longer₂, by rwa [← List.append_assoc]⟩
  | write _ same ih =>
    obtain ⟨capacity, nodes₁, longer, order₁⟩ := ih
    have post := write_step order₁.ok order₁.list (Heap.skeleton_of_view_eq same)
    exact ⟨(post.loc.capacityFor_view l).trans capacity, nodes₁, longer, order₁.of_view_eq same⟩
  | @recordRunTime h₁ _ _ elapsed ih =>
    obtain ⟨capacity, nodes₁, longer, order₁⟩ := ih
    have loc : Local h₁ (h₁.modifyList l fun tl => tl.recordRunTime elapsed) l := Local.modifyList h₁ l rfl rfl
    exact ⟨(loc.capacityFor l).trans capacity, nodes₁, longer, order₁.recordRunTime elapsed⟩

/-- A kernel that comes back from every element of a list from which nothing has been freed, and
allocates on this list and writes to elements only. -/
def Kernel.Grows (kernel : Kernel σ α) (l : ListPtr) : Prop :=
  ∀ (w : World σ α) nodes allocated, InOrder w.heap l nodes allocated → 0 < w.heap.capacityFor (w.heap.lists l).elementSize →
    ∀ e ∈ allocated, ∃ w' new, kernel w e = some w' ∧ Growth l w.heap w'.heap new

section Nodes

variable {h : Heap α} {nodes V D : List NodePtr} {c : NodePtr} {n : PumaNode α} {allocated : List ElemPtr}

omit [Inhabited α]

/-- The elements of the nodes that are not the last fill them. -/
theorem InOrder.count_front (order : InOrder h l (V ++ c :: D) allocated) :
    h.count V = V.length * h.capacityFor (h.lists l).elementSize := by
  have full (p : NodePtr) (member : p ∈ V) :
      ((h.slots p).map Slots.numElements).getD 0 = h.capacityFor (h.lists l).elementSize := by
    obtain ⟨m, atNode, _⟩ := order.list.node (p := p) (by simp [member])
    have inFront : p ∈ (V ++ c :: D).dropLast := by
      rw [List.dropLast_append_of_ne_nil (List.cons_ne_nil c D)]
      exact List.mem_append_left _ member
    rw [Heap.slots_eq atNode, Option.map_some, Option.getD_some, order.full p inFront _ (Heap.slots_eq atNode)]
    exact order.capacity p (by simp [member]) _ (Heap.slots_eq atNode)
  rw [Heap.count, List.map_congr_left full, List.map_const', List.sum_replicate, Nat.nsmul_eq_mul]

/-- What a pass that has reached node `c` has not seen. -/
theorem InOrder.drop_front (order : InOrder h l (V ++ c :: D) allocated) (atNode : h.node c = some n) :
    allocated.drop (V.length * h.capacityFor (h.lists l).elementSize) =
      (List.range n.numElements).map (getElement c) ++ h.places D := by
  rw [← order.count_front, ← Heap.length_places, ← order.places, Heap.places_append, List.drop_left,
    Heap.places_cons (Heap.slots_eq atNode)]

/-- Node `c` is full, or the last one. -/
theorem InOrder.numElements (order : InOrder h l (V ++ c :: D) allocated) (atNode : h.node c = some n) (more : D ≠ []) :
    n.numElements = h.capacityFor (h.lists l).elementSize := by
  have inFront : c ∈ (V ++ c :: D).dropLast := by
    rw [List.dropLast_append_of_ne_nil (List.cons_ne_nil c D), List.dropLast_cons_of_ne_nil more]
    simp
  exact (order.full c inFront _ (Heap.slots_eq atNode)).trans (order.capacity c (by simp) _ (Heap.slots_eq atNode))

theorem InOrder.count (order : InOrder h l nodes allocated) : (h.lists l).numElements = allocated.length := by
  rw [order.list.count, ← order.places, Heap.length_places]
  refine (Heap.count_eq_card fun p member => ?_).symm
  obtain ⟨n, atNode, _⟩ := order.list.node (List.mem_append_left [] member)
  exact ⟨n.toSlots, Heap.slots_eq atNode, (order.ok p n atNode).1.toCounted.count⟩

/-- An element that was allocated is one of the first of its node. -/
theorem InOrder.slot (order : InOrder h l nodes allocated) {e : ElemPtr} (member : e ∈ allocated)
    (atNode : h.node e.node = some n) :
    e.slot < n.numElements ∧ e.slot < n.capacity ∧ pumaBitmaskGet n.freeMask e.slot = maskNotFree := by
  rw [← order.places, Heap.mem_places, Heap.slots_eq atNode] at member
  obtain ⟨inside, within⟩ := member
  obtain ⟨compact, _⟩ := (order.ok _ n atNode).1.clean (order.clean _ inside _ (Heap.slots_eq atNode))
  have live : e.slot ∈ n.toSlots.liveSlots := by rw [compact, Finset.mem_range]; exact within
  exact ⟨within, Slots.mem_liveSlots.mp live⟩

end Nodes

section Pass

variable {kernel : Kernel σ α} {w : World σ α} {nodes V D : List NodePtr} {c : NodePtr} {allocated : List ElemPtr}

/-- The loop of `_runKernelOnNode` visits the slots that it counted when it began. -/
theorem runKernelOnNodeLoop_grows (grows : kernel.Grows l) {count done init turns i : Nat}
    (order : InOrder w.heap l nodes allocated) (positive : 0 < w.heap.capacityFor (w.heap.lists l).elementSize)
    (member : c ∈ nodes) (inside : ∀ j < count, getElement c j ∈ allocated) (more : done < init) (within : i ≤ count)
    (enough : count < turns + i) :
    ∃ w' calls new, runKernelOnNodeLoop c kernel count done init turns w i 0 = some (w', count, calls) ∧
      Growth l w.heap w'.heap new ∧ calls.map Prod.fst = (List.range' i (count - i)).map (getElement c) := by
  induction turns generalizing w nodes allocated i with
  | zero => omega
  | succ turns ih =>
    obtain ⟨n, atNode, _⟩ := order.list.node (List.mem_append_left [] member)
    by_cases last : i = count
    · subst last
      have stop : ¬ (sizeSub i 0 < i ∧ i < n.capacity ∧ done < init) := by simp [sizeSub]
      refine ⟨w, [], [], ?_, .start, by simp⟩
      simp [runKernelOnNodeLoop, atNode, stop]
    · have before : i < count := lt_of_le_of_ne within last
      obtain ⟨_, bound, held⟩ := order.slot (inside i before) atNode
      obtain ⟨w₁, new₁, called, growth₁⟩ := grows w nodes allocated order positive _ (inside i before)
      obtain ⟨capacity, nodes₁, longer, order₁⟩ := growth₁.inOrder order positive
      obtain ⟨w', calls, new, loop, growth, visited⟩ := ih order₁ (by rw [capacity]; exact positive)
        (longer.subset member)
        (fun j bound => List.mem_append_left new₁ (inside j bound)) (Nat.succ_le_of_lt before) (by omega)
      have go : sizeSub i 0 < count ∧ i < n.capacity ∧ done < init := ⟨by simpa [sizeSub] using before, bound, more⟩
      have notFree : pumaBitmaskGet n.freeMask i ≠ maskFree := by
        rw [show pumaBitmaskGet n.freeMask i = maskNotFree from held]
        exact maskFree_ne_maskNotFree.symm
      have split : count - i = (count - (i + 1)) + 1 := by omega
      refine ⟨w', (getElement c i, n.elements i) :: calls, new₁ ++ new, ?_, growth₁.trans growth, ?_⟩
      · simp only [runKernelOnNodeLoop, atNode, Option.bind_eq_bind, Option.bind_some, if_pos go, if_neg notFree, called,
          loop, Option.pure_def]
      · rw [List.map_cons, visited, split, List.range'_succ, List.map_cons]

/-- The body of the loop of `_runKernelThread` visits what node `c` held when the pass came to it. -/
theorem runKernelThreadTurn_grows (grows : kernel.Grows l) {done init : Nat} {n : PumaNode α}
    (order : InOrder w.heap l (V ++ c :: D) allocated) (positive : 0 < w.heap.capacityFor (w.heap.lists l).elementSize)
    (atNode : w.heap.node c = some n) (more : done < init) :
    ∃ w' D' calls new, runKernelThreadTurn l kernel init w c done = some (w', D'.head?, done + n.numElements, calls) ∧
      Growth l w.heap w'.heap new ∧ D <+: D' ∧ InOrder w'.heap l (V ++ c :: D') (allocated ++ new) ∧
      calls.map Prod.fst = (List.range n.numElements).map (getElement c) := by
  have clean : n.dirty = false := order.clean c (by simp) _ (Heap.slots_eq atNode)
  have room : n.numElements ≤ n.capacity := (order.ok c n atNode).1.toCounted.numElements_le
  have inside (j : Nat) (bound : j < n.numElements) : getElement c j ∈ allocated := by
    rw [← order.places, Heap.mem_places]
    exact ⟨by simp [getElement], by rw [show (getElement c j).node = c from rfl, Heap.slots_eq atNode]; exact bound⟩
  obtain ⟨w', calls, new, loop, growth, visited⟩ := runKernelOnNodeLoop_grows grows order positive (by simp) inside more
    (Nat.zero_le _) (by omega : n.numElements < 2 * n.capacity + 2 + 0)
  obtain ⟨_, nodes', ⟨later, rfl⟩, order'⟩ := growth.inOrder order positive
  rw [List.append_assoc, List.cons_append] at order'
  obtain ⟨n', atNode', _⟩ := order'.list.node (p := c) (by simp)
  refine ⟨w', D ++ later, calls, new, ?_, growth, List.prefix_append .., order', ?_⟩
  · have next : n'.next = (D ++ later).head? := order'.list.next_eq (List.append_nil (V ++ c :: (D ++ later))) atNode'
    simp only [runKernelThreadTurn, cleanupIfDirty, atNode, Option.bind_eq_bind, Option.bind_some, clean,
      Bool.false_eq_true, if_false, Option.pure_def, runKernelOnNode, loop, atNode', next]
  · rw [visited, Nat.sub_zero, List.range_eq_range']

omit [Inhabited α] in
/-- The loop of `_runKernelThread` stops once it has seen as many elements as there were. -/
theorem runKernelThreadLoop_stop {done init turns : Nat} (order : InOrder w.heap l (V ++ D) allocated) (positive : 0 < turns)
    (enough : init ≤ done) : runKernelThreadLoop l kernel init turns w D.head? done = some (w, []) := by
  obtain ⟨turns, rfl⟩ : ∃ t, turns = t + 1 := ⟨turns - 1, by omega⟩
  cases D with
  | nil => rfl
  | cons c D =>
    obtain ⟨n, atNode, _⟩ := order.list.node (p := c) (by simp)
    simp [runKernelThreadLoop, atNode, Nat.not_lt.mpr enough]

/-- The pass at the end of the nodes `V`, all of which it has seen full; `old` are the nodes that were there
when it began. -/
theorem runKernelThreadLoop_grows (grows : kernel.Grows l) {old : List NodePtr} {capacity init turns : Nat}
    (order : InOrder w.heap l (V ++ D) allocated) (capacity_eq : w.heap.capacityFor (w.heap.lists l).elementSize = capacity)
    (positive : 0 < capacity) (known : old <+: V ++ D) (ahead : V.length ≤ old.length)
    (fits : init ≤ old.length * capacity) (whole : init ≤ allocated.length) (enough : old.length < turns + V.length) :
    ∃ w' calls new, runKernelThreadLoop l kernel init turns w D.head? (V.length * capacity) = some (w', calls) ∧
      Growth l w.heap w'.heap new ∧ calls.map Prod.fst <+: (allocated ++ new).drop (V.length * capacity) ∧
      init ≤ V.length * capacity + calls.length ∧ ∀ call ∈ calls, call.1.node ∈ old := by
  induction turns generalizing w V D allocated with
  | zero => omega
  | succ turns ih =>
    by_cases more : V.length * capacity < init
    swap
    · exact ⟨w, [], [], runKernelThreadLoop_stop order (Nat.succ_pos _) (by omega), .start, by simp, by simp; omega, by simp⟩
    have shorter : V.length < old.length := Nat.lt_of_mul_lt_mul_right (more.trans_le fits)
    cases D with
    | nil =>
      have := known.length_le
      simp at this
      omega
    | cons c D =>
      obtain ⟨n, atNode, _⟩ := order.list.node (p := c) (by simp)
      have active : n.active = true := (order.list.active_iff atNode (by simp)).mpr (by simp)
      have here : c ∈ old := by
        have atIndex : old[V.length]? = some c := by
          obtain ⟨later, same⟩ := known
          have found : (old ++ later)[V.length]? = old[V.length]? := List.getElem?_append_left shorter
          rw [← found, same]
          simp
        exact List.mem_of_getElem? atIndex
      have rest := order.drop_front atNode
      rw [capacity_eq] at rest
      obtain ⟨w₁, D', calls₁, new₁, turn, growth₁, longer, order₁, visited⟩ :=
        runKernelThreadTurn_grows grows order (capacity_eq ▸ positive) atNode more
      obtain ⟨capacity₁, _⟩ := growth₁.inOrder order (capacity_eq ▸ positive)
      have nodes₁ (call : ElemPtr × α) (member : call ∈ calls₁) : call.1.node ∈ old := by
        have := List.mem_map_of_mem (f := Prod.fst) member
        rw [visited] at this
        obtain ⟨_, _, same⟩ := List.mem_map.mp this
        rw [← same]
        exact here
      have length₁ : calls₁.length = n.numElements := by
        rw [← List.length_map (f := Prod.fst), visited, List.length_map, List.length_range]
      cases D with
      | nil =>
        -- The last node: all elements that there were have been seen.
        have seen := congrArg List.length rest
        simp only [List.length_drop, Heap.places, List.flatMap_nil, List.append_nil, List.length_map,
          List.length_range] at seen
        have stop : runKernelThreadLoop l kernel init turns w₁ D'.head? (V.length * capacity + n.numElements) =
            some (w₁, []) := runKernelThreadLoop_stop (V := V ++ [c]) (by simpa using order₁) (by omega) (by omega)
        refine ⟨w₁, calls₁, new₁, ?_, growth₁, ?_, by omega, nodes₁⟩
        · simp [runKernelThreadLoop, atNode, active, more, turn, stop]
        · rw [List.drop_append_of_le_length (by omega), rest, visited]
          simp [Heap.places]
      | cons d D =>
        have full := order.numElements atNode (List.cons_ne_nil d D)
        rw [capacity_eq] at full
        have length : (V ++ [c]).length = V.length + 1 := by simp
        have known₁ : old <+: (V ++ [c]) ++ D' := by
          obtain ⟨later, rfl⟩ := longer
          exact known.trans ⟨later, by simp⟩
        obtain ⟨w', calls, new, loop, growth, seen, counted, inside⟩ := ih (V := V ++ [c]) (by simpa using order₁)
          (capacity₁.trans capacity_eq) known₁ (by omega) (by rw [List.length_append]; omega) (by omega)
        rw [length, Nat.succ_mul] at loop seen counted
        rw [full] at turn length₁ visited rest
        refine ⟨w', calls₁ ++ calls, new₁ ++ new, ?_, growth₁.trans growth, ?_, ?_, ?_⟩
        · simp [runKernelThreadLoop, atNode, active, more, turn, loop]
        · rw [← List.drop_drop, List.append_assoc, List.drop_append_of_le_length (by omega), rest, List.append_assoc] at seen
          rw [List.drop_append_of_le_length (by omega), rest, List.append_assoc, List.map_append, visited,
            List.prefix_append_right_inj]
          have past : ((List.range capacity).map (getElement c)).length = capacity := by simp
          rwa [List.drop_left' past] at seen
        · rw [List.length_append, length₁]
          omega
        · intro call member
          rcases List.mem_append.mp member with first | later
          · exact nodes₁ call first
          · exact inside call later

omit [Inhabited α] in
theorem InOrder.length_le (order : InOrder w.heap l nodes allocated) :
    allocated.length ≤ nodes.length * w.heap.capacityFor (w.heap.lists l).elementSize := by
  rw [← order.places, Heap.length_places, Heap.count]
  refine (List.sum_le_card_nsmul _ (w.heap.capacityFor (w.heap.lists l).elementSize) fun k member => ?_).trans
    (by rw [List.length_map, Nat.nsmul_eq_mul])
  obtain ⟨p, inside, rfl⟩ := List.mem_map.mp member
  obtain ⟨n, atNode, _⟩ := order.list.node (List.mem_append_left [] inside)
  rw [Heap.slots_eq atNode, Option.map_some, Option.getD_some, ← order.capacity p inside _ (Heap.slots_eq atNode)]
  exact (order.ok p n atNode).1.toCounted.numElements_le

/-- What a pass does whose kernel allocates on the list: it meets the old elements, each once and in the order
in which they were allocated, and then some new ones that share a node with an old one. -/
structure GrowingPass (l : ListPtr) (h h' : Heap α) (allocated new visited : List ElemPtr) : Prop where
  growth : Growth l h h' new
  old : allocated <+: visited
  inOrder : visited <+: allocated ++ new
  once : visited.Nodup
  near : ∀ e ∈ visited, ∃ a ∈ allocated, e.node = a.node

theorem InOrder.pass (order : InOrder w.heap l nodes allocated) (grows : kernel.Grows l)
    (positive : 0 < w.heap.capacityFor (w.heap.lists l).elementSize) {turns : Nat} (enough : nodes.length < turns)
    (elapsed : ℚ) :
    ∃ w' calls new, Puma.runKernelThread turns w l kernel elapsed = some (w', calls) ∧
      GrowingPass l w.heap w'.heap allocated new (calls.map Prod.fst) := by
  have head : (w.heap.lists l).head = nodes.head? := by
    rw [order.list.head, List.append_nil]
  obtain ⟨w', calls, new, loop, growth, visited, whole, inside⟩ := runKernelThreadLoop_grows (V := []) grows order rfl
    positive List.prefix_rfl (Nat.zero_le _) order.length_le le_rfl enough
  rw [List.length_nil, Nat.zero_mul] at loop visited whole
  obtain ⟨_, nodes', _, order'⟩ := growth.inOrder order positive
  have distinct : (allocated ++ new).Nodup := by
    rw [← order'.places]
    exact Heap.nodup_places order'.list.toShape.nodup_active
  refine ⟨{ w' with heap := w'.heap.modifyList l fun tl => tl.recordRunTime elapsed }, calls, new, ?_,
    .recordRunTime growth elapsed, ?_, visited, distinct.sublist visited.sublist, fun e member => ?_⟩
  · rw [Puma.runKernelThread, order.count, head, loop]
    rfl
  · exact List.prefix_of_prefix_length_le (List.prefix_append _ _) visited (by simpa using whole)
  · obtain ⟨call, called, rfl⟩ := List.mem_map.mp member
    have old := inside call called
    obtain ⟨n, atNode, _⟩ := order.list.node (List.mem_append_left [] old)
    have first := order.inhabited _ old _ (Heap.slots_eq atNode)
    refine ⟨getElement call.1.node 0, ?_, rfl⟩
    rw [← order.places, Heap.mem_places]
    exact ⟨old, by rw [show (getElement call.1.node 0).node = call.1.node from rfl, Heap.slots_eq atNode]; exact first⟩

end Pass

/-- However a list has grown, a pass comes back whose kernel allocates on the list: it meets every element
that was there once, in the order of the allocations, then at most new ones that went into the last node, and the list
has grown on. -/
theorem Growth.growingPass {start : Heap α} {w : World σ α} {allocated : List ElemPtr} {kernel : Kernel σ α}
    (growth : Growth l start w.heap allocated) (ok : start.Ok) (empty : ThreadListOk start l [] [])
    (positive : 0 < start.capacityFor (start.lists l).elementSize) (grows : kernel.Grows l) {turns : Nat}
    (enough : w.heap.blocks.card < turns) (elapsed : ℚ) :
    ∃ w' calls new, runKernelThread turns w l kernel elapsed = some (w', calls) ∧
      GrowingPass l w.heap w'.heap allocated new (calls.map Prod.fst) ∧ Growth l start w'.heap (allocated ++ new) ∧
      ∃ nodes, InOrder w'.heap l nodes (allocated ++ new) := by
  have startsInOrder : InOrder start l [] [] := by
    refine ⟨⟨ok, empty, ?_, ?_, ?_⟩, ?_, rfl⟩ <;> intro p member <;> cases member
  obtain ⟨capacity, nodes, _, order⟩ := growth.inOrder startsInOrder positive
  rw [List.nil_append] at order
  have few : nodes.length ≤ w.heap.blocks.card := by
    have := order.list.toShape.card_le_blocks
    rwa [List.append_nil] at this
  obtain ⟨w', calls, new, run, pass⟩ := order.pass grows (by rw [capacity]; exact positive) (few.trans_lt enough) elapsed
  obtain ⟨_, nodes', _, order'⟩ := (growth.trans pass.growth).inOrder startsInOrder positive
  exact ⟨w', calls, new, run, pass, growth.trans pass.growth, nodes', order'⟩

/-- A kernel that allocates one element, in a block above all the others if it needs one. -/
def spawnKernel (l : ListPtr) : Kernel Unit Unit := fun w _ =>
  (pumallocOnThreadList w.heap l (w.heap.blocks.sup id + 1)).map fun r => { w with heap := r.1 }

theorem spawnKernel_grows (l : ListPtr) : (spawnKernel l).Grows l := by
  intro w nodes allocated order positive e _
  have fresh : w.heap.blocks.sup id + 1 ∉ w.heap.blocks := fun member =>
    Nat.not_succ_le_self _ (Finset.le_sup (f := id) member)
  obtain ⟨⟨h', a⟩, run⟩ := Option.isSome_iff_exists.mp (order.toFilled.pumalloc_isSome positive fresh)
  exact ⟨{ w with heap := h' }, [a], by simp [spawnKernel, run], .pumalloc .start _ run⟩

/-- Two elements on nodes with room for two, and a pass that allocates one for each of them. -/
theorem oneThread_growingPass : ∃ (h : Heap Unit) (w' : World Unit Unit) (calls : List (ElemPtr × Unit)) (new : List ElemPtr),
    runKernelThread 2 ⟨(), h⟩ 0 (spawnKernel 0) 1 = some (w', calls) ∧
      GrowingPass 0 h w'.heap [⟨0, 0⟩, ⟨0, 1⟩] new (calls.map Prod.fst) := by
  obtain ⟨r₁, r₂, first, second, at₁, at₂, blocks⟩ : ∃ r₁ r₂ : Heap Unit × ElemPtr,
      pumallocOnThreadList (createPumaSet oneThread.toPumaSet 4000 8192) 0 0 = some r₁ ∧
      pumallocOnThreadList r₁.1 0 7 = some r₂ ∧ r₁.2 = ⟨0, 0⟩ ∧ r₂.2 = ⟨0, 1⟩ ∧ r₂.1.blocks.card = 1 :=
    ⟨_, _, rfl, rfl, rfl, rfl, by decide⟩
  have growth : Growth 0 (createPumaSet oneThread.toPumaSet 4000 8192) r₂.1 ([] ++ [r₁.2] ++ [r₂.2]) :=
    .pumalloc (.pumalloc .start 0 first) 7 second
  rw [at₁, at₂] at growth
  have capacity : (createPumaSet oneThread.toPumaSet 4000 8192 : Heap Unit).capacityFor 4000 = 2 := by decide
  have member : 0 ∈ oneThread.tidToThreadList := by decide
  have few : r₂.1.blocks.card < 2 := by rw [blocks]; decide
  obtain ⟨w', calls, new, run, pass, _⟩ := Growth.growingPass (w := ⟨(), r₂.1⟩) growth
    (createPumaSet_ok _ (by rw [capacity]; decide)).ok (createPumaSet_list _ 4000 8192 member) (by decide)
    (spawnKernel_grows 0) few 1
  exact ⟨r₂.1, w', calls, new, run, pass⟩

end Puma
