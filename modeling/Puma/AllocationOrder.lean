import Puma.Runs

namespace Puma

variable {σ α : Type}

/-- The first slots of the nodes of a chain, as many of each node as it has elements. -/
def Heap.places (h : Heap α) (c : List NodePtr) : List ElemPtr :=
  c.flatMap fun p => (List.range (((h.slots p).map Slots.numElements).getD 0)).map (getElement p)

theorem Heap.places_cons {h : Heap α} {p : NodePtr} {s : Slots α} (atSlots : h.slots p = some s) (c : List NodePtr) :
    h.places (p :: c) = (List.range s.numElements).map (getElement p) ++ h.places c := by
  rw [places, List.flatMap_cons, atSlots]
  rfl

theorem Heap.places_append (h : Heap α) (c d : List NodePtr) : h.places (c ++ d) = h.places c ++ h.places d :=
  List.flatMap_append

theorem Heap.length_places (h : Heap α) (c : List NodePtr) : (h.places c).length = h.count c := by
  rw [places, List.length_flatMap, count]
  simp only [List.length_map, List.length_range]

theorem Heap.places_congr {β : Type} {h : Heap α} {h' : Heap β} {c : List NodePtr}
    (same : ∀ p ∈ c, (h'.slots p).map Slots.numElements = (h.slots p).map Slots.numElements) :
    h'.places c = h.places c :=
  List.flatMap_congr fun p member => by rw [same p member]

theorem Heap.mem_places {h : Heap α} {c : List NodePtr} {e : ElemPtr} :
    e ∈ h.places c ↔ e.node ∈ c ∧ e.slot < ((h.slots e.node).map Slots.numElements).getD 0 := by
  simp only [places, List.mem_flatMap, List.mem_map, List.mem_range, getElement]
  constructor
  · rintro ⟨p, member, i, within, rfl⟩
    exact ⟨member, within⟩
  · rintro ⟨member, within⟩
    exact ⟨e.node, member, e.slot, within, rfl⟩

theorem Heap.nodup_places {h : Heap α} {c : List NodePtr} (nodup : c.Nodup) : (h.places c).Nodup := by
  rw [places, List.nodup_flatMap]
  refine ⟨fun p _ => List.nodup_range.map fun i j same => congrArg ElemPtr.slot same, nodup.imp fun apart => ?_⟩
  intro e first second
  obtain ⟨_, _, rfl⟩ := List.mem_map.mp first
  obtain ⟨_, _, same⟩ := List.mem_map.mp second
  exact apart (congrArg ElemPtr.node same).symm

/-- Pieces of one length, but for the last, are found by division. -/
theorem getElem?_flatMap_of_full {κ β : Type} {f : κ → List β} {width : Nat} (positive : 0 < width) {chain : List κ}
    (full : ∀ p ∈ chain.dropLast, (f p).length = width) (fits : ∀ p ∈ chain, (f p).length ≤ width) (k : Nat) :
    (chain.flatMap f)[k]? = chain[k / width]?.bind fun p => (f p)[k % width]? := by
  induction chain generalizing k with
  | nil => simp
  | cons p chain ih =>
    rw [List.flatMap_cons]
    by_cases here : k < width
    · rw [Nat.div_eq_of_lt here, Nat.mod_eq_of_lt here, List.getElem?_cons_zero, Option.bind_some]
      cases chain with
      | nil => rw [List.flatMap_nil, List.append_nil]
      | cons q chain => rw [List.getElem?_append_left (by rw [full p (by simp)]; exact here)]
    · obtain ⟨k, rfl⟩ : ∃ j, k = j + width := ⟨k - width, by omega⟩
      rw [Nat.add_div_right k positive, Nat.add_mod_right, List.getElem?_cons_succ]
      cases chain with
      | nil =>
        have short := fits p (List.mem_cons_self ..)
        rw [List.flatMap_nil, List.append_nil, List.getElem?_eq_none (by omega)]
        rfl
      | cons q chain =>
        have whole := full p (by simp)
        rw [List.getElem?_append_right (by omega), whole, Nat.add_sub_cancel]
        exact ih (fun r member => full r (List.mem_cons_of_mem p member))
          (fun r member => fits r (List.mem_cons_of_mem p member)) k

/-- No node of the chain is dirty. -/
def Heap.CleanOn (h : Heap α) (c : List NodePtr) : Prop := ∀ p ∈ c, ∀ s, h.slots p = some s → s.dirty = false

theorem Heap.slots_of_view_eq {γ : Type} {g : α → γ} {h h' : Heap α} (same : h'.view g = h.view g) {p : NodePtr}
    {s' : Slots α} (atSlots' : h'.slots p = some s') :
    ∃ s, h.slots p = some s ∧ s'.numElements = s.numElements ∧ s'.capacity = s.capacity ∧ s'.dirty = s.dirty := by
  obtain ⟨n', atNode', rfl⟩ := Heap.node_of_slots atSlots'
  obtain ⟨n, atNode, equal⟩ := Heap.node_of_view_eq same.symm atNode'
  refine ⟨n.toSlots, Heap.slots_eq atNode, ?_, ?_, ?_⟩
  · exact (congrArg (fun m => m.numElements) equal).symm
  · exact (congrArg (fun m => m.capacity) equal).symm
  · exact (congrArg (fun m => m.dirty) equal).symm

theorem Heap.numElements_of_view_eq {γ : Type} {g : α → γ} {h h' : Heap α} (same : h'.view g = h.view g) (p : NodePtr) :
    (h'.slots p).map Slots.numElements = (h.slots p).map Slots.numElements := by
  cases atSlots' : h'.slots p with
  | some s' =>
    obtain ⟨s, atSlots, count, _⟩ := Heap.slots_of_view_eq same atSlots'
    rw [atSlots, Option.map_some, Option.map_some, count]
  | none =>
    cases atSlots : h.slots p with
    | none => rfl
    | some s =>
      obtain ⟨s', there, _⟩ := Heap.slots_of_view_eq same.symm atSlots
      cases atSlots'.symm.trans there

theorem Heap.CleanOn.of_view_eq {γ : Type} {g : α → γ} {h h' : Heap α} {c : List NodePtr} (clean : h.CleanOn c)
    (same : h'.view g = h.view g) : h'.CleanOn c := by
  intro p member s' atSlots'
  obtain ⟨s, atSlots, _, _, dirty⟩ := Heap.slots_of_view_eq same atSlots'
  rw [dirty]
  exact clean p member s atSlots

section Pass

variable {γ : Type} {g : α → γ} {l : ListPtr} {kernel : Kernel σ α}

/-- The body of the loop of `_runKernelThread` at a node `c` that is not dirty. -/
theorem runKernelThreadTurn_eq (writes : kernel.Writes g) {w : World σ α} {V D S : List NodePtr} {c : NodePtr}
    (ok : w.heap.Ok) (list : ThreadListOk w.heap l (V ++ c :: D) S) {n : PumaNode α} (atNode : w.heap.node c = some n)
    (clean : n.dirty = false) {done init : Nat} (more : done < init) :
    runKernelThreadTurn l kernel init w c done =
      (kernel.callEach ((List.range n.numElements).map (getElement c)) w).map fun r =>
        (r.1, (D ++ S).head?, done + n.numElements, r.2) := by
  obtain ⟨fine, _⟩ := ok c n atNode
  obtain ⟨compact, _⟩ := fine.clean clean
  have room : n.numElements ≤ n.capacity := fine.toCounted.numElements_le
  have loop := runKernelOnNodeLoop_eq writes compact more (Nat.zero_le _)
    (by omega : n.numElements < 2 * n.capacity + 2 + 0) atNode
  rw [Nat.sub_zero, ← List.range_eq_range'] at loop
  simp only [runKernelThreadTurn, cleanupIfDirty, atNode, Option.bind_eq_bind, Option.bind_some, clean, Bool.false_eq_true,
    if_false, Option.pure_def, runKernelOnNode]
  rw [loop]
  cases calls : kernel.callEach ((List.range n.numElements).map fun j => ⟨c, j⟩) w with
  | none =>
    have same : kernel.callEach ((List.range n.numElements).map (getElement c)) w = none := calls
    rw [same]
    rfl
  | some r =>
    have same : kernel.callEach ((List.range n.numElements).map (getElement c)) w = some r := calls
    obtain ⟨n', atNode', equal⟩ := Heap.node_of_view_eq (writes.callEach calls) atNode
    have after : n'.next = (D ++ S).head? :=
      (congrArg (fun m => m.next) equal).trans (list.next_eq (B := V) (by simp) atNode)
    rw [same]
    simp [atNode', after]

/-- The loop of `_runKernelThread` over nodes that are not dirty calls the kernel on their elements in order. -/
theorem runKernelThreadLoop_eq (writes : kernel.Writes g) {turns : Nat} {w : World σ α} {V D S : List NodePtr}
    (ok : w.heap.Ok) (list : ThreadListOk w.heap l (V ++ D) S) (clean : w.heap.CleanOn D) {done init : Nat}
    (left : init = done + w.heap.count D) (enough : D.length < turns) :
    runKernelThreadLoop l kernel init turns w (D ++ S).head? done = kernel.callEach (w.heap.places D) w := by
  induction turns generalizing w V D done with
  | zero => omega
  | succ turns ih =>
    cases D with
    | nil =>
      cases S with
      | nil => rfl
      | cons s S =>
        obtain ⟨n, atNode, _⟩ := list.node (p := s) (by simp)
        have inactive : n.active = false := by
          rw [← Bool.not_eq_true, list.active_iff atNode (by simp)]
          exact list.notMem_active (List.mem_cons_self ..)
        simp [runKernelThreadLoop, atNode, inactive, Heap.places, Kernel.callEach]
    | cons c D =>
      obtain ⟨n, atNode, _⟩ := list.node (p := c) (by simp)
      have active : n.active = true := (list.active_iff atNode (by simp)).mpr (by simp)
      by_cases more : done < init
      · have turn := runKernelThreadTurn_eq writes ok list atNode
          (clean c (List.mem_cons_self ..) _ (Heap.slots_eq atNode)) more
        rw [Heap.places_cons (Heap.slots_eq atNode), Kernel.callEach_append]
        rw [Heap.count_cons atNode] at left
        simp only [List.cons_append, List.head?_cons, runKernelThreadLoop, atNode, Option.bind_eq_bind, Option.bind_some,
          active, more, and_self, if_true, turn, Option.pure_def]
        cases calls : kernel.callEach ((List.range n.numElements).map (getElement c)) w with
        | none => rfl
        | some r =>
          -- The kernel has only written to the elements, so the nodes behind `c` are as they were.
          have same := writes.callEach calls
          have post := write_step ok list (Heap.skeleton_of_view_eq same)
          have sizes (p : NodePtr) (_ : p ∈ D) := Heap.numElements_of_view_eq same p
          have rest : runKernelThreadLoop l kernel init turns r.1 (D ++ S).head? (done + n.numElements) =
              kernel.callEach (r.1.heap.places D) r.1 := ih (V := V ++ [c]) post.ok (by simpa using post.list)
            (Heap.CleanOn.of_view_eq (fun p member => clean p (List.mem_cons_of_mem c member)) same)
            (by rw [Heap.count_congr sizes]; omega) (by simpa using enough)
          rw [Heap.places_congr sizes] at rest
          simp only [Option.map_some, Option.bind_some, rest]
          cases kernel.callEach (w.heap.places D) r.1 <;> rfl
      · have empty : w.heap.places (c :: D) = [] := by
          rw [← List.length_eq_zero_iff, Heap.length_places]
          omega
        simp [runKernelThreadLoop, atNode, more, empty, Kernel.callEach]

/-- More turns than a pass needs make no difference. -/
theorem runKernelThreadLoop_more {init turns : Nat} {w : World σ α} {current : Option NodePtr} {done : Nat}
    {r : World σ α × List (ElemPtr × α)} (run : runKernelThreadLoop l kernel init turns w current done = some r)
    (extra : Nat) : runKernelThreadLoop l kernel init (turns + extra) w current done = some r := by
  induction turns generalizing w current done r with
  | zero =>
    cases current with
    | none => exact (by cases extra <;> rfl : runKernelThreadLoop l kernel init (0 + extra) w none done = _).trans run
    | some p => cases run
  | succ turns ih =>
    rw [Nat.succ_add]
    cases current with
    | none => exact run
    | some p =>
      simp only [runKernelThreadLoop, Option.bind_eq_bind] at run ⊢
      obtain ⟨n, atNode, run⟩ := Option.bind_eq_some_iff.mp run
      rw [atNode, Option.bind_some]
      split at run
      · rename_i more
        obtain ⟨⟨w₁, next, done₁, calls⟩, turn, run⟩ := Option.bind_eq_some_iff.mp run
        obtain ⟨⟨w₂, later⟩, rest, run⟩ := Option.bind_eq_some_iff.mp run
        rw [if_pos more, turn, Option.bind_some, ih rest, Option.bind_some]
        exact run
      · rename_i stop
        rw [if_neg stop]
        exact run

/-- A pass over a list none of whose nodes is dirty calls the kernel on its elements, node by node and slot by slot. -/
theorem runKernelThread_eq (writes : kernel.Writes g) {turns : Nat} {w : World σ α} {A S : List NodePtr}
    (ok : w.heap.Ok) (list : ThreadListOk w.heap l A S) (clean : w.heap.CleanOn A) (enough : A.length < turns)
    (elapsed : ℚ) :
    runKernelThread turns w l kernel elapsed = (kernel.callEach (w.heap.places A) w).map fun r =>
      ({ r.1 with heap := r.1.heap.modifyList l fun tl => tl.recordRunTime elapsed }, r.2) := by
  have count : (w.heap.lists l).numElements = 0 + w.heap.count A := by
    rw [list.count, Nat.zero_add]
    refine (Heap.count_eq_card fun p member => ?_).symm
    obtain ⟨n, atNode, _⟩ := list.node (List.mem_append_left S member)
    exact ⟨n.toSlots, Heap.slots_eq atNode, (ok p n atNode).1.toCounted.count⟩
  have loop := runKernelThreadLoop_eq writes (V := []) ok list clean count enough
  rw [runKernelThread, list.head, loop]
  cases kernel.callEach (w.heap.places A) w <;> rfl

/-- And so does every pass that comes back. -/
theorem runKernelThread_calls (writes : kernel.Writes g) {turns : Nat} {w w' : World σ α} {A S : List NodePtr}
    (ok : w.heap.Ok) (list : ThreadListOk w.heap l A S) (clean : w.heap.CleanOn A) {elapsed : ℚ}
    {calls : List (ElemPtr × α)} (run : runKernelThread turns w l kernel elapsed = some (w', calls)) :
    (kernel.callEach (w.heap.places A) w).map (fun r =>
      ({ r.1 with heap := r.1.heap.modifyList l fun tl => tl.recordRunTime elapsed }, r.2)) = some (w', calls) := by
  rw [← runKernelThread_eq writes ok list clean (by omega : A.length < turns + (A.length + 1))]
  simp only [runKernelThread, Option.bind_eq_bind] at run ⊢
  obtain ⟨r, loop, run⟩ := Option.bind_eq_some_iff.mp run
  rw [runKernelThreadLoop_more loop, Option.bind_some]
  exact run

end Pass

/-- The list has no spare and no dirty nodes, and all its nodes but the last are full. -/
structure Filled (h : Heap α) (l : ListPtr) (nodes : List NodePtr) : Prop where
  ok : h.Ok
  list : ThreadListOk h l nodes []
  clean : h.CleanOn nodes
  capacity : ∀ p ∈ nodes, ∀ s, h.slots p = some s → s.capacity = h.capacityFor (h.lists l).elementSize
  full : ∀ p ∈ nodes.dropLast, ∀ s, h.slots p = some s → s.numElements = s.capacity

/-- What `_pumallocOnThreadList` has done once it has found a tail node `r` with room, behind the full nodes `V`. -/
structure RoomPost (h h' : Heap α) (l : ListPtr) (nodes V : List NodePtr) (r : NodePtr) : Prop
    extends Keeps h h' l nodes (V ++ [r]) [] where
  filled : Filled h' l (V ++ [r])
  room : ∀ s, h'.slots r = some s → s.numElements < s.capacity
  places : h'.places (V ++ [r]) = h.places nodes
  read : h'.read = h.read
  initial : nodes <+: V ++ [r]

section Alloc

variable [Inhabited α] {h h' : Heap α} {l : ListPtr} {nodes : List NodePtr} {block r : NodePtr}

/-- Behind full nodes, a new one. -/
theorem Filled.append (filled : Filled h l nodes) (positive : 0 < h.capacityFor (h.lists l).elementSize)
    (full : ∀ p ∈ nodes, ∀ s, h.slots p = some s → s.numElements = s.capacity)
    (run : appendPumaNode h l (h.lists l).elementSize block = some (h', r)) : RoomPost h h' l nodes nodes r := by
  rw [appendPumaNode_eq filled.list.toShape] at run
  obtain ⟨h₁, append, same⟩ := Option.map_eq_some_iff.mp run
  cases same
  obtain ⟨post, slots⟩ := appendPumaNode_new filled.list.toShape filled.ok positive append
  have new := slots block
  rw [if_pos rfl] at new
  have apart (p : NodePtr) (member : p ∈ nodes) : p ≠ block := by
    rintro rfl
    have nodup := post.shape.nodup_active
    rw [List.nodup_append] at nodup
    exact nodup.2.2 p member p (List.mem_singleton_self p) rfl
  have old (p : NodePtr) (member : p ∈ nodes) : h₁.slots p = h.slots p := by
    rw [slots, if_neg (apart p member)]
  have cases {p : NodePtr} (member : p ∈ nodes ++ [block]) : p ∈ nodes ∨ p = block := by
    rwa [List.mem_append, List.mem_singleton] at member
  have size := post.loc.capacityFor l
  refine ⟨post.toKeeps, ⟨post.ok, post.toKeeps.listOk filled.list, ?_, ?_, ?_⟩, ?_, ?_, post.read, List.prefix_append _ _⟩
  · intro p member s atSlots
    rcases cases member with inNodes | rfl
    · exact filled.clean p inNodes s ((old p inNodes).symm.trans atSlots)
    · cases Option.some.inj (new.symm.trans atSlots)
      rfl
  · intro p member s atSlots
    rw [size]
    rcases cases member with inNodes | rfl
    · exact filled.capacity p inNodes s ((old p inNodes).symm.trans atSlots)
    · cases Option.some.inj (new.symm.trans atSlots)
      rfl
  · intro p member s atSlots
    rw [List.dropLast_concat] at member
    exact full p member s ((old p member).symm.trans atSlots)
  · intro s atSlots
    cases Option.some.inj (new.symm.trans atSlots)
    exact positive
  · have here : h₁.places [block] = [] := by
      rw [Heap.places_cons new]
      rfl
    have there : h₁.places nodes = h.places nodes := Heap.places_congr fun p member => by rw [old p member]
    have both : h₁.places (nodes ++ [block]) = h.places nodes := by
      rw [Heap.places_append, here, there, List.append_nil]
    exact both

theorem Filled.tailWithRoom (filled : Filled h l nodes) (positive : 0 < h.capacityFor (h.lists l).elementSize)
    (run : tailWithRoom h l block = some (h', r)) : ∃ V, RoomPost h h' l nodes V r := by
  have atTail := filled.list.tail
  unfold Puma.tailWithRoom at run
  rcases List.eq_nil_or_concat nodes with rfl | ⟨V, t, rfl⟩
  · have missing : (h.lists l).tail = none := atTail
    rw [missing] at run
    exact ⟨[], filled.append positive (by simp) run⟩
  · rw [List.concat_eq_append] at filled atTail ⊢
    have last : (h.lists l).tail = some t := by rw [atTail]; simp
    obtain ⟨n, atNode, _⟩ := filled.list.node (p := t) (by simp)
    simp only [last, atNode, Option.bind_eq_bind, Option.bind_some] at run
    by_cases full : n.numElements = n.capacity
    · rw [if_pos full] at run
      refine ⟨V ++ [t], filled.append positive (fun p member s atSlots => ?_) run⟩
      rcases List.mem_append.mp member with inV | isLast
      · exact filled.full p (by rwa [List.dropLast_concat]) s atSlots
      · rw [List.mem_singleton.mp isLast, Heap.slots_eq atNode] at atSlots
        rw [← Option.some.inj atSlots]
        exact full
    · rw [if_neg full] at run
      cases run
      refine ⟨V, Keeps.refl filled.list.toShape, filled, fun s atSlots => ?_, rfl, rfl, List.prefix_rfl⟩
      rw [← Option.some.inj ((Heap.slots_eq atNode).symm.trans atSlots)]
      exact lt_of_le_of_ne (filled.ok r n atNode).1.toCounted.numElements_le full

/-- The new element goes to the first slot behind the elements of the tail node. -/
theorem RoomPost.reserveSlot {h₁ : Heap α} {V : List NodePtr} {n : PumaNode α} (post : RoomPost h h₁ l nodes V r)
    (found : tailWithRoom h l block = some (h₁, r)) (atNode : h₁.node r = some n) :
    reserveSlot h l block = some (h₁.setNode r { n with firstKnownFree := n.numElements + 1 }, r, n.numElements) ∧
      ReservePost h₁ (h₁.setNode r { n with firstKnownFree := n.numElements + 1 }) l (V ++ [r]) [] block V [] r
        n.numElements := by
  have filled := post.filled
  have room := post.room _ (Heap.slots_eq atNode)
  obtain ⟨fine, _⟩ := filled.ok r n atNode
  obtain ⟨compact, cursor⟩ := fine.clean (filled.clean r (by simp) _ (Heap.slots_eq atNode))
  have active : n.active = true := (filled.list.active_iff atNode (by simp)).mpr (by simp)
  have atTail : (h₁.lists l).tail = some r := by rw [filled.list.tail]; simp
  refine ⟨?_, Keeps.cursor filled.list.toShape (by simp) atNode n.dirty (n.numElements + 1),
    okExcept_cursor (filled.ok.except _) atNode n.dirty (n.numElements + 1), _, Heap.node_setNode_self ..,
    SlotReserved.compact compact rfl rfl room⟩
  have chosen : nextFreeIndex h₁ l r =
      some (h₁.setNode r { n with firstKnownFree := n.numElements + 1 }, n.numElements) := by
    simp [nextFreeIndex, atNode, cursor, room]
  have stays : ((h₁.setNode r { n with firstKnownFree := n.numElements + 1 }).modifyList l fun tl => { tl with
      numNodes := tl.numNodes + if n.active then 0 else 1, tail := some r }) =
      h₁.setNode r { n with firstKnownFree := n.numElements + 1 } :=
    Heap.modifyList_eq_self (by simp [active, ← atTail])
  simp only [Puma.reserveSlot, found, chosen, Option.bind_eq_bind, Option.bind_some, Heap.node_setNode_self,
    Option.pure_def, stays, Heap.setNode_setNode]
  rw [← active]

/-- The new element stands in the first slot behind the elements of the tail node `r`; `V` are the nodes in front
of it. -/
structure NextSlot (h h' : Heap α) (l : ListPtr) (V : List NodePtr) (r : NodePtr) (n : PumaNode α) : Prop where
  atNode : h.node r = some n
  here : h'.slots r = some ({ n.toSlots with firstKnownFree := n.numElements + 1 }.alloc n.numElements)
  there : ∀ p, p ≠ r → h'.slots p = h.slots p
  ok : h'.Ok
  list : ThreadListOk h' l (V ++ [r]) []
  loc : Local h h' l

/-- An allocation finds a tail node with room and takes its next slot. -/
theorem Filled.pumalloc {e : ElemPtr} (filled : Filled h l nodes)
    (positive : 0 < h.capacityFor (h.lists l).elementSize) (run : pumallocOnThreadList h l block = some (h', e)) :
    ∃ h₁ V r n, RoomPost h h₁ l nodes V r ∧ NextSlot h₁ h' l V r n ∧ e = ⟨r, n.numElements⟩ := by
  simp only [pumallocOnThreadList, Puma.reserveSlot, Option.bind_eq_bind] at run
  obtain ⟨⟨h₂, r, i⟩, reserve, run⟩ := Option.bind_eq_some_iff.mp run
  obtain ⟨⟨h₁, t⟩, found, _⟩ := Option.bind_eq_some_iff.mp reserve
  obtain ⟨h₃, alloc, run⟩ := Option.bind_eq_some_iff.mp run
  cases run
  obtain ⟨V, tail⟩ := filled.tailWithRoom positive found
  obtain ⟨n, atNode, _⟩ := tail.filled.list.node (p := t) (by simp)
  obtain ⟨reserved, ready⟩ := tail.reserveSlot found atNode
  have same : reserveSlot h l block = some (h₂, r, i) := reserve
  rw [reserved] at same
  cases same
  obtain ⟨post, s, atSlots, slots⟩ := ready.alloc alloc
  rw [Heap.slots_eq (Heap.node_setNode_self ..)] at atSlots
  cases atSlots
  have here := slots r
  rw [if_pos rfl] at here
  refine ⟨h₁, V, r, n, tail, ⟨atNode, here, fun p apart => ?_, post.ok, post.listOk tail.filled.list, post.loc⟩, rfl⟩
  rw [slots, if_neg apart, Heap.slots_setNode, if_neg apart]

end Alloc

section NextSlot

variable {h h' : Heap α} {l : ListPtr} {V : List NodePtr} {r : NodePtr} {n : PumaNode α}

theorem NextSlot.inFront (next : NextSlot h h' l V r n) {p : NodePtr} (member : p ∈ V) : h'.slots p = h.slots p := by
  refine next.there p fun same => ?_
  have nodup := next.list.toShape.nodup_active
  rw [List.nodup_append] at nodup
  exact nodup.2.2 p member r (List.mem_singleton_self r) same

/-- A node of the list is one in front, or the tail node. -/
theorem NextSlot.cases (next : NextSlot h h' l V r n) {p : NodePtr} (member : p ∈ V ++ [r]) {s : Slots α}
    (atSlots : h'.slots p = some s) :
    p ∈ V ∧ h.slots p = some s ∨ p = r ∧ h.slots p = some n.toSlots ∧
      s = { n.toSlots with firstKnownFree := n.numElements + 1 }.alloc n.numElements := by
  rcases List.mem_append.mp member with inside | last
  · exact Or.inl ⟨inside, (next.inFront inside).symm.trans atSlots⟩
  · rw [List.mem_singleton.mp last] at atSlots ⊢
    exact Or.inr ⟨rfl, Heap.slots_eq next.atNode, Option.some.inj (atSlots.symm.trans next.here)⟩

theorem NextSlot.filled (next : NextSlot h h' l V r n) (filled : Filled h l (V ++ [r])) : Filled h' l (V ++ [r]) where
  ok := next.ok
  list := next.list
  clean p member s atSlots := by
    rcases next.cases member atSlots with ⟨_, before⟩ | ⟨_, before, rfl⟩
    · exact filled.clean p member s before
    · have clean := filled.clean p member _ before
      exact clean
  capacity p member s atSlots := by
    rw [next.loc.capacityFor l]
    rcases next.cases member atSlots with ⟨_, before⟩ | ⟨_, before, rfl⟩
    · exact filled.capacity p member s before
    · have capacity := filled.capacity p member _ before
      exact capacity
  full p member s atSlots := by
    have inside := member
    rw [List.dropLast_concat] at inside
    rw [next.inFront inside] at atSlots
    exact filled.full p member s atSlots

theorem NextSlot.places (next : NextSlot h h' l V r n) :
    h'.places (V ++ [r]) = h.places (V ++ [r]) ++ [⟨r, n.numElements⟩] := by
  have before : h'.places V = h.places V := Heap.places_congr fun p member => by rw [next.inFront member]
  rw [Heap.places_append, Heap.places_append, before, Heap.places_cons next.here,
    Heap.places_cons (Heap.slots_eq next.atNode), Slots.alloc, List.range_succ, List.map_append]
  simp [Heap.places, getElement]

theorem NextSlot.read (next : NextSlot h h' l V r n) (ok : h.Ok) (room : n.numElements < n.capacity) {a : ElemPtr}
    (other : a ≠ ⟨r, n.numElements⟩) : h'.read a = h.read a := by
  by_cases same : a.node = r
  · rw [Heap.read_eq (same ▸ next.here), Heap.read_eq (same ▸ Heap.slots_eq next.atNode)]
    have counted := (ok r n next.atNode).1.toCounted
    exact counted.read_alloc room fun equal => other (by cases a; cases same; cases equal; rfl)
  · exact Heap.read_congr (next.there a.node same)

end NextSlot

section Alloc

variable [Inhabited α] {h h' : Heap α} {l : ListPtr} {nodes : List NodePtr} {block : NodePtr}

/-- The elements of a list that only grows, in the order in which they were allocated. -/
structure InOrder (h : Heap α) (l : ListPtr) (nodes : List NodePtr) (allocated : List ElemPtr) : Prop
    extends Filled h l nodes where
  inhabited : ∀ p ∈ nodes, ∀ s, h.slots p = some s → 0 < s.numElements
  places : h.places nodes = allocated

/-- An allocation goes on where the last one stopped, and leaves the other elements alone. -/
theorem InOrder.pumalloc {allocated : List ElemPtr} {e : ElemPtr} (order : InOrder h l nodes allocated)
    (positive : 0 < h.capacityFor (h.lists l).elementSize) (run : pumallocOnThreadList h l block = some (h', e)) :
    ∃ nodes', nodes <+: nodes' ∧ InOrder h' l nodes' (allocated ++ [e]) ∧ Local h h' l ∧
      ∀ a, a ≠ e → h'.read a = h.read a := by
  obtain ⟨h₁, V, r, n, tail, next, rfl⟩ := order.toFilled.pumalloc positive run
  refine ⟨V ++ [r], tail.initial, ⟨next.filled tail.filled, fun p member s atSlots => ?_, ?_⟩,
    tail.loc.trans next.loc, fun a other => ?_⟩
  · rcases next.cases member atSlots with ⟨inside, before⟩ | ⟨_, _, rfl⟩
    · obtain ⟨m, atNode, rfl⟩ := Heap.node_of_slots before
      rw [tail.filled.full p (by rwa [List.dropLast_concat]) _ before]
      exact (tail.filled.ok p m atNode).1.capacity_pos
    · exact Nat.succ_pos _
  · rw [next.places, tail.places, order.places]
  · rw [← tail.read]
    exact next.read tail.filled.ok (tail.room _ (Heap.slots_eq next.atNode)) other

/-- A block that is not in use is enough for an allocation. -/
theorem Filled.pumalloc_isSome (filled : Filled h l nodes) (positive : 0 < h.capacityFor (h.lists l).elementSize)
    (fresh : block ∉ h.blocks) : (pumallocOnThreadList h l block).isSome := by
  have append : (appendPumaNode h l (h.lists l).elementSize block).isSome := by
    rw [appendPumaNode_eq filled.list.toShape, Option.isSome_map]
    refine appendNewBlock_isSome (fun t last => ?_) fresh (createPumaBitmaskForElemArray_fits positive)
    obtain ⟨n, atNode, _⟩ := filled.list.node (List.mem_append_left [] (List.mem_of_getLast? last))
    exact ⟨n, atNode⟩
  have found : (Puma.tailWithRoom h l block).isSome := by
    unfold Puma.tailWithRoom
    have atTail := filled.list.tail
    cases last : (h.lists l).tail with
    | none => exact append
    | some t =>
      rw [last, List.head?_nil, Option.or_none] at atTail
      obtain ⟨n, atNode, _⟩ := filled.list.node (List.mem_append_left [] (List.mem_of_getLast? atTail.symm))
      simp only [atNode, Option.bind_eq_bind, Option.bind_some]
      split
      · exact append
      · rfl
  obtain ⟨⟨h₁, r⟩, tailed⟩ := Option.isSome_iff_exists.mp found
  obtain ⟨V, tail⟩ := filled.tailWithRoom positive tailed
  obtain ⟨n, atNode, _⟩ := tail.filled.list.node (p := r) (by simp)
  obtain ⟨reserved, _⟩ := tail.reserveSlot tailed atNode
  simp [pumallocOnThreadList, reserved, allocElementOnNode_eq (Heap.node_setNode_self ..)]

end Alloc

section Order

variable {h h' : Heap α} {l : ListPtr} {nodes : List NodePtr} {allocated : List ElemPtr}

theorem Filled.of_view_eq {γ : Type} {g : α → γ} (filled : Filled h l nodes) (same : h'.view g = h.view g) :
    Filled h' l nodes := by
  have post := write_step filled.ok filled.list (Heap.skeleton_of_view_eq same)
  refine ⟨post.ok, post.list, filled.clean.of_view_eq same, fun p member s' atSlots' => ?_, fun p member s' atSlots' => ?_⟩
  · obtain ⟨s, atSlots, _, capacity, _⟩ := Heap.slots_of_view_eq same atSlots'
    rw [capacity, post.loc.capacityFor_view l]
    exact filled.capacity p member s atSlots
  · obtain ⟨s, atSlots, count, capacity, _⟩ := Heap.slots_of_view_eq same atSlots'
    rw [capacity, count]
    exact filled.full p member s atSlots

theorem InOrder.of_view_eq {γ : Type} {g : α → γ} (order : InOrder h l nodes allocated) (same : h'.view g = h.view g) :
    InOrder h' l nodes allocated where
  toFilled := order.toFilled.of_view_eq same
  inhabited p member s' atSlots' := by
    obtain ⟨s, atSlots, count, _⟩ := Heap.slots_of_view_eq same atSlots'
    rw [count]
    exact order.inhabited p member s atSlots
  places := by
    rw [← order.places]
    exact Heap.places_congr fun p _ => Heap.numElements_of_view_eq same p

theorem InOrder.recordRunTime (order : InOrder h l nodes allocated) (elapsed : ℚ) :
    InOrder (h.modifyList l fun tl => tl.recordRunTime elapsed) l nodes allocated where
  ok := order.ok
  list := (recordRunTime_step order.ok order.list elapsed).list
  clean := order.clean
  capacity p member s atSlots := by
    rw [Heap.lists_modifyList_self]
    exact order.capacity p member s atSlots
  full := order.full
  inhabited := order.inhabited
  places := order.places

/-- A pass visits the elements in the order in which they were allocated. -/
theorem InOrder.runKernelThread {γ : Type} {g : α → γ} {kernel : Kernel σ α} {w : World σ α}
    (order : InOrder w.heap l nodes allocated) (writes : kernel.Writes g) {turns : Nat} {elapsed : ℚ} {w' : World σ α}
    {calls : List (ElemPtr × α)} (run : runKernelThread turns w l kernel elapsed = some (w', calls)) :
    InOrder w'.heap l nodes allocated ∧ Local (w.heap.view g) (w'.heap.view g) l ∧ calls.map Prod.fst = allocated := by
  have called := runKernelThread_calls writes order.ok order.list order.clean run
  obtain ⟨⟨w₁, calls₁⟩, each, same⟩ := Option.map_eq_some_iff.mp called
  cases same
  rw [order.places] at each
  have written := writes.callEach each
  refine ⟨(order.of_view_eq written).recordRunTime elapsed, ?_, Kernel.callEach_visits each⟩
  rw [← written]
  exact (Local.modifyList w₁.heap l rfl rfl).view g

/-- The `k`-th allocation has returned slot `k % capacity` of node `k / capacity`. -/
theorem InOrder.place (order : InOrder h l nodes allocated) (positive : 0 < h.capacityFor (h.lists l).elementSize)
    {k : Nat} {e : ElemPtr} (atIndex : allocated[k]? = some e) :
    nodes[k / h.capacityFor (h.lists l).elementSize]? = some e.node ∧
      e.slot = k % h.capacityFor (h.lists l).elementSize := by
  have sizes (p : NodePtr) (member : p ∈ nodes) : ∃ s, h.slots p = some s ∧
      s.capacity = h.capacityFor (h.lists l).elementSize ∧ s.numElements ≤ s.capacity := by
    obtain ⟨n, atNode, _⟩ := order.list.node (List.mem_append_left [] member)
    exact ⟨n.toSlots, Heap.slots_eq atNode, order.capacity p member _ (Heap.slots_eq atNode),
      (order.ok p n atNode).1.toCounted.numElements_le⟩
  rw [← order.places, Heap.places, getElem?_flatMap_of_full positive] at atIndex
  · obtain ⟨p, atNode, atSlot⟩ := Option.bind_eq_some_iff.mp atIndex
    rw [List.getElem?_map] at atSlot
    obtain ⟨i, atRange, rfl⟩ := Option.map_eq_some_iff.mp atSlot
    obtain ⟨_, value⟩ := List.getElem?_eq_some_iff.mp atRange
    rw [List.getElem_range] at value
    exact ⟨atNode, value.symm⟩
  · intro p member
    obtain ⟨s, atSlots, capacity, _⟩ := sizes p (List.mem_of_mem_dropLast member)
    have full := order.full p member s atSlots
    rw [List.length_map, List.length_range, atSlots, Option.map_some, Option.getD_some, full, capacity]
  · intro p member
    obtain ⟨s, atSlots, capacity, room⟩ := sizes p member
    rw [List.length_map, List.length_range, atSlots, Option.map_some, Option.getD_some, ← capacity]
    exact room

/-- The elements of the list are the allocated ones. -/
theorem InOrder.live_iff (order : InOrder h l nodes allocated) (e : ElemPtr) : h.Live l e ↔ e ∈ allocated := by
  rw [← order.places, Heap.mem_places]
  constructor
  · intro live
    have member := live.active order.list.toShape order.ok
    obtain ⟨n, atNode, _, inside⟩ := live
    obtain ⟨compact, _⟩ := (order.ok _ n atNode).1.clean (order.clean _ member _ (Heap.slots_eq atNode))
    rw [compact, Finset.mem_range] at inside
    rw [Heap.slots_eq atNode]
    exact ⟨member, inside⟩
  · rintro ⟨member, within⟩
    obtain ⟨n, atNode, owner⟩ := order.list.node (List.mem_append_left [] member)
    obtain ⟨compact, _⟩ := (order.ok _ n atNode).1.clean (order.clean _ member _ (Heap.slots_eq atNode))
    rw [Heap.slots_eq atNode] at within
    exact ⟨n, atNode, owner, by rw [compact, Finset.mem_range]; exact within⟩

/-- `_getLastElement` finds the element that was allocated last, and changes nothing. -/
theorem InOrder.getLastElement (order : InOrder h l nodes allocated) :
    getLastElement h l = some (h, allocated.getLast?) := by
  have atTail := order.list.tail
  rw [Puma.getLastElement, ← order.places]
  rcases List.eq_nil_or_concat nodes with rfl | ⟨V, t, rfl⟩
  · have missing : (h.lists l).tail = none := atTail
    rw [missing]
    rfl
  · rw [List.concat_eq_append] at order atTail ⊢
    have last : (h.lists l).tail = some t := by rw [atTail]; simp
    obtain ⟨n, atNode, _⟩ := order.list.node (p := t) (by simp)
    have active : n.active = true := (order.list.active_iff atNode (by simp)).mpr (by simp)
    obtain ⟨fine, _⟩ := order.ok t n atNode
    obtain ⟨compact, _⟩ := fine.clean (order.clean t (by simp) _ (Heap.slots_eq atNode))
    have positive := order.inhabited t (by simp) _ (Heap.slots_eq atNode)
    have bits : n.freeMask.numElements = n.capacity := fine.bits
    have live {i : Nat} : i ∈ n.toSlots.liveSlots ↔ i < n.numElements := by rw [compact, Finset.mem_range]
    have found : pumaLastIndexOfValue n.freeMask maskNotFree = some (n.numElements - 1) := by
      obtain ⟨bound, held⟩ := Slots.mem_liveSlots.mp (live.mpr (by omega : n.numElements - 1 < n.numElements))
      cases search : pumaLastIndexOfValue n.freeMask maskNotFree with
      | none => exact (pumaLastIndexOfValue_eq_none (Or.inl rfl) search (bits ▸ bound) held).elim
      | some i =>
        obtain ⟨within, value, after⟩ := pumaLastIndexOfValue_eq_some (Or.inl rfl) search
        have few := live.mp (Slots.mem_liveSlots.mpr ⟨bits ▸ within, value⟩)
        by_contra other
        exact after (n.numElements - 1) (by simp at other; omega) (bits ▸ bound) held
    have ends : (h.places (V ++ [t])).getLast? = some (getElement t (n.numElements - 1)) := by
      obtain ⟨m, same⟩ : ∃ m, n.numElements = m + 1 := ⟨n.numElements - 1, by omega⟩
      rw [Heap.places_append, Heap.places_cons (Heap.slots_eq atNode), same, List.range_succ]
      simp [Heap.places]
    rw [ends, last]
    simp [getLastElementLoop, atNode, active, found]

end Order

section Runs

variable [Inhabited α] {l : ListPtr}

/-- Allocations on list `l`, and passes over it whose kernels neither allocate nor free; `allocated`
are the addresses that the allocations have returned. -/
inductive GrowRun (l : ListPtr) (start : Heap α) : Heap α → List ElemPtr → Prop
  | start : GrowRun l start start []
  | pumalloc {h h' : Heap α} {allocated : List ElemPtr} {e : ElemPtr} (before : GrowRun l start h allocated)
      (block : NodePtr) (run : pumallocOnThreadList h l block = some (h', e)) :
      GrowRun l start h' (allocated ++ [e])
  | runKernelThread {σ : Type} {w w' : World σ α} {allocated : List ElemPtr} {calls : List (ElemPtr × α)}
      (before : GrowRun l start w.heap allocated) (kernel : Kernel σ α) (writes : kernel.Writes fun _ => ())
      (turns : Nat) (elapsed : ℚ) (run : runKernelThread turns w l kernel elapsed = some (w', calls)) :
      GrowRun l start w'.heap allocated

theorem GrowRun.inOrder {start h : Heap α} {allocated : List ElemPtr} (run : GrowRun l start h allocated)
    (ok : start.Ok) (empty : ThreadListOk start l [] []) (positive : 0 < start.capacityFor (start.lists l).elementSize) :
    h.capacityFor (h.lists l).elementSize = start.capacityFor (start.lists l).elementSize ∧
      ∃ nodes, InOrder h l nodes allocated := by
  induction run with
  | start =>
    refine ⟨rfl, [], ⟨ok, empty, ?_, ?_, ?_⟩, ?_, rfl⟩
    · intro p member
      cases member
    · intro p member
      cases member
    · intro p member
      cases member
    · intro p member
      cases member
  | pumalloc before block run ih =>
    obtain ⟨capacity, nodes, order⟩ := ih
    obtain ⟨nodes', _, order', loc, _⟩ := order.pumalloc (by rw [capacity]; exact positive) run
    exact ⟨(loc.capacityFor l).trans capacity, nodes', order'⟩
  | runKernelThread before kernel writes turns elapsed run ih =>
    obtain ⟨capacity, nodes, order⟩ := ih
    obtain ⟨order', loc, _⟩ := order.runKernelThread writes run
    exact ⟨(loc.capacityFor_view l).trans capacity, nodes, order'⟩

/-- A list that only grows: where its elements stand, what `_getLastElement` and an allocation do next, and
what a pass does whose kernel neither allocates nor frees. -/
structure GrownList (h : Heap α) (l : ListPtr) (capacity : Nat) (nodes : List NodePtr) (allocated : List ElemPtr) : Prop where
  list : ThreadListOk h l nodes []
  place : ∀ k e, allocated[k]? = some e → nodes[k / capacity]? = some e.node ∧ e.slot = k % capacity
  live : ∀ e, h.Live l e ↔ e ∈ allocated
  once : allocated.Nodup
  last : getLastElement h l = some (h, allocated.getLast?)
  returns : ∀ block, block ∉ h.blocks → (pumallocOnThreadList h l block).isSome
  still : ∀ block h' e, pumallocOnThreadList h l block = some (h', e) → ∀ a ∈ allocated, h'.read a = h.read a
  pass : ∀ {σ : Type} (kernel : Kernel σ α) (extra : σ) (turns : Nat) (elapsed : ℚ), kernel.Writes (fun _ => ()) →
    nodes.length < turns → runKernelThread turns ⟨extra, h⟩ l kernel elapsed =
      (kernel.callEach allocated ⟨extra, h⟩).map fun r =>
        ({ r.1 with heap := r.1.heap.modifyList l fun tl => tl.recordRunTime elapsed }, r.2)
  visits : ∀ {σ : Type} (kernel : Kernel σ α) (extra : σ) (turns : Nat) (elapsed : ℚ) (w' : World σ α)
    (calls : List (ElemPtr × α)), kernel.Writes (fun _ => ()) →
    runKernelThread turns ⟨extra, h⟩ l kernel elapsed = some (w', calls) → calls.map Prod.fst = allocated

/-- While nothing is freed, the elements of a list stand in its nodes in the order in which they were
allocated, none of them moves, and every pass visits each of them once in that order. -/
theorem GrowRun.allocationOrder {start h : Heap α} {allocated : List ElemPtr} (run : GrowRun l start h allocated)
    (ok : start.Ok) (empty : ThreadListOk start l [] []) (positive : 0 < start.capacityFor (start.lists l).elementSize) :
    ∃ nodes, GrownList h l (start.capacityFor (start.lists l).elementSize) nodes allocated := by
  obtain ⟨capacity, nodes, order⟩ := run.inOrder ok empty positive
  rw [← capacity] at positive ⊢
  have nodup {g : Heap α} {c : List NodePtr} {es : List ElemPtr} (order : InOrder g l c es) : es.Nodup := by
    rw [← order.places]
    exact Heap.nodup_places order.list.toShape.nodup_active
  refine ⟨nodes, order.list, fun k e atIndex => order.place positive atIndex, order.live_iff, nodup order,
    order.getLastElement, fun block fresh => order.toFilled.pumalloc_isSome positive fresh,
    fun block h' e run a member => ?_, fun kernel extra turns elapsed writes enough => ?_,
    fun kernel extra turns elapsed w' calls writes run => ?_⟩
  · obtain ⟨nodes', _, order', _, still⟩ := order.pumalloc positive run
    refine still a ?_
    rintro rfl
    have distinct := nodup order'
    rw [List.nodup_append] at distinct
    exact distinct.2.2 a member a (List.mem_singleton_self a) rfl
  · rw [← order.places]
    exact runKernelThread_eq (w := ⟨extra, h⟩) writes order.ok order.list order.clean enough elapsed
  · exact (InOrder.runKernelThread (w := ⟨extra, h⟩) order writes run).2.2

end Runs

/-- Three allocations on nodes with room for two elements each, and a pass between the last two of them. -/
theorem oneThread_allocationOrder : ∃ (h : Heap Unit) (nodes : List NodePtr),
    (createPumaSet oneThread.toPumaSet 4000 8192 : Heap Unit).capacityFor 4000 = 2 ∧
    GrownList h 0 2 nodes [⟨0, 0⟩, ⟨0, 1⟩, ⟨5, 0⟩] := by
  obtain ⟨r₁, r₂, r₃, r₄, first, second, pass, third, at₁, at₂, at₄⟩ : ∃ (r₁ r₂ : Heap Unit × ElemPtr)
      (r₃ : World Unit Unit × List (ElemPtr × Unit)) (r₄ : Heap Unit × ElemPtr),
      pumallocOnThreadList (createPumaSet oneThread.toPumaSet 4000 8192) 0 0 = some r₁ ∧
      pumallocOnThreadList r₁.1 0 7 = some r₂ ∧
      runKernelThread 3 ⟨(), r₂.1⟩ 0 idleKernel 1 = some r₃ ∧
      pumallocOnThreadList r₃.1.heap 0 5 = some r₄ ∧ r₁.2 = ⟨0, 0⟩ ∧ r₂.2 = ⟨0, 1⟩ ∧ r₄.2 = ⟨5, 0⟩ := by
    refine ⟨_, _, _, _, rfl, rfl, rfl, rfl, rfl, rfl, rfl⟩
  have run : GrowRun 0 (createPumaSet oneThread.toPumaSet 4000 8192) r₄.1 ([] ++ [r₁.2] ++ [r₂.2] ++ [r₄.2]) :=
    .pumalloc (.runKernelThread (.pumalloc (.pumalloc .start 0 first) 7 second) idleKernel (idleKernel_writes _) 3 1 pass)
      5 third
  rw [at₁, at₂, at₄] at run
  have capacity : (createPumaSet oneThread.toPumaSet 4000 8192 : Heap Unit).capacityFor 4000 = 2 := by decide
  have member : 0 ∈ oneThread.tidToThreadList := by decide
  obtain ⟨nodes, grown⟩ := run.allocationOrder (createPumaSet_ok _ (by rw [capacity]; decide)).ok
    (createPumaSet_list _ 4000 8192 member) (by decide)
  exact ⟨r₄.1, nodes, capacity, capacity ▸ grown⟩

end Puma
