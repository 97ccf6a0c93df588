import Puma.AllocationOrder
import Puma.Runs
import Puma.Settled

namespace Puma

open Relation

variable {σ α : Type} {h : Heap α} {l : ListPtr}

section Pass

variable {γ : Type} {g : α → γ} {kernel : Kernel σ α} {V D S : List NodePtr} {c : NodePtr}

/-- What is stored about the slots of a node, whatever their contents. -/
def Slots.occupancy (s : Slots α) : Nat × Nat × Bool := (s.numElements, s.capacity, s.dirty)

theorem Heap.occupancy_of_view_eq {h' : Heap α} (same : h'.view g = h.view g) (p : NodePtr) :
    (h'.slots p).map Slots.occupancy = (h.slots p).map Slots.occupancy := by
  cases atSlots' : h'.slots p with
  | some s' =>
    obtain ⟨s, atSlots, count, capacity, dirty⟩ := Heap.slots_of_view_eq same atSlots'
    rw [atSlots, Option.map_some, Option.map_some, Slots.occupancy, Slots.occupancy, count, capacity, dirty]
  | none =>
    cases atSlots : h.slots p with
    | none => rfl
    | some s =>
      obtain ⟨s', there, _⟩ := Heap.slots_of_view_eq same.symm atSlots
      cases atSlots'.symm.trans there

theorem Heap.slots_of_occupancy {h' : Heap α} {p : NodePtr}
    (same : (h'.slots p).map Slots.occupancy = (h.slots p).map Slots.occupancy) {s : Slots α} (atSlots : h.slots p = some s) :
    ∃ s', h'.slots p = some s' ∧ s'.numElements = s.numElements ∧ s'.capacity = s.capacity ∧ s'.dirty = s.dirty := by
  rw [atSlots, Option.map_some] at same
  obtain ⟨s', atSlots', equal⟩ := Option.map_eq_some_iff.mp same
  simp only [Slots.occupancy, Prod.mk.injEq] at equal
  exact ⟨s', atSlots', equal⟩

/-- What a pass leaves of its next node `c` and of the nodes `D` behind it, once it has cleaned up `c`. -/
structure Tidied (h h' : Heap α) (l : ListPtr) (V : List NodePtr) (c : NodePtr) (D D' S' : List NodePtr) : Prop where
  ok : h'.Ok
  list : ThreadListOk h' l (V ++ c :: D') S'
  settled : Settled h' l
  activePrefix : D' <+: D
  blocks : h'.blocks ⊆ h.blocks
  still : ∀ q ∈ V, h'.slots q = h.slots q
  count : h'.count (c :: D') = h.count (c :: D)
  clean : ∃ n, h'.node c = some n ∧ n.dirty = false ∧ (n.numElements = n.capacity ∨ D' = [])

theorem cleanupIfDirty_tidied (ok : h.Ok) (list : ThreadListOk h l (V ++ c :: D) S) (settled : Settled h l)
    (positive : 0 < h.count (c :: D)) :
    ∃ h' D' S', cleanupIfDirty h c l = some h' ∧ Tidied h h' l V c D D' S' := by
  obtain ⟨n, atNode, owner⟩ := list.node (p := c) (by simp)
  have active : n.active = true := (list.active_iff atNode (by simp)).mpr (by simp)
  by_cases dirty : n.dirty = true
  · obtain ⟨h', A', S', run, post⟩ := cleanupNode_spec list.toShape (ok.except (some c))
    have keeps := post.keeps list.toShape
    have sameV : h'.elems V = h.elems V := Heap.elems_congr post.before
    have ended : ∃ n', h'.node c = some n' ∧ n'.dirty = false := by
      simp only [Puma.cleanupNode, atNode, Option.bind_eq_bind, Option.bind_some] at run
      obtain ⟨h₁, _, last⟩ := Option.bind_eq_some_iff.mp run
      obtain ⟨m, _, rfl⟩ := Option.map_eq_some_iff.mp last
      exact ⟨_, Heap.node_setNode_self .., rfl⟩
    have behind : h.count (c :: D) = (h.elems (c :: D)).card := list.toShape.count_eq ok fun p member => by
      rw [List.append_assoc]
      exact List.mem_append_right V (List.mem_append_left S member)
    have total := keeps.elems
    rcases post.place with ⟨D', rfl⟩ | ⟨early, _⟩
    · have behind' : h'.count (c :: D') = (h'.elems (c :: D')).card := post.shape.count_eq post.ok fun p member => by
        rw [List.append_assoc]
        exact List.mem_append_right V (List.mem_append_left S' member)
      rw [Heap.elems_append, Heap.elems_append, sameV, add_right_inj] at total
      obtain ⟨n', atNode', clean⟩ := ended
      refine ⟨h', D', S', by simp [cleanupIfDirty, atNode, dirty, run], post.ok, keeps.listOk list,
        settled.cleanupNode ok list (by simp) run, by simpa using post.activePrefix, post.evolves.blocks, post.before,
        by rw [behind, behind', total], n', atNode', clean, ?_⟩
      refine post.last.imp (fun full => full _ (Heap.slots_eq atNode')) fun short => ?_
      have length := short.length_le
      simp only [List.length_append, List.length_cons, List.length_nil] at length
      exact List.length_eq_zero_iff.mp (by omega)
    · -- Giving up `c` would leave the remaining elements nowhere.
      exfalso
      obtain ⟨C, split⟩ := early
      rw [Heap.elems_append, ← sameV, ← split, Heap.elems_append] at total
      have cards := congrArg Multiset.card total
      simp only [Multiset.card_add] at cards
      omega
  · have clean : n.dirty = false := by simpa using dirty
    refine ⟨h, D, S, by simp [cleanupIfDirty, atNode, clean], ok, list, settled, List.prefix_rfl, subset_rfl,
      fun _ _ => rfl, rfl, n, atNode, clean, ?_⟩
    rcases List.eq_nil_or_concat D with rfl | ⟨E, t, rfl⟩
    · exact Or.inr rfl
    · refine Or.inl (settled c n atNode (fun last => ?_) owner active clean)
      have tail := list.toShape.tail_last (p := t)
        (by rw [List.concat_eq_append, ← List.cons_append, ← List.append_assoc, List.getLast?_concat])
      have same : c = t := Option.some.inj (Eq.trans (Eq.symm last) tail)
      have nodup := list.toShape.nodup_active
      rw [List.nodup_append, List.nodup_cons] at nodup
      exact nodup.2.1.1 (by simp [same])

/-- What a turn of the loop of `_runKernelThread` does: it calls the kernel on the first slots of `c`. -/
structure TurnSwept (w w' : World σ α) (l : ListPtr) (V : List NodePtr) (c : NodePtr) (D D' S' : List NodePtr) (n : Nat)
    (calls : List (ElemPtr × α)) : Prop where
  ok : w'.heap.Ok
  list : ThreadListOk w'.heap l (V ++ c :: D') S'
  settled : Settled w'.heap l
  activePrefix : D' <+: D
  blocks : w'.heap.blocks ⊆ w.heap.blocks
  still : ∀ q ∈ V, (w'.heap.slots q).map Slots.occupancy = (w.heap.slots q).map Slots.occupancy
  here : ∃ s, w'.heap.slots c = some s ∧ s.numElements = n ∧ s.dirty = false ∧ (s.numElements = s.capacity ∨ D' = [])
  count : w.heap.count (c :: D) = n + w'.heap.count D'
  visited : calls.map Prod.fst = (List.range n).map (getElement c)

theorem runKernelThreadTurn_swept (writes : kernel.Writes g) (returns : kernel.Returns) {w : World σ α} (ok : w.heap.Ok)
    (list : ThreadListOk w.heap l (V ++ c :: D) S) (settled : Settled w.heap l) {done init : Nat} (more : done < init)
    (left : init = done + w.heap.count (c :: D)) :
    ∃ w' D' S' n calls, runKernelThreadTurn l kernel init w c done = some (w', (D' ++ S').head?, done + n, calls) ∧
      TurnSwept w w' l V c D D' S' n calls := by
  obtain ⟨h₁, D', S', cleaned, tidied⟩ := cleanupIfDirty_tidied ok list settled (by omega)
  obtain ⟨n, atNode, clean, full⟩ := tidied.clean
  have again : cleanupIfDirty h₁ c l = some h₁ := by simp [cleanupIfDirty, atNode, clean]
  have same : runKernelThreadTurn l kernel init w c done = runKernelThreadTurn l kernel init ⟨w.extra, h₁⟩ c done := by
    simp only [runKernelThreadTurn, cleaned, again]
  have turn := runKernelThreadTurn_eq (w := ⟨w.extra, h₁⟩) writes tidied.ok tidied.list atNode clean more
  obtain ⟨compact, _⟩ := (tidied.ok c n atNode).1.clean clean
  have there : ∀ e ∈ (List.range n.numElements).map (getElement c), (h₁.read e).isSome := by
    intro e member
    obtain ⟨i, inRange, rfl⟩ := List.mem_map.mp member
    rw [Heap.read_eq (e := getElement c i) (Heap.slots_eq atNode), Slots.read_isSome, compact, Finset.mem_range]
    exact List.mem_range.mp inRange
  obtain ⟨w', calls, run, viewed, _⟩ := Kernel.callEach_spec (w := ⟨w.extra, h₁⟩) writes returns there
  rw [run] at turn
  have post := write_step tidied.ok tidied.list (Heap.skeleton_of_view_eq viewed)
  have occupied := Heap.occupancy_of_view_eq viewed
  obtain ⟨s, atSlots, numElements, capacity, dirty⟩ := Heap.slots_of_occupancy (occupied c) (Heap.slots_eq atNode)
  refine ⟨w', D', S', n.numElements, calls, same.trans turn, post.ok, post.list,
    tidied.settled.write (Heap.skeleton_of_view_eq viewed), tidied.activePrefix,
    (Heap.blocks_of_view_eq viewed).subset.trans tidied.blocks, fun q member => ?_,
    ⟨s, atSlots, numElements, dirty.trans clean, ?_⟩, ?_, Kernel.callEach_visits run⟩
  · rw [occupied q]
    exact congrArg _ (tidied.still q member)
  · rw [numElements, capacity]
    exact full
  · rw [← tidied.count, Heap.count_cons atNode, Heap.count_congr fun p _ => Heap.numElements_of_view_eq viewed p]

/-- What a pass does to a list whose nodes `V` it has passed: it visits the nodes `N`, and no element is behind them. -/
structure Swept (w w' : World σ α) (l : ListPtr) (V D N T S' : List NodePtr) (calls : List (ElemPtr × α)) : Prop where
  ok : w'.heap.Ok
  list : ThreadListOk w'.heap l (V ++ (N ++ T)) S'
  activePrefix : N ++ T <+: D
  blocks : w'.heap.blocks ⊆ w.heap.blocks
  still : ∀ q ∈ V, (w'.heap.slots q).map Slots.occupancy = (w.heap.slots q).map Slots.occupancy
  clean : w'.heap.CleanOn N
  full : ∀ q ∈ N.dropLast, ∀ s, w'.heap.slots q = some s → s.numElements = s.capacity
  rest : w'.heap.count T = 0
  count : w'.heap.count N = w.heap.count D
  visited : calls.map Prod.fst = w'.heap.places N

theorem runKernelThreadLoop_swept (writes : kernel.Writes g) (returns : kernel.Returns) {turns : Nat} {w : World σ α}
    (ok : w.heap.Ok) (list : ThreadListOk w.heap l (V ++ D) S) (settled : Settled w.heap l) {done init : Nat}
    (left : init = done + w.heap.count D) (enough : D.length < turns) :
    ∃ w' N T S' calls, runKernelThreadLoop l kernel init turns w (D ++ S).head? done = some (w', calls) ∧
      Swept w w' l V D N T S' calls := by
  induction turns generalizing w V D S done with
  | zero => omega
  | succ turns ih =>
    have stay (empty : w.heap.count D = 0)
        (run : runKernelThreadLoop l kernel init (turns + 1) w (D ++ S).head? done = some (w, [])) :
        ∃ w' N T S' calls, runKernelThreadLoop l kernel init (turns + 1) w (D ++ S).head? done = some (w', calls) ∧
          Swept w w' l V D N T S' calls := by
      refine ⟨w, [], D, S, [], run, ok, list, List.prefix_rfl, subset_rfl, fun _ _ => rfl, fun p member => ?_,
        fun p member => ?_, empty, empty.symm, rfl⟩
      · cases member
      · cases member
    cases D with
    | nil =>
      cases S with
      | nil => exact stay rfl rfl
      | cons s S =>
        refine stay rfl ?_
        obtain ⟨n, atNode, _⟩ := list.node (p := s) (by simp)
        have inactive : n.active = false := by
          rw [← Bool.not_eq_true, list.active_iff atNode (by simp)]
          exact list.notMem_active (List.mem_cons_self ..)
        simp [runKernelThreadLoop, atNode, inactive]
    | cons c D =>
      obtain ⟨n, atNode, _⟩ := list.node (p := c) (by simp)
      have active : n.active = true := (list.active_iff atNode (by simp)).mpr (by simp)
      by_cases more : done < init
      · obtain ⟨w₁, D', S', k, calls, turn, first⟩ := runKernelThreadTurn_swept writes returns ok list settled more left
        have listV : ThreadListOk w₁.heap l ((V ++ [c]) ++ D') S' := by
          rw [List.append_assoc, List.singleton_append]
          exact first.list
        have shorter := first.activePrefix.length_le
        rw [List.length_cons] at enough
        obtain ⟨w', N, T, S'', later, run, last⟩ := ih first.ok listV first.settled
          (by rw [left, first.count, Nat.add_assoc]) (by omega)
        obtain ⟨s, atSlots, numElements, clean, full⟩ := first.here
        obtain ⟨s', atSlots', numElements', capacity', dirty'⟩ := Heap.slots_of_occupancy (last.still c (by simp)) atSlots
        refine ⟨w', c :: N, T, S'', calls ++ later, ?_, last.ok, ?_, ?_, last.blocks.trans first.blocks,
          fun q member => ?_, fun q member m atNode' => ?_, fun q member m atNode' => ?_, last.rest, ?_, ?_⟩
        · simp only [List.cons_append, List.head?_cons, runKernelThreadLoop, atNode, Option.bind_eq_bind,
            Option.bind_some, active, more, and_self, if_true, turn, run, Option.pure_def]
        · have list' := last.list
          rwa [List.append_assoc, List.singleton_append] at list'
        · exact List.cons_prefix_cons.mpr ⟨rfl, last.activePrefix.trans first.activePrefix⟩
        · exact (last.still q (List.mem_append_left [c] member)).trans (first.still q member)
        · rcases List.mem_cons.mp member with rfl | behind
          · cases Option.some.inj (atSlots'.symm.trans atNode')
            exact dirty'.trans clean
          · exact last.clean q behind m atNode'
        · -- A node with another one behind it is not the last, so it has been filled.
          cases N with
          | nil => cases member
          | cons p N =>
            rw [List.dropLast_cons_cons] at member
            rcases List.mem_cons.mp member with rfl | behind
            · cases Option.some.inj (atSlots'.symm.trans atNode')
              rcases full with whole | missing
              · rw [numElements', capacity', whole]
              · have short := last.activePrefix
                rw [missing, List.cons_append, List.prefix_nil] at short
                cases short
            · exact last.full q behind m atNode'
        · obtain ⟨m, atNode', rfl⟩ := Heap.node_of_slots atSlots'
          rw [Heap.count_cons atNode', last.count, first.count, numElements', numElements]
        · rw [List.map_append, first.visited, last.visited, Heap.places_cons atSlots', numElements', numElements]
      · exact stay (by omega) (by simp [runKernelThreadLoop, atNode, more])

end Pass

section Packed

variable {h' : Heap α} {A S A' S' : List NodePtr} {elements elements' : List ElemPtr} {capacity : Nat}

/-- The elements of the list stand one behind the other: the `k`-th of them at slot `k % capacity` of
node `k / capacity`. -/
structure Packed (h : Heap α) (l : ListPtr) (capacity : Nat) (A : List NodePtr) (elements : List ElemPtr) : Prop where
  length : elements.length = (h.lists l).numElements
  place : ∀ k e, elements[k]? = some e → A[k / capacity]? = some e.node ∧ e.slot = k % capacity
  live : ∀ e, h.Live l e ↔ e ∈ elements

/-- A pass that finds and leaves a list packed leaves the elements where they are. -/
theorem Packed.eq_of_initial (packed : Packed h l capacity A elements) (packed' : Packed h' l capacity A' elements')
    (same : (h'.lists l).numElements = (h.lists l).numElements) (activePrefix : A' <+: A) : elements' = elements := by
  have length : elements'.length = elements.length := by rw [packed'.length, packed.length, same]
  refine List.ext_getElem length fun k inside inside' => ?_
  obtain ⟨node, slot⟩ := packed.place k _ (List.getElem?_eq_getElem inside')
  obtain ⟨node', slot'⟩ := packed'.place k _ (List.getElem?_eq_getElem inside)
  obtain ⟨bound, _⟩ := List.getElem?_eq_some_iff.mp node'
  have nodes : elements'[k].node = elements[k].node := by
    refine Option.some.inj (node'.symm.trans (Eq.trans ?_ node))
    obtain ⟨C, split⟩ := activePrefix
    rw [← split, List.getElem?_append_left bound]
  have slots : elements'[k].slot = elements[k].slot := slot'.trans slot.symm
  cases first : elements'[k]
  cases second : elements[k]
  rw [first, second] at nodes slots
  cases nodes
  cases slots
  rfl

/-- No element is on two lists. -/
theorem Packed.notMem {m : ListPtr} {capacity' : Nat} (packed : Packed h l capacity A elements)
    (packed' : Packed h m capacity' A' elements') (other : m ≠ l) {e : ElemPtr} (inside : e ∈ elements) :
    e ∉ elements' := by
  intro inside'
  obtain ⟨n, atNode, owner, _⟩ := (packed.live e).mpr inside
  obtain ⟨n', atNode', owner', _⟩ := (packed'.live e).mpr inside'
  cases Option.some.inj (atNode.symm.trans atNode')
  exact other (owner'.symm.trans owner)

theorem Heap.live_mapContents {β : Type} {f : ElemPtr → α → β} {e : ElemPtr} :
    (h.mapContents f).Live l e ↔ h.Live l e := by
  constructor
  · rintro ⟨n, atNode, owner, inside⟩
    obtain ⟨m, atNode', rfl⟩ := Heap.node_of_mapContents atNode
    exact ⟨m, atNode', owner, inside⟩
  · rintro ⟨n, atNode, owner, inside⟩
    exact ⟨_, Heap.mapContents_eq atNode, owner, inside⟩

/-- What is done to other lists leaves this one packed. -/
theorem Packed.local {β : Type} {g : α → β} {m : ListPtr} (packed : Packed h l capacity A elements)
    (loc : Local (h.view g) (h'.view g) m) (other : l ≠ m) : Packed h' l capacity A elements where
  length := packed.length.trans (congrArg PumaThreadList.numElements (loc.lists l other)).symm
  place := packed.place
  live e := by
    rw [← packed.live e, ← Heap.live_mapContents (f := fun _ => g), ← Heap.live_mapContents (h := h) (f := fun _ => g)]
    have untouched := loc.untouched other
    constructor
    · rintro ⟨n, atNode, owner, inside⟩
      exact ⟨n, (untouched.nodes _ n owner).mp atNode, owner, inside⟩
    · rintro ⟨n, atNode, owner, inside⟩
      exact ⟨n, (untouched.nodes _ n owner).mpr atNode, owner, inside⟩

theorem ThreadListOk.local {β : Type} {g : α → β} {m : ListPtr} (list : ThreadListOk h l A S)
    (loc : Local (h.view g) (h'.view g) m) (other : l ≠ m) : ThreadListOk h' l A S :=
  threadListOk_mapContents.mp ((threadListOk_mapContents.mpr list).of_untouched (loc.untouched other))

/-- Clean nodes that are full but for the last, with no element behind them. -/
theorem packed_places {N T : List NodePtr} (ok : h.Ok) (list : ThreadListOk h l (N ++ T) S) (clean : h.CleanOn N)
    (full : ∀ q ∈ N.dropLast, ∀ s, h.slots q = some s → s.numElements = s.capacity) (rest : h.count T = 0)
    (size : ∀ p n, h.node p = some n → n.capacity = capacity) (positive : 0 < capacity) :
    Packed h l capacity (N ++ T) (h.places N) := by
  have node {q : NodePtr} (member : q ∈ N) : ∃ n, h.node q = some n ∧ n.threadList = l ∧ n.numElements ≤ capacity ∧
      n.toSlots.liveSlots = Finset.range n.numElements := by
    obtain ⟨n, atNode, owner⟩ := list.node (List.mem_append_left S (List.mem_append_left T member))
    obtain ⟨fine, _⟩ := ok q n atNode
    exact ⟨n, atNode, owner, size q n atNode ▸ fine.toCounted.numElements_le,
      (fine.clean (clean q member _ (Heap.slots_eq atNode))).1⟩
  refine ⟨?_, fun k e atIndex => ?_, fun e => ?_⟩
  · have both : h.count (N ++ T) = (h.elems (N ++ T)).card := list.toShape.count_eq ok fun p member =>
      List.mem_append_left S member
    rw [Heap.length_places, list.count, ← both, Heap.count_append, rest, Nat.add_zero]
  · rw [Heap.places, getElem?_flatMap_of_full positive] at atIndex
    · obtain ⟨p, atNode, atSlot⟩ := Option.bind_eq_some_iff.mp atIndex
      rw [List.getElem?_map] at atSlot
      obtain ⟨i, atRange, rfl⟩ := Option.map_eq_some_iff.mp atSlot
      obtain ⟨_, value⟩ := List.getElem?_eq_some_iff.mp atRange
      rw [List.getElem_range] at value
      obtain ⟨bound, _⟩ := List.getElem?_eq_some_iff.mp atNode
      exact ⟨by rw [List.getElem?_append_left bound]; exact atNode, value.symm⟩
    · intro q member
      obtain ⟨n, atNode, _⟩ := node (List.mem_of_mem_dropLast member)
      have whole := full q member _ (Heap.slots_eq atNode)
      rw [List.length_map, List.length_range, Heap.slots_eq atNode, Option.map_some, Option.getD_some, whole]
      exact size q n atNode
    · intro q member
      obtain ⟨n, atNode, _, room, _⟩ := node member
      rw [List.length_map, List.length_range, Heap.slots_eq atNode, Option.map_some, Option.getD_some]
      exact room
  · rw [Heap.mem_places]
    constructor
    · intro live
      have member := live.active list.toShape ok
      obtain ⟨n, atNode, _, inside⟩ := live
      rcases List.mem_append.mp member with inN | inT
      · obtain ⟨m, atNode', _, _, compact⟩ := node inN
        cases Option.some.inj (atNode.symm.trans atNode')
        rw [compact, Finset.mem_range] at inside
        rw [Heap.slots_eq atNode]
        exact ⟨inN, inside⟩
      · -- The nodes behind hold nothing.
        exfalso
        obtain ⟨B, C, rfl⟩ := List.append_of_mem inT
        rw [Heap.count_append, Heap.count_cons atNode] at rest
        have zero : n.toSlots.liveSlots.card = 0 := by
          rw [← (ok _ n atNode).1.toCounted.count]
          exact (by omega : n.numElements = 0)
        rw [Finset.card_eq_zero.mp zero] at inside
        cases inside
    · rintro ⟨inN, within⟩
      obtain ⟨n, atNode, owner, _, compact⟩ := node inN
      rw [Heap.slots_eq atNode] at within
      exact ⟨n, atNode, owner, by rw [compact, Finset.mem_range]; exact within⟩

end Packed

section Whole

variable {γ : Type} {g : α → γ} {kernel : Kernel σ α} {A S : List NodePtr} {elementSize nodeSize capacity : Nat}

theorem runKernelThread_swept (writes : kernel.Writes g) (returns : kernel.Returns) {turns : Nat} {w : World σ α}
    (ok : w.heap.Ok) (list : ThreadListOk w.heap l A S) (settled : Settled w.heap l) (enough : w.heap.blocks.card < turns)
    (elapsed : ℚ) :
    ∃ w' N T S' calls, runKernelThread turns w l kernel elapsed = some (w', calls) ∧ Swept w w' l [] A N T S' calls := by
  have bound : A.length < turns := by
    have nodes := list.card_le_blocks
    rw [List.length_append] at nodes
    omega
  have left : (w.heap.lists l).numElements = 0 + w.heap.count A := by
    rw [list.count, Nat.zero_add, list.toShape.count_eq ok fun p member => List.mem_append_left S member]
  obtain ⟨w₁, N, T, S', calls, run, swept⟩ :=
    runKernelThreadLoop_swept writes returns (V := []) ok list settled left bound
  have timed := recordRunTime_step swept.ok swept.list elapsed
  refine ⟨{ w₁ with heap := w₁.heap.modifyList l fun tl => tl.recordRunTime elapsed }, N, T, S', calls, ?_, timed.ok,
    timed.list, swept.activePrefix, swept.blocks, swept.still, swept.clean, swept.full, swept.rest, swept.count,
    swept.visited⟩
  simp only [runKernelThread, list.head, Option.bind_eq_bind]
  rw [run]
  rfl

/-- The calls of one pass that are made by kernel `k` on the given elements. -/
theorem filter_visits (calls : List (ElemPtr × α)) (j k : Nat) (elements : List ElemPtr) :
    ((calls.map fun call => (⟨j, call.1, call.2⟩ : Visit α)).filter fun v => v.kernel = k ∧ v.element ∈ elements).map
      Visit.element = if j = k then (calls.map Prod.fst).filter fun e => e ∈ elements else [] := by
  split
  · rename_i same
    rw [List.filter_map, List.map_map, List.filter_map]
    simp only [Function.comp_def, same, true_and]
  · rename_i other
    rw [List.filter_eq_nil_iff.mpr, List.map_nil]
    intro v member
    obtain ⟨call, _, rfl⟩ := List.mem_map.mp member
    simp [other]

variable [Inhabited α]

/-- Between two passes: `current thread` are the elements of a thread that has made a pass, and they are packed. -/
structure PackInv (set : CreatedSet) (elementSize nodeSize capacity : Nat) (done : Nat → Nat) (current : Nat → List ElemPtr)
    (h : Heap α) : Prop where
  setOk : SetOk h set.tidToThreadList
  settled : ∀ l ∈ set.tidToThreadList, Settled h l
  uniform : Uniform elementSize nodeSize set.tidToThreadList h
  size : h.capacityFor elementSize = capacity
  packed : ∀ thread l, set.tidToThreadList[thread]? = some l → 0 < done thread →
    ∃ A S, ThreadListOk h l A S ∧ Packed h l capacity A (current thread)

variable {set : CreatedSet} {done : Nat → Nat} {current : Nat → List ElemPtr} {w : World σ α}

/-- A pass packs the list of its thread; if it has been packed before, the elements stay where they are. -/
theorem PackInv.pass (inv : PackInv set elementSize nodeSize capacity done current w.heap) (positive : 0 < capacity)
    (writes : kernel.Writes g) (returns : kernel.Returns) {turns thread : Nat} (enough : w.heap.blocks.card < turns)
    (atThread : set.tidToThreadList[thread]? = some l) (elapsed : ℚ) :
    ∃ w' calls, runKernelThread turns w l kernel elapsed = some (w', calls) ∧ w'.heap.blocks ⊆ w.heap.blocks ∧
      PackInv set elementSize nodeSize capacity (Function.update done thread (done thread + 1))
        (Function.update current thread (calls.map Prod.fst)) w'.heap ∧
      (0 < done thread → calls.map Prod.fst = current thread) := by
  have member := List.mem_of_getElem? atThread
  obtain ⟨A, S, list, before⟩ : ∃ A S, ThreadListOk w.heap l A S ∧
      (0 < done thread → Packed w.heap l capacity A (current thread)) := by
    by_cases started : 0 < done thread
    · obtain ⟨A, S, list, here⟩ := inv.packed thread l atThread started
      exact ⟨A, S, list, fun _ => here⟩
    · obtain ⟨A, S, list⟩ := inv.setOk.each l member
      exact ⟨A, S, list, fun now => (started now).elim⟩
  obtain ⟨w', N, T, S', calls, pass, swept⟩ := runKernelThread_swept writes returns inv.setOk.ok list (inv.settled l member)
    enough elapsed
  -- The pass is a run of its thread, so it leaves the set in order and the other lists alone.
  have run : ListRun (fun _ _ => False) l w.heap w'.heap :=
    runKernelThread_run (writes.respects _ l) (fun _ never => never.elim) (inv.setOk.inv member) pass
  have loc := (run.inv (fun _ never => never.elim) (inv.setOk.inv member)).2
  have uniform' := run.uniform member inv.uniform
  have size' : w'.heap.capacityFor elementSize = capacity := by
    rw [← inv.size, Heap.capacityFor, Heap.capacityFor, uniform'.size, inv.uniform.size]
  have here : Packed w'.heap l capacity (N ++ T) (calls.map Prod.fst) := by
    rw [swept.visited]
    exact packed_places swept.ok swept.list swept.clean swept.full swept.rest
      (fun p n atNode => (uniform'.capacity p n atNode).trans size') positive
  have count : (w'.heap.lists l).numElements = (w.heap.lists l).numElements := by
    rw [← here.length, swept.visited, Heap.length_places, swept.count, list.count,
      list.toShape.count_eq inv.setOk.ok fun p inA => List.mem_append_left S inA]
  refine ⟨w', calls, pass, swept.blocks, ⟨inv.setOk.run member (fun _ never => never.elim) run,
    run.all_settled (fun _ never => never.elim) inv.setOk member inv.settled, uniform', size', fun t m atT started => ?_⟩,
    fun started => (before started).eq_of_initial here count swept.activePrefix⟩
  by_cases same : t = thread
  · subst same
    cases atThread.symm.trans atT
    rw [Function.update_self]
    exact ⟨N ++ T, S', swept.list, here⟩
  · have apart := set.list_ne atT atThread same
    rw [Function.update_of_ne same] at started ⊢
    obtain ⟨B, R, list', there⟩ := inv.packed t m atT started
    exact ⟨B, R, list'.local loc apart, there.local loc apart⟩

/-- Every thread packs its list in its first pass; in all its passes it visits the elements one behind the other. -/
theorem PackInv.run (positive : 0 < capacity) {kernels : List (Nat → Kernel σ α)} (nonempty : kernels ≠ [])
    (kernelsOk : ∀ kernel ∈ kernels, ∀ thread, (kernel thread).Writes g ∧ (kernel thread).Returns)
    (elapsed : Nat → Nat → ℚ) {turns : Nat} {schedule : List Nat}
    (inv : PackInv set elementSize nodeSize capacity done current w.heap) (enough : w.heap.blocks.card < turns)
    (threads : ∀ thread ∈ schedule, thread < set.tidToThreadList.length)
    (complete : ∀ thread, thread < set.tidToThreadList.length → done thread + schedule.count thread = kernels.length) :
    ∃ (w' : World σ α) (visits : List (Visit α)) (elements : Nat → List ElemPtr),
      runKernelPasses set.toPumaSet kernels elapsed turns schedule done w = some (w', visits) ∧
      PackInv set elementSize nodeSize capacity (fun thread => done thread + schedule.count thread) elements w'.heap ∧
      (∀ thread, 0 < done thread → elements thread = current thread) ∧
      ∀ thread < set.tidToThreadList.length, ∀ k,
        (visits.filter fun v => v.kernel = k ∧ v.element ∈ elements thread).map Visit.element =
          if done thread ≤ k ∧ k < kernels.length then elements thread else [] := by
  induction schedule generalizing done w current with
  | nil =>
    refine ⟨w, [], current, rfl, inv, fun _ _ => rfl, fun thread inside k => ?_⟩
    have all : done thread = kernels.length := complete thread inside
    rw [if_neg fun both => by omega]
    rfl
  | cons thread schedule ih =>
    have bound := threads thread (List.mem_cons_self ..)
    have left := complete thread bound
    rw [List.count_cons_self] at left
    obtain ⟨l, atThread⟩ : ∃ l, set.tidToThreadList[thread]? = some l := ⟨_, List.getElem?_eq_getElem bound⟩
    obtain ⟨kernel, atKernel⟩ : ∃ kernel, kernels[done thread]? = some kernel := ⟨_, List.getElem?_eq_getElem (by omega)⟩
    obtain ⟨writes, returns⟩ := kernelsOk kernel (List.mem_of_getElem? atKernel) thread
    obtain ⟨w₁, calls, pass, blocks, inv₁, before⟩ := inv.pass positive writes returns enough atThread
      (elapsed thread (done thread))
    obtain ⟨w', later, elements, rest, inv', kept, final⟩ := ih inv₁ ((Finset.card_le_card blocks).trans_lt enough)
      (fun t inside => threads t (List.mem_cons_of_mem _ inside))
      fun t inside => (done_add_count done thread schedule t).trans (complete t inside)
    simp only [done_add_count] at inv'
    have mine : elements thread = calls.map Prod.fst := by
      rw [kept thread (by rw [Function.update_self]; omega), Function.update_self]
    refine ⟨w', calls.map (fun call => ⟨done thread, call.1, call.2⟩) ++ later, elements, ?_, inv', fun t started => ?_,
      fun t inside k => ?_⟩
    · simp only [runKernelPasses, atThread, atKernel, pass, rest, Option.bind_eq_bind, Option.bind_some, Option.pure_def]
    · by_cases same : t = thread
      · subst same
        exact mine.trans (before started)
      · rw [kept t (by rwa [Function.update_of_ne same]), Function.update_of_ne same]
    · rw [List.filter_append, List.map_append, filter_visits, final t inside k]
      by_cases same : t = thread
      · subst same
        have own : ((calls.map Prod.fst).filter fun e => e ∈ elements t) = elements t := by
          rw [mine]
          exact List.filter_eq_self.mpr fun e inside => by simpa using inside
        rw [own, Function.update_self]
        by_cases now : done t = k
        · subst now
          rw [if_pos rfl, if_neg (by omega), if_pos ⟨le_rfl, by omega⟩, List.append_nil]
        · rw [if_neg now, List.nil_append]
          refine if_congr ?_ rfl rfl
          omega
      · -- No element is on the lists of two threads.
        obtain ⟨m, atT⟩ : ∃ m, set.tidToThreadList[t]? = some m := ⟨_, List.getElem?_eq_getElem inside⟩
        have packedAt {t : Nat} {l : ListPtr} (atT : set.tidToThreadList[t]? = some l) :
            ∃ A S, ThreadListOk w'.heap l A S ∧ Packed w'.heap l capacity A (elements t) :=
          inv'.packed t l atT (by
            rw [complete t (List.getElem?_eq_some_iff.mp atT).1]
            exact List.length_pos_iff.mpr nonempty)
        obtain ⟨_, _, _, first⟩ := packedAt atThread
        obtain ⟨_, _, _, second⟩ := packedAt atT
        have empty : ((calls.map Prod.fst).filter fun e => e ∈ elements t) = [] :=
          List.filter_eq_nil_iff.mpr fun e here there =>
            first.notMem second (set.list_ne atT atThread same) (mine ▸ here) (by simpa using there)
        rw [empty, ite_self, List.nil_append, Function.update_of_ne same]

/-- A call of `runKernelList` with kernels that neither allocate nor free leaves the elements of each list one behind the
other, whatever has been freed and moved before; and each kernel goes through the elements of a list in this order. -/
theorem Reachable.runKernelList_packs {set : CreatedSet} {allowed : Allowed α} (safe : ∀ g l, allowed g l → AllocSafe g l)
    (reachable : Reachable set allowed h) {kernels : List (Nat → Kernel σ α)} (nonempty : kernels ≠ [])
    (kernelsOk : ∀ kernel ∈ kernels, ∀ thread, ((kernel thread).Writes fun _ => ()) ∧ (kernel thread).Returns)
    {oracle : Oracle} (complete : oracle.Complete set.toPumaSet kernels.length h) (extra : σ) :
    ∃ w' visits, runKernelList set.toPumaSet ⟨extra, h⟩ kernels oracle = some (w', visits) ∧
      ∀ l ∈ set.tidToThreadList, ∃ A S elements, ThreadListOk w'.heap l A S ∧
        Packed w'.heap l (w'.heap.capacityFor (w'.heap.lists l).elementSize) A elements ∧
        ∀ k < kernels.length,
          (visits.filter fun v => v.kernel = k ∧ v.element ∈ elements).map Visit.element = elements := by
  have settled := reachable.settled safe
  obtain ⟨elementSize, nodeSize, room, run⟩ := reachable
  obtain ⟨setOk, uniform⟩ := SetStep.run_uniform safe room run
  obtain ⟨h₁, balanced, setOk₁, rebalanced⟩ := balanceThreadLoad_spec setOk set.threads set.cpus oracle.tlAvgNodes
  obtain ⟨_, settled₁⟩ := settled_balanceThreadLoad setOk settled set.threads set.cpus oracle.tlAvgNodes h₁ balanced
  have uniform₁ := (Uniform.rule elementSize nodeSize _).balanceThreadLoad (c := 0) uniform set.toPumaSet oracle.tlAvgNodes
    h₁ balanced
  have positive : 0 < h₁.capacityFor elementSize := by
    rw [Heap.capacityFor, uniform₁.size]
    exact room
  have inv : PackInv set elementSize nodeSize (h₁.capacityFor elementSize) (fun _ => 0) (fun _ => []) h₁ :=
    ⟨setOk₁, settled₁, uniform₁, rfl, fun _ _ _ started => (Nat.lt_irrefl 0 started).elim⟩
  have each (thread : Nat) (inside : thread < set.tidToThreadList.length) :
      0 + oracle.schedule.count thread = kernels.length := by
    rw [complete.each thread, if_pos inside, Nat.zero_add]
  obtain ⟨w', visits, elements, passes, inv', _, visited⟩ := PackInv.run (w := ⟨extra, h₁⟩) positive nonempty kernelsOk
    oracle.elapsed inv (by rw [rebalanced.blocks]; exact complete.enough)
    (fun thread member => by
      by_contra out
      have count := complete.each thread
      rw [if_neg out] at count
      exact List.count_eq_zero.mp count member) each
  refine ⟨w', visits, ?_, fun l member => ?_⟩
  · simp only [runKernelList, balanced, Option.bind_eq_bind, Option.bind_some, passes]
  · obtain ⟨thread, atThread⟩ := List.mem_iff_getElem?.mp member
    have inside := (List.getElem?_eq_some_iff.mp atThread).1
    obtain ⟨A, S, list, packed⟩ := inv'.packed thread l atThread (by
      rw [each thread inside]
      exact List.length_pos_iff.mpr nonempty)
    refine ⟨A, S, elements thread, list, ?_, fun k below => ?_⟩
    · rw [inv'.uniform.elements l member, inv'.size]
      exact packed
    · rw [visited thread inside k, if_pos ⟨Nat.zero_le k, below⟩]

end Whole

/-- Of two elements the first has been freed. -/
theorem oneThread_packs : ∃ (h : Heap Unit) (w' : World Unit Unit) (visits : List (Visit Unit)) (A : List NodePtr)
    (elements : List ElemPtr), h.read ⟨0, 0⟩ = none ∧ (h.read ⟨0, 1⟩).isSome ∧
      runKernelList oneThread.toPumaSet ⟨(), h⟩ [fun _ => idleKernel] (idleOracle h [0]) = some (w', visits) ∧
      Packed w'.heap 0 (w'.heap.capacityFor (w'.heap.lists 0).elementSize) A elements := by
  obtain ⟨h, reachable, hole, there⟩ : ∃ h : Heap Unit, Reachable oneThread (fun h l => AllocSafe h l) h ∧
      h.read ⟨0, 0⟩ = none ∧ (h.read ⟨0, 1⟩).isSome := by
    refine ⟨_, ⟨4000, 8192, by decide, ((ReflTransGen.single
      (.pumalloc 0 0 (fun l atThread t n p m atTail => ?_) rfl)).tail
      (.pumalloc 0 9 (fun l atThread t n p m atTail atNode _ _ before => ?_) rfl)).tail
      (.pufree (l := 0) ⟨0, 0⟩ ⟨_, rfl, rfl, by decide⟩ rfl)⟩, rfl, rfl⟩
    · cases atThread
      cases atTail
    · cases atThread
      cases atTail
      cases atNode
      cases before
  have complete : (idleOracle h [0]).Complete oneThread.toPumaSet 1 h :=
    ⟨fun thread => by cases thread <;> simp [idleOracle, oneThread], Nat.lt_succ_self _⟩
  obtain ⟨w', visits, run, lists⟩ := reachable.runKernelList_packs (fun _ _ safe => safe)
    (List.cons_ne_nil (fun _ => idleKernel) []) (fun kernel member thread => by
      rw [List.mem_singleton.mp member]
      exact ⟨idleKernel_writes _, idleKernel_returns⟩) complete ()
  obtain ⟨A, _, elements, _, packed, _⟩ := lists 0 (by decide)
  exact ⟨h, w', visits, A, elements, hole, there, run, packed⟩

end Puma
