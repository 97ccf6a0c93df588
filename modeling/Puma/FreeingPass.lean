import Puma.Compact
import Puma.Visits

namespace Puma

variable {α : Type}

/-- A kernel that may free the element it visits and does nothing else to the memory. Its extra
data is the record of its choices so far, so `frees` may choose by the whole history. -/
def freeingKernel (frees : World (List Bool) α → ElemPtr → Bool) : Kernel (List Bool) α := fun w e =>
  if frees w e then (pufree w.heap e).map fun h => ⟨w.extra ++ [true], h⟩
  else some ⟨w.extra ++ [false], w.heap⟩

/-- The contents of the calls that freed nothing. -/
def spared (calls : List (ElemPtr × α)) (choices : List Bool) : List α :=
  ((calls.zip choices).filter fun made => !made.2).map fun made => made.1.2

@[simp] theorem spared_nil (choices : List Bool) : spared ([] : List (ElemPtr × α)) choices = [] := rfl

@[simp] theorem spared_freed (call : ElemPtr × α) (calls : List (ElemPtr × α)) (choices : List Bool) :
    spared (call :: calls) (true :: choices) = spared calls choices := rfl

@[simp] theorem spared_kept (call : ElemPtr × α) (calls : List (ElemPtr × α)) (choices : List Bool) :
    spared (call :: calls) (false :: choices) = call.2 :: spared calls choices := rfl

theorem spared_append {calls calls' : List (ElemPtr × α)} {choices choices' : List Bool}
    (length : choices.length = calls.length) :
    spared (calls ++ calls') (choices ++ choices') = spared calls choices ++ spared calls' choices' := by
  rw [spared, List.zip_append length.symm, List.filter_append, List.map_append]
  rfl

variable (frees : World (List Bool) α → ElemPtr → Bool) {l : ListPtr}

/-- A call of the kernel on a live element returns; the element is gone or nothing has changed. -/
theorem freeingKernel_spec {w : World (List Bool) α} {A S : List NodePtr} (list : WellFormed w.heap l A S) {p : NodePtr}
    (member : p ∈ A) {n : PumaNode α} (atNode : w.heap.node p = some n) {i : Nat} (live : i ∈ n.toSlots.liveSlots) :
    (∃ h' S', freeingKernel frees w ⟨p, i⟩ = some ⟨w.extra ++ [true], h'⟩ ∧ Freed w.heap h' l A S' p i) ∨
      freeingKernel frees w ⟨p, i⟩ = some ⟨w.extra ++ [false], w.heap⟩ := by
  unfold freeingKernel
  split
  · obtain ⟨h', S', run, post⟩ := list.pufree member atNode live
    exact Or.inl ⟨h', S', by rw [run]; rfl, post⟩
  · exact Or.inr rfl

/-- What the calls on the elements of node `p` do to the list. -/
structure NodeVisited (w w' : World (List Bool) α) (l : ListPtr) (A S' : List NodePtr) (p : NodePtr)
    (calls : List (ElemPtr × α)) (choices : List Bool) : Prop where
  list : WellFormed w'.heap l A S'
  extra : w'.extra = w.extra ++ choices
  length : choices.length = calls.length
  contents : w'.heap.contents p + (calls.map Prod.snd : Multiset α) = w.heap.contents p + spared calls choices
  kept : ∀ q ∈ A, q ≠ p → w'.heap.slots q = w.heap.slots q

/-- The loop over a node whose slots from `i` on are live up to `k` visits these, whatever it frees behind it. -/
theorem runKernelOnNodeLoop_frees {w : World (List Bool) α} {A S : List NodePtr} (list : WellFormed w.heap l A S)
    {p : NodePtr} (member : p ∈ A) {n : PumaNode α} (atNode : w.heap.node p = some n) {i k : Nat}
    (ahead : ∀ j, i ≤ j → (j ∈ n.toSlots.liveSlots ↔ j < k)) (within : i ≤ k) {done init turns : Nat} (more : done < init)
    (enough : k < turns + i) :
    ∃ w' S' calls choices, runKernelOnNodeLoop p (freeingKernel frees) k done init turns w i 0 = some (w', k, calls) ∧
      calls.map Prod.snd = (List.range' i (k - i)).map n.elements ∧ NodeVisited w w' l A S' p calls choices := by
  induction turns generalizing w S n i with
  | zero => omega
  | succ turns ih =>
    by_cases last : i = k
    · subst last
      have stop : ¬ (sizeSub i 0 < i ∧ i < n.capacity ∧ done < init) := by simp [sizeSub]
      exact ⟨w, S, [], [], by simp [runKernelOnNodeLoop, atNode, stop], by simp, list, by simp, rfl, rfl, fun _ _ _ => rfl⟩
    · have before : i < k := lt_of_le_of_ne within last
      have live : i ∈ n.toSlots.liveSlots := (ahead i le_rfl).mpr before
      obtain ⟨bound, held⟩ := Slots.mem_liveSlots.mp live
      have go : sizeSub i 0 < k ∧ i < n.capacity ∧ done < init := ⟨by simpa [sizeSub] using before, bound, more⟩
      have notFree : pumaBitmaskGet n.freeMask i ≠ maskFree := by
        rw [held]
        exact maskFree_ne_maskNotFree.symm
      have slots : (List.range' i (k - i)).map n.elements = n.elements i :: (List.range' (i + 1) (k - (i + 1))).map n.elements := by
        have split : k - i = (k - (i + 1)) + 1 := by omega
        rw [split, List.range'_succ, List.map_cons]
      rcases freeingKernel_spec frees list member atNode live with ⟨h₁, S₁, called, post⟩ | called
      · have atSlots₁ := post.here _ (Heap.slots_eq atNode)
        obtain ⟨n₁, atNode₁, same⟩ := Heap.node_of_slots atSlots₁
        have counted := (list.slots p (List.mem_append_left S member) n atNode).toCounted
        have ahead₁ : ∀ j, i + 1 ≤ j → (j ∈ n₁.toSlots.liveSlots ↔ j < k) := fun j later => by
          rw [same, counted.liveSlots_free bound, Finset.mem_erase, ahead j (by omega)]
          omega
        obtain ⟨w', S', calls, choices, run, seen, rest⟩ := ih (w := ⟨w.extra ++ [true], h₁⟩) post.list atNode₁ ahead₁
          before (by omega)
        have elements : n₁.elements = n.elements := by rw [same]; rfl
        refine ⟨w', S', (⟨p, i⟩, n.elements i) :: calls, true :: choices, ?_, ?_, rest.list, ?_, ?_, ?_, fun q inA other => ?_⟩
        · simp only [runKernelOnNodeLoop, atNode, Option.bind_eq_bind, Option.bind_some, if_pos go, if_neg notFree,
            getElement, called, run, Option.pure_def]
        · rw [slots, List.map_cons, seen, elements]
        · rw [rest.extra, List.append_assoc, List.singleton_append]
        · rw [List.length_cons, List.length_cons, rest.length]
        · have fewer := counted.contents_free live
          have contents := rest.contents
          rw [Heap.contents_eq (h := h₁) atSlots₁] at contents
          rw [Heap.contents_eq (h := w.heap) (Heap.slots_eq atNode), ← fewer, List.map_cons, ← Multiset.cons_coe,
            Multiset.add_cons, contents, spared_freed, Multiset.cons_add]
        · exact (rest.kept q inA other).trans (post.kept q inA other)
      · obtain ⟨w', S', calls, choices, run, seen, rest⟩ := ih (w := ⟨w.extra ++ [false], w.heap⟩) list atNode
          (fun j later => ahead j (by omega)) before (by omega)
        refine ⟨w', S', (⟨p, i⟩, n.elements i) :: calls, false :: choices, ?_, ?_, rest.list, ?_, ?_, ?_, rest.kept⟩
        · simp only [runKernelOnNodeLoop, atNode, Option.bind_eq_bind, Option.bind_some, if_pos go, if_neg notFree,
            getElement, called, run, Option.pure_def]
        · rw [slots, List.map_cons, seen]
        · rw [rest.extra, List.append_assoc, List.singleton_append]
        · rw [List.length_cons, List.length_cons, rest.length]
        · rw [List.map_cons, ← Multiset.cons_coe, Multiset.add_cons, rest.contents, spared_kept, ← Multiset.cons_coe,
            Multiset.add_cons]

/-- A pass that reaches a dirty node in front of elements cleans it up, and it stays in the list. -/
theorem WellFormed.cleanupIfDirty {h : Heap α} {V D S : List NodePtr} {c : NodePtr}
    (list : WellFormed h l (V ++ c :: D) S) (more : 0 < (h.elems (c :: D)).card) :
    ∃ h' D' S', Puma.cleanupIfDirty h c l = some h' ∧ WellFormed h' l (V ++ c :: D') S' ∧ D'.length ≤ D.length ∧
      h'.elems V = h.elems V ∧ h'.elems (c :: D') = h.elems (c :: D) ∧
      ∃ n, h'.node c = some n ∧ n.toSlots.liveSlots = Finset.range n.numElements := by
  obtain ⟨n, atNode, _⟩ := list.node (p := c) (by simp)
  by_cases dirty : n.dirty = true
  · obtain ⟨h', A', S', run, post⟩ := list.cleanupNode
    obtain ⟨n', atNode', _, compact, _⟩ := post.compact
    have sameV : h'.elems V = h.elems V := Heap.elems_congr post.before
    have total := post.elems
    rw [Heap.elems_append h] at total
    rcases post.place with ⟨D', rfl⟩ | ⟨early, _⟩
    · rw [Heap.elems_append, sameV, add_right_inj] at total
      have bound := post.activePrefix.length_le
      exact ⟨h', D', S', by simp [Puma.cleanupIfDirty, atNode, dirty, run], post.list, by simpa using bound, sameV, total,
        n', atNode', compact⟩
    · -- Giving up `c` would leave the remaining elements nowhere.
      exfalso
      obtain ⟨C, split⟩ := early
      have cards := congrArg Multiset.card total
      rw [← sameV, ← split, Heap.elems_append, Multiset.card_add, Multiset.card_add] at cards
      omega
  · have clean : n.dirty = false := by simpa using dirty
    exact ⟨h, D, S, by simp [Puma.cleanupIfDirty, atNode, clean], list, le_rfl, rfl, rfl, n, atNode,
      ((list.slots c (by simp) n atNode).clean clean).1⟩

/-- What one turn of the pass at the node `c` behind the visited nodes `V` does. -/
structure TurnFreed (w w' : World (List Bool) α) (l : ListPtr) (V : List NodePtr) (c : NodePtr) (D D' S' : List NodePtr)
    (calls : List (ElemPtr × α)) (choices : List Bool) : Prop where
  list : WellFormed w'.heap l (V ++ c :: D') S'
  extra : w'.extra = w.extra ++ choices
  length : choices.length = calls.length
  shorter : D'.length ≤ D.length
  visited : (calls.map Prod.snd : Multiset α) + w'.heap.elems D' = w.heap.elems (c :: D)
  elems : w'.heap.elems (V ++ [c]) = w.heap.elems V + spared calls choices

theorem runKernelThreadTurn_frees {w : World (List Bool) α} {V D S : List NodePtr} {c : NodePtr}
    (list : WellFormed w.heap l (V ++ c :: D) S) {done init : Nat} (sofar : done + (w.heap.elems (c :: D)).card = init)
    (more : done < init) :
    ∃ w' D' S' done' calls choices, runKernelThreadTurn l (freeingKernel frees) init w c done =
        some (w', (D' ++ S').head?, done', calls) ∧
      TurnFreed w w' l V c D D' S' calls choices ∧ done' + (w'.heap.elems D').card = init := by
  obtain ⟨h₁, D', S₁, cleaned, list₁, shorter, sameV, sameD, n, atNode, compact⟩ := list.cleanupIfDirty (by omega)
  have inChain : c ∈ V ++ c :: D' := by simp
  have room := (list₁.slots c (List.mem_append_left S₁ inChain) n atNode).toCounted.numElements_le
  have enough : n.numElements < 2 * n.capacity + 2 + 0 := by omega
  have ahead : ∀ j, 0 ≤ j → (j ∈ n.toSlots.liveSlots ↔ j < n.numElements) := fun j _ => by
    rw [compact, Finset.mem_range]
  obtain ⟨w', S', calls, choices, loop, seen, post⟩ := runKernelOnNodeLoop_frees frees (w := ⟨w.extra, h₁⟩)
    list₁ inChain atNode ahead (Nat.zero_le _) more enough
  have nodup := (List.nodup_append.mp list₁.nodup).1
  rw [List.nodup_middle, List.nodup_cons, List.mem_append, not_or] at nodup
  have keptV : w'.heap.elems V = h₁.elems V := Heap.elems_congr fun q inV =>
    post.kept q (by simp [inV]) fun same => nodup.1.1 (same ▸ inV)
  have keptD : w'.heap.elems D' = h₁.elems D' := Heap.elems_congr fun q inD =>
    post.kept q (by simp [inD]) fun same => nodup.1.2 (same ▸ inD)
  have here : (calls.map Prod.snd : Multiset α) = h₁.contents c := by
    rw [seen, Nat.sub_zero, ← List.range_eq_range', Heap.contents_eq (Heap.slots_eq atNode), Slots.contents_of_range compact]
  have left : w'.heap.contents c = spared calls choices := by
    have contents := post.contents
    rw [here, add_comm (h₁.contents c)] at contents
    exact add_right_cancel contents
  have count : (h₁.contents c).card = n.numElements := by
    rw [Heap.contents_eq (Heap.slots_eq atNode), Slots.card_contents, compact, Finset.card_range]
  obtain ⟨n', atNode', _⟩ := post.list.node (List.mem_append_left S' inChain)
  have after : n'.next = (D' ++ S').head? := by
    have chain := post.list.chain
    rw [List.append_assoc, List.cons_append] at chain
    rw [← Heap.next_eq atNode', chain.at.2, Option.or_none]
  refine ⟨w', D', S', done + n.numElements, calls, choices, ?_, ⟨post.list, post.extra, post.length, shorter, ?_, ?_⟩, ?_⟩
  · simp only [runKernelThreadTurn, cleaned, runKernelOnNode, atNode, loop, Option.bind_eq_bind, Option.bind_some,
      Option.pure_def, atNode', after]
  · rw [here, keptD, ← Heap.elems_cons, sameD]
  · rw [Heap.elems_append, Heap.elems_singleton, keptV, sameV, left]
  · have cards := congrArg Multiset.card sameD
    rw [Heap.elems_cons, Multiset.card_add, count] at cards
    rw [keptD]
    omega

/-- What a pass does to a list whose nodes `V` it has passed. -/
structure PassFreed (w w' : World (List Bool) α) (l : ListPtr) (V D A' S' : List NodePtr) (calls : List (ElemPtr × α))
    (choices : List Bool) : Prop where
  list : WellFormed w'.heap l A' S'
  extra : w'.extra = w.extra ++ choices
  length : choices.length = calls.length
  visited : (calls.map Prod.snd : Multiset α) = w.heap.elems D
  elems : w'.heap.elems A' = w.heap.elems V + spared calls choices

theorem runKernelThreadLoop_frees {w : World (List Bool) α} {V D S : List NodePtr} (list : WellFormed w.heap l (V ++ D) S)
    {done init turns : Nat} (sofar : done + (w.heap.elems D).card = init) (enough : D.length < turns) :
    ∃ w' A' S' calls choices, runKernelThreadLoop l (freeingKernel frees) init turns w (D ++ S).head? done =
      some (w', calls) ∧ PassFreed w w' l V D A' S' calls choices := by
  induction turns generalizing w V D S done with
  | zero => omega
  | succ turns ih =>
    have stay (empty : w.heap.elems D = 0)
        (run : runKernelThreadLoop l (freeingKernel frees) init (turns + 1) w (D ++ S).head? done = some (w, [])) :
        ∃ w' A' S' calls choices, runKernelThreadLoop l (freeingKernel frees) init (turns + 1) w (D ++ S).head? done =
          some (w', calls) ∧ PassFreed w w' l V D A' S' calls choices :=
      ⟨w, V ++ D, S, [], [], run, list, by simp, rfl, by rw [empty]; rfl, by simp [empty]⟩
    cases D with
    | nil =>
      cases S with
      | nil => exact stay rfl rfl
      | cons s S =>
        obtain ⟨n, atNode, _, active⟩ := list.owned s (by simp)
        have spare : s ∉ V := fun member => (List.nodup_append.mp list.nodup).2.2 s (by simp [member]) s (by simp) rfl
        have off : n.active = false := by simpa [spare] using active
        exact stay rfl (by simp [runKernelThreadLoop, atNode, off])
    | cons c D =>
      obtain ⟨n, atNode, _, active⟩ := list.owned c (by simp)
      have on : n.active = true := active.mpr (by simp)
      by_cases more : done < init
      · obtain ⟨w₁, D', S', done', calls, choices, turn, post, sofar'⟩ :=
          runKernelThreadTurn_frees frees list sofar more
        have listV : WellFormed w₁.heap l ((V ++ [c]) ++ D') S' := by
          rw [List.append_assoc, List.singleton_append]
          exact post.list
        have bound := post.shorter
        rw [List.length_cons] at enough
        obtain ⟨w', A', S'', later, choices', run, rest⟩ := ih listV sofar' (by omega)
        refine ⟨w', A', S'', calls ++ later, choices ++ choices', ?_, rest.list, ?_, ?_, ?_, ?_⟩
        · simp only [List.cons_append, List.head?_cons, runKernelThreadLoop, atNode, Option.bind_eq_bind,
            Option.bind_some, on, more, and_self, if_true, turn, run, Option.pure_def]
        · rw [rest.extra, post.extra, List.append_assoc]
        · rw [List.length_append, List.length_append, post.length, rest.length]
        · rw [List.map_append, ← Multiset.coe_add, rest.visited, post.visited]
        · rw [rest.elems, post.elems, spared_append post.length, ← Multiset.coe_add, add_assoc]
      · refine stay ?_ (by simp [runKernelThreadLoop, atNode, more])
        exact Multiset.card_eq_zero.mp (by omega)

/-- The kernel frees a labelled element when it would free the element without its label. -/
noncomputable def labelledFrees {ι : Type} (frees : World (List Bool) α → ElemPtr → Bool) :
    World (List Bool) (α × ι) → ElemPtr → Bool := fun w e => frees w.erase e

theorem freeingKernel_lifts {ι : Type} (frees : World (List Bool) α → ElemPtr → Bool) :
    (freeingKernel (labelledFrees frees : World (List Bool) (α × ι) → ElemPtr → Bool)).Lifts (freeingKernel frees) := by
  intro w e _
  have freed : pufree w.erase.heap e = (pufree w.heap e).map Heap.erase := freeElementOnNode_erase w.heap e e.node
  unfold freeingKernel labelledFrees
  split
  · rw [freed, Option.map_map, Option.map_map]
    rfl
  · rfl

/-- Whether a list is well formed does not depend on the contents of its elements. -/
theorem wellFormed_mapContents {β : Type} {f : ElemPtr → α → β} {h : Heap α} {A S : List NodePtr} :
    WellFormed (h.mapContents f) l A S ↔ WellFormed h l A S := by
  have next : (h.mapContents f).next = h.next := by
    funext p
    rw [Heap.next, Heap.next, Heap.links_mapContents]
  have prev : (h.mapContents f).prev = h.prev := by
    funext p
    rw [Heap.prev, Heap.prev, Heap.links_mapContents]
  have count (c : List NodePtr) : (h.mapContents f).count c = h.count c := Heap.count_congr fun p _ => by
    rw [Heap.slots, Heap.slots, Heap.node_mapContents]
    cases h.node p <;> rfl
  constructor
  · intro list
    refine ⟨⟨by rw [← next, ← prev]; exact list.chain, list.nodup, fun p member => ?_, fun i p n atIndex atNode => ?_,
      list.head, list.tail, list.numNodes, fun p spare n atNode => ?_, by rw [← count]; exact list.numElements⟩,
      fun p member n atNode => ?_⟩
    · obtain ⟨n', atNode', owner, active⟩ := list.owned p member
      obtain ⟨n, atNode, rfl⟩ := Heap.node_of_mapContents atNode'
      exact ⟨n, atNode, owner, active⟩
    · have same := list.index i p _ atIndex (Heap.mapContents_eq atNode)
      exact same
    · have dead := list.empty p spare _ (Heap.mapContents_eq atNode)
      exact dead
    · exact PumaNode.ok_mapContents.mp (list.slots p member _ (Heap.mapContents_eq atNode))
  · intro list
    refine ⟨⟨by rw [next, prev]; exact list.chain, list.nodup, fun p member => ?_, fun i p n' atIndex atNode' => ?_,
      list.head, list.tail, list.numNodes, fun p spare n' atNode' => ?_, by rw [count]; exact list.numElements⟩,
      fun p member n' atNode' => ?_⟩
    · obtain ⟨n, atNode, owner, active⟩ := list.owned p member
      exact ⟨_, Heap.mapContents_eq atNode, owner, active⟩
    · obtain ⟨n, atNode, rfl⟩ := Heap.node_of_mapContents atNode'
      exact list.index i p n atIndex atNode
    · obtain ⟨n, atNode, rfl⟩ := Heap.node_of_mapContents atNode'
      exact list.empty p spare n atNode
    · obtain ⟨n, atNode, rfl⟩ := Heap.node_of_mapContents atNode'
      exact PumaNode.ok_mapContents.mpr (list.slots p member n atNode)

/-- A labelled element has the content that its label's address had. -/
theorem Heap.read_of_label {h : Heap α} {c : List NodePtr} {x : α} {e : ElemPtr} (member : (x, e) ∈ h.label.elems c) :
    h.read e = some x := by
  induction c with
  | nil => exact (Multiset.notMem_zero _ member).elim
  | cons p c ih =>
    rw [Heap.elems_cons, Multiset.mem_add] at member
    rcases member with here | later
    · cases atNode : h.node p with
      | none =>
        have released : h.label.node p = none := by
          rw [Heap.label, Heap.node_mapContents, atNode]
          rfl
        rw [Heap.contents_none released] at here
        exact (Multiset.notMem_zero _ here).elim
      | some n =>
        rw [Heap.label, Heap.contents_mapContents atNode] at here
        obtain ⟨i, live, same⟩ := Multiset.mem_map.mp here
        cases same
        rw [Heap.read_eq (Heap.slots_eq atNode)]
        exact if_pos live
    · exact ih later

/-- The records of a pass change no element and no counter. -/
theorem WellFormed.recordRunTime {h : Heap α} {A S : List NodePtr} (list : WellFormed h l A S) (elapsed : ℚ) :
    WellFormed (h.modifyList l fun tl => tl.recordRunTime elapsed) l A S := by
  have lists : (h.modifyList l fun tl => tl.recordRunTime elapsed).lists l = (h.lists l).recordRunTime elapsed :=
    Heap.lists_modifyList_self h l _
  refine ⟨list.congr (fun p _ => rfl) ?_ ?_ ?_ ?_, list.slots⟩ <;> rw [lists] <;> rfl

/-- A pass over a well-formed list whose kernel frees elements that it visits, as it likes, ends. It visits
every element once and nothing else, and leaves a well-formed list of the others. A label on each element,
which neither the library nor the kernel sees, tells which is which. -/
theorem WellFormed.runKernelThread_frees {h : Heap α} {A S : List NodePtr} (list : WellFormed h l A S)
    (frees : World (List Bool) α → ElemPtr → Bool) {turns : Nat} (enough : A.length < turns) (elapsed : ℚ) :
    ∃ w' calls A' S',
      runKernelThread turns ⟨[], h.label⟩ l (freeingKernel (labelledFrees frees)) elapsed = some (w', calls) ∧
      runKernelThread turns ⟨[], h⟩ l (freeingKernel frees) elapsed = some (w'.erase, calls.map eraseCall) ∧
      (∀ e, (calls.map fun call => call.2.2).count e = if e.node ∈ A ++ S ∧ (h.read e).isSome then 1 else 0) ∧
      (∀ call ∈ calls, h.read call.2.2 = some call.2.1) ∧
      WellFormed w'.erase.heap l A' S' ∧ w'.extra.length = calls.length ∧
      w'.heap.elems (A' ++ S') = spared calls w'.extra := by
  have labelled : WellFormed h.label l ([] ++ A) S := wellFormed_mapContents.mpr list
  have head : (h.label.lists l).head = (A ++ S).head? := list.head
  have start : 0 + (h.label.elems A).card = (h.label.lists l).numElements := by
    rw [Nat.zero_add, labelled.numElements_eq]
    rfl
  obtain ⟨w₁, A', S', calls, choices, loop, post⟩ := runKernelThreadLoop_frees (labelledFrees frees)
    (w := ⟨[], h.label⟩) labelled start enough
  have run : runKernelThread turns ⟨[], h.label⟩ l (freeingKernel (labelledFrees frees)) elapsed =
      some ({ w₁ with heap := w₁.heap.modifyList l fun tl => tl.recordRunTime elapsed }, calls) := by
    simp only [runKernelThread, head, Option.bind_eq_bind]
    rw [loop]
    rfl
  have erased := runKernelThread_erase (freeingKernel_lifts frees) turns (⟨[], h.label⟩ : World (List Bool) _) l elapsed
  rw [run, World.erase, Heap.erase_label] at erased
  have extra : w₁.extra = choices := post.extra
  have visited : (calls.map Prod.snd : Multiset (α × ElemPtr)) = h.label.elems A := post.visited
  have timed := post.list.recordRunTime elapsed
  have after := (wellFormed_mapContents (f := fun _ => Prod.fst)).mpr timed
  refine ⟨_, calls, A', S', run, erased, fun e => ?_, fun call member => ?_, after, ?_, ?_⟩
  · have labels : (calls.map fun call => call.2.2 : Multiset ElemPtr) = h.label.labels A := by
      rw [Heap.labels, ← visited, Multiset.map_coe, List.map_map]
      rfl
    rw [← Multiset.coe_count, labels, Heap.count_labels (List.nodup_append.mp list.nodup).1]
    have same : (e.node ∈ A ∧ (h.read e).isSome) ↔ (e.node ∈ A ++ S ∧ (h.read e).isSome) :=
      and_congr_left fun live => ⟨List.mem_append_left S, fun member => list.indexed.active_of_read member live⟩
    simp only [same]
  · refine Heap.read_of_label (c := A) (x := call.2.1) ?_
    rw [← visited]
    exact Multiset.mem_coe.mpr (List.mem_map.mpr ⟨call, member, rfl⟩)
  · rw [extra, post.length]
  · rw [Heap.elems_append, timed.elems_spare, add_zero, extra]
    exact post.elems.trans (zero_add _)

/-- The element behind the hole is visited, and freed. -/
theorem runKernelThread_frees_hole : ∃ (h : Heap Unit) (turns : Nat) (w' : World (List Bool) (Unit × ElemPtr))
    (calls : List (ElemPtr × (Unit × ElemPtr))), (h.read ⟨0, 1⟩).isSome ∧
      runKernelThread turns ⟨[], h⟩ 0 (freeingKernel fun _ _ => true) 0 = some (w'.erase, calls.map eraseCall) ∧
      (calls.map fun call => call.2.2).count ⟨0, 1⟩ = 1 := by
  obtain ⟨h, A, S, list, member, _, live, _⟩ := wellFormed_hole
  obtain ⟨w', calls, A', S', _, run, once, _⟩ :=
    list.runKernelThread_frees (fun _ _ => true) (Nat.lt_succ_self A.length) 0
  refine ⟨h, A.length + 1, w', calls, live, run, ?_⟩
  rw [once ⟨0, 1⟩, if_pos ⟨List.mem_append_left S member, live⟩]

end Puma
