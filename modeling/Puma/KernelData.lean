import Puma.Bag

namespace Puma

variable {α κ ρ β : Type}

/-- `struct pumaExtraKernelData`. A pointer of the user that may be `NULL` is an `Option`, and a function
of the user is what it does to the values behind the pointers that it is given. -/
structure PumaExtraKernelData (κ ρ β : Type) where
  extraDataConstructor : Option κ → Option ρ
  constructorData : Option κ
  extraDataDestructor : Option ρ → Option ρ
  extraDataThreadReduce : Option ρ → Option ρ
  extraDataReduce : Option β → List (Option ρ) → Option β
  retValue : Option β

def emptyKernelData : PumaExtraKernelData κ ρ β where
  extraDataConstructor _ := none
  constructorData := none
  extraDataDestructor data := data
  extraDataThreadReduce data := data
  extraDataReduce retValue _ := retValue
  retValue := none

/-- `initKernelData`; an argument that is `NULL` leaves the field of `emptyKernelData`. -/
def initKernelData (extraDataConstructor : Option (Option κ → Option ρ)) (constructorData : Option κ)
    (extraDataDestructor extraDataThreadReduce : Option (Option ρ → Option ρ))
    (extraDataReduce : Option (Option β → List (Option ρ) → Option β)) (retValue : Option β) :
    PumaExtraKernelData κ ρ β :=
  let kernelData : PumaExtraKernelData κ ρ β := emptyKernelData
  { extraDataConstructor := extraDataConstructor.getD kernelData.extraDataConstructor
    constructorData := constructorData.or kernelData.constructorData
    extraDataDestructor := extraDataDestructor.getD kernelData.extraDataDestructor
    extraDataThreadReduce := extraDataThreadReduce.getD kernelData.extraDataThreadReduce
    extraDataReduce := extraDataReduce.getD kernelData.extraDataReduce
    retValue := retValue.or kernelData.retValue }

/-- `pumaKernel`, as far as it works on its element and its thread's extra data only. -/
abbrev ElementKernel (ρ α : Type) := Option ρ → α → Option ρ × α

/-- `void* extraData[numThreads]`; an entry that has not been written is `none`. -/
abbrev ThreadData (ρ : Type) := Nat → Option (Option ρ)

/-- The kernel as `thread` calls it, with its entry of `extraData`. -/
def ElementKernel.onThread (kernel : ElementKernel ρ α) (thread : Nat) : Kernel (ThreadData ρ) α := fun w e => do
  let data ← w.extra thread
  let content ← w.heap.read e
  let h ← w.heap.write e (kernel data content).2
  pure ⟨Function.update w.extra thread (some (kernel data content).1), h⟩

/-- Turn `step` of `_runKernelWorker` on a thread: the constructor, then the kernels, then the
thread's reduction. -/
def runKernelWorkerStep (set : PumaSet) (kernels : List (ElementKernel ρ α))
    (extraDataDetails : PumaExtraKernelData κ ρ β) (turns : Nat) (elapsed : ℚ) (thread : Nat) (w : World (ThreadData ρ) α) :
    Nat → Option (World (ThreadData ρ) α)
  | 0 =>
    let data := extraDataDetails.extraDataConstructor extraDataDetails.constructorData
    some { w with extra := Function.update w.extra thread (some data) }
  | i + 1 =>
    match kernels[i]? with
    | some kernel => do
      let tl ← set.tidToThreadList[thread]?
      let (w, _) ← runKernelThread turns w tl (kernel.onThread thread) elapsed
      pure w
    | none => do
      let data ← w.extra thread
      pure { w with extra := Function.update w.extra thread (some (extraDataDetails.extraDataThreadReduce data)) }

/-- `_runKernelWorker` on all threads of the pool; `schedule` is the order of their turns, of which
`done thread` have been taken already. -/
def runKernelWorkers (set : PumaSet) (kernels : List (ElementKernel ρ α))
    (extraDataDetails : PumaExtraKernelData κ ρ β) (turns : Nat) (elapsed : Nat → Nat → ℚ) :
    List Nat → (Nat → Nat) → World (ThreadData ρ) α → Option (World (ThreadData ρ) α)
  | [], _, w => some w
  | thread :: schedule, done, w => do
    let w ← runKernelWorkerStep set kernels extraDataDetails turns (elapsed thread (done thread)) thread w (done thread)
    runKernelWorkers set kernels extraDataDetails turns elapsed schedule
      (Function.update done thread (done thread + 1)) w

/-- `_cleanupKernelWorker` on all threads of the pool, in some order. -/
def cleanupKernelWorkers (extraDataDetails : PumaExtraKernelData κ ρ β) (order : List Nat) (extraData : ThreadData ρ) :
    Option (ThreadData ρ) :=
  order.foldlM (fun extraData thread => do
    let data ← extraData thread
    pure (Function.update extraData thread (some (extraDataDetails.extraDataDestructor data)))) extraData

/-- `runKernelList`; returns the memory, `*retValue` and `extraData`. The oracle's schedule is that
of `_runKernelWorker`, and `cleanup` the order in which the threads clean up. -/
def runKernelListWith (set : PumaSet) (h : Heap α) (kernels : List (ElementKernel ρ α))
    (extraDataDetails : Option (PumaExtraKernelData κ ρ β)) (oracle : Oracle) (cleanup : List Nat) :
    Option (Heap α × Option β × ThreadData ρ) := do
  let h ← balanceThreadLoad set h oracle.tlAvgNodes
  let extraDataDetails := extraDataDetails.getD emptyKernelData
  let w ← runKernelWorkers set kernels extraDataDetails oracle.turns oracle.elapsed oracle.schedule (fun _ => 0)
    ⟨fun _ => none, h⟩
  let extraData ← (List.range set.tidToThreadList.length).mapM w.extra
  let retValue := extraDataDetails.extraDataReduce extraDataDetails.retValue extraData
  let left ← cleanupKernelWorkers extraDataDetails cleanup w.extra
  pure (w.heap, retValue, left)

def runKernel (set : PumaSet) (h : Heap α) (kernel : ElementKernel ρ α)
    (extraDataDetails : Option (PumaExtraKernelData κ ρ β)) (oracle : Oracle) (cleanup : List Nat) :
    Option (Heap α × Option β × ThreadData ρ) :=
  runKernelListWith set h [kernel] extraDataDetails oracle cleanup

/-- `runKernelCurrentThread`, called on `thread`; also returns what is left of the extra data. -/
def runKernelCurrentThread (set : PumaSet) (h : Heap α) (thread : Nat) (kernel : ElementKernel ρ α)
    (extraDataDetails : Option (PumaExtraKernelData κ ρ β)) (oracle : Oracle) : Option (Heap α × Option ρ) := do
  let h ← balanceThreadLoad set h oracle.tlAvgNodes
  let extraDataDetails ← extraDataDetails
  let extraData := extraDataDetails.extraDataConstructor extraDataDetails.constructorData
  let tl ← set.tidToThreadList[thread]?
  let (w, _) ← runKernelThread oracle.turns ⟨Function.update (fun _ => none) thread (some extraData), h⟩ tl
    (kernel.onThread thread) (oracle.elapsed thread 0)
  let extraData ← w.extra thread
  pure (w.heap, extraDataDetails.extraDataDestructor (extraDataDetails.extraDataThreadReduce extraData))

/-- A kernel applied to one element after the other. -/
def ElementKernel.runEach (kernel : ElementKernel ρ α) : Option ρ → List α → Option ρ × List α
  | data, [] => (data, [])
  | data, x :: xs =>
    let (data, y) := kernel data x
    let (data, ys) := runEach kernel data xs
    (data, y :: ys)

@[simp] theorem ElementKernel.runEach_nil (kernel : ElementKernel ρ α) (data : Option ρ) :
    kernel.runEach data [] = (data, []) := rfl

theorem ElementKernel.runEach_cons (kernel : ElementKernel ρ α) (data : Option ρ) (x : α) (xs : List α) :
    kernel.runEach data (x :: xs) =
      ((kernel.runEach (kernel data x).1 xs).1, (kernel data x).2 :: (kernel.runEach (kernel data x).1 xs).2) := rfl

theorem ElementKernel.runEach_append (kernel : ElementKernel ρ α) (data : Option ρ) (xs ys : List α) :
    kernel.runEach data (xs ++ ys) = ((kernel.runEach (kernel.runEach data xs).1 ys).1,
      (kernel.runEach data xs).2 ++ (kernel.runEach (kernel.runEach data xs).1 ys).2) := by
  induction xs generalizing data with
  | nil => rfl
  | cons x xs ih =>
    rw [List.cons_append, runEach_cons, runEach_cons, ih]
    rfl

theorem ElementKernel.runEach_length (kernel : ElementKernel ρ α) (data : Option ρ) (xs : List α) :
    (kernel.runEach data xs).2.length = xs.length := by
  induction xs generalizing data with
  | nil => rfl
  | cons x xs ih => rw [runEach_cons, List.length_cons, List.length_cons, ih]

section Pass

variable {kernel : ElementKernel ρ α} {thread : Nat}

theorem ElementKernel.onThread_eq {w : World (ThreadData ρ) α} {e : ElemPtr} {data : Option ρ} {x : α}
    (entry : w.extra thread = some data) (there : w.heap.read e = some x) :
    kernel.onThread thread w e = (w.heap.write e (kernel data x).2).map fun h =>
      ⟨Function.update w.extra thread (some (kernel data x).1), h⟩ := by
  simp only [onThread, entry, there, Option.bind_eq_bind, Option.bind_some, Option.pure_def]
  cases w.heap.write e (kernel data x).2 <;> rfl

theorem ElementKernel.onThread_writes (kernel : ElementKernel ρ α) (thread : Nat) :
    (kernel.onThread thread).Writes fun _ => () := by
  intro w e w' _ run
  simp only [onThread, Option.bind_eq_bind] at run
  obtain ⟨data, entry, run⟩ := Option.bind_eq_some_iff.mp run
  obtain ⟨x, there, run⟩ := Option.bind_eq_some_iff.mp run
  obtain ⟨h, written, run⟩ := Option.bind_eq_some_iff.mp run
  cases run
  obtain ⟨h', n, _, _, _, run, _, skeleton⟩ := Heap.write_spec there (kernel data x).2
  rw [Option.some.inj (written.symm.trans run)]
  exact skeleton

/-- The calls on the slots of a compact node from `i` on work through its contents. -/
theorem ElementKernel.callEach_onThread {c : NodePtr} {k : Nat} (rest : Nat) {i : Nat} (ends : i + rest = k)
    {w : World (ThreadData ρ) α} {n : PumaNode α} (atNode : w.heap.node c = some n)
    (compact : n.toSlots.liveSlots = Finset.range k) {data : Option ρ} (entry : w.extra thread = some data) :
    ∃ w' calls elements, (kernel.onThread thread).callEach ((List.range' i rest).map fun j => ⟨c, j⟩) w = some (w', calls) ∧
      w'.extra = Function.update w.extra thread (some (kernel.runEach data ((List.range' i rest).map n.elements)).1) ∧
      w'.heap = w.heap.setNode c { n with elements := elements } ∧
      (∀ j, j < i → elements j = n.elements j) ∧
      (List.range' i rest).map elements = (kernel.runEach data ((List.range' i rest).map n.elements)).2 := by
  induction rest generalizing i w n data with
  | zero =>
    refine ⟨w, [], n.elements, rfl, ?_, (Heap.setNode_eq_self atNode).symm, fun _ _ => rfl, rfl⟩
    rw [List.range'_zero, List.map_nil, runEach_nil, ← entry, Function.update_eq_self]
  | succ rest ih =>
    have live : i ∈ n.toSlots.liveSlots := by
      rw [compact, Finset.mem_range]
      omega
    have there : w.heap.read ⟨c, i⟩ = some (n.elements i) := by
      rw [Heap.read_eq (e := ⟨c, i⟩) (Heap.slots_eq atNode), Slots.read, if_pos live]
    have written : w.heap.write ⟨c, i⟩ (kernel data (n.elements i)).2 =
        some (w.heap.setNode c { n with toSlots := n.toSlots.store i (kernel data (n.elements i)).2 }) :=
      Heap.modifyNode_eq atNode _
    have others (j : Nat) (later : j ∈ List.range' (i + 1) rest) :
        (n.toSlots.store i (kernel data (n.elements i)).2).elements j = n.elements j := by
      have bound := List.mem_range'_1.mp later
      exact Function.update_of_ne (by omega) _ _
    obtain ⟨w', calls, elements, run, extra, heap, before, after⟩ := ih (i := i + 1) (by omega)
      (w := ⟨Function.update w.extra thread (some (kernel data (n.elements i)).1),
        w.heap.setNode c { n with toSlots := n.toSlots.store i (kernel data (n.elements i)).2 }⟩)
      (Heap.node_setNode_self ..) compact (Function.update_self ..)
    rw [List.map_congr_left others] at extra after
    refine ⟨w', (⟨c, i⟩, n.elements i) :: calls, elements, ?_, ?_, ?_, fun j early => ?_, ?_⟩
    · rw [List.range'_succ, List.map_cons, Kernel.callEach, there]
      simp only [onThread_eq entry there, written, Option.bind_eq_bind, Option.bind_some, Option.map_some, run,
        Option.pure_def]
    · rw [extra, List.range'_succ, List.map_cons, runEach_cons, Function.update_idem]
    · rw [heap, Heap.setNode_setNode]
      rfl
    · rw [before j (by omega)]
      exact Function.update_of_ne (by omega) _ _
    · rw [List.range'_succ, List.map_cons, List.map_cons, runEach_cons, after, before i (by omega)]
      exact congrArg (fun x => x :: _) (Function.update_self ..)

/-- What one turn of the loop of `_runKernelThread` does at the node `c` behind the visited nodes `V`;
`xs` are the contents that it finds there. -/
structure TurnFolds (kernel : ElementKernel ρ α) (thread : Nat) (w w' : World (ThreadData ρ) α) (l : ListPtr)
    (data : Option ρ) (V : List NodePtr) (c : NodePtr) (D D' S' : List NodePtr) (xs : List α) : Prop where
  ok : w'.heap.Ok
  list : ThreadListOk w'.heap l (V ++ c :: D') S'
  loc : Local w.heap w'.heap l
  blocks : w'.heap.blocks ⊆ w.heap.blocks
  shorter : D'.length ≤ D.length
  before : w'.heap.elems V = w.heap.elems V
  visited : w'.heap.contents c = ((kernel.runEach data xs).2 : Multiset α)
  rest : w.heap.elems (c :: D) = (xs : Multiset α) + w'.heap.elems D'
  extra : w'.extra = Function.update w.extra thread (some (kernel.runEach data xs).1)

variable (kernel)

theorem runKernelThreadTurn_folds {l : ListPtr} {w : World (ThreadData ρ) α} {data : Option ρ}
    (entry : w.extra thread = some data) {V D S : List NodePtr} {c : NodePtr} (ok : w.heap.Ok)
    (list : ThreadListOk w.heap l (V ++ c :: D) S) {done init : Nat} (sofar : done = (w.heap.elems V).card)
    (whole : init = (w.heap.elems (V ++ c :: D)).card) (more : done < init) :
    ∃ w' D' S' done' calls xs, runKernelThreadTurn l (kernel.onThread thread) init w c done =
        some (w', (D' ++ S').head?, done', calls) ∧
      TurnFolds kernel thread w w' l data V c D D' S' xs ∧ done' = (w'.heap.elems (V ++ [c])).card := by
  obtain ⟨h₁, D', S', cleaned, ok₁, list₁, loc₁, blocks₁, shorter, sameV, sameD, n, atNode, compact⟩ :=
    cleanupIfDirty_spec ok list (by omega)
  have room : n.numElements ≤ n.capacity := (ok₁ c n atNode).1.toCounted.numElements_le
  obtain ⟨w', calls, elements, run, extra, heap, _, after⟩ := kernel.callEach_onThread n.numElements (i := 0) (Nat.zero_add _)
    (w := ⟨w.extra, h₁⟩) atNode compact entry
  have loop := runKernelOnNodeLoop_eq (kernel.onThread_writes thread) compact more (Nat.zero_le _)
    (show n.numElements < 2 * n.capacity + 2 + 0 by omega) (w := ⟨w.extra, h₁⟩) atNode
  rw [Nat.sub_zero, run, Option.map_some] at loop
  rw [← List.range_eq_range'] at after extra
  have fresh : c ∉ V ++ D' := by
    have nodup := list₁.nodup
    rw [List.append_assoc, List.cons_append, List.nodup_middle, List.nodup_cons] at nodup
    exact fun member => nodup.1 (by
      rw [← List.append_assoc]
      exact List.mem_append_left S' member)
  have owner : n.threadList = l := by
    obtain ⟨m, atNode', owner⟩ := list₁.node (p := c) (by simp)
    rw [Option.some.inj (atNode.symm.trans atNode')]
    exact owner
  have post := write_step ok₁ list₁ (Heap.skeleton_setElements atNode elements)
  have kept {C : List NodePtr} (outside : c ∉ C) : (h₁.setNode c { n with elements := elements }).elems C = h₁.elems C :=
    Heap.elems_congr fun q member => by
      have other : q ≠ c := fun same => outside (same ▸ member)
      rw [Heap.slots_setNode, if_neg other]
  have keptV := kept fun member => fresh (List.mem_append_left D' member)
  have keptD := kept fun member => fresh (List.mem_append_right V member)
  have here : (h₁.setNode c { n with elements := elements }).contents c =
      ((kernel.runEach data ((List.range n.numElements).map n.elements)).2 : Multiset α) := by
    rw [Heap.contents_setNode, if_pos rfl, ← after]
    exact Slots.contents_of_range compact
  have found : h₁.contents c = ((List.range n.numElements).map n.elements : Multiset α) := by
    rw [Heap.contents_eq (Heap.slots_eq atNode), Slots.contents_of_range compact]
  have next : n.next = (D' ++ S').head? := list₁.next_eq (B := V) (by simp) atNode
  have loc : Local h₁ (h₁.setNode c { n with elements := elements }) l :=
    Local.setNode (fun m atOld => by rw [← Option.some.inj (atNode.symm.trans atOld)]; exact owner) owner
  rw [← heap] at post keptV keptD here loc
  have atNode' : w'.heap.node c = some { n with elements := elements } := by
    rw [heap]
    exact Heap.node_setNode_self ..
  refine ⟨w', D', S', done + n.numElements, calls, (List.range n.numElements).map n.elements, ?_,
    ⟨post.ok, post.list, loc₁.trans loc, ?_, shorter, keptV.trans sameV, here, ?_, extra⟩, ?_⟩
  · simp only [runKernelThreadTurn, cleaned, runKernelOnNode, atNode, loop, Option.bind_eq_bind, Option.bind_some,
      Option.pure_def, atNode', next]
  · rw [heap, Heap.blocks_setNode atNode]
    exact blocks₁
  · rw [← sameD, Heap.elems_cons, found, keptD]
  · rw [Heap.elems_append, Heap.elems_singleton, Multiset.card_add, keptV, sameV, here, Multiset.coe_card,
      ElementKernel.runEach_length, List.length_map, List.length_range, sofar]

/-- What a pass does to a list whose nodes `V` it has passed; `xs` are the contents that it finds, in the order
of its calls. -/
structure PassFolds (kernel : ElementKernel ρ α) (thread : Nat) (w w' : World (ThreadData ρ) α) (l : ListPtr)
    (data : Option ρ) (V D A' S' : List NodePtr) (xs : List α) : Prop where
  ok : w'.heap.Ok
  list : ThreadListOk w'.heap l A' S'
  loc : Local w.heap w'.heap l
  blocks : w'.heap.blocks ⊆ w.heap.blocks
  visited : w.heap.elems D = (xs : Multiset α)
  elems : w'.heap.elems A' = w.heap.elems V + ((kernel.runEach data xs).2 : Multiset α)
  extra : w'.extra = Function.update w.extra thread (some (kernel.runEach data xs).1)

theorem runKernelThreadLoop_folds {l : ListPtr} {turns : Nat} {w : World (ThreadData ρ) α} {data : Option ρ}
    (entry : w.extra thread = some data) {V D S : List NodePtr} (ok : w.heap.Ok)
    (list : ThreadListOk w.heap l (V ++ D) S) {done init : Nat} (sofar : done = (w.heap.elems V).card)
    (whole : init = (w.heap.elems (V ++ D)).card) (enough : D.length < turns) :
    ∃ w' A' S' calls xs, runKernelThreadLoop l (kernel.onThread thread) init turns w (D ++ S).head? done =
        some (w', calls) ∧ PassFolds kernel thread w w' l data V D A' S' xs := by
  induction turns generalizing w V D S done data with
  | zero => omega
  | succ turns ih =>
    have stay (empty : w.heap.elems D = 0)
        (run : runKernelThreadLoop l (kernel.onThread thread) init (turns + 1) w (D ++ S).head? done = some (w, [])) :
        ∃ w' A' S' calls xs, runKernelThreadLoop l (kernel.onThread thread) init (turns + 1) w (D ++ S).head? done =
          some (w', calls) ∧ PassFolds kernel thread w w' l data V D A' S' xs := by
      refine ⟨w, V ++ D, S, [], [], run, ok, list, Local.refl _ l, Finset.Subset.refl _, empty, ?_, ?_⟩
      · rw [Heap.elems_append, empty]
        rfl
      · rw [ElementKernel.runEach_nil, ← entry, Function.update_eq_self]
    cases D with
    | nil =>
      cases S with
      | nil => exact stay rfl rfl
      | cons s S =>
        refine stay rfl ?_
        obtain ⟨n, atNode, _⟩ := list.node (p := s) (by simp)
        have inactive : n.active = false := by
          rw [← Bool.not_eq_true, list.active_iff atNode (by simp)]
          exact list.notMem_active (List.mem_cons_self ..)
        simp [runKernelThreadLoop, atNode, inactive]
    | cons c D =>
      obtain ⟨n, atNode, _⟩ := list.node (p := c) (by simp)
      have active : n.active = true := (list.active_iff atNode (by simp)).mpr (by simp)
      by_cases more : done < init
      · obtain ⟨w₁, D', S', done', calls, xs, turn, post, sofar'⟩ :=
          runKernelThreadTurn_folds kernel entry ok list sofar whole more
        have listV : ThreadListOk w₁.heap l ((V ++ [c]) ++ D') S' := by
          rw [List.append_assoc, List.singleton_append]
          exact post.list
        have entry₁ : w₁.extra thread = some (kernel.runEach data xs).1 := by
          rw [post.extra, Function.update_self]
        have visited : w₁.heap.elems (V ++ [c]) = w.heap.elems V + ((kernel.runEach data xs).2 : Multiset α) := by
          rw [Heap.elems_append, Heap.elems_singleton, post.before, post.visited]
        have whole' : init = (w₁.heap.elems ((V ++ [c]) ++ D')).card := by
          rw [whole, Heap.elems_append, Heap.elems_append, visited, post.rest, Multiset.card_add, Multiset.card_add,
            Multiset.card_add, Multiset.card_add, Multiset.coe_card, Multiset.coe_card, ElementKernel.runEach_length,
            Nat.add_assoc]
        have bound := post.shorter
        rw [List.length_cons] at enough
        obtain ⟨w', A', S'', later, ys, run, rest⟩ := ih entry₁ post.ok listV sofar' whole' (by omega)
        refine ⟨w', A', S'', calls ++ later, xs ++ ys, ?_, rest.ok, rest.list, post.loc.trans rest.loc,
          rest.blocks.trans post.blocks, ?_, ?_, ?_⟩
        · simp only [List.cons_append, List.head?_cons, runKernelThreadLoop, atNode, Option.bind_eq_bind,
            Option.bind_some, active, more, and_self, if_true, turn, run, Option.pure_def]
        · rw [post.rest, rest.visited, Multiset.coe_add]
        · rw [rest.elems, visited, ElementKernel.runEach_append, ← Multiset.coe_add, add_assoc]
        · rw [rest.extra, post.extra, Function.update_idem, ElementKernel.runEach_append]
      · refine stay ?_ (by simp [runKernelThreadLoop, atNode, more])
        rw [Heap.elems_append, Multiset.card_add] at whole
        exact Multiset.card_eq_zero.mp (by omega)

/-- A pass over a list of a set applies its kernel to each element of the list, in some order, and
leaves the other lists alone. -/
theorem SetOk.runKernelThread_folds {lists : List ListPtr} {l : ListPtr} {turns : Nat} {w : World (ThreadData ρ) α}
    {data : Option ρ} (set : SetOk w.heap lists) (member : l ∈ lists) (entry : w.extra thread = some data)
    (enough : w.heap.blocks.card < turns) (elapsed : ℚ) :
    ∃ w' calls, ∃ xs : List α, runKernelThread turns w l (kernel.onThread thread) elapsed = some (w', calls) ∧
      SetOk w'.heap lists ∧ w'.heap.blocks ⊆ w.heap.blocks ∧ w.heap.bag l = (xs : Multiset α) ∧
      w'.heap.bag l = ((kernel.runEach data xs).2 : Multiset α) ∧ (∀ m, m ≠ l → w'.heap.bag m = w.heap.bag m) ∧
      w'.extra = Function.update w.extra thread (some (kernel.runEach data xs).1) := by
  obtain ⟨A, S, list⟩ := set.each l member
  have bound : A.length < turns := by
    have nodes := list.card_le_blocks
    rw [List.length_append] at nodes
    omega
  have start : 0 = (w.heap.elems []).card := rfl
  obtain ⟨w₁, A', S', calls, xs, run, post⟩ := runKernelThreadLoop_folds kernel (V := [])
    entry set.ok list start list.count bound
  have timed := recordRunTime_step post.ok post.list elapsed
  have loc : Local w.heap (w₁.heap.modifyList l fun tl => tl.recordRunTime elapsed) l :=
    post.loc.trans (Local.modifyList w₁.heap l rfl rfl)
  have capacity : 0 < (w₁.heap.modifyList l fun tl => tl.recordRunTime elapsed).capacityFor
      ((w₁.heap.modifyList l fun tl => tl.recordRunTime elapsed).lists l).elementSize := by
    rw [loc.capacityFor]
    exact set.capacity l member
  refine ⟨⟨w₁.extra, w₁.heap.modifyList l fun tl => tl.recordRunTime elapsed⟩, calls, xs, ?_,
    set.local member ⟨timed.ok, capacity, A', S', timed.list⟩ loc, post.blocks, ?_, ?_, fun m other => loc.bag other,
    post.extra⟩
  · simp only [runKernelThread, list.head, Option.bind_eq_bind]
    rw [run]
    rfl
  · rw [list.bag_eq set.ok, post.visited]
  · rw [timed.list.bag_eq timed.ok]
    have elems := post.elems
    rw [Heap.elems_nil, zero_add] at elems
    exact elems

end Pass

end Puma
