import Puma.Lib.Refinement
import Puma.MapReduce

namespace Puma

open Refinement

variable {α κ ρ β M : Type}

/-- Where a thread is in `_runKernelWorker`: before its constructor, at the head of the loop over the kernels, at
the head of the loop of `_runKernelThread` with its local variables, or at the end. -/
inductive PassPc
  | start
  | loop (i : Nat)
  | visit (i : Nat) (currentNode : Option NodePtr) (elementsDone initNumElements : Nat)
  | finished

structure PassState (ρ α : Type) where
  world : World (ThreadData ρ) α
  pc : Nat → PassPc

def PassState.start (h : Heap α) : PassState ρ α := ⟨⟨fun _ => none, h⟩, fun _ => .start⟩

def PassState.move (s : PassState ρ α) (world : World (ThreadData ρ) α) (thread : Nat) (pc : PassPc) : PassState ρ α :=
  ⟨world, Function.update s.pc thread pc⟩

/-- A step of one thread, with its number. -/
inductive PassStep (set : PumaSet) (kernels : List (ElementKernel ρ α)) (extraDataDetails : PumaExtraKernelData κ ρ β)
    (s : PassState ρ α) : List Nat → PassState ρ α → Prop
  | construct (thread : Nat) (inside : thread < set.tidToThreadList.length) (here : s.pc thread = .start) :
      PassStep set kernels extraDataDetails s [thread] (s.move ⟨Function.update s.world.extra thread
        (some (extraDataDetails.extraDataConstructor extraDataDetails.constructorData)), s.world.heap⟩ thread (.loop 0))
  | enter (thread i : Nat) (tl : ListPtr) (atThread : set.tidToThreadList[thread]? = some tl)
      (here : s.pc thread = .loop i) (more : i < kernels.length) :
      PassStep set kernels extraDataDetails s [thread] (s.move s.world thread
        (.visit i (s.world.heap.lists tl).head 0 (s.world.heap.lists tl).numElements))
  | visit (thread i : Nat) (tl : ListPtr) (atThread : set.tidToThreadList[thread]? = some tl)
      (kernel : ElementKernel ρ α) (atKernel : kernels[i]? = some kernel) (currentNode : NodePtr)
      (elementsDone initNumElements : Nat) (here : s.pc thread = .visit i (some currentNode) elementsDone initNumElements)
      (n : PumaNode α) (atNode : s.world.heap.node currentNode = some n) (active : n.active = true)
      (more : elementsDone < initNumElements) (w : World (ThreadData ρ) α) (next : Option NodePtr) (elementsDone' : Nat)
      (calls : List (ElemPtr × α)) (turn : runKernelThreadTurn tl (kernel.onThread thread) initNumElements s.world
        currentNode elementsDone = some (w, next, elementsDone', calls)) :
      PassStep set kernels extraDataDetails s [thread] (s.move w thread (.visit i next elementsDone' initNumElements))
  | leave (thread i : Nat) (tl : ListPtr) (atThread : set.tidToThreadList[thread]? = some tl)
      (currentNode : Option NodePtr) (elementsDone initNumElements : Nat)
      (here : s.pc thread = .visit i currentNode elementsDone initNumElements)
      (stop : ∀ node, currentNode = some node → ∃ n, s.world.heap.node node = some n ∧
        ¬ (n.active = true ∧ elementsDone < initNumElements)) (elapsed : ℚ) :
      PassStep set kernels extraDataDetails s [thread] (s.move { s.world with
        heap := s.world.heap.modifyList tl fun l => l.recordRunTime elapsed } thread (.loop (i + 1)))
  | threadReduce (thread i : Nat) (inside : thread < set.tidToThreadList.length) (here : s.pc thread = .loop i)
      (all : kernels.length ≤ i) (data : Option ρ) (entry : s.world.extra thread = some data) :
      PassStep set kernels extraDataDetails s [thread] (s.move ⟨Function.update s.world.extra thread
        (some (extraDataDetails.extraDataThreadReduce data)), s.world.heap⟩ thread .finished)

/-- What a thread has done to its list `l`, which held `bag` at the start, and to its entry of `extraData`. It
makes at most `left` more steps; `most` bounds the nodes of the list. -/
inductive ThreadAt (kernels : List (ElementKernel ρ α)) (extraDataDetails : PumaExtraKernelData κ ρ β) (most : Nat)
    (bag : Multiset α) (h : Heap α) (l : ListPtr) (entry : Option (Option ρ)) : Nat → PassPc → Prop
  | start (same : h.bag l = bag) :
      ThreadAt kernels extraDataDetails most bag h l entry (kernels.length * (most + 3) + 2) .start
  | loop (i : Nat) (within : i ≤ kernels.length) (data : Option ρ) (atEntry : entry = some data)
      (passed : Passed bag (extraDataDetails.extraDataConstructor extraDataDetails.constructorData) (kernels.take i)
        (h.bag l) data) :
      ThreadAt kernels extraDataDetails most bag h l entry ((kernels.length - i) * (most + 3) + 1) (.loop i)
  | visit (i : Nat) (kernel : ElementKernel ρ α) (atKernel : kernels[i]? = some kernel) (data : Option ρ)
      (V D S : List NodePtr) (xs : List α) (list : ThreadListOk h l (V ++ D) S)
      (atEntry : entry = some (kernel.runEach data xs).1) (visited : h.elems V = ((kernel.runEach data xs).2 : Multiset α))
      (passed : Passed bag (extraDataDetails.extraDataConstructor extraDataDetails.constructorData) (kernels.take i)
        ((xs : Multiset α) + h.elems D) data) :
      ThreadAt kernels extraDataDetails most bag h l entry ((kernels.length - (i + 1)) * (most + 3) + D.length + 2)
        (.visit i (D ++ S).head? (h.elems V).card (h.elems (V ++ D)).card)
  | finished (data : Option ρ) (atEntry : entry = some (extraDataDetails.extraDataThreadReduce data))
      (passed : Passed bag (extraDataDetails.extraDataConstructor extraDataDetails.constructorData) kernels (h.bag l) data) :
      ThreadAt kernels extraDataDetails most bag h l entry 0 .finished

/-- The steps of the other threads change nothing of this. -/
theorem ThreadAt.of_untouched {kernels : List (ElementKernel ρ α)} {extraDataDetails : PumaExtraKernelData κ ρ β}
    {most left : Nat} {bag : Multiset α} {h h' : Heap α} {l : ListPtr} {entry : Option (Option ρ)} {pc : PassPc}
    (atEntry : ThreadAt kernels extraDataDetails most bag h l entry left pc) (untouched : Untouched h h' l) :
    ThreadAt kernels extraDataDetails most bag h' l entry left pc := by
  cases atEntry with
  | start same => exact .start (untouched.bag.trans same)
  | loop i within data atEntry passed => exact .loop i within data atEntry (untouched.bag ▸ passed)
  | visit i kernel atKernel data V D S xs list atEntry visited passed =>
    have same (c : List NodePtr) (within : ∀ p ∈ c, p ∈ V ++ D) : h'.elems c = h.elems c := by
      refine Heap.elems_congr fun p member => ?_
      obtain ⟨n, atNode, owner⟩ := list.node (List.mem_append_left S (within p member))
      rw [Heap.slots, Heap.slots, atNode, (untouched.nodes p n owner).mpr atNode]
    have sameV := same V fun p member => List.mem_append_left D member
    have sameD := same D fun p member => List.mem_append_right V member
    rw [← sameV, ← same (V ++ D) fun p member => member]
    exact .visit i kernel atKernel data V D S xs (list.of_untouched untouched) atEntry (sameV.trans visited)
      (by rw [sameD]; exact passed)
  | finished data atEntry passed => exact .finished data atEntry (untouched.bag ▸ passed)

/-- The workers in the middle of `executeOnThreadPool`, from the memory `h` on. -/
structure PassInv (set : CreatedSet) (kernels : List (ElementKernel ρ α)) (extraDataDetails : PumaExtraKernelData κ ρ β)
    (h : Heap α) (s : PassState ρ α) (left : Nat → Nat) : Prop where
  setOk : SetOk s.world.heap set.tidToThreadList
  blocks : s.world.heap.blocks ⊆ h.blocks
  each : ∀ thread l, set.tidToThreadList[thread]? = some l → ThreadAt kernels extraDataDetails h.blocks.card (h.bag l)
    s.world.heap l (s.world.extra thread) (left thread) (s.pc thread)

section Steps

variable {set : CreatedSet} {kernels : List (ElementKernel ρ α)} {extraDataDetails : PumaExtraKernelData κ ρ β}
  {h : Heap α} {s : PassState ρ α} {left : Nat → Nat}

/-- The steps left to all threads. -/
def PassInv.stepsLeft (set : CreatedSet) (left : Nat → Nat) : Nat := ∑ thread ∈ Finset.range set.tidToThreadList.length, left thread

/-- A step of one thread on its own list. -/
theorem PassInv.move (inv : PassInv set kernels extraDataDetails h s left) {thread : Nat} {l : ListPtr}
    (atThread : set.tidToThreadList[thread]? = some l) {w : World (ThreadData ρ) α} {pc : PassPc} {less : Nat}
    (setOk : SetOk w.heap set.tidToThreadList) (blocks : w.heap.blocks ⊆ s.world.heap.blocks)
    (loc : Local s.world.heap w.heap l) (entries : ∀ t, t ≠ thread → w.extra t = s.world.extra t)
    (here : ThreadAt kernels extraDataDetails h.blocks.card (h.bag l) w.heap l (w.extra thread) less pc)
    (fewer : less < left thread) :
    ∃ left', PassInv set kernels extraDataDetails h (s.move w thread pc) left' ∧
      PassInv.stepsLeft set left' < PassInv.stepsLeft set left := by
  refine ⟨Function.update left thread less, ⟨setOk, blocks.trans inv.blocks, fun t m atT => ?_⟩, ?_⟩
  · by_cases same : t = thread
    · subst same
      cases Option.some.inj (atThread.symm.trans atT)
      simp only [PassState.move, Function.update_self]
      exact here
    · simp only [PassState.move, Function.update_of_ne same, entries t same]
      exact (inv.each t m atT).of_untouched (loc.untouched (set.list_ne atT atThread same))
  · refine Finset.sum_lt_sum (fun t _ => ?_) ⟨thread, Finset.mem_range.mpr (List.getElem?_eq_some_iff.mp atThread).1, ?_⟩
    · by_cases same : t = thread
      · subst same
        rw [Function.update_self]
        exact fewer.le
      · rw [Function.update_of_ne same]
    · rw [Function.update_self]
      exact fewer

/-- The constructor or the reduction of a thread. -/
theorem PassInv.write (inv : PassInv set kernels extraDataDetails h s left) {thread : Nat} {l : ListPtr}
    (atThread : set.tidToThreadList[thread]? = some l) {data : Option ρ} {pc : PassPc} {less : Nat}
    (here : ThreadAt kernels extraDataDetails h.blocks.card (h.bag l) s.world.heap l (some data) less pc)
    (fewer : less < left thread) : ∃ left', PassInv set kernels extraDataDetails h
      (s.move ⟨Function.update s.world.extra thread (some data), s.world.heap⟩ thread pc) left' ∧
      PassInv.stepsLeft set left' < PassInv.stepsLeft set left :=
  inv.move atThread inv.setOk (Finset.Subset.refl _) (Local.refl _ l) (fun _ other => Function.update_of_ne other _ _)
    (by dsimp only; rw [Function.update_self]; exact here) fewer

/-- A pass begins. -/
theorem PassInv.enter (inv : PassInv set kernels extraDataDetails h s left) {thread i : Nat} {l : ListPtr}
    (atThread : set.tidToThreadList[thread]? = some l) (here : s.pc thread = .loop i) (more : i < kernels.length) :
    ∃ left', PassInv set kernels extraDataDetails h (s.move s.world thread
      (.visit i (s.world.heap.lists l).head 0 (s.world.heap.lists l).numElements)) left' ∧
      PassInv.stepsLeft set left' < PassInv.stepsLeft set left := by
  have own := inv.each thread l atThread
  rw [here] at own
  generalize steps : left thread = now at own
  cases own with
  | loop i within data atEntry passed =>
    obtain ⟨A, S, list⟩ := inv.setOk.each l (List.mem_of_getElem? atThread)
    have bound : A.length ≤ h.blocks.card := by
      have nodes := list.card_le_blocks
      rw [List.length_append] at nodes
      have fewer := Finset.card_le_card inv.blocks
      omega
    rw [list.bag_eq inv.setOk.ok] at passed
    have visit : ThreadAt kernels extraDataDetails h.blocks.card (h.bag l) s.world.heap l (s.world.extra thread) _ _ :=
      .visit i kernels[i] (List.getElem?_eq_getElem more) data [] A S [] list atEntry rfl (by simpa using passed)
    rw [List.nil_append, ← list.head, ← list.count] at visit
    refine inv.move atThread inv.setOk (Finset.Subset.refl _) (Local.refl _ l) (fun _ _ => rfl) visit ?_
    have split : kernels.length - i = kernels.length - (i + 1) + 1 := by omega
    rw [steps, split, Nat.succ_mul]
    omega

/-- A thread visits the next node of its list. -/
theorem PassInv.visit (inv : PassInv set kernels extraDataDetails h s left) {thread i done init : Nat} {l : ListPtr}
    (atThread : set.tidToThreadList[thread]? = some l) {kernel : ElementKernel ρ α} (atKernel : kernels[i]? = some kernel)
    {c : NodePtr} (here : s.pc thread = .visit i (some c) done init) {n : PumaNode α}
    (atNode : s.world.heap.node c = some n) (active : n.active = true) (more : done < init) :
    ∃ w next done' calls, runKernelThreadTurn l (kernel.onThread thread) init s.world c done = some (w, next, done', calls) ∧
      ∃ left', PassInv set kernels extraDataDetails h (s.move w thread (.visit i next done' init)) left' ∧
        PassInv.stepsLeft set left' < PassInv.stepsLeft set left := by
  have own := inv.each thread l atThread
  rw [here] at own
  generalize steps : left thread = now at own
  generalize at_c : some c = current at own
  cases own with
  | visit i kernel' atKernel' data V D S xs list atEntry visited passed =>
    cases Option.some.inj (atKernel.symm.trans atKernel')
    obtain ⟨D, rfl⟩ : ∃ D', D = c :: D' := by
      cases D with
      | nil =>
        have spare : c ∈ S := List.mem_of_mem_head? at_c.symm
        rw [list.active_iff atNode (List.mem_append_right _ spare)] at active
        exact absurd active (list.notMem_active spare)
      | cons d D =>
        cases at_c
        exact ⟨D, rfl⟩
    obtain ⟨w, D', S', done', calls, ys, turn, post, sofar⟩ :=
      runKernelThreadTurn_folds kernel atEntry inv.setOk.ok list rfl rfl more
    have list' : ThreadListOk w.heap l ((V ++ [c]) ++ D') S' := by
      rw [List.append_assoc, List.singleton_append]
      exact post.list
    have seen : w.heap.elems (V ++ [c]) = ((kernel.runEach data (xs ++ ys)).2 : Multiset α) := by
      rw [Heap.elems_append, Heap.elems_singleton, post.before, post.visited, visited, ElementKernel.runEach_append,
        Multiset.coe_add]
    have whole : (w.heap.elems ((V ++ [c]) ++ D')).card = (s.world.heap.elems (V ++ c :: D)).card := by
      rw [Heap.elems_append, Heap.elems_append, Heap.elems_append, Heap.elems_singleton, post.before, post.visited,
        post.rest, Multiset.card_add, Multiset.card_add, Multiset.card_add, Multiset.card_add, Multiset.coe_card,
        Multiset.coe_card, ElementKernel.runEach_length, Nat.add_assoc]
    have member := List.mem_of_getElem? atThread
    have setOk := inv.setOk.local member ⟨post.ok, (by
      rw [post.loc.capacityFor]
      exact inv.setOk.capacity l member), _, _, post.list⟩ post.loc
    have visit : ThreadAt kernels extraDataDetails h.blocks.card (h.bag l) w.heap l (w.extra thread) _ _ :=
      .visit i kernel atKernel data (V ++ [c]) D' S' (xs ++ ys) list'
        (by rw [post.extra, Function.update_self, ElementKernel.runEach_append]) seen
        (by rw [post.rest, ← add_assoc, Multiset.coe_add] at passed; exact passed)
    rw [← sofar, whole] at visit
    have shorter := post.shorter
    refine ⟨w, (D' ++ S').head?, done', calls, turn, inv.move atThread setOk post.blocks post.loc
      (fun t other => by rw [post.extra, Function.update_of_ne other]) visit ?_⟩
    rw [steps, List.length_cons]
    omega

/-- A pass ends. -/
theorem PassInv.leave (inv : PassInv set kernels extraDataDetails h s left) {thread i done init : Nat} {l : ListPtr}
    (atThread : set.tidToThreadList[thread]? = some l) {currentNode : Option NodePtr}
    (here : s.pc thread = .visit i currentNode done init)
    (stop : ∀ node, currentNode = some node → ∃ n, s.world.heap.node node = some n ∧ ¬ (n.active = true ∧ done < init))
    (elapsed : ℚ) : ∃ left', PassInv set kernels extraDataDetails h (s.move { s.world with
      heap := s.world.heap.modifyList l fun tl => tl.recordRunTime elapsed } thread (.loop (i + 1))) left' ∧
      PassInv.stepsLeft set left' < PassInv.stepsLeft set left := by
  have own := inv.each thread l atThread
  rw [here] at own
  generalize steps : left thread = now at own
  cases own with
  | visit i kernel atKernel data V D S xs list atEntry visited passed =>
    have zero : s.world.heap.elems D = 0 := by
      cases D with
      | nil => rfl
      | cons c D =>
        obtain ⟨n, atNode, stops⟩ := stop c rfl
        have active : n.active = true := (list.active_iff atNode (by simp)).mpr (by simp)
        rw [Heap.elems_append, Multiset.card_add] at stops
        exact Multiset.card_eq_zero.mp (by by_contra nonempty; exact stops ⟨active, by omega⟩)
    have inside := (List.getElem?_eq_some_iff.mp atKernel).1
    have bag : s.world.heap.bag l = ((kernel.runEach data xs).2 : Multiset α) := by
      rw [list.bag_eq inv.setOk.ok, Heap.elems_append, zero, add_zero, visited]
    have timed := recordRunTime_step inv.setOk.ok list elapsed
    have loc : Local s.world.heap (s.world.heap.modifyList l fun tl => tl.recordRunTime elapsed) l :=
      Local.modifyList s.world.heap l rfl rfl
    have member := List.mem_of_getElem? atThread
    have setOk := inv.setOk.local member ⟨timed.ok, (by
      rw [loc.capacityFor]
      exact inv.setOk.capacity l member), _, _, timed.list⟩ loc
    rw [zero, add_zero] at passed
    refine inv.move atThread setOk (Finset.Subset.refl _) loc (fun _ _ => rfl)
      (.loop (i + 1) inside (kernel.runEach data xs).1 atEntry ?_) ?_
    · rw [List.take_succ_eq_append_getElem inside, (List.getElem?_eq_some_iff.mp atKernel).2,
        show (s.world.heap.modifyList l fun tl => tl.recordRunTime elapsed).bag l = s.world.heap.bag l from rfl, bag]
      exact passed.pass kernel
    · rw [steps]
      omega

/-- Every step keeps this, and leaves fewer steps to go. -/
theorem PassInv.step (inv : PassInv set kernels extraDataDetails h s left) {events : List Nat} {s' : PassState ρ α}
    (step : PassStep set.toPumaSet kernels extraDataDetails s events s') :
    events.length = 1 ∧ ∃ left', PassInv set kernels extraDataDetails h s' left' ∧
      PassInv.stepsLeft set left' < PassInv.stepsLeft set left := by
  cases step with
  | construct thread inside here =>
    have atThread := List.getElem?_eq_getElem inside
    have own := inv.each thread _ atThread
    rw [here] at own
    generalize steps : left thread = now at own
    cases own with
    | start same =>
      refine ⟨rfl, inv.write atThread (.loop 0 (Nat.zero_le _) _ rfl ?_) ?_⟩
      · rw [List.take_zero, same]
        exact .nil
      · rw [steps, Nat.sub_zero]
        omega
  | enter thread i tl atThread here more => exact ⟨rfl, inv.enter atThread here more⟩
  | visit thread i tl atThread kernel atKernel c done init here n atNode active more w next done' calls turn =>
    obtain ⟨w₁, next₁, done₁, calls₁, turn₁, kept⟩ := inv.visit atThread atKernel here atNode active more
    cases Option.some.inj (turn₁.symm.trans turn)
    exact ⟨rfl, kept⟩
  | leave thread i tl atThread currentNode done init here stop elapsed =>
    exact ⟨rfl, inv.leave atThread here stop elapsed⟩
  | threadReduce thread i inside here all data entry =>
    have atThread := List.getElem?_eq_getElem inside
    have own := inv.each thread _ atThread
    rw [here] at own
    generalize steps : left thread = now at own
    cases own with
    | loop i within data' atEntry passed =>
      cases Option.some.inj (entry.symm.trans atEntry)
      have last : i = kernels.length := by omega
      rw [last, List.take_length] at passed
      refine ⟨rfl, inv.write atThread (.finished data rfl passed) ?_⟩
      rw [steps]
      omega

/-- A thread that has not come to the end can make its next step, whatever the others do: it never waits, and
never reads a node that is not there. -/
theorem PassInv.progress (inv : PassInv set kernels extraDataDetails h s left) {thread : Nat}
    (inside : thread < set.tidToThreadList.length) (unfinished : s.pc thread ≠ .finished) :
    ∃ s', PassStep set.toPumaSet kernels extraDataDetails s [thread] s' := by
  have atThread := List.getElem?_eq_getElem inside
  have own := inv.each thread _ atThread
  generalize here : s.pc thread = pc at own unfinished
  generalize left thread = now at own
  cases own with
  | start same => exact ⟨_, .construct thread inside here⟩
  | loop i within data atEntry passed =>
    by_cases more : i < kernels.length
    · exact ⟨_, .enter thread i _ atThread here more⟩
    · exact ⟨_, .threadReduce thread i inside here (by omega) data atEntry⟩
  | visit i kernel atKernel data V D S xs list atEntry visited passed =>
    by_cases stop : ∀ node, (D ++ S).head? = some node → ∃ n, s.world.heap.node node = some n ∧
        ¬ (n.active = true ∧ (s.world.heap.elems V).card < (s.world.heap.elems (V ++ D)).card)
    · exact ⟨_, .leave thread i _ atThread _ _ _ here stop 0⟩
    · push Not at stop
      obtain ⟨c, atC, goes⟩ := stop
      have member : c ∈ D ++ S := List.mem_of_mem_head? atC
      obtain ⟨n, atNode, _⟩ := list.node (p := c) (by
        rw [List.append_assoc]
        exact List.mem_append_right V member)
      obtain ⟨active, more⟩ := goes n atNode
      rw [atC] at here
      obtain ⟨w, next, done', calls, turn, _⟩ := inv.visit atThread atKernel here atNode active more
      exact ⟨_, .visit thread i _ atThread kernel atKernel c _ _ here n atNode active more w next done' calls turn⟩
  | finished => exact absurd rfl unfinished

theorem PassInv.start (setOk : SetOk h set.tidToThreadList) : PassInv set kernels extraDataDetails h (.start h)
    fun _ => kernels.length * (h.blocks.card + 3) + 2 :=
  ⟨setOk, Finset.Subset.refl _, fun _ _ _ => .start rfl⟩

/-- A run uses up steps. -/
theorem PassInv.run {schedule : List Nat} {s' : PassState ρ α}
    (run : Run (PassStep set.toPumaSet kernels extraDataDetails) s schedule s')
    (inv : PassInv set kernels extraDataDetails h s left) : ∃ left', PassInv set kernels extraDataDetails h s' left' ∧
      schedule.length + PassInv.stepsLeft set left' ≤ PassInv.stepsLeft set left := by
  induction run with
  | refl => exact ⟨left, inv, by simp⟩
  | tail _ last ih =>
    obtain ⟨left₁, inv₁, used⟩ := ih
    obtain ⟨one, left', inv', fewer⟩ := inv₁.step last
    refine ⟨left', inv', ?_⟩
    rw [List.length_append, one]
    omega

end Steps

section Whole

variable [AddCommMonoid M] [Inhabited α] {allowed : Allowed α}

/-- The workers of a call of `runKernelList`, in any order of their visits to the nodes of their lists: every run
ends, no thread gets stuck, and at the end the elements and the sums are what one thread would have
made of all elements. -/
theorem Reachable.workers_interleave {set : CreatedSet} {h h₁ : Heap α} (safe : ∀ g l, allowed g l → AllocSafe g l)
    (reachable : Reachable set allowed h) {tlAvgNodes : ListPtr → Nat → Nat}
    (balanced : balanceThreadLoad set.toPumaSet h tlAvgNodes = some h₁) (stages : List (Stage α M))
    (extraDataDetails : PumaExtraKernelData κ M β) {init : M}
    (constructs : extraDataDetails.extraDataConstructor extraDataDetails.constructorData = some init) :
    ∃ most, ∀ schedule s,
      Run (PassStep set.toPumaSet (stages.map Stage.kernel) extraDataDetails) (.start h₁) schedule s →
        schedule.length ≤ most ∧
        (∀ thread < set.tidToThreadList.length, s.pc thread ≠ .finished →
          ∃ s', PassStep set.toPumaSet (stages.map Stage.kernel) extraDataDetails s [thread] s') ∧
        ((∀ thread < set.tidToThreadList.length, s.pc thread = .finished) →
          s.world.heap.total = h.total.map (Stage.through stages) ∧ ∃ data : Nat → M,
            ((List.range set.tidToThreadList.length).map data).sum =
              set.tidToThreadList.length • init + (h.total.map (Stage.gather stages)).sum ∧
            ∀ thread < set.tidToThreadList.length,
              s.world.extra thread = some (extraDataDetails.extraDataThreadReduce (some (data thread)))) := by
  obtain ⟨h', balanced', setOk, rebalanced⟩ := balanceThreadLoad_spec (reachable.ok safe) set.threads set.cpus tlAvgNodes
  cases Option.some.inj (balanced'.symm.trans balanced)
  refine ⟨PassInv.stepsLeft set fun _ => (stages.map Stage.kernel).length * (h₁.blocks.card + 3) + 2,
    fun schedule s run => ?_⟩
  obtain ⟨left, inv, used⟩ := PassInv.run run (PassInv.start setOk)
  refine ⟨(Nat.le_add_right _ _).trans used, fun thread inside unfinished => inv.progress inside unfinished, fun ended => ?_⟩
  have last (thread : Nat) : ∃ entry, thread < set.tidToThreadList.length →
      s.world.extra thread = some (extraDataDetails.extraDataThreadReduce entry) ∧
      ∀ l, set.tidToThreadList[thread]? = some l →
        Passed (h₁.bag l) (some init) (stages.map Stage.kernel) (s.world.heap.bag l) entry := by
    by_cases inside : thread < set.tidToThreadList.length
    · have atThread := List.getElem?_eq_getElem inside
      have own := inv.each thread _ atThread
      rw [ended thread inside] at own
      generalize left thread = now at own
      cases own with
      | finished data atEntry passed =>
        rw [constructs] at passed
        refine ⟨data, fun _ => ⟨atEntry, fun l atEntry => ?_⟩⟩
        cases Option.some.inj (atThread.symm.trans atEntry)
        exact passed
    · exact ⟨none, fun bound => absurd bound inside⟩
  choose entry last using last
  obtain ⟨total, data, sum, entries⟩ := Passed.gathered setOk rebalanced inv.setOk
    fun thread l atThread => (last thread (List.getElem?_eq_some_iff.mp atThread).1).2 l atThread
  refine ⟨total, data, sum, fun thread inside => ?_⟩
  rw [(last thread inside).1, entries thread inside]

end Whole

/-- The pass of two threads over what they have kept. -/
theorem twoThreads_interleaves : ∃ (h h₁ : Heap Unit) (most : Nat), (h.read ⟨0, 1⟩).isSome ∧ (h.read ⟨1, 0⟩).isSome ∧
    (h.read ⟨2, 0⟩).isSome ∧ balanceThreadLoad twoThreads.toPumaSet h (fun _ _ => 1) = some h₁ ∧ ∀ schedule s,
    Run (PassStep twoThreads.toPumaSet ([⟨id, fun _ => 1⟩].map Stage.kernel) (sumKernelData : PumaExtraKernelData Unit Nat Nat))
      (.start h₁) schedule s → schedule.length ≤ most := by
  obtain ⟨h, reachable, _, behind, other, next⟩ := busyCalls_run
  obtain ⟨h₁, balanced, _⟩ := balanceThreadLoad_spec (reachable.ok fun _ _ safe => safe) twoThreads.threads
    twoThreads.cpus fun _ _ => 1
  obtain ⟨most, ends⟩ := Reachable.workers_interleave (fun _ _ safe => safe) reachable balanced [⟨id, fun _ => (1 : Nat)⟩]
    sumKernelData rfl
  exact ⟨h, h₁, most, behind, other, next, balanced, fun schedule s run => (ends schedule s run).1⟩

end Puma
