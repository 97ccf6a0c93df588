import Puma.KernelData
import Puma.Runs

namespace Puma

variable {α κ ρ β M : Type}

/-- The kernels have been run one after the other over the elements of a bag, each of them in some order. -/
inductive Passed (bag : Multiset α) (data : Option ρ) : List (ElementKernel ρ α) → Multiset α → Option ρ → Prop
  | nil : Passed bag data [] bag data
  | pass {kernels : List (ElementKernel ρ α)} {xs : List α} {data' : Option ρ} (kernel : ElementKernel ρ α)
      (before : Passed bag data kernels (xs : Multiset α) data') :
      Passed bag data (kernels ++ [kernel]) ((kernel.runEach data' xs).2 : Multiset α) (kernel.runEach data' xs).1

/-- Where a thread is after some turns of `_runKernelWorker`, on a list that held `bag` before them and
holds `now`. -/
inductive WorkerAt (kernels : List (ElementKernel ρ α)) (extraDataDetails : PumaExtraKernelData κ ρ β)
    (bag now : Multiset α) (entry : Option (Option ρ)) : Nat → Prop
  | start (same : now = bag) : WorkerAt kernels extraDataDetails bag now entry 0
  | passing (i : Nat) (data : Option ρ) (most : i ≤ kernels.length) (atEntry : entry = some data)
      (passed : Passed bag (extraDataDetails.extraDataConstructor extraDataDetails.constructorData) (kernels.take i) now data) :
      WorkerAt kernels extraDataDetails bag now entry (i + 1)
  | finished (data : Option ρ) (atEntry : entry = some (extraDataDetails.extraDataThreadReduce data))
      (passed : Passed bag (extraDataDetails.extraDataConstructor extraDataDetails.constructorData) kernels now data) :
      WorkerAt kernels extraDataDetails bag now entry (kernels.length + 2)

theorem WorkerAt.done {kernels : List (ElementKernel ρ α)} {extraDataDetails : PumaExtraKernelData κ ρ β}
    {bag now : Multiset α} {entry : Option (Option ρ)}
    (atEntry : WorkerAt kernels extraDataDetails bag now entry (kernels.length + 2)) :
    ∃ data, entry = some (extraDataDetails.extraDataThreadReduce data) ∧
      Passed bag (extraDataDetails.extraDataConstructor extraDataDetails.constructorData) kernels now data := by
  generalize turns : kernels.length + 2 = done at atEntry
  cases atEntry with
  | start => omega
  | passing => omega
  | finished data entry passed => exact ⟨data, entry, passed⟩

/-- The workers in the middle of their turns, from the memory `h` on. -/
structure WorkersInv (set : CreatedSet) (kernels : List (ElementKernel ρ α))
    (extraDataDetails : PumaExtraKernelData κ ρ β) (h : Heap α) (done : Nat → Nat) (w : World (ThreadData ρ) α) : Prop where
  setOk : SetOk w.heap set.tidToThreadList
  blocks : w.heap.blocks ⊆ h.blocks
  each : ∀ thread l, set.tidToThreadList[thread]? = some l →
    WorkerAt kernels extraDataDetails (h.bag l) (w.heap.bag l) (w.extra thread) (done thread)

section Workers

variable {set : CreatedSet} {kernels : List (ElementKernel ρ α)} {extraDataDetails : PumaExtraKernelData κ ρ β}
  {h : Heap α} {done : Nat → Nat} {w : World (ThreadData ρ) α}

/-- A turn of one thread that leaves the lists and the data of the others alone. -/
theorem WorkersInv.turn (inv : WorkersInv set kernels extraDataDetails h done w) {thread : Nat} {l : ListPtr}
    (atThread : set.tidToThreadList[thread]? = some l) {w' : World (ThreadData ρ) α}
    (setOk : SetOk w'.heap set.tidToThreadList) (blocks : w'.heap.blocks ⊆ w.heap.blocks)
    (bags : ∀ m, m ≠ l → w'.heap.bag m = w.heap.bag m) (entries : ∀ t, t ≠ thread → w'.extra t = w.extra t)
    (here : WorkerAt kernels extraDataDetails (h.bag l) (w'.heap.bag l) (w'.extra thread) (done thread + 1)) :
    WorkersInv set kernels extraDataDetails h (Function.update done thread (done thread + 1)) w' := by
  refine ⟨setOk, blocks.trans inv.blocks, fun t m atT => ?_⟩
  by_cases same : t = thread
  · subst same
    cases Option.some.inj (atThread.symm.trans atT)
    rw [Function.update_self]
    exact here
  · rw [Function.update_of_ne same, bags m (set.list_ne atT atThread same), entries t same]
    exact inv.each t m atT

/-- One turn of `_runKernelWorker`. -/
theorem WorkersInv.step (inv : WorkersInv set kernels extraDataDetails h done w) {thread most : Nat} {l : ListPtr}
    (atThread : set.tidToThreadList[thread]? = some l) (left : done thread < kernels.length + 2)
    (enough : h.blocks.card < most) (elapsed : ℚ) :
    ∃ w', runKernelWorkerStep set.toPumaSet kernels extraDataDetails most elapsed thread w (done thread) = some w' ∧
      WorkersInv set kernels extraDataDetails h (Function.update done thread (done thread + 1)) w' := by
  have turn (w' : World (ThreadData ρ) α) (setOk : SetOk w'.heap set.tidToThreadList) blocks bags entries here :=
    inv.turn atThread setOk blocks bags entries here
  have here := inv.each thread l atThread
  generalize done thread = turns at here left turn
  cases here with
  | start same =>
    refine ⟨_, rfl, turn _ inv.setOk (Finset.Subset.refl _) (fun _ _ => rfl) (fun t other => Function.update_of_ne other _ _)
      (.passing 0 _ (Nat.zero_le _) (Function.update_self ..) ?_)⟩
    rw [List.take_zero, same]
    exact .nil
  | passing i data bound entry passed =>
    by_cases more : i < kernels.length
    · have atKernel : kernels[i]? = some kernels[i] := List.getElem?_eq_getElem more
      obtain ⟨w', calls, xs, run, setOk, blocks, before, after, others, extra⟩ := inv.setOk.runKernelThread_folds
        kernels[i] (List.mem_of_getElem? atThread) entry ((Finset.card_le_card inv.blocks).trans_lt enough) elapsed
      refine ⟨w', ?_, turn w' setOk blocks others (fun t other => by rw [extra, Function.update_of_ne other])
        (.passing (i + 1) (kernels[i].runEach data xs).1 more (by rw [extra, Function.update_self]) ?_)⟩
      · simp only [runKernelWorkerStep, atKernel, atThread, run, Option.bind_eq_bind, Option.bind_some, Option.pure_def]
      · rw [before] at passed
        rw [List.take_succ_eq_append_getElem more, after]
        exact passed.pass kernels[i]
    · have all : i = kernels.length := by omega
      have missing : kernels[i]? = none := List.getElem?_eq_none (by omega)
      subst all
      rw [List.take_length] at passed
      refine ⟨{ w with extra := Function.update w.extra thread (some (extraDataDetails.extraDataThreadReduce data)) }, ?_,
        turn _ inv.setOk (Finset.Subset.refl _) (fun _ _ => rfl) (fun t other => Function.update_of_ne other _ _)
          (.finished data (Function.update_self ..) passed)⟩
      simp only [runKernelWorkerStep, missing, entry, Option.bind_eq_bind, Option.bind_some, Option.pure_def]
  | finished data entry passed => omega

/-- The workers take all their turns, in any order. -/
theorem WorkersInv.run {turns : Nat} {elapsed : Nat → Nat → ℚ} {schedule : List Nat}
    (inv : WorkersInv set kernels extraDataDetails h done w) (enough : h.blocks.card < turns)
    (threads : ∀ thread ∈ schedule, thread < set.tidToThreadList.length)
    (complete : ∀ thread, thread < set.tidToThreadList.length → done thread + schedule.count thread = kernels.length + 2) :
    ∃ w', runKernelWorkers set.toPumaSet kernels extraDataDetails turns elapsed schedule done w = some w' ∧
      WorkersInv set kernels extraDataDetails h (fun thread => done thread + schedule.count thread) w' := by
  induction schedule generalizing done w with
  | nil => exact ⟨w, rfl, inv⟩
  | cons thread schedule ih =>
    have bound := threads thread (List.mem_cons_self ..)
    have left := complete thread bound
    rw [List.count_cons_self] at left
    have atThread := List.getElem?_eq_getElem bound
    obtain ⟨w₁, turn, inv₁⟩ := inv.step atThread (by omega) enough (elapsed thread (done thread))
    obtain ⟨w', rest, inv'⟩ := ih inv₁ (fun t inside => threads t (List.mem_cons_of_mem _ inside))
      fun t inside => (done_add_count done thread schedule t).trans (complete t inside)
    refine ⟨w', ?_, ?_⟩
    · simp only [runKernelWorkers, turn, rest, Option.bind_eq_bind, Option.bind_some]
    · simp only [done_add_count] at inv'
      exact inv'

end Workers

/-- The threads take all turns of `_runKernelWorker`, each pass may visit all nodes, and then each thread cleans up. -/
structure Oracle.Whole (oracle : Oracle) (set : PumaSet) (kernels : Nat) (cleanup : List Nat) (h : Heap α) : Prop where
  each : ∀ thread, oracle.schedule.count thread = if thread < set.tidToThreadList.length then kernels + 2 else 0
  enough : h.blocks.card < oracle.turns
  cleans : cleanup.Perm (List.range set.tidToThreadList.length)

theorem cleanupKernelWorkers_spec (extraDataDetails : PumaExtraKernelData κ ρ β) {order : List Nat} (nodup : order.Nodup)
    {extraData : ThreadData ρ} (written : ∀ thread ∈ order, (extraData thread).isSome) :
    ∃ left, cleanupKernelWorkers extraDataDetails order extraData = some left ∧ ∀ thread,
      left thread = if thread ∈ order then (extraData thread).map extraDataDetails.extraDataDestructor
        else extraData thread := by
  induction order generalizing extraData with
  | nil => exact ⟨extraData, rfl, fun _ => by simp⟩
  | cons thread order ih =>
    rw [List.nodup_cons] at nodup
    obtain ⟨data, entry⟩ := Option.isSome_iff_exists.mp (written thread (List.mem_cons_self ..))
    have others (t : Nat) (other : t ≠ thread) : Function.update extraData thread
        (some (extraDataDetails.extraDataDestructor data)) t = extraData t := Function.update_of_ne other _ _
    have written' (t : Nat) (member : t ∈ order) : (Function.update extraData thread
        (some (extraDataDetails.extraDataDestructor data)) t).isSome := by
      rw [others t fun same => nodup.1 (same ▸ member)]
      exact written t (List.mem_cons_of_mem _ member)
    obtain ⟨left, run, cleaned⟩ := ih nodup.2 written'
    refine ⟨left, ?_, fun t => ?_⟩
    · rw [cleanupKernelWorkers, List.foldlM_cons]
      simp only [entry, Option.bind_eq_bind, Option.bind_some, Option.pure_def]
      exact run
    · rw [cleaned]
      by_cases same : t = thread
      · subst same
        rw [if_neg nodup.1, if_pos (List.mem_cons_self ..), entry, Function.update_self]
        rfl
      · rw [others t same]
        simp [same]

/-- What `runKernelList` does to a set in order: `data thread` is the extra data of a thread before its reduction. -/
structure KernelListPost (set : CreatedSet) (kernels : List (ElementKernel ρ α))
    (extraDataDetails : PumaExtraKernelData κ ρ β) (h₁ h' : Heap α) (retValue : Option β) (left : ThreadData ρ)
    (data : Nat → Option ρ) : Prop where
  setOk : SetOk h' set.tidToThreadList
  passed : ∀ thread l, set.tidToThreadList[thread]? = some l →
    Passed (h₁.bag l) (extraDataDetails.extraDataConstructor extraDataDetails.constructorData) kernels (h'.bag l)
      (data thread)
  retValue_eq : retValue = extraDataDetails.extraDataReduce extraDataDetails.retValue
    ((List.range set.tidToThreadList.length).map fun thread => extraDataDetails.extraDataThreadReduce (data thread))
  left_eq : ∀ thread, thread < set.tidToThreadList.length →
    left thread = some (extraDataDetails.extraDataDestructor (extraDataDetails.extraDataThreadReduce (data thread)))

theorem mapM_some {A B : Type} {f : A → Option B} {g : A → B} {items : List A} (each : ∀ a ∈ items, f a = some (g a)) :
    items.mapM f = some (items.map g) := by
  induction items with
  | nil => rfl
  | cons a items ih =>
    rw [List.mapM_cons, each a (List.mem_cons_self ..), ih fun b member => each b (List.mem_cons_of_mem _ member)]
    rfl

/-- `runKernelList` returns, whatever the order of the threads' turns. -/
theorem SetOk.runKernelListWith {set : CreatedSet} {h : Heap α} (setOk : SetOk h set.tidToThreadList)
    (kernels : List (ElementKernel ρ α)) (extraDataDetails : Option (PumaExtraKernelData κ ρ β)) {oracle : Oracle}
    {cleanup : List Nat} (whole : oracle.Whole set.toPumaSet kernels.length cleanup h) :
    ∃ h₁ h' retValue left data, balanceThreadLoad set.toPumaSet h oracle.tlAvgNodes = some h₁ ∧ Rebalanced h h₁ ∧
      SetOk h₁ set.tidToThreadList ∧
      Puma.runKernelListWith set.toPumaSet h kernels extraDataDetails oracle cleanup = some (h', retValue, left) ∧
      KernelListPost set kernels (extraDataDetails.getD emptyKernelData) h₁ h' retValue left data := by
  obtain ⟨h₁, balanced, setOk₁, rebalanced⟩ := balanceThreadLoad_spec setOk set.threads set.cpus oracle.tlAvgNodes
  let details := extraDataDetails.getD emptyKernelData
  have start : WorkersInv set kernels details h₁ (fun _ => 0) (⟨fun _ => none, h₁⟩ : World (ThreadData ρ) α) :=
    ⟨setOk₁, Finset.Subset.refl _, fun _ _ _ => .start rfl⟩
  have threads : ∀ thread ∈ oracle.schedule, thread < set.tidToThreadList.length := fun thread member => by
    by_contra out
    have count := whole.each thread
    rw [if_neg out] at count
    exact List.count_eq_zero.mp count member
  obtain ⟨w', run, inv⟩ := start.run (by rw [rebalanced.blocks]; exact whole.enough) threads
    fun thread inside => by rw [whole.each thread, if_pos inside, Nat.zero_add]
  have done (thread : Nat) : ∃ data, thread < set.tidToThreadList.length →
      w'.extra thread = some (details.extraDataThreadReduce data) ∧ ∀ l, set.tidToThreadList[thread]? = some l →
        Passed (h₁.bag l) (details.extraDataConstructor details.constructorData) kernels (w'.heap.bag l) data := by
    by_cases inside : thread < set.tidToThreadList.length
    · have atThread := List.getElem?_eq_getElem inside
      have last := inv.each thread _ atThread
      rw [whole.each thread, if_pos inside, Nat.zero_add] at last
      obtain ⟨data, entry, passed⟩ := last.done
      exact ⟨data, fun _ => ⟨entry, fun l atEntry => by rw [← Option.some.inj (atThread.symm.trans atEntry)]; exact passed⟩⟩
    · exact ⟨none, fun bound => absurd bound inside⟩
  choose data done using done
  have read : (List.range set.tidToThreadList.length).mapM w'.extra =
      some ((List.range set.tidToThreadList.length).map fun thread => details.extraDataThreadReduce (data thread)) :=
    mapM_some fun thread member => (done thread (List.mem_range.mp member)).1
  obtain ⟨left, cleaned, left_eq⟩ := cleanupKernelWorkers_spec details
    (whole.cleans.nodup_iff.mpr List.nodup_range) fun thread member => show (w'.extra thread).isSome by
      rw [(done thread (List.mem_range.mp (whole.cleans.mem_iff.mp member))).1]
      rfl
  refine ⟨h₁, w'.heap, _, left, data, balanced, rebalanced, setOk₁, ?_, inv.setOk, fun thread l atEntry => ?_, rfl,
    fun thread inside => ?_⟩
  · simp only [Puma.runKernelListWith, balanced, Option.bind_eq_bind, Option.bind_some]
    rw [show extraDataDetails.getD emptyKernelData = details from rfl, run, Option.bind_some, read, Option.bind_some,
      cleaned]
    rfl
  · exact (done thread (List.getElem?_eq_some_iff.mp atEntry).1).2 l atEntry
  · rw [left_eq, if_pos (whole.cleans.mem_iff.mpr (List.mem_range.mpr inside)), (done thread inside).1]
    rfl

/-- A kernel that replaces the content of an element and adds to its thread's extra data; both depend on
the content only. -/
structure Stage (α M : Type) where
  map : α → α
  add : α → M

/-- What stages one after the other make of a content. -/
def Stage.through : List (Stage α M) → α → α
  | [], x => x
  | stage :: stages, x => through stages (stage.map x)

theorem Stage.through_append (stages : List (Stage α M)) (stage : Stage α M) (x : α) :
    through (stages ++ [stage]) x = stage.map (through stages x) := by
  induction stages generalizing x with
  | nil => rfl
  | cons first stages ih => exact ih (first.map x)

section Sums

variable [AddCommMonoid M]

def Stage.kernel (stage : Stage α M) : ElementKernel M α := fun data x => (data.map (· + stage.add x), stage.map x)

/-- What stages one after the other add up for a content. -/
def Stage.gather : List (Stage α M) → α → M
  | [], _ => 0
  | stage :: stages, x => stage.add x + gather stages (stage.map x)

theorem Stage.gather_append (stages : List (Stage α M)) (stage : Stage α M) (x : α) :
    gather (stages ++ [stage]) x = gather stages x + stage.add (through stages x) := by
  induction stages generalizing x with
  | nil => exact (add_zero _).trans (zero_add _).symm
  | cons first stages ih =>
    calc first.add x + gather (stages ++ [stage]) (first.map x)
        = first.add x + (gather stages (first.map x) + stage.add (through stages (first.map x))) := by rw [ih]
      _ = first.add x + gather stages (first.map x) + stage.add (through stages (first.map x)) := (add_assoc _ _ _).symm

theorem Stage.runEach_kernel (stage : Stage α M) (m : M) (xs : List α) :
    stage.kernel.runEach (some m) xs = (some (m + (xs.map stage.add).sum), xs.map stage.map) := by
  induction xs generalizing m with
  | nil => simp
  | cons x xs ih =>
    have first : stage.kernel (some m) x = (some (m + stage.add x), stage.map x) := rfl
    rw [ElementKernel.runEach_cons, first, ih, List.map_cons, List.sum_cons, List.map_cons, add_assoc]

/-- Neither the contents nor the sum depend on the order of the calls. -/
theorem Passed.stages {bag now : Multiset α} {m : M} {data : Option M} {stages : List (Stage α M)}
    (passed : Passed bag (some m) (stages.map Stage.kernel) now data) :
    now = bag.map (Stage.through stages) ∧ data = some (m + (bag.map (Stage.gather stages)).sum) := by
  generalize same : stages.map Stage.kernel = kernels at passed
  induction passed generalizing stages with
  | nil =>
    rw [List.map_eq_nil_iff] at same
    subst same
    simp [Stage.through, Stage.gather]
  | @pass kernels xs data' kernel _ ih =>
    obtain ⟨front, last, rfl, atFront, atLast⟩ := List.map_eq_append_iff.mp same
    obtain ⟨stage, rfl, rfl⟩ := List.map_eq_singleton_iff.mp atLast
    obtain ⟨contents, rfl⟩ := ih atFront
    have mapped : xs.map stage.map = ((xs : Multiset α).map stage.map : Multiset α) := (Multiset.map_coe ..).symm
    have summed : (xs.map stage.add).sum = ((xs : Multiset α).map stage.add).sum := by
      rw [Multiset.map_coe, Multiset.sum_coe]
    rw [Stage.runEach_kernel, mapped, summed, contents, Multiset.map_map, Multiset.map_map]
    refine ⟨Multiset.map_congr rfl fun x _ => (Stage.through_append front stage x).symm, congrArg some ?_⟩
    rw [add_assoc, ← Multiset.sum_map_add]
    exact congrArg (fun s => m + s) (congrArg Multiset.sum
      (Multiset.map_congr rfl fun x _ => (Stage.gather_append front stage x).symm))

/-- The sum over all threads, when each has added to `init` over a list of its own. -/
theorem sum_threads {lists : List ListPtr} {bag : ListPtr → Multiset α} {g : α → M} {init : M} {data : Nat → M}
    (each : ∀ thread l, lists[thread]? = some l → data thread = init + ((bag l).map g).sum) :
    ((List.range lists.length).map data).sum = lists.length • init + ((lists.map bag).sum.map g).sum := by
  have own : (List.range lists.length).map data = lists.map fun l => init + ((bag l).map g).sum := by
    refine List.ext_getElem (by simp) fun thread inside _ => ?_
    rw [List.length_map, List.length_range] at inside
    simp only [List.getElem_map, List.getElem_range]
    exact each thread _ (List.getElem?_eq_getElem inside)
  have gathered : ((lists.map bag).sum.map g).sum = (lists.map fun l => ((bag l).map g).sum).sum := by
    have hom := map_list_sum (Multiset.sumAddMonoidHom.comp (Multiset.mapAddMonoidHom g)) (lists.map bag)
    rw [List.map_map] at hom
    exact hom
  rw [own, List.sum_map_add, gathered, List.map_const', List.sum_replicate]

/-- What the threads have gathered and made of their lists, put together. -/
theorem Passed.gathered {set : CreatedSet} {h h₁ h' : Heap α} (setOk₁ : SetOk h₁ set.tidToThreadList)
    (rebalanced : Rebalanced h h₁) (setOk' : SetOk h' set.tidToThreadList) {stages : List (Stage α M)} {init : M}
    {entry : Nat → Option M} (passed : ∀ thread l, set.tidToThreadList[thread]? = some l →
      Passed (h₁.bag l) (some init) (stages.map Stage.kernel) (h'.bag l) (entry thread)) :
    h'.total = h.total.map (Stage.through stages) ∧ ∃ data : Nat → M,
      ((List.range set.tidToThreadList.length).map data).sum =
        set.tidToThreadList.length • init + (h.total.map (Stage.gather stages)).sum ∧
      ∀ thread < set.tidToThreadList.length, entry thread = some (data thread) := by
  have before : (set.tidToThreadList.map h₁.bag).sum = h.total := by
    rw [← setOk₁.total_eq set.distinct, rebalanced.total]
  refine ⟨?_, fun thread => (entry thread).getD 0, ?_, fun thread inside => ?_⟩
  · have bags : set.tidToThreadList.map h'.bag =
        set.tidToThreadList.map fun l => (h₁.bag l).map (Stage.through stages) := by
      refine List.map_congr_left fun l member => ?_
      obtain ⟨thread, atThread⟩ := List.mem_iff_getElem?.mp member
      exact (passed thread l atThread).stages.1
    have hom := map_list_sum (Multiset.mapAddMonoidHom (Stage.through stages)) (set.tidToThreadList.map h₁.bag)
    rw [List.map_map] at hom
    rw [setOk'.total_eq set.distinct, bags, ← before]
    exact hom.symm
  · rw [← before]
    refine sum_threads fun thread l atThread => ?_
    rw [(passed thread l atThread).stages.2]
    rfl
  · dsimp only
    rw [(passed thread _ (List.getElem?_eq_getElem inside)).stages.2]
    rfl

section Whole

variable [Inhabited α] {allowed : Allowed α}

/-- What stages add up over the elements of a set, and what they make of them, does not depend on the order of
the threads' turns, on the balancer, or on holes in the nodes. -/
theorem Reachable.runKernelList_mapReduce {set : CreatedSet} {h : Heap α} (safe : ∀ g l, allowed g l → AllocSafe g l)
    (reachable : Reachable set allowed h) (stages : List (Stage α M)) (extraDataDetails : PumaExtraKernelData κ M β)
    {init : M} (constructs : extraDataDetails.extraDataConstructor extraDataDetails.constructorData = some init)
    {oracle : Oracle} {cleanup : List Nat} (whole : oracle.Whole set.toPumaSet stages.length cleanup h) :
    ∃ h' retValue left, ∃ data : Nat → M,
      runKernelListWith set.toPumaSet h (stages.map Stage.kernel) (some extraDataDetails) oracle cleanup =
        some (h', retValue, left) ∧
      h'.total = h.total.map (Stage.through stages) ∧
      ((List.range set.tidToThreadList.length).map data).sum =
        set.tidToThreadList.length • init + (h.total.map (Stage.gather stages)).sum ∧
      retValue = extraDataDetails.extraDataReduce extraDataDetails.retValue ((List.range set.tidToThreadList.length).map
        fun thread => extraDataDetails.extraDataThreadReduce (some (data thread))) ∧
      ∀ thread < set.tidToThreadList.length, left thread = some (extraDataDetails.extraDataDestructor
        (extraDataDetails.extraDataThreadReduce (some (data thread)))) := by
  rw [← List.length_map (f := Stage.kernel)] at whole
  obtain ⟨h₁, h', retValue, left, entry, _, rebalanced, setOk₁, run, post⟩ :=
    (reachable.ok safe).runKernelListWith (stages.map Stage.kernel) (some extraDataDetails) whole
  have passed := post.passed
  rw [show (some extraDataDetails).getD emptyKernelData = extraDataDetails from rfl, constructs] at passed
  obtain ⟨total, data, sum, entries⟩ := Passed.gathered setOk₁ rebalanced post.setOk passed
  refine ⟨h', retValue, left, data, run, total, sum, ?_, fun thread inside => ?_⟩
  · rw [post.retValue_eq]
    refine congrArg _ (List.map_congr_left fun thread member => ?_)
    rw [entries thread (List.mem_range.mp member)]
    rfl
  · rw [post.left_eq thread inside, entries thread inside]
    rfl

end Whole

/-- Extra data that starts at zero on each thread and is added up at the end. -/
def sumKernelData : PumaExtraKernelData Unit M M :=
  initKernelData (some fun _ => some 0) none none none
    (some fun retValue data => retValue.map (· + (data.map fun d => d.getD 0).sum)) (some 0)

end Sums

set_option maxRecDepth 8000 in
/-- The elements that two threads have kept, counted. -/
theorem twoThreads_counts : ∃ (h h' : Heap Unit) (retValue : Option Nat) (left : ThreadData Nat), h.total.card = 3 ∧
    runKernelListWith twoThreads.toPumaSet h ([⟨id, fun _ => 1⟩].map Stage.kernel) (some sumKernelData)
      (idleOracle h [0, 1, 1, 0, 1, 0]) [1, 0] = some (h', retValue, left) ∧ retValue = some 3 := by
  obtain ⟨h, reachable, three⟩ : ∃ h : Heap Unit, Reachable twoThreads (fun h l => AllocSafe h l) h ∧
      h.total.card = 3 := ⟨_, Reachable.of_safeCalls 4000 8192 busyCalls (by decide) rfl, by decide⟩
  have whole : (idleOracle h [0, 1, 1, 0, 1, 0]).Whole twoThreads.toPumaSet 1 [1, 0] h :=
    ⟨fun thread => by rcases thread with _ | _ | thread <;> simp [idleOracle, twoThreads], Nat.lt_succ_self _,
      List.Perm.swap 0 1 []⟩
  obtain ⟨h', retValue, left, data, run, _, sum, returned, _⟩ := Reachable.runKernelList_mapReduce
    (fun _ _ safe => safe) reachable [⟨id, fun _ => 1⟩] sumKernelData rfl whole
  refine ⟨h, h', retValue, left, three, run, ?_⟩
  rw [returned]
  simp [twoThreads, Stage.gather, sumKernelData, initKernelData, emptyKernelData, three] at sum ⊢
  exact sum

end Puma
