import Puma.Lib.SlidingWindow
import Puma.RunTimes

namespace Puma

open Postcondition Relation

variable {σ α : Type}

/-- A record after another pass. -/
def ListRecord.pass (record : ListRecord) (elapsed : ℚ) : ListRecord where
  active := record.active
  lastNRunTime := record.lastNRunTime - record.kernelRunTimes.getD record.nextRunTimeSlot 0 + elapsed
  nextRunTimeSlot := (record.nextRunTimeSlot + 1) % numKernelRuntimes
  kernelRunTimes := record.kernelRunTimes.set record.nextRunTimeSlot elapsed

theorem PumaThreadList.recordRunTime_record (tl : PumaThreadList) (elapsed : ℚ) :
    (tl.recordRunTime elapsed).record = tl.record.pass elapsed := rfl

/-- The record of a list whose passes have taken `times`. -/
structure ListRecord.Keeps (record : ListRecord) (times : List ℚ) : Prop where
  length : record.kernelRunTimes.length = numKernelRuntimes
  window : SlidingWindow.Holds 0 times record.kernelRunTimes record.nextRunTimeSlot
  sum : record.lastNRunTime = record.kernelRunTimes.sum

/-- The oldest time goes out of the sum and the new one comes in. -/
theorem ListRecord.Keeps.pass {record : ListRecord} {times : List ℚ} (keeps : record.Keeps times) (elapsed : ℚ) :
    (record.pass elapsed).Keeps (times ++ [elapsed]) := by
  have positive : 0 < record.kernelRunTimes.length := by
    rw [keeps.length]
    decide
  have slot : record.nextRunTimeSlot < record.kernelRunTimes.length := by
    rw [keeps.window.next]
    exact Nat.mod_lt _ positive
  refine ⟨(List.length_set ..).trans keeps.length, ?_, ?_⟩
  · have moved := keeps.window.push positive elapsed
    rw [keeps.length] at moved
    exact moved
  · have oldest : record.kernelRunTimes.getD record.nextRunTimeSlot 0 = record.kernelRunTimes[record.nextRunTimeSlot] := by
      rw [List.getD_eq_getElem?_getD, List.getElem?_eq_getElem slot, Option.getD_some]
    simp only [ListRecord.pass, oldest, List.sum_set', dif_pos slot, keeps.sum]
    ring

/-- The lists have these records, and nodes belong to `lists` only. -/
structure Records (lists : Finset ListPtr) (record : ListPtr → ListRecord) (h : Heap α) : Prop where
  owner : ∀ p n, h.node p = some n → n.threadList ∈ lists
  active : ∀ l, (record l).active = true ↔ l ∈ lists
  same : ∀ l, (h.lists l).record = record l

section Records

variable {lists : Finset ListPtr} {record : ListPtr → ListRecord} {h : Heap α}

theorem Records.congr {h' : Heap α} (records : Records lists record h)
    (owner : ∀ p n, h'.node p = some n → n.threadList ∈ lists) (same : ∀ l, (h'.lists l).record = (h.lists l).record) :
    Records lists record h' where
  owner := owner
  active := records.active
  same l := (same l).trans (records.same l)

theorem Records.modifyList (records : Records lists record h) {l : ListPtr} {f : PumaThreadList → PumaThreadList}
    (kept : (f (h.lists l)).record = (h.lists l).record) : Records lists record (h.modifyList l f) := by
  refine records.congr records.owner fun m => ?_
  by_cases same : m = l
  · rw [same, Heap.lists_modifyList_self, kept]
  · rw [Heap.lists_modifyList_ne _ _ same]

theorem Records.setNode (records : Records lists record h) {p : NodePtr} {n : PumaNode α} (member : n.threadList ∈ lists) :
    Records lists record (h.setNode p n) := by
  refine records.congr (fun q m atNode => ?_) fun _ => rfl
  rw [Heap.node_setNode] at atNode
  split at atNode
  · cases atNode
    exact member
  · exact records.owner q m atNode

/-- The library writes the records in passes only. -/
theorem Records.rule (lists : Finset ListPtr) (record : ListPtr → ListRecord) :
    StoreRule lists fun _ => Records (α := α) lists record where
  owner records atNode := records.owner _ _ atNode
  active {c h l} records on := (records.active l).mp (by rwa [← records.same l])
  setNode records _ member _ := records.setNode member
  newNode _ _ _ records member := records.setNode member
  nufreeAligned := fun {c h} p records => by
    refine records.congr (fun q m atNode => ?_) fun _ => rfl
    rw [Heap.node_nufreeAligned] at atNode
    split at atNode
    · cases atNode
    · exact records.owner q m atNode
  modifyList records fixed _ := records.modifyList (congrArg Prod.fst fixed)
  count records _ fixed := records.modifyList (congrArg Prod.fst fixed)

theorem Records.pass (records : Records lists record h) (l : ListPtr) (elapsed : ℚ) :
    Records lists (Function.update record l ((record l).pass elapsed)) (h.modifyList l fun tl => tl.recordRunTime elapsed) where
  owner := records.owner
  active m := by
    rw [← records.active m]
    by_cases same : m = l
    · rw [same, Function.update_self]
      rfl
    · rw [Function.update_of_ne same]
  same m := by
    by_cases same : m = l
    · rw [same, Heap.lists_modifyList_self, Function.update_self, PumaThreadList.recordRunTime_record, records.same l]
    · rw [Heap.lists_modifyList_ne _ _ same, Function.update_of_ne same]
      exact records.same m

variable [Inhabited α]

theorem ElementStep.records {h' : Heap α} (step : ElementStep lists h h') (records : Records lists record h) :
    Records lists record h' := by
  have rule := Records.rule (α := α) lists record
  cases step with
  | pumallocOnThreadList l member block run => exact rule.pumallocOnThreadList (c := 0) records member block _ run
  | pufree e run => exact rule.pufree (c := 0) records e _ run
  | write same =>
    have lists_eq : h'.lists = h.lists := congrArg (fun g : Heap Unit => g.lists) same
    refine records.congr (fun p n' atNode' => ?_) fun l => by rw [lists_eq]
    have atLinks := Heap.links_eq atNode'
    rw [Heap.links_of_skeleton same] at atLinks
    obtain ⟨n, atNode, equal⟩ := Heap.node_of_links atLinks
    rw [← congrArg Links.threadList equal]
    exact records.owner p n atNode

theorem Records.elementSteps {h' : Heap α} (records : Records lists record h)
    (run : ReflTransGen (ElementStep lists) h h') : Records lists record h' := by
  induction run with
  | refl => exact records
  | tail _ step ih => exact step.records ih

theorem Records.runKernelThread {kernel : Kernel σ α} {w : World σ α} (works : kernel.Works lists)
    (records : Records lists record w.heap) (turns : Nat) (tl : ListPtr) (elapsed : ℚ) :
    Ensures (runKernelThread turns w tl kernel elapsed) fun r =>
      Records lists (Function.update record tl ((record tl).pass elapsed)) r.1.heap := by
  have rule : PassRule kernel fun w : World σ α => Records lists record w.heap := {
    cleanup := fun node tl records run => (Records.rule lists record).cleanupNode (c := 0) records node tl _ run
    call := fun records live called => records.elementSteps (works _ _ _ live called) }
  simp only [Puma.runKernelThread, Option.bind_eq_bind]
  exact Ensures.bind (rule.runKernelThreadLoop records) fun r kept => Ensures.some (kept.pass tl elapsed)

end Records

section Runs

variable [Inhabited α]

/-- The run times of the thread that has list `l`: those of its passes in `schedule`, from its `done`th kernel on. -/
def passTimes (set : PumaSet) (elapsed : Nat → Nat → ℚ) (schedule : List Nat) (done : Nat → Nat) (l : ListPtr) : List ℚ :=
  let thread := set.tidToThreadList.idxOf l
  (List.range' (done thread) (schedule.count thread)).map (elapsed thread)

/-- The passes of a schedule, in the order in which each thread makes them. -/
theorem Records.runKernelPasses {set : PumaSet} {lists : Finset ListPtr} (nodup : set.tidToThreadList.Nodup)
    {kernels : List (Nat → Kernel σ α)} (works : ∀ kernel ∈ kernels, ∀ thread, (kernel thread).Works lists)
    {elapsed : Nat → Nat → ℚ} {turns : Nat} {schedule : List Nat} {done : Nat → Nat} {w : World σ α}
    {record : ListPtr → ListRecord} {times : ListPtr → List ℚ} (records : Records lists record w.heap)
    (keeps : ∀ l, (record l).Keeps (times l)) :
    Ensures (runKernelPasses set kernels elapsed turns schedule done w) fun r => ∃ record', Records lists record' r.1.heap ∧
      ∀ l, (record' l).Keeps (times l ++ passTimes set elapsed schedule done l) := by
  induction schedule generalizing w done record times with
  | nil => exact Ensures.some ⟨record, records, fun l => by simpa [passTimes] using keeps l⟩
  | cons thread schedule ih =>
    simp only [Puma.runKernelPasses, Option.bind_eq_bind]
    refine Ensures.read fun tl atThread => Ensures.read fun kernel atKernel => ?_
    have each := works kernel (List.mem_of_getElem? atKernel) thread
    refine Ensures.bind (records.runKernelThread each turns tl (elapsed thread (done thread))) fun r kept => ?_
    have keeps' (l : ListPtr) : (Function.update record tl ((record tl).pass (elapsed thread (done thread))) l).Keeps
        (times l ++ if l = tl then [elapsed thread (done thread)] else []) := by
      by_cases same : l = tl
      · rw [same, Function.update_self, if_pos rfl]
        exact (keeps tl).pass _
      · rw [Function.update_of_ne same, if_neg same, List.append_nil]
        exact keeps l
    refine Ensures.bind (ih kept keeps') fun r₂ found => ?_
    obtain ⟨record', kept₂, keeps₂⟩ := found
    refine Ensures.some ⟨record', kept₂, fun l => ?_⟩
    have split : passTimes set elapsed (thread :: schedule) done l =
        (if l = tl then [elapsed thread (done thread)] else []) ++
          passTimes set elapsed schedule (Function.update done thread (done thread + 1)) l := by
      obtain ⟨inside, atTl⟩ := List.getElem?_eq_some_iff.mp atThread
      by_cases same : l = tl
      · subst same
        have own : set.tidToThreadList.idxOf l = thread := by rw [← atTl, nodup.idxOf_getElem]
        simp [passTimes, own, List.range'_succ]
      · have other : thread ≠ set.tidToThreadList.idxOf l := by
          rintro rfl
          exact same (by rw [← atTl, List.getElem_idxOf])
        simp [passTimes, same, Function.update_of_ne other.symm, List.count_cons_of_ne other]
    rw [split, ← List.append_assoc]
    exact keeps₂ l

/-- The memory that a sequence of calls on a set leads to, and the run times that the passes on each list have taken. -/
inductive TimedRun (set : PooledSet) : (ListPtr → List ℚ) → Heap α → Prop
  | created (elementSize nodeSize : Nat) : TimedRun set (fun _ => []) (set.memory elementSize nodeSize)
  | element {times : ListPtr → List ℚ} {h h' : Heap α} (before : TimedRun set times h)
      (step : ElementStep set.registered.toFinset h h') : TimedRun set times h'
  | runKernelList {times : ListPtr → List ℚ} {σ : Type} {w w' : World σ α} {visits : List (Visit α)}
      (before : TimedRun set times w.heap) (kernels : List (Nat → Kernel σ α)) (oracle : Oracle)
      (works : ∀ kernel ∈ kernels, ∀ thread, (kernel thread).Works set.registered.toFinset)
      (run : runKernelList set.toPumaSet w kernels oracle = some (w', visits)) :
      TimedRun set (fun l => times l ++ passTimes set.toPumaSet oracle.elapsed oracle.schedule (fun _ => 0) l) w'.heap

theorem TimedRun.records {set : PooledSet} {times : ListPtr → List ℚ} {h : Heap α} (run : TimedRun set times h) :
    ∃ record, Records set.registered.toFinset record h ∧ ∀ l, (record l).Keeps (times l) := by
  induction run with
  | created elementSize nodeSize =>
    have fresh (active : Bool) (elementSize : Nat) : (PumaThreadList.empty active elementSize).record.Keeps [] :=
      ⟨rfl, SlidingWindow.Holds.start numKernelRuntimes 0, by simp [PumaThreadList.record, PumaThreadList.empty]⟩
    have timed := set.memory_timed (α := α) elementSize nodeSize
    refine ⟨_, ⟨timed.owner, timed.active, fun _ => rfl⟩, fun l => ?_⟩
    by_cases member : l ∈ set.registered <;> simp only [PooledSet.memory, createPumaSet, member, if_true, if_false, fresh]
  | element before step ih =>
    obtain ⟨record, records, keeps⟩ := ih
    exact ⟨record, step.records records, keeps⟩
  | @runKernelList times σ w w' visits before kernels oracle works run ih =>
    obtain ⟨record, records, keeps⟩ := ih
    have nodup : set.tidToThreadList.Nodup := by
      rw [set.entries]
      exact set.distinct.sublist (List.take_sublist ..)
    simp only [Puma.runKernelList, Option.bind_eq_bind] at run
    obtain ⟨h₁, balanced, passes⟩ := Option.bind_eq_some_iff.mp run
    have records₁ := (Records.rule set.registered.toFinset record).balanceThreadLoad (c := 0) records set.toPumaSet
      oracle.tlAvgNodes h₁ balanced
    exact Records.runKernelPasses (w := { w with heap := h₁ }) nodup works records₁ keeps _ passes

/-- What a set remembers of the passes on its lists: the last five run times of each, and the next slot to write. The
balancer takes the speed of a thread from their sum. -/
structure Remembers (set : PumaSet) (times : ListPtr → List ℚ) (h : Heap α) : Prop where
  window : ∀ l, (h.lists l).kernelRunTimes.rotate (h.lists l).nextRunTimeSlot =
    SlidingWindow.last numKernelRuntimes 0 (times l)
  slot : ∀ l, (h.lists l).nextRunTimeSlot = (times l).length % numKernelRuntimes
  sum : ∀ l, (h.lists l).lastNRunTime = ((times l).rtake numKernelRuntimes).sum
  speed : ∀ l, relativeSpeed set h l = ((set.tidToThreadList.length : ℚ) + 1) / set.tidToThreadList.length -
    ((times l).rtake numKernelRuntimes).sum / (set.tidToThreadList.map fun l => ((times l).rtake numKernelRuntimes).sum).sum

/-- Whatever the calls have been, and whatever the balancer has moved. -/
theorem TimedRun.remembers {set : PooledSet} {times : ListPtr → List ℚ} {h : Heap α} (run : TimedRun set times h) :
    Remembers set.toPumaSet times h := by
  obtain ⟨record, records, keeps⟩ := run.records
  have own (l : ListPtr) : (h.lists l).record.Keeps (times l) := records.same l ▸ keeps l
  have length (l : ListPtr) : (h.lists l).kernelRunTimes.length = numKernelRuntimes := (own l).length
  have sum (l : ListPtr) : (h.lists l).lastNRunTime = ((times l).rtake numKernelRuntimes).sum := by
    rw [← length l]
    exact (own l).sum.trans (own l).window.sum
  have active : ∀ l ∈ set.tidToThreadList, (h.lists l).active = true := fun l member => by
    have registered : l ∈ set.registered.toFinset := by
      rw [set.entries] at member
      exact List.mem_toFinset.mpr (List.mem_of_mem_take member)
    rw [show (h.lists l).active = (record l).active from congrArg ListRecord.active (records.same l)]
    exact (records.active l).mpr registered
  refine ⟨fun l => ?_, fun l => ?_, sum, fun l => ?_⟩
  · rw [← length l]
    exact (own l).window.window
  · rw [← length l]
    exact (own l).window.next
  · rw [relativeSpeed_eq active, totalRunTime, sum l]
    simp only [sum]

end Runs

/-- Six passes of one thread. -/
theorem oneThreadPool_times : ∃ (times : ListPtr → List ℚ) (h : Heap Unit), times 0 = [1, 2, 3, 4, 5, 6] ∧
    Remembers oneThreadPool.toPumaSet times h := by
  obtain ⟨r, run⟩ : ∃ r, runKernelList oneThreadPool.toPumaSet
      (⟨(), oneThreadPool.memory 8000 8192⟩ : World Unit Unit) (List.replicate 6 fun _ => idleKernel)
      ⟨fun _ _ => 0, List.replicate 6 0, fun _ k => k + 1, 1⟩ = some r := ⟨_, rfl⟩
  have works : ∀ kernel ∈ List.replicate 6 fun _ : Nat => (idleKernel : Kernel Unit Unit), ∀ thread,
      (kernel thread).Works oneThreadPool.registered.toFinset := fun kernel member thread w e w' _ called => by
    rw [List.eq_of_mem_replicate member] at called
    cases called
    exact .refl
  have reached := TimedRun.runKernelList (.created 8000 8192) _ _ works run
  exact ⟨_, _, by simp [passTimes, oneThreadPool, List.range'_succ]; norm_num, reached.remembers⟩

end Puma
