import Puma.Runs

namespace Puma

variable {σ α : Type}

/-- `getLastMaxKernelRuntime`. -/
def getLastMaxKernelRuntime (set : PumaSet) (h : Heap α) : ℚ :=
  set.tidToThreadList.foldl
    (fun max tl => if (h.lists tl).latestRunTime > max then (h.lists tl).latestRunTime else max) 0

/-- `getLastKernelRuntimes`; returns what it stores in `times`. -/
def getLastKernelRuntimes (set : PumaSet) (h : Heap α) : List ℚ :=
  set.tidToThreadList.map fun tl => (h.lists tl).latestRunTime

theorem foldl_max_isGreatest (times : List ℚ) (start : ℚ) :
    IsGreatest { time | time = start ∨ time ∈ times } (times.foldl max start) := by
  induction times generalizing start with
  | nil => exact ⟨Or.inl rfl, fun time old => (old.resolve_right List.not_mem_nil).le⟩
  | cons time times ih =>
    obtain ⟨among, above⟩ := ih (max start time)
    refine ⟨?_, fun other old => ?_⟩
    · rcases among with first | later
      · rcases max_choice start time with same | same
        · exact Or.inl (first.trans same)
        · exact Or.inr (List.mem_cons.mpr (Or.inl (first.trans same)))
      · exact Or.inr (List.mem_cons_of_mem _ later)
    · have first : max start time ≤ times.foldl max (max start time) := above (Or.inl rfl)
      rcases old with rfl | member
      · exact (le_max_left _ _).trans first
      · rcases List.mem_cons.mp member with rfl | later
        · exact (le_max_right _ _).trans first
        · exact above (Or.inr later)

/-- The maximum is taken of the reported times and zero. -/
theorem getLastMaxKernelRuntime_eq (set : PumaSet) (h : Heap α) :
    getLastMaxKernelRuntime set h = (getLastKernelRuntimes set h).foldl max 0 := by
  have larger : (fun (most : ℚ) tl => if (h.lists tl).latestRunTime > most then (h.lists tl).latestRunTime else most) =
      fun most tl => max most (h.lists tl).latestRunTime := by
    funext most tl
    split
    · rename_i above
      exact (max_eq_right above.le).symm
    · rename_i below
      exact (max_eq_left (not_lt.mp below)).symm
  rw [getLastMaxKernelRuntime, getLastKernelRuntimes, List.foldl_map, larger]

theorem getLastMaxKernelRuntime_isGreatest {set : PumaSet} {h : Heap α} (threads : set.tidToThreadList ≠ [])
    (measured : ∀ time ∈ getLastKernelRuntimes set h, 0 ≤ time) :
    IsGreatest { time | time ∈ getLastKernelRuntimes set h } (getLastMaxKernelRuntime set h) := by
  obtain ⟨among, above⟩ := foldl_max_isGreatest (getLastKernelRuntimes set h) 0
  rw [← getLastMaxKernelRuntime_eq] at among above
  refine ⟨among.elim (fun zero => ?_) id, fun time member => above (Or.inr member)⟩
  obtain ⟨l, member⟩ := List.exists_mem_of_ne_nil _ threads
  have reported : (h.lists l).latestRunTime ∈ getLastKernelRuntimes set h := List.mem_map_of_mem member
  have same := le_antisymm (zero ▸ above (Or.inr reported)) (measured _ reported)
  rw [zero]
  exact same ▸ reported

section Passes

variable [Inhabited α] {allowed : Allowed α} {set : CreatedSet}

omit [Inhabited α] in
theorem runKernelThread_latestRunTime {kernel : Kernel σ α} {turns : Nat} {w w' : World σ α} {l : ListPtr} {elapsed : ℚ}
    {calls : List (ElemPtr × α)} (run : runKernelThread turns w l kernel elapsed = some (w', calls)) :
    (w'.heap.lists l).latestRunTime = elapsed := by
  simp only [runKernelThread, Option.bind_eq_bind] at run
  obtain ⟨⟨w₁, calls₁⟩, _, run⟩ := Option.bind_eq_some_iff.mp run
  cases run
  dsimp only
  rw [Heap.lists_modifyList_self]
  rfl

/-- A thread that has passes in the schedule ends with the time of the last of them; the passes of the others
leave its record alone. -/
theorem runKernelPasses_latestRunTime {kernels : List (Nat → Kernel σ α)} {elapsed : Nat → Nat → ℚ} {turns : Nat}
    {schedule : List Nat} {done : Nat → Nat} {w w' : World σ α} {visits : List (Visit α)}
    (safe : ∀ g l, allowed g l → AllocSafe g l)
    (respects : ∀ kernel ∈ kernels, ∀ (thread : Nat) (l : ListPtr), set.tidToThreadList[thread]? = some l →
      (kernel thread).Respects allowed l)
    (setOk : SetOk w.heap set.tidToThreadList)
    (run : runKernelPasses set.toPumaSet kernels elapsed turns schedule done w = some (w', visits)) {t : Nat} {m : ListPtr}
    (atT : set.tidToThreadList[t]? = some m) :
    (w'.heap.lists m).latestRunTime = if schedule.count t = 0 then (w.heap.lists m).latestRunTime
      else elapsed t (done t + schedule.count t - 1) := by
  induction schedule generalizing done w visits with
  | nil =>
    cases run
    rfl
  | cons thread schedule ih =>
    simp only [runKernelPasses, Option.bind_eq_bind] at run
    obtain ⟨l, atThread, run⟩ := Option.bind_eq_some_iff.mp run
    obtain ⟨kernel, atKernel, run⟩ := Option.bind_eq_some_iff.mp run
    obtain ⟨⟨w₁, calls⟩, pass, run⟩ := Option.bind_eq_some_iff.mp run
    obtain ⟨⟨w₂, later⟩, rest, run⟩ := Option.bind_eq_some_iff.mp run
    cases run
    have member := List.mem_of_getElem? atThread
    have first := runKernelThread_run (respects kernel (List.mem_of_getElem? atKernel) thread l atThread)
      (fun g => safe g l) (setOk.inv member) pass
    rw [ih (setOk.run member (fun g => safe g l) first) rest, done_add_count]
    by_cases same : t = thread
    · subst same
      cases atThread.symm.trans atT
      rw [runKernelThread_latestRunTime pass, List.count_cons_self, if_neg (Nat.succ_ne_zero _)]
      split
      · rename_i last
        rw [last, Nat.zero_add, Nat.add_sub_cancel]
      · rfl
    · have others : w₁.heap.lists m = w.heap.lists m :=
        (first.inv (fun g => safe g l) (setOk.inv member)).2.lists m (set.list_ne atT atThread same)
      rw [others, List.count_cons_of_ne (Ne.symm same)]

/-- After a call of `runKernelList` with a kernel the reported times are those of the passes with its last kernel,
in the order of the threads, and the reported maximum is the greatest of them. -/
theorem Reachable.lastKernelRuntimes {h : Heap α} (safe : ∀ g l, allowed g l → AllocSafe g l)
    (reachable : Reachable set allowed h) {kernels : List (Nat → Kernel σ α)} (nonempty : kernels ≠ [])
    (respects : ∀ kernel ∈ kernels, ∀ (thread : Nat) (l : ListPtr), set.tidToThreadList[thread]? = some l →
      (kernel thread).Respects allowed l) {oracle : Oracle}
    (each : ∀ thread, oracle.schedule.count thread = if thread < set.tidToThreadList.length then kernels.length else 0)
    (measured : ∀ thread k, 0 ≤ oracle.elapsed thread k) {w' : World σ α} {visits : List (Visit α)} {extra : σ}
    (run : runKernelList set.toPumaSet ⟨extra, h⟩ kernels oracle = some (w', visits)) :
    getLastKernelRuntimes set.toPumaSet w'.heap =
        (List.range set.tidToThreadList.length).map (fun thread => oracle.elapsed thread (kernels.length - 1)) ∧
      IsGreatest { time | time ∈ getLastKernelRuntimes set.toPumaSet w'.heap }
        (getLastMaxKernelRuntime set.toPumaSet w'.heap) := by
  obtain ⟨h₁, balanced, setOk₁, _⟩ := balanceThreadLoad_spec (reachable.ok safe) set.threads set.cpus oracle.tlAvgNodes
  simp only [runKernelList, balanced, Option.bind_eq_bind, Option.bind_some] at run
  have times : getLastKernelRuntimes set.toPumaSet w'.heap =
      (List.range set.tidToThreadList.length).map fun thread => oracle.elapsed thread (kernels.length - 1) := by
    refine List.ext_getElem (by simp [getLastKernelRuntimes]) fun t inside _ => ?_
    rw [getLastKernelRuntimes, List.length_map] at inside
    have passed := each t
    rw [if_pos inside] at passed
    have last := runKernelPasses_latestRunTime safe respects setOk₁ run (List.getElem?_eq_getElem inside)
    rw [passed, if_neg (by simpa using nonempty), Nat.zero_add] at last
    simpa [getLastKernelRuntimes] using last
  refine ⟨times, getLastMaxKernelRuntime_isGreatest set.threads fun time member => ?_⟩
  rw [times] at member
  obtain ⟨thread, _, rfl⟩ := List.mem_map.mp member
  exact measured thread _

end Passes

set_option maxRecDepth 8000 in
/-- Two kernels on two threads: the second kernel has taken the second thread longest. -/
theorem twoThreads_lastKernelRuntimes : ∃ (h : Heap Unit) (w' : World Unit Unit), (h.read ⟨0, 1⟩).isSome ∧
    (h.read ⟨1, 0⟩).isSome ∧ getLastKernelRuntimes twoThreads.toPumaSet w'.heap = [2, 7] ∧
    getLastMaxKernelRuntime twoThreads.toPumaSet w'.heap = 7 := by
  obtain ⟨h, reachable, behind, other, r, run⟩ : ∃ h : Heap Unit, Reachable twoThreads (fun h l => AllocSafe h l) h ∧
      (h.read ⟨0, 1⟩).isSome ∧ (h.read ⟨1, 0⟩).isSome ∧ ∃ r, runKernelList twoThreads.toPumaSet (⟨(), h⟩ : World Unit Unit)
        [fun _ => idleKernel, fun _ => idleKernel]
        ⟨fun _ _ => 1, [0, 1, 1, 0], fun thread k => 5 * thread + k + 1, 4⟩ = some r :=
    ⟨_, Reachable.of_safeCalls 4000 8192 busyCalls (by decide) rfl, by decide, by decide, _, rfl⟩
  obtain ⟨times, most, above⟩ := reachable.lastKernelRuntimes (fun _ _ safe => safe) (List.cons_ne_nil _ _)
    (fun kernel member thread l _ => by
      have idle : kernel = fun _ => idleKernel := by simpa using member
      rw [idle]
      exact (idleKernel_writes fun _ => ()).respects _ l)
    (fun thread => by rcases thread with _ | _ | thread <;> simp [twoThreads]) (fun _ k => by positivity) run
  have both : getLastKernelRuntimes twoThreads.toPumaSet r.1.heap = [2, 7] := by
    rw [times]
    norm_num [twoThreads, List.range_succ]
  refine ⟨h, r.1, behind, other, both, ?_⟩
  rw [both] at most above
  rcases List.mem_pair.mp most with two | seven
  · have bound := above (show (7 : ℚ) ∈ [2, 7] by simp)
    rw [two] at bound
    norm_num at bound
  · exact seven

end Puma
