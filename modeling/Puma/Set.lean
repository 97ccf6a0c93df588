import Puma.Balancing
import Puma.Pass

namespace Puma

open Relation

variable {σ α : Type}

/-- A set as `createPumaSet` builds it: each thread of the pool has registered a list
of its own, among the lists of the domains. -/
structure CreatedSet extends PumaSet where
  threads : tidToThreadList ≠ []
  distinct : tidToThreadList.Nodup
  cpus : domains.flatten.Nodup
  placed : ∀ l ∈ tidToThreadList, l ∈ domains.flatten

/-- The lists of different threads are different. -/
theorem CreatedSet.list_ne (set : CreatedSet) {t thread : Nat} {l m : ListPtr} (atT : set.tidToThreadList[t]? = some m)
    (atThread : set.tidToThreadList[thread]? = some l) (other : t ≠ thread) : m ≠ l := by
  rintro rfl
  exact other ((List.getElem?_inj (List.getElem?_eq_some_iff.mp atT).1 set.distinct).mp (atT.trans atThread.symm))

/-- The memory that `createPumaSet` leaves. -/
def createPumaSet (set : PumaSet) (elementSize nodeSize : Nat) : Heap α where
  nodes := ∅
  lists l := if l ∈ set.tidToThreadList then .empty true elementSize else .empty false 0
  nodeSize := nodeSize

/-- A call of one of the kernels: which one, and the address and the content of its element. -/
structure Visit (α : Type) where
  kernel : Nat
  element : ElemPtr
  content : α
  deriving DecidableEq

/-- The passes of `_runKernelWorker` over all threads of the pool, in the order `schedule`
of their threads; `done thread` kernels have been run by a thread already. A kernel
is given its thread, whose extra data it may use. -/
def runKernelPasses (set : PumaSet) (kernels : List (Nat → Kernel σ α)) (elapsed : Nat → Nat → ℚ) (turns : Nat) :
    List Nat → (Nat → Nat) → World σ α → Option (World σ α × List (Visit α))
  | [], _, w => some (w, [])
  | thread :: schedule, done, w => do
    let tl ← set.tidToThreadList[thread]?
    let kernel ← kernels[done thread]?
    let (w, calls) ← runKernelThread turns w tl (kernel thread) (elapsed thread (done thread))
    let (w, later) ← runKernelPasses set kernels elapsed turns schedule (Function.update done thread (done thread + 1)) w
    pure (w, calls.map (fun call => ⟨done thread, call.1, call.2⟩) ++ later)

/-- The turns that a thread has made and those left to it make the same sum before and after each turn. -/
theorem done_add_count (done : Nat → Nat) (thread : Nat) (schedule : List Nat) (t : Nat) :
    Function.update done thread (done thread + 1) t + schedule.count t = done t + (thread :: schedule).count t := by
  by_cases same : t = thread
  · subst same
    rw [Function.update_self, List.count_cons_self]
    omega
  · rw [Function.update_of_ne same, List.count_cons_of_ne (Ne.symm same)]

/-- What the memory leaves open of a call of `runKernelList`: the rounded products of the
balancer, the order of the passes, their run times and a bound on the nodes of each. -/
structure Oracle where
  tlAvgNodes : ListPtr → Nat → Nat
  schedule : List Nat
  elapsed : Nat → Nat → ℚ
  turns : Nat

def runKernelList (set : PumaSet) (w : World σ α) (kernels : List (Nat → Kernel σ α)) (oracle : Oracle) :
    Option (World σ α × List (Visit α)) := do
  let h ← balanceThreadLoad set w.heap oracle.tlAvgNodes
  runKernelPasses set kernels oracle.elapsed oracle.turns oracle.schedule (fun _ => 0) { w with heap := h }

section Steps

variable [Inhabited α]

def pumalloc (set : PumaSet) (h : Heap α) (thread : Nat) (block : NodePtr) : Option (Heap α × ElemPtr) := do
  let threadList ← set.tidToThreadList[thread]?
  pumallocOnThreadList h threadList block

def pumallocManualBalancing (set : PumaSet) (h : Heap α) (balData : Nat) (block : NodePtr) :
    Option (Heap α × ElemPtr) := do
  let tid := set.splitter balData set.tidToThreadList.length
  let threadList ← set.tidToThreadList[tid]?
  pumallocOnThreadList h threadList block

/-- A call on a set, or writes to its elements. -/
inductive SetStep (set : PumaSet) (allowed : Allowed α) : Heap α → Heap α → Prop
  | pumalloc {h h' : Heap α} {e : ElemPtr} (thread : Nat) (block : NodePtr)
      (here : ∀ l, set.tidToThreadList[thread]? = some l → allowed h l)
      (run : pumalloc set h thread block = some (h', e)) : SetStep set allowed h h'
  | pumallocManualBalancing {h h' : Heap α} {e : ElemPtr} (balData : Nat) (block : NodePtr)
      (here : ∀ l, set.tidToThreadList[set.splitter balData set.tidToThreadList.length]? = some l → allowed h l)
      (run : pumallocManualBalancing set h balData block = some (h', e)) : SetStep set allowed h h'
  | pufree {h h' : Heap α} {l : ListPtr} (e : ElemPtr) (live : h.Live l e) (run : pufree h e = some h') :
      SetStep set allowed h h'
  | write {h h' : Heap α} (same : h'.skeleton = h.skeleton) : SetStep set allowed h h'
  | runKernelList {σ : Type} {w w' : World σ α} (kernels : List (Nat → Kernel σ α)) (oracle : Oracle)
      {visits : List (Visit α)}
      (respects : ∀ kernel ∈ kernels, ∀ (thread : Nat) (l : ListPtr), set.tidToThreadList[thread]? = some l →
        (kernel thread).Respects allowed l)
      (run : runKernelList set w kernels oracle = some (w', visits)) : SetStep set allowed w.heap w'.heap

/-- The memory that some sequence of calls on a new set leads to, with room for an
element in a node. -/
def Reachable (set : CreatedSet) (allowed : Allowed α) (h : Heap α) : Prop :=
  ∃ elementSize nodeSize, 0 < (createPumaSet set.toPumaSet elementSize nodeSize : Heap α).capacityFor elementSize ∧
    ReflTransGen (SetStep set.toPumaSet allowed) (createPumaSet set.toPumaSet elementSize nodeSize) h

end Steps

theorem SetOk.inv {h : Heap α} {lists : List ListPtr} (set : SetOk h lists) {l : ListPtr} (member : l ∈ lists) :
    ListInv h l := ⟨set.ok, set.capacity l member, set.each l member⟩

/-- A step on one of the lists keeps the set in order. -/
theorem SetOk.local {h h' : Heap α} {lists : List ListPtr} (set : SetOk h lists) {l : ListPtr} (member : l ∈ lists)
    (inv : ListInv h' l) (loc : Local h h' l) : SetOk h' lists where
  ok := inv.1
  each m inLists := by
    by_cases same : m = l
    · rw [same]
      exact inv.2.2
    · obtain ⟨A, S, list⟩ := set.each m inLists
      exact ⟨A, S, list.of_untouched (loc.untouched same)⟩
  owner p n atNode := by
    by_cases same : n.threadList = l
    · rw [same]
      exact member
    · exact set.owner p n ((loc.nodes p n same).mp atNode)
  capacity m inLists := by
    rw [loc.capacityFor]
    exact set.capacity m inLists
  active m := by
    rw [← set.active m]
    by_cases same : m = l
    · rw [same, loc.active]
    · rw [loc.lists m same]
  idle m out := by
    rw [loc.lists m fun same => out (same ▸ member)]
    exact set.idle m out

/-- So does a step that changes the contents of other lists' elements, too. -/
theorem SetOk.step {β : Type} {g : α → β} {h h' : Heap α} {lists : List ListPtr} (set : SetOk h lists) {l : ListPtr}
    (member : l ∈ lists) (inv : ListInv h' l) (loc : Local (h.view g) (h'.view g) l) : SetOk h' lists :=
  setOk_mapContents.mp ((setOk_mapContents.mpr set).local member (inv.mapContents _) loc)

/-- A live element belongs to one of the lists. -/
theorem SetOk.member {h : Heap α} {lists : List ListPtr} (set : SetOk h lists) {l : ListPtr} {e : ElemPtr}
    (live : h.Live l e) : l ∈ lists := by
  obtain ⟨n, atNode, owner, _⟩ := live
  rw [← owner]
  exact set.owner e.node n atNode

/-- The lists of a new set are empty. -/
theorem createPumaSet_list (set : PumaSet) (elementSize nodeSize : Nat) {l : ListPtr} (member : l ∈ set.tidToThreadList) :
    ThreadListOk (createPumaSet set elementSize nodeSize : Heap α) l [] [] := by
  have links (p : NodePtr) : (createPumaSet set elementSize nodeSize : Heap α).links p = none := rfl
  have list : (createPumaSet set elementSize nodeSize : Heap α).lists l = .empty true elementSize := if_pos member
  refine ⟨⟨trivial, List.nodup_nil, ?_, ?_, ?_, ?_, ?_, ?_, ?_⟩, ?_, ?_⟩
  · intro p inside
    cases inside
  · intro p k atLinks
    rw [links] at atLinks
    cases atLinks
  · intro i p k atIndex
    cases atIndex
  · intro p k atLinks
    rw [links] at atLinks
    cases atLinks
  · rw [list]
    rfl
  · rw [list]
    rfl
  · rw [list]
    rfl
  · intro p k _ atLinks
    rw [links] at atLinks
    cases atLinks
  · rw [list]
    rfl

theorem createPumaSet_ok (set : PumaSet) {elementSize nodeSize : Nat}
    (capacity : 0 < (createPumaSet set elementSize nodeSize : Heap α).capacityFor elementSize) :
    SetOk (createPumaSet set elementSize nodeSize : Heap α) set.tidToThreadList := by
  have missing (p : NodePtr) : (createPumaSet set elementSize nodeSize : Heap α).node p = none := rfl
  have lists {l : ListPtr} (member : l ∈ set.tidToThreadList) :
      (createPumaSet set elementSize nodeSize : Heap α).lists l = .empty true elementSize := if_pos member
  refine ⟨fun p n atNode => ?_, fun l member => ⟨[], [], createPumaSet_list set elementSize nodeSize member⟩,
    fun p n atNode => ?_, fun l member => ?_, fun l => ?_, fun l out => if_neg out⟩
  · rw [missing] at atNode
    cases atNode
  · rw [missing] at atNode
    cases atNode
  · rw [lists member]
    exact capacity
  · by_cases member : l ∈ set.tidToThreadList
    · simp [lists member, member, PumaThreadList.empty]
    · simp [createPumaSet, member, PumaThreadList.empty]

section Runs

variable [Inhabited α] {allowed : Allowed α}

theorem SetOk.run {h h' : Heap α} {lists : List ListPtr} (set : SetOk h lists) {l : ListPtr} (member : l ∈ lists)
    (safe : ∀ g, allowed g l → AllocSafe g l) (run : ListRun allowed l h h') : SetOk h' lists := by
  obtain ⟨inv, loc⟩ := run.inv safe (set.inv member)
  exact set.step member inv loc

theorem runKernelPasses_ok {set : PumaSet} {kernels : List (Nat → Kernel σ α)} {elapsed : Nat → Nat → ℚ} {turns : Nat}
    {schedule : List Nat} {done : Nat → Nat} {w w' : World σ α} {visits : List (Visit α)}
    (safe : ∀ g l, allowed g l → AllocSafe g l)
    (respects : ∀ kernel ∈ kernels, ∀ (thread : Nat) (l : ListPtr), set.tidToThreadList[thread]? = some l →
      (kernel thread).Respects allowed l)
    (setOk : SetOk w.heap set.tidToThreadList)
    (run : runKernelPasses set kernels elapsed turns schedule done w = some (w', visits)) :
    SetOk w'.heap set.tidToThreadList := by
  induction schedule generalizing done w visits with
  | nil =>
    cases run
    exact setOk
  | cons thread schedule ih =>
    simp only [runKernelPasses, Option.bind_eq_bind] at run
    obtain ⟨tl, atThread, run⟩ := Option.bind_eq_some_iff.mp run
    obtain ⟨kernel, atKernel, run⟩ := Option.bind_eq_some_iff.mp run
    obtain ⟨⟨w₁, calls⟩, pass, run⟩ := Option.bind_eq_some_iff.mp run
    obtain ⟨⟨w₂, later⟩, rest, run⟩ := Option.bind_eq_some_iff.mp run
    cases run
    have member := List.mem_of_getElem? atThread
    have first := runKernelThread_run (respects kernel (List.mem_of_getElem? atKernel) thread tl atThread)
      (fun g => safe g tl) (setOk.inv member) pass
    exact ih (setOk.run member (fun g => safe g tl) first) rest

/-- Every call keeps the set in order. -/
theorem SetStep.ok {set : CreatedSet} {h h' : Heap α} (safe : ∀ g l, allowed g l → AllocSafe g l)
    (setOk : SetOk h set.tidToThreadList) (step : SetStep set.toPumaSet allowed h h') :
    SetOk h' set.tidToThreadList := by
  cases step with
  | pumalloc thread block here run =>
    obtain ⟨l, atThread, run⟩ := Option.bind_eq_some_iff.mp run
    exact setOk.run (List.mem_of_getElem? atThread) (fun g => safe g l)
      (ReflTransGen.single (ListStep.pumalloc block (here l atThread) run))
  | pumallocManualBalancing balData block here run =>
    obtain ⟨l, atThread, run⟩ := Option.bind_eq_some_iff.mp run
    exact setOk.run (List.mem_of_getElem? atThread) (fun g => safe g l)
      (ReflTransGen.single (ListStep.pumalloc block (here l atThread) run))
  | pufree e live run =>
    exact setOk.run (setOk.member live) (fun g => safe g _) (ReflTransGen.single (ListStep.pufree e live run))
  | write same =>
    have before : SetOk h.skeleton set.tidToThreadList := setOk_mapContents.mpr setOk
    rw [← same] at before
    exact setOk_mapContents.mp before
  | runKernelList kernels oracle respects run =>
    obtain ⟨h₁, balanced, run⟩ := Option.bind_eq_some_iff.mp run
    obtain ⟨h₂, balanced', setOk₁, _⟩ := balanceThreadLoad_spec setOk set.threads set.cpus oracle.tlAvgNodes
    cases Option.some.inj (balanced'.symm.trans balanced)
    exact runKernelPasses_ok safe respects setOk₁ run

/-- Every reachable memory has its set in order, as long as every allocation is safe. -/
theorem Reachable.ok {set : CreatedSet} {h : Heap α} (safe : ∀ g l, allowed g l → AllocSafe g l)
    (reachable : Reachable set allowed h) : SetOk h set.tidToThreadList := by
  obtain ⟨elementSize, nodeSize, capacity, run⟩ := reachable
  induction run with
  | refl => exact createPumaSet_ok set.toPumaSet capacity
  | tail _ step ih => exact step.ok safe ih

end Runs

end Puma
