import Mathlib.Data.Nat.Count
import Mathlib.Data.Nat.Pairing
import Puma.Set

namespace Puma

/-- `struct bitmask` of libnuma. -/
structure CpuMask where
  size : Nat
  bits : Nat → Bool

/-- The functions of libnuma: `numa_num_configured_nodes`, `numa_node_of_cpu`, `numa_node_to_cpus` and
`numa_bitmask_weight`. -/
structure Numa where
  numConfiguredNodes : Nat
  nodeOfCpu : Nat → Nat
  nodeToCpus : Nat → CpuMask
  bitmaskWeight : CpuMask → Nat

/-- Every CPU belongs to one node, the mask of a node holds exactly its CPUs, and `numa_bitmask_weight` counts the
bits below the size of a mask. -/
structure Numa.Topology (numa : Numa) (cpus : Finset Nat) : Prop where
  node_lt : ∀ cpu ∈ cpus, numa.nodeOfCpu cpu < numa.numConfiguredNodes
  mask : ∀ node < numa.numConfiguredNodes, ∀ cpu,
    cpu < (numa.nodeToCpus node).size ∧ (numa.nodeToCpus node).bits cpu = true ↔
      cpu ∈ cpus ∧ numa.nodeOfCpu cpu = node
  weight : ∀ mask, numa.bitmaskWeight mask = Nat.count (fun cpu => mask.bits cpu = true) mask.size

/-- `_getCurrentNumaDomain` on a thread that is pinned to `cpu`. -/
def getCurrentNumaDomain (numa : Numa) (cpu : Nat) : Nat := numa.nodeOfCpu cpu

def getCurrentCPUIndexInDomain (numa : Numa) (cpu : Nat) : Nat :=
  let node := numa.nodeOfCpu cpu
  let cpumask := numa.nodeToCpus node
  numa.bitmaskWeight { cpumask with size := cpu }

def getNumCPUsInDomain (numa : Numa) (domain : Nat) : Nat := numa.bitmaskWeight (numa.nodeToCpus domain)

/-- The fields of a `struct pumaThreadList` that `_setupThreadListsWorker` writes. -/
structure RegisteredList where
  active : Bool
  numaDomain : Nat
  tid : Nat
  elementSize : Nat

structure PumaDomain where
  numListsInDomain : Nat
  listsInDomain : List RegisteredList

def initDomain (numa : Numa) (domainNumber : Nat) : PumaDomain where
  numListsInDomain := getNumCPUsInDomain numa domainNumber
  listsInDomain := List.replicate (getNumCPUsInDomain numa domainNumber) ⟨false, 0, 0, 0⟩

/-- The fields of `struct pumaSet` that hold its thread lists; the pointer to a list is the
pair of its domain and its index there. -/
structure DomainSet where
  elementSize : Nat
  domains : List PumaDomain
  tidToThreadList : List (Option (Nat × Nat))

/-- The set of `createPumaSet` before the pool registers its lists. -/
def newDomainSet (numa : Numa) (elementSize numThreads : Nat) : DomainSet where
  elementSize := elementSize
  domains := (List.range numa.numConfiguredNodes).map (initDomain numa)
  tidToThreadList := List.replicate numThreads none

/-- `_getListForCurrentThread` on a thread that is pinned to `cpu`. -/
def getListForCurrentThread (numa : Numa) (cpu : Nat) : Nat × Nat :=
  (getCurrentNumaDomain numa cpu, getCurrentCPUIndexInDomain numa cpu)

/-- `_setupThreadListsWorker` on the given thread of the pool; `none` is an access outside an array. -/
def setupThreadListsWorker (numa : Numa) (cpuNum : Nat → Nat) (set : DomainSet) (thread : Nat) :
    Option DomainSet := do
  let currDomain := getCurrentNumaDomain numa (cpuNum thread)
  let domain ← set.domains[currDomain]?
  let cpuIndex := getCurrentCPUIndexInDomain numa (cpuNum thread)
  let tl ← domain.listsInDomain[cpuIndex]?
  let tl := { tl with active := true, numaDomain := currDomain, tid := thread, elementSize := set.elementSize }
  let _ ← set.tidToThreadList[thread]?
  pure { set with
    domains := set.domains.set currDomain { domain with listsInDomain := domain.listsInDomain.set cpuIndex tl }
    tidToThreadList := set.tidToThreadList.set thread (some (currDomain, cpuIndex)) }

section Topology

variable {numa : Numa} {cpus : Finset Nat} (topology : numa.Topology cpus)

include topology

/-- A CPU's rank in its node is below the number of CPUs of the node. -/
theorem Numa.Topology.index_lt {cpu : Nat} (member : cpu ∈ cpus) :
    getCurrentCPUIndexInDomain numa cpu < getNumCPUsInDomain numa (getCurrentNumaDomain numa cpu) := by
  obtain ⟨inside, set⟩ := (topology.mask _ (topology.node_lt cpu member) cpu).mpr ⟨member, rfl⟩
  rw [getCurrentCPUIndexInDomain, getNumCPUsInDomain, topology.weight, topology.weight]
  exact Nat.count_strict_mono set inside

/-- CPUs of one node have different ranks in it. -/
theorem Numa.Topology.list_injective {cpu cpu' : Nat} (member : cpu ∈ cpus) (member' : cpu' ∈ cpus)
    (same : getListForCurrentThread numa cpu = getListForCurrentThread numa cpu') : cpu = cpu' := by
  obtain ⟨node, index⟩ := Prod.mk.inj same
  have set := ((topology.mask _ (topology.node_lt cpu member) cpu).mpr ⟨member, rfl⟩).2
  have set' := ((topology.mask _ (topology.node_lt cpu member) cpu').mpr ⟨member', node.symm⟩).2
  simp only [getCurrentCPUIndexInDomain, topology.weight] at index
  rw [← show numa.nodeOfCpu cpu = numa.nodeOfCpu cpu' from node] at index
  exact Nat.count_injective (p := fun c => (numa.nodeToCpus (numa.nodeOfCpu cpu)).bits c = true) set set' index

end Topology

/-- The list with the given pointer. -/
def DomainSet.listAt (set : DomainSet) (tl : Nat × Nat) : Option RegisteredList :=
  set.domains[tl.1]?.bind fun domain => domain.listsInDomain[tl.2]?

/-- What holds while the threads in `done` have registered their lists. -/
structure Registered (numa : Numa) (cpuNum : Nat → Nat) (elementSize numThreads : Nat) (set : DomainSet)
    (done : List Nat) : Prop where
  size : set.elementSize = elementSize
  domains : set.domains.map PumaDomain.numListsInDomain =
    (List.range numa.numConfiguredNodes).map (getNumCPUsInDomain numa)
  room : ∀ domain ∈ set.domains, domain.listsInDomain.length = domain.numListsInDomain
  threads : set.tidToThreadList = (List.range numThreads).map fun thread =>
    if thread ∈ done then some (getListForCurrentThread numa (cpuNum thread)) else none
  lists : ∀ thread ∈ done, set.listAt (getListForCurrentThread numa (cpuNum thread)) =
    some ⟨true, getCurrentNumaDomain numa (cpuNum thread), thread, elementSize⟩

theorem newDomainSet_registered (numa : Numa) (cpuNum : Nat → Nat) (elementSize numThreads : Nat) :
    Registered numa cpuNum elementSize numThreads (newDomainSet numa elementSize numThreads) [] where
  size := rfl
  domains := by simp [newDomainSet, initDomain]
  room domain member := by
    obtain ⟨d, _, rfl⟩ := List.mem_map.mp member
    simp [initDomain]
  threads := by simp [newDomainSet, List.map_const']
  lists thread member := absurd member List.not_mem_nil

section Registration

variable {numa : Numa} {cpus : Finset Nat} {cpuNum : Nat → Nat} {elementSize numThreads : Nat}

theorem Registered.domain {set : DomainSet} {done : List Nat}
    (registered : Registered numa cpuNum elementSize numThreads set done) {d : Nat} (inside : d < numa.numConfiguredNodes) :
    ∃ domain, set.domains[d]? = some domain ∧ domain.numListsInDomain = getNumCPUsInDomain numa d := by
  have count := congrArg (·[d]?) registered.domains
  simp only [List.getElem?_map, List.getElem?_range inside, Option.map_some] at count
  exact Option.map_eq_some_iff.mp count

/-- One thread registers its list. -/
theorem Registered.step (topology : numa.Topology cpus) {set : DomainSet} {done : List Nat} {thread : Nat}
    (registered : Registered numa cpuNum elementSize numThreads set done) (inside : thread < numThreads)
    (pinned : ∀ t < numThreads, cpuNum t ∈ cpus) (distinct : ∀ t ∈ done, t < numThreads ∧ cpuNum t ≠ cpuNum thread) :
    ∃ set', setupThreadListsWorker numa cpuNum set thread = some set' ∧
      Registered numa cpuNum elementSize numThreads set' (thread :: done) := by
  have member := pinned thread inside
  obtain ⟨domain, atDomain, count⟩ := registered.domain (topology.node_lt _ member)
  have full := registered.room domain (List.mem_of_getElem? atDomain)
  have room : getCurrentCPUIndexInDomain numa (cpuNum thread) < domain.listsInDomain.length := by
    rw [full, count]
    exact topology.index_lt member
  obtain ⟨tl, atIndex⟩ : ∃ tl, domain.listsInDomain[getCurrentCPUIndexInDomain numa (cpuNum thread)]? = some tl :=
    ⟨_, List.getElem?_eq_getElem room⟩
  have within : thread < set.tidToThreadList.length := by
    rw [registered.threads]
    simpa using inside
  obtain ⟨old, atThread⟩ : ∃ old, set.tidToThreadList[thread]? = some old := ⟨_, List.getElem?_eq_getElem within⟩
  have bound : numa.nodeOfCpu (cpuNum thread) < set.domains.length := by
    have := List.getElem?_eq_some_iff.mp atDomain
    exact this.1
  refine ⟨{ set with
      domains := set.domains.set (numa.nodeOfCpu (cpuNum thread)) { domain with
        listsInDomain := domain.listsInDomain.set (getCurrentCPUIndexInDomain numa (cpuNum thread))
          ⟨true, numa.nodeOfCpu (cpuNum thread), thread, set.elementSize⟩ }
      tidToThreadList := set.tidToThreadList.set thread (some (getListForCurrentThread numa (cpuNum thread))) }, ?_, ?_⟩
  · simp only [setupThreadListsWorker, getCurrentNumaDomain, atDomain, atIndex, atThread, Option.bind_eq_bind,
      Option.bind_some]
    rfl
  refine ⟨registered.size, ?_, ?_, ?_, ?_⟩
  · rw [← registered.domains, List.map_set]
    refine List.ext_getElem? fun d => ?_
    by_cases same : numa.nodeOfCpu (cpuNum thread) = d
    · subst same
      rw [List.getElem?_set_self (by simpa using bound), List.getElem?_map, atDomain]
      rfl
    · rw [List.getElem?_set_ne same]
  · intro other inSet
    rcases List.mem_or_eq_of_mem_set inSet with old | rfl
    · exact registered.room other old
    · rw [List.length_set]
      exact full
  · refine List.ext_getElem? fun t => ?_
    rw [List.getElem?_set, registered.threads]
    by_cases same : thread = t
    · subst same
      simp [inside, getListForCurrentThread, getCurrentNumaDomain]
    · rw [if_neg same, List.getElem?_map, List.getElem?_map]
      rcases Nat.lt_or_ge t numThreads with small | large
      · have other : t ≠ thread := fun equal => same equal.symm
        simp [List.getElem?_range small, List.mem_cons, other]
      · rw [List.getElem?_eq_none (by simpa using large)]
        rfl
  · intro t now
    by_cases same : t = thread
    · subst same
      simp [DomainSet.listAt, getListForCurrentThread, getCurrentNumaDomain, bound, room, registered.size]
    · have before := (List.mem_cons.mp now).resolve_left same
      have kept := registered.lists t before
      obtain ⟨small, apart⟩ := distinct t before
      have other : getListForCurrentThread numa (cpuNum t) ≠ getListForCurrentThread numa (cpuNum thread) :=
        fun equal => apart (topology.list_injective (pinned t small) member equal)
      rw [← kept]
      unfold DomainSet.listAt
      by_cases domainSame : numa.nodeOfCpu (cpuNum thread) = numa.nodeOfCpu (cpuNum t)
      · have indexOther : getCurrentCPUIndexInDomain numa (cpuNum thread) ≠ getCurrentCPUIndexInDomain numa (cpuNum t) :=
          fun equal => other (Prod.ext domainSame.symm equal.symm)
        simp only [getListForCurrentThread, getCurrentNumaDomain, ← domainSame, atDomain,
          List.getElem?_set_self bound, Option.bind_some, List.getElem?_set_ne indexOther]
      · simp [getListForCurrentThread, getCurrentNumaDomain, List.getElem?_set_ne domainSame]

/-- All threads of a run of the pool register their lists. -/
theorem Registered.run (topology : numa.Topology cpus) (pinned : ∀ t < numThreads, cpuNum t ∈ cpus)
    (injective : ∀ t < numThreads, ∀ u < numThreads, cpuNum t = cpuNum u → t = u) {order : List Nat} {set : DomainSet}
    {done : List Nat} (registered : Registered numa cpuNum elementSize numThreads set done)
    (nodup : (order ++ done).Nodup) (inside : ∀ t ∈ order ++ done, t < numThreads) :
    ∃ set', order.foldlM (setupThreadListsWorker numa cpuNum) set = some set' ∧
      Registered numa cpuNum elementSize numThreads set' (order.reverse ++ done) := by
  induction order generalizing set done with
  | nil => exact ⟨set, rfl, registered⟩
  | cons thread order ih =>
    have here : thread < numThreads := inside thread (by simp)
    have fresh : thread ∉ done := fun member => (List.nodup_cons.mp nodup).1 (List.mem_append_right _ member)
    obtain ⟨set₁, first, registered₁⟩ := registered.step topology here pinned fun t member =>
      ⟨inside t (by simp [member]), fun same => fresh (injective t (inside t (by simp [member])) thread here same ▸ member)⟩
    have reordered : (order ++ thread :: done).Perm (thread :: (order ++ done)) := List.perm_middle
    obtain ⟨set', rest, registered'⟩ := ih registered₁ (reordered.nodup_iff.mpr nodup)
      fun t member => inside t (by
        rcases List.mem_append.mp member with inOrder | inDone
        · simp [inOrder]
        · rcases List.mem_cons.mp inDone with rfl | inDone
          · simp
          · simp [inDone])
    refine ⟨set', ?_, ?_⟩
    · rw [List.foldlM_cons, first]
      exact rest
    · rw [List.reverse_cons, List.append_assoc]
      exact registered'

/-- The workers of all threads run, in any order. -/
theorem setupThreadLists_registered (elementSize : Nat) (topology : numa.Topology cpus) (pinned : ∀ t < numThreads, cpuNum t ∈ cpus)
    (injective : ∀ t < numThreads, ∀ u < numThreads, cpuNum t = cpuNum u → t = u) {order : List Nat}
    (all : order.Perm (List.range numThreads)) :
    ∃ set done, order.foldlM (setupThreadListsWorker numa cpuNum) (newDomainSet numa elementSize numThreads) = some set ∧
      Registered numa cpuNum elementSize numThreads set done ∧ ∀ t < numThreads, t ∈ done := by
  have inside : ∀ t ∈ order ++ [], t < numThreads := fun t member => by
    rw [List.append_nil] at member
    exact List.mem_range.mp (all.mem_iff.mp member)
  obtain ⟨set, run, registered⟩ := (newDomainSet_registered numa cpuNum elementSize numThreads).run topology pinned
    injective (by rw [List.append_nil]; exact all.nodup_iff.mpr List.nodup_range) inside
  refine ⟨set, order.reverse ++ [], run, registered, fun t small => ?_⟩
  rw [List.append_nil, List.mem_reverse]
  exact all.mem_iff.mpr (List.mem_range.mpr small)

/-- Whatever the order of the threads, each registers a list of its own that exists in its domain, and
finds it there again. -/
theorem setupThreadLists_spec (topology : numa.Topology cpus) (pinned : ∀ t < numThreads, cpuNum t ∈ cpus)
    (injective : ∀ t < numThreads, ∀ u < numThreads, cpuNum t = cpuNum u → t = u) {order : List Nat}
    (all : order.Perm (List.range numThreads)) :
    ∃ set, order.foldlM (setupThreadListsWorker numa cpuNum) (newDomainSet numa elementSize numThreads) = some set ∧
      (∀ t < numThreads, ∃ tl domain, set.tidToThreadList[t]? = some (some tl) ∧ set.domains[tl.1]? = some domain ∧
        tl.2 < domain.numListsInDomain ∧ set.listAt tl = some ⟨true, tl.1, t, elementSize⟩ ∧
        getListForCurrentThread numa (cpuNum t) = tl) ∧
      ∀ t < numThreads, ∀ u < numThreads, set.tidToThreadList[t]? = set.tidToThreadList[u]? → t = u := by
  obtain ⟨set, done, run, registered, whole⟩ := setupThreadLists_registered elementSize topology pinned injective all
  have entry {t : Nat} (small : t < numThreads) :
      set.tidToThreadList[t]? = some (some (getListForCurrentThread numa (cpuNum t))) := by
    rw [registered.threads, List.getElem?_map, List.getElem?_range small, Option.map_some, if_pos (whole t small)]
  refine ⟨set, run, fun t small => ?_, fun t small u small' same => ?_⟩
  · obtain ⟨domain, atDomain, count⟩ := registered.domain (topology.node_lt _ (pinned t small))
    refine ⟨_, domain, entry small, atDomain, ?_, registered.lists t (whole t small), rfl⟩
    rw [count]
    exact topology.index_lt (pinned t small)
  · rw [entry small, entry small', Option.some.injEq, Option.some.injEq] at same
    exact injective t small u small' (topology.list_injective (pinned t small) (pinned u small') same)

end Registration

/-- Two nodes with two CPUs each, numbered in turn. -/
def interleavedNuma : Numa where
  numConfiguredNodes := 2
  nodeOfCpu cpu := cpu % 2
  nodeToCpus node := ⟨4, fun cpu => cpu % 2 = node⟩
  bitmaskWeight mask := Nat.count (fun cpu => mask.bits cpu = true) mask.size

theorem interleavedNuma_topology : interleavedNuma.Topology (Finset.range 4) where
  node_lt cpu _ := Nat.mod_lt cpu (by decide)
  mask node _ cpu := by simp [interleavedNuma]
  weight _ := rfl

/-- Three threads on the CPUs 3, 1 and 2. -/
theorem setupThreadLists_interleaved :
    ∃ set, [2, 0, 1].foldlM (setupThreadListsWorker interleavedNuma fun t => [3, 1, 2].getD t 0)
        (newDomainSet interleavedNuma 8 3) = some set ∧
      (∀ t < 3, ∃ tl domain, set.tidToThreadList[t]? = some (some tl) ∧ set.domains[tl.1]? = some domain ∧
        tl.2 < domain.numListsInDomain ∧ set.listAt tl = some ⟨true, tl.1, t, 8⟩ ∧
        getListForCurrentThread interleavedNuma ([3, 1, 2].getD t 0) = tl) ∧
      ∀ t < 3, ∀ u < 3, set.tidToThreadList[t]? = set.tidToThreadList[u]? → t = u :=
  setupThreadLists_spec interleavedNuma_topology (by decide) (by decide) (by decide)

/-- The lists of a set, with the pair of domain and index as address. -/
def DomainSet.toPumaSet (set : DomainSet) (autoBalance : Bool) (splitter : Nat → Nat → Nat) : PumaSet where
  domains := set.domains.zipIdx.map fun r => (List.range r.1.numListsInDomain).map fun i => Nat.pair r.2 i
  tidToThreadList := set.tidToThreadList.filterMap fun tl => tl.map fun tl => Nat.pair tl.1 tl.2
  autoBalance := autoBalance
  splitter := splitter

theorem domains_nodup (domains : List PumaDomain) :
    (domains.zipIdx.map fun r => (List.range r.1.numListsInDomain).map fun i => Nat.pair r.2 i).flatten.Nodup := by
  rw [List.nodup_flatten]
  refine ⟨fun l member => ?_, ?_⟩
  · obtain ⟨r, _, rfl⟩ := List.mem_map.mp member
    exact List.nodup_range.map fun i j same => (Nat.pair_eq_pair.mp same).2
  · rw [List.pairwise_map]
    refine (List.pairwise_iff_getElem.mpr fun i j small small' before => ?_)
    rw [List.getElem_zipIdx, List.getElem_zipIdx]
    intro x inFirst inSecond
    obtain ⟨a, _, rfl⟩ := List.mem_map.mp inFirst
    obtain ⟨b, _, same⟩ := List.mem_map.mp inSecond
    have := (Nat.pair_eq_pair.mp same).1
    omega

/-- Registration builds a set in which every thread has a list of its own. -/
theorem setupThreadLists_created {numa : Numa} {cpus : Finset Nat} {cpuNum : Nat → Nat} {elementSize numThreads : Nat}
    (topology : numa.Topology cpus) (pinned : ∀ t < numThreads, cpuNum t ∈ cpus)
    (injective : ∀ t < numThreads, ∀ u < numThreads, cpuNum t = cpuNum u → t = u) {order : List Nat}
    (all : order.Perm (List.range numThreads)) (threads : 0 < numThreads) (autoBalance : Bool)
    (splitter : Nat → Nat → Nat) :
    ∃ (set : DomainSet) (created : CreatedSet),
      order.foldlM (setupThreadListsWorker numa cpuNum) (newDomainSet numa elementSize numThreads) = some set ∧
      created.toPumaSet = set.toPumaSet autoBalance splitter ∧ created.tidToThreadList.length = numThreads := by
  obtain ⟨set, done, run, registered, whole⟩ := setupThreadLists_registered elementSize topology pinned injective all
  have entries : (set.toPumaSet autoBalance splitter).tidToThreadList = (List.range numThreads).map fun t =>
      Nat.pair (getListForCurrentThread numa (cpuNum t)).1 (getListForCurrentThread numa (cpuNum t)).2 := by
    simp only [DomainSet.toPumaSet, registered.threads, List.filterMap_map]
    rw [← List.filterMap_eq_map]
    refine List.filterMap_congr fun t member => ?_
    simp only [Function.comp_apply, if_pos (whole t (List.mem_range.mp member)), Option.map_some]
  refine ⟨set, ⟨set.toPumaSet autoBalance splitter, ?_, ?_, domains_nodup _, ?_⟩, run, rfl, ?_⟩
  · rw [entries, ne_eq, List.map_eq_nil_iff, List.range_eq_nil]
    omega
  · rw [entries]
    refine List.nodup_range.map_on fun t inT u inU same => ?_
    obtain ⟨domain, index⟩ := Nat.pair_eq_pair.mp same
    have small := List.mem_range.mp inT
    have small' := List.mem_range.mp inU
    exact injective t small u small' (topology.list_injective (pinned t small) (pinned u small') (Prod.ext domain index))
  · rw [entries]
    intro l member
    obtain ⟨t, inT, rfl⟩ := List.mem_map.mp member
    have small := List.mem_range.mp inT
    obtain ⟨domain, atDomain, count⟩ := registered.domain (topology.node_lt _ (pinned t small))
    refine List.mem_flatten.mpr ⟨_, List.mem_map.mpr ⟨(domain, numa.nodeOfCpu (cpuNum t)),
      List.mem_iff_getElem?.mpr ⟨numa.nodeOfCpu (cpuNum t), by rw [List.getElem?_zipIdx, atDomain]; simp⟩, rfl⟩, ?_⟩
    refine List.mem_map.mpr ⟨_, List.mem_range.mpr ?_, rfl⟩
    rw [count]
    exact topology.index_lt (pinned t small)
  · rw [entries, List.length_map, List.length_range]

end Puma
