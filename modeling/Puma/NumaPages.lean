import Puma.Domain
import Puma.Isolation
import Puma.Nodemask
import Puma.StackSubscripts
import Puma.Uniform

namespace Puma

open DoublyLinked Relation

variable {α : Type}

/-- The domain of each page of a block. -/
abbrev Pages := NodePtr → Nat → Nat

/-- What the NUMA build goes by: `numa_max_node()`, the pages of a node, `tl->numaDomain`, and
`numa_move_pages`, which is given the pages to be moved and the domain for each of them. -/
structure NumaBuild where
  maxnode : Nat
  numPages : Nat
  numaDomain : ListPtr → Nat
  numaMovePages : Pages → List (NodePtr × Nat) → List Nat → Pages

/-- What a call of `numa_move_pages` without an error does: each page that it is given is on the domain for it
afterwards, and no other page is moved. -/
structure NumaBuild.MovesPages (build : NumaBuild) : Prop where
  moved : ∀ (pages : Pages) (addresses : List (NodePtr × Nat)) (nodes : List Nat), addresses.Nodup →
    ∀ (i : Nat) (node : NodePtr) (page domain : Nat), addresses[i]? = some (node, page) → nodes[i]? = some domain →
      build.numaMovePages pages addresses nodes node page = domain
  kept : ∀ (pages : Pages) (addresses : List (NodePtr × Nat)) (nodes : List Nat) (node : NodePtr) (page : Nat),
    (node, page) ∉ addresses → build.numaMovePages pages addresses nodes node page = pages node page

namespace NumaBuild

variable (build : NumaBuild)

/-- The turn of `_moveNodeDomains` for one node: a call of `numa_move_pages` for all its pages. -/
def movePages (pages : Pages) (node : NodePtr) (domain : Nat) : Pages :=
  build.numaMovePages pages ((List.range build.numPages).map fun p => (node, p)) (List.replicate build.numPages domain)

/-- The loop of `_moveNodeDomains`. -/
def moveNodeDomains (h : Heap α) (stop : NodePtr) (domain : Nat) : Nat → Pages → NodePtr → Option Pages
  | 0, _, _ => none
  | turns + 1, pages, start => do
    let _ ← h.node start
    let pages := build.movePages pages start domain
    if start = stop then pure pages
    else do
      let after ← h.next start
      moveNodeDomains h stop domain turns pages after

/-- `_transferNNodes` up to its call of `_moveNodeDomains`: what becomes of the pages. -/
def transferPages (h : Heap α) (n : Nat) (source target : ListPtr) (pages : Pages) : Option Pages := do
  let stop ← (h.lists source).tail
  let e ← h.node stop
  let start ← walkBack h (n - 1) stop
  let s ← h.node start
  let h := h.modifyList source fun tl => { tl with tail := s.prev }
  let h ← spliceTarget h target start stop
  let h ← spliceSource h source e.next
  if build.numaDomain target = build.numaDomain source then pure pages
  else build.moveNodeDomains h stop (build.numaDomain target) (h.blocks.card + 1) pages start

/-- The pages after a call of `_transferNNodes` by the balancer. -/
def migrate (tlAvgNodes : ListPtr → Nat) (pages : Pages) (call : TransferCall α) : Option Pages :=
  build.transferPages call.state.heap (call.count tlAvgNodes) call.source call.target pages

/-- The pages after the transfers of `_balanceThreadLoad`, one after the other. -/
def balancePages (set : PumaSet) (h : Heap α) (tlAvgNodes : ListPtr → Nat → Nat) (pages : Pages) : Option Pages :=
  if set.autoBalance then
    let active := set.tidToThreadList.filter fun tl => (h.lists tl).active
    let avgNodes := (active.map fun tl => (h.lists tl).numNodes).sum / active.length
    (autobalanceThreadLoadCalls set h tlAvgNodes).foldlM (build.migrate fun tl => tlAvgNodes tl avgNodes) pages
  else pure pages

/-- An operation on list `l` leaves the pages where they are, and `mbind` puts those of a block that
`numalloc_aligned_on_node` obtains for it on a domain of the mask. -/
structure Obtains (l : ListPtr) (h h' : Heap α) (pages pages' : Pages) : Prop where
  kept : ∀ p ∈ h.blocks, pages' p = pages p
  bound : ∀ p ∈ h'.blocks, p ∉ h.blocks → ∃ memory,
    numallocAlignedOnNode build.maxnode h.nodeSize (build.numaDomain l) = some memory ∧
      ∀ page < build.numPages, pages' p page ∈ memory.nodes

/-- The threads work on their lists, and between their passes the balancer moves nodes. -/
inductive PagedRun [Inhabited α] (set : PumaSet) : Heap α → Pages → Prop
  | created (elementSize nodeSize : Nat) (pages : Pages)
      (room : 0 < (createPumaSet set elementSize nodeSize : Heap α).capacityFor elementSize) :
      PagedRun set (createPumaSet set elementSize nodeSize) pages
  | perform {h h' : Heap α} {pages pages' : Pages} {l : ListPtr} {op : Op α} {seen : Seen α} (before : PagedRun set h pages)
      (member : l ∈ set.tidToThreadList) (own : op.Own l h) (run : op.perform l h = some (h', seen))
      (obtains : build.Obtains l h h' pages pages') : PagedRun set h' pages'
  | balance {h h' : Heap α} {pages pages' : Pages} (before : PagedRun set h pages) (tlAvgNodes : ListPtr → Nat → Nat)
      (run : balanceThreadLoad set h tlAvgNodes = some h') (moved : build.balancePages set h tlAvgNodes pages = some pages') :
      PagedRun set h' pages'

/-- Every node lies on the domain of its list. -/
def OnDomain (h : Heap α) (pages : Pages) : Prop :=
  ∀ p n, h.node p = some n → ∀ page < build.numPages, pages p page = build.numaDomain n.threadList

end NumaBuild

open NumaBuild

variable {build : NumaBuild} {h h' : Heap α} {pages pages' : Pages} {lists : List ListPtr}

section Transfers

theorem NumaBuild.MovesPages.self (moves : build.MovesPages) (pages : Pages) (node : NodePtr) (domain : Nat) {page : Nat}
    (inside : page < build.numPages) : build.movePages pages node domain node page = domain := by
  refine moves.moved pages _ _ (List.nodup_range.map fun _ _ => congrArg Prod.snd) page node page domain ?_ ?_
  · rw [List.getElem?_map, List.getElem?_range inside, Option.map_some]
  · rw [List.getElem?_replicate, if_pos inside]

theorem NumaBuild.MovesPages.other (moves : build.MovesPages) (pages : Pages) {node q : NodePtr} (domain : Nat)
    (other : q ≠ node) : build.movePages pages node domain q = pages q := by
  funext page
  refine moves.kept pages _ _ q page fun member => ?_
  obtain ⟨_, _, same⟩ := List.mem_map.mp member
  exact other (congrArg Prod.fst same).symm

/-- The loop moves the pages of the nodes from `start` to `stop`, and no others. -/
theorem NumaBuild.MovesPages.moveNodeDomains_run (moves : build.MovesPages) (pages : Pages) (domain : Nat) {before after : Option NodePtr}
    {M : List NodePtr} {start stop : NodePtr} {turns : Nat}
    (chain : Segment h.next h.prev before (start :: M) after) (last : (start :: M).getLast? = some stop)
    (nodup : (start :: M).Nodup) (present : ∀ q ∈ start :: M, ∃ n, h.node q = some n) (enough : M.length < turns) :
    ∃ pages', build.moveNodeDomains h stop domain turns pages start = some pages' ∧
      (∀ q ∈ start :: M, ∀ page < build.numPages, pages' q page = domain) ∧ ∀ q, q ∉ start :: M → pages' q = pages q := by
  induction M generalizing start before turns pages with
  | nil =>
    obtain ⟨turns, rfl⟩ : ∃ t, turns = t + 1 := ⟨turns - 1, by omega⟩
    obtain ⟨n, atNode⟩ := present start (by simp)
    have same : start = stop := by simpa using last
    refine ⟨build.movePages pages start domain, by simp [NumaBuild.moveNodeDomains, atNode, ← same], fun q member page inside => ?_,
      fun q out => moves.other pages domain (by simpa using out)⟩
    rw [List.mem_singleton.mp member]
    exact moves.self pages start domain inside
  | cons r M ih =>
    obtain ⟨turns, rfl⟩ : ∃ t, turns = t + 1 := ⟨turns - 1, by omega⟩
    obtain ⟨n, atNode⟩ := present start (by simp)
    rw [List.nodup_cons] at nodup
    rw [List.getLast?_cons_cons] at last
    have inner : start ≠ stop := fun same => nodup.1 (same ▸ List.mem_of_getLast? last)
    have behind : h.next start = some r := chain.2.1
    obtain ⟨pages', run, moved, kept⟩ := ih (build.movePages pages start domain) chain.2.2 last nodup.2
      (fun q member => present q (List.mem_cons_of_mem _ member)) (by simpa using enough)
    refine ⟨pages', by simp [NumaBuild.moveNodeDomains, atNode, inner, behind, run], fun q member page inside => ?_, fun q out => ?_⟩
    · rcases List.mem_cons.mp member with rfl | later
      · rw [kept q nodup.1]
        exact moves.self pages q domain inside
      · exact moved q later page inside
    · rw [List.mem_cons, not_or] at out
      rw [kept q out.2, moves.other pages domain out.1]

/-- A transfer moves the pages of exactly the nodes that it hands over. -/
theorem OnDomain.transfer (moves : build.MovesPages) {source target : ListPtr} {K M Ss At St : List NodePtr}
    (on : build.OnDomain h pages)
    (pre : TransferPre h source target K M Ss At St) (run : transferNNodes h M.length source target = some h') :
    ∃ pages', build.transferPages h M.length source target pages = some pages' ∧ build.OnDomain h' pages' := by
  obtain ⟨h'', start, stop, stopIndex, run', first, last, moved⟩ := transferNNodes_run pre
  cases Option.some.inj (run.symm.trans run')
  obtain ⟨start, M', rfl⟩ := List.exists_cons_of_ne_nil pre.moved
  cases first
  obtain ⟨atTail, ⟨e, atStop, behind⟩, ⟨s, atStart, front⟩, walked⟩ := pre.ends last
  obtain ⟨h₂, h₃, run₂, run₃, maps₃, _⟩ := pre.splices rfl last atStart atStop front
  obtain ⟨_, _, chain, _⟩ := pre.chains (maps₃.spliced (fun _ _ => rfl) fun _ _ => rfl) rfl last
  have present (q : NodePtr) (member : q ∈ start :: M') : ∃ n, h₃.node q = some n := by
    obtain ⟨n, atNode⟩ := pre.present (Or.inl (List.mem_append_left Ss (List.mem_append_right K member)))
    exact ⟨_, maps₃.node atNode⟩
  have owner {q : NodePtr} {n' : PumaNode α} (atNode' : h'.node q = some n') :
      ∃ n, h.node q = some n ∧ n'.threadList = if q ∈ start :: M' then target else n.threadList := by
    rw [moved.maps q] at atNode'
    obtain ⟨n, atNode, rfl⟩ := Option.map_eq_some_iff.mp atNode'
    refine ⟨n, atNode, ?_⟩
    unfold transferNode
    split <;> rfl
  have own {q : NodePtr} {n : PumaNode α} (member : q ∈ start :: M') (atNode : h.node q = some n) : n.threadList = source := by
    obtain ⟨m, atNode', same⟩ := pre.sourceShape.node (List.mem_append_left Ss (List.mem_append_right K member))
    rw [Option.some.inj (atNode.symm.trans atNode'), same]
  simp only [transferPages, atTail, atStop, List.length_cons, Nat.add_sub_cancel, walked, atStart, run₂, behind, run₃,
    Option.bind_eq_bind, Option.bind_some]
  split
  · rename_i same
    refine ⟨pages, rfl, fun q n' atNode' page inside => ?_⟩
    obtain ⟨n, atNode, same'⟩ := owner atNode'
    rw [on q n atNode page inside, same']
    split
    · rename_i member
      rw [own member atNode, same]
    · rfl
  · obtain ⟨pages', run', gone, kept⟩ := moves.moveNodeDomains_run pages (build.numaDomain target) chain last
      pre.pieces.nodupM present (pre.enough maps₃.blocks)
    refine ⟨pages', run', fun q n' atNode' page inside => ?_⟩
    obtain ⟨n, atNode, same⟩ := owner atNode'
    rw [same]
    split
    · rename_i member
      exact gone q member page inside
    · rename_i out
      rw [kept q out, on q n atNode page inside]

variable {tlAvgNodes : ListPtr → Nat} {s s' : BalanceState α}

theorem OnDomain.transferLoop (moves : build.MovesPages) {turns : Nat} (on : build.OnDomain s.heap pages)
    (run : transferLoop tlAvgNodes turns s = some s')
    (made : ∀ call ∈ transferLoopCalls tlAvgNodes turns s, call.Made lists (fun h => SetOk h lists) tlAvgNodes) :
    ∃ pages', (transferLoopCalls tlAvgNodes turns s).foldlM (build.migrate tlAvgNodes) pages = some pages' ∧
      build.OnDomain s'.heap pages' := by
  induction turns generalizing s pages with
  | zero =>
    have same : s' = s := by
      unfold Puma.transferLoop at run
      split at run
      · contradiction
      · cases run
      · exact (Option.some.inj run).symm
    rw [same]
    exact ⟨pages, rfl, on⟩
  | succ turns ih =>
    cases atPos : s.posStack with
    | nil =>
      have same : s' = s := by simpa [Puma.transferLoop, atPos] using run.symm
      rw [same]
      exact ⟨pages, by simp [transferLoopCalls, atPos], on⟩
    | cons pos posRest =>
      cases atNeg : s.negStack with
      | nil =>
        have same : s' = s := by simpa [Puma.transferLoop, atPos, atNeg] using run.symm
        rw [same]
        exact ⟨pages, by simp [transferLoopCalls, atPos, atNeg], on⟩
      | cons neg negRest =>
        rw [transferLoop_turn tlAvgNodes turns atPos atNeg] at run
        obtain ⟨h₁, moved, rest⟩ := Option.bind_eq_some_iff.mp run
        simp only [transferLoopCalls, atPos, atNeg, moved] at made ⊢
        obtain ⟨here, later⟩ := List.forall_mem_cons.mp made
        obtain ⟨K, M, Ss, At, St, pre, length⟩ := here.good.transferPre here.apart here.inSource here.inTarget here.positive here.most
        obtain ⟨pages₁, first, on₁⟩ := OnDomain.transfer moves on pre (by rw [length]; exact moved)
        obtain ⟨pages', last, on'⟩ := ih (s := TransferCall.settle tlAvgNodes ⟨s, pos, neg⟩ h₁) on₁ rest later
        refine ⟨pages', ?_, on'⟩
        rw [length] at first
        rw [List.foldlM_cons, migrate, first]
        exact last

theorem OnDomain.balanceDomains (moves : build.MovesPages) {domains : List (List ListPtr)} (on : build.OnDomain s.heap pages)
    (run : domains.foldlM (balanceDomain tlAvgNodes) s = some s')
    (made : ∀ call ∈ balanceDomainsCalls tlAvgNodes domains s, call.Made lists (fun h => SetOk h lists) tlAvgNodes) :
    ∃ pages', (balanceDomainsCalls tlAvgNodes domains s).foldlM (build.migrate tlAvgNodes) pages = some pages' ∧
      build.OnDomain s'.heap pages' := by
  induction domains generalizing s pages with
  | nil =>
    cases run
    exact ⟨pages, rfl, on⟩
  | cons domain domains ih =>
    rw [List.foldlM_cons] at run
    obtain ⟨s₁, turn, rest⟩ := Option.bind_eq_some_iff.mp run
    simp only [balanceDomainsCalls, turn] at made ⊢
    obtain ⟨here, later⟩ := List.forall_mem_append.mp made
    have heap : (domain.foldl (classifyList tlAvgNodes) s).heap = s.heap := by
      have same (seen : List ListPtr) : ∀ t : BalanceState α, (seen.foldl (classifyList tlAvgNodes) t).heap = t.heap := by
        induction seen with
        | nil => exact fun _ => rfl
        | cons l seen ih => exact fun t => (ih _).trans (classifyList_heap l)
      exact same domain s
    obtain ⟨pages₁, first, on₁⟩ := OnDomain.transferLoop moves (s := domain.foldl (classifyList tlAvgNodes) s)
      (by rw [heap]; exact on) turn here
    obtain ⟨pages', last, on'⟩ := ih on₁ rest later
    refine ⟨pages', ?_, on'⟩
    rw [List.foldlM_append, first]
    exact last

/-- Balancing leaves every node on the domain of the list that it then belongs to. -/
theorem OnDomain.balanceThreadLoad (moves : build.MovesPages) {set : PumaSet} {tlAvgNodes : ListPtr → Nat → Nat}
    (on : build.OnDomain h pages)
    (setOk : SetOk h set.tidToThreadList) (threads : set.tidToThreadList ≠ []) (nodup : set.domains.flatten.Nodup)
    (run : balanceThreadLoad set h tlAvgNodes = some h') :
    ∃ pages', build.balancePages set h tlAvgNodes pages = some pages' ∧ build.OnDomain h' pages' := by
  unfold Puma.balanceThreadLoad at run
  unfold balancePages
  split at run
  · rename_i balance
    rw [if_pos balance]
    have good : Balanceable set.tidToThreadList fun h : Heap α => SetOk h set.tidToThreadList := {
      active := fun h ok => ok.active
      transfer := fun h source target n ok apart inSource inTarget nonempty most => by
        obtain ⟨h', run, ok', _, atSource, atTarget, others⟩ := ok.transfer apart inSource inTarget nonempty most
        exact ⟨h', run, ok', atSource, atTarget, fun m notSource notTarget => by rw [others m notSource notTarget]⟩ }
    obtain ⟨_, _, _, _, _, made⟩ := autobalanceThreadLoad_spec good setOk threads nodup tlAvgNodes
    have all : set.tidToThreadList.filter (fun tl => (h.lists tl).active) = set.tidToThreadList :=
      List.filter_eq_self.mpr fun l member => (setOk.active l).mpr member
    simp only [autobalanceThreadLoad, all] at run
    split at run
    · cases run
    · obtain ⟨s, loop, last⟩ := Option.bind_eq_some_iff.mp run
      cases last
      simp only [autobalanceThreadLoadCalls, all] at made ⊢
      exact OnDomain.balanceDomains moves (s := ⟨h, _, [], []⟩) on loop made
  · rename_i balance
    rw [if_neg balance]
    cases run
    exact ⟨pages, rfl, on⟩

end Transfers

section Operations

variable [Inhabited α] {l : ListPtr} {op : Op α} {seen : Seen α}

/-- A node stays in its list, and new nodes come into the list that is worked on. -/
theorem Op.Own.owner (own : op.Own l h) (inv : ListInv h l) (run : op.perform l h = some (h', seen)) {p : NodePtr}
    {n : PumaNode α} (atNode : h'.node p = some n) :
    (∃ m, h.node p = some m ∧ m.threadList = n.threadList) ∨ p ∉ h.blocks ∧ n.threadList = l := by
  obtain ⟨_, _, others⟩ := op.onPart own inv.part run
  by_cases same : n.threadList = l
  · by_cases old : p ∈ h.blocks
    · obtain ⟨m, atNode'⟩ := Heap.mem_blocks.mp old
      refine Or.inl ⟨m, atNode', ?_⟩
      by_contra other
      have there : (h'.part m.threadList).node p = some m := by
        rw [others _ fun here => other (here.trans same.symm)]
        exact Heap.node_part_eq_some.mpr ⟨atNode', rfl⟩
      exact other (by rw [Option.some.inj (atNode.symm.trans (Heap.node_part_eq_some.mp there).1)])
    · exact Or.inr ⟨old, same⟩
  · have there : (h.part n.threadList).node p = some n := by
      rw [← others _ same]
      exact Heap.node_part_eq_some.mpr ⟨atNode, rfl⟩
    exact Or.inl ⟨n, (Heap.node_part_eq_some.mp there).1, rfl⟩

theorem OnDomain.perform (on : build.OnDomain h pages) (own : op.Own l h) (inv : ListInv h l)
    (run : op.perform l h = some (h', seen)) (obtains : build.Obtains l h h' pages pages')
    (inside : build.numaDomain l ≤ build.maxnode) (small : build.numaDomain l < 8) : build.OnDomain h' pages' := by
  intro p n atNode page below
  rcases own.owner inv run atNode with ⟨m, atNode', same⟩ | ⟨new, same⟩
  · rw [obtains.kept p (Heap.mem_blocks.mpr ⟨m, atNode'⟩), on p m atNode' page below, same]
  · obtain ⟨memory, built, bound⟩ := obtains.bound p (Heap.mem_blocks.mpr ⟨n, atNode⟩) new
    obtain ⟨mask, atMask, nodes⟩ := nodemask_nodes inside
    simp only [numallocAlignedOnNode, atMask, Option.bind_eq_bind, Option.bind_some, Option.pure_def, Option.some.injEq] at built
    have there := bound page below
    rw [← built, nodes, Set.mem_singleton_iff] at there
    rw [there, same]
    omega

/-- In every run the lists are in order and every node lies on the domain of its list. -/
theorem NumaBuild.PagedRun.onDomain (moves : build.MovesPages) {set : CreatedSet} (inside : ∀ l ∈ set.tidToThreadList, build.numaDomain l ≤ build.maxnode)
    (small : ∀ l ∈ set.tidToThreadList, build.numaDomain l < 8) (run : build.PagedRun set.toPumaSet h pages) :
    SetOk h set.tidToThreadList ∧ build.OnDomain h pages := by
  induction run with
  | created elementSize nodeSize pages room =>
    refine ⟨createPumaSet_ok set.toPumaSet room, fun p n atNode => ?_⟩
    cases atNode
  | perform before member own run obtains ih =>
    exact ⟨ih.1.run member (fun _ safe => safe) (Op.Own.run own run),
      OnDomain.perform ih.2 own (ih.1.inv member) run obtains (inside _ member) (small _ member)⟩
  | balance before tlAvgNodes run moved ih =>
    obtain ⟨h₁, run₁, setOk, _⟩ := balanceThreadLoad_spec ih.1 set.threads set.cpus tlAvgNodes
    obtain ⟨pages₁, moved₁, on⟩ := OnDomain.balanceThreadLoad moves ih.2 ih.1 set.threads set.cpus run
    cases Option.some.inj (run₁.symm.trans run)
    cases Option.some.inj (moved₁.symm.trans moved)
    exact ⟨setOk, on⟩

end Operations

section Threads

variable {numa : Numa} {cpus : Finset Nat} {cpuNum : Nat → Nat} {elementSize numThreads : Nat}

/-- `tl->numaDomain`, as the registration of the lists leaves it. -/
def DomainSet.numaDomain (set : DomainSet) (l : ListPtr) : Nat :=
  ((set.listAt (Nat.unpair l)).map RegisteredList.numaDomain).getD 0

/-- The build for a set that has been registered on the given machine. -/
def DomainSet.numaBuild (set : DomainSet) (numa : Numa) (numPages : Nat)
    (numaMovePages : Pages → List (NodePtr × Nat) → List Nat → Pages) : NumaBuild where
  maxnode := numa.numConfiguredNodes - 1
  numPages := numPages
  numaDomain := set.numaDomain
  numaMovePages := numaMovePages

/-- The thread finds its list by its CPU, and the list has the domain of this CPU. -/
theorem Registered.home {set : DomainSet} {done : List Nat} (registered : Registered numa cpuNum elementSize numThreads set done)
    (whole : ∀ t < numThreads, t ∈ done) (autoBalance : Bool) (splitter : Nat → Nat → Nat) {t : Nat} {l : ListPtr}
    (atThread : (set.toPumaSet autoBalance splitter).tidToThreadList[t]? = some l) :
    t < numThreads ∧ set.numaDomain l = getCurrentNumaDomain numa (cpuNum t) := by
  have entries : (set.toPumaSet autoBalance splitter).tidToThreadList = (List.range numThreads).map fun t =>
      Nat.pair (getListForCurrentThread numa (cpuNum t)).1 (getListForCurrentThread numa (cpuNum t)).2 := by
    simp only [DomainSet.toPumaSet, registered.threads, List.filterMap_map]
    rw [← List.filterMap_eq_map]
    refine List.filterMap_congr fun t member => ?_
    simp only [Function.comp_apply, if_pos (whole t (List.mem_range.mp member)), Option.map_some]
  rw [entries, List.getElem?_map] at atThread
  obtain ⟨u, atRange, rfl⟩ := Option.map_eq_some_iff.mp atThread
  obtain ⟨below, rfl⟩ := List.getElem?_eq_some_iff.mp atRange
  rw [List.length_range] at below
  refine ⟨below, ?_⟩
  rw [List.getElem_range, DomainSet.numaDomain, Nat.unpair_pair, registered.lists t (whole t below)]
  rfl

/-- On a machine with at most eight domains every thread works on a list of the domain of its CPU, all nodes of which
have all their pages there, however the threads' operations and the balancer's transfers follow each other; and the
migration of the balancer's next transfers comes back. -/
theorem NumaBuild.PagedRun.threadsAtHome [Inhabited α] (topology : numa.Topology cpus)
    (pinned : ∀ t < numThreads, cpuNum t ∈ cpus)
    (injective : ∀ t < numThreads, ∀ u < numThreads, cpuNum t = cpuNum u → t = u) (few : numa.numConfiguredNodes ≤ 8)
    {order : List Nat} (all : order.Perm (List.range numThreads)) {registered : DomainSet}
    (setup : order.foldlM (setupThreadListsWorker numa cpuNum) (newDomainSet numa elementSize numThreads) = some registered)
    {set : CreatedSet} {autoBalance : Bool} {splitter : Nat → Nat → Nat}
    (same : set.toPumaSet = registered.toPumaSet autoBalance splitter) {numPages : Nat}
    {numaMovePages : Pages → List (NodePtr × Nat) → List Nat → Pages}
    (moves : (registered.numaBuild numa numPages numaMovePages).MovesPages) {h : Heap α} {pages : Pages}
    (run : (registered.numaBuild numa numPages numaMovePages).PagedRun set.toPumaSet h pages) :
    (∀ t l, set.tidToThreadList[t]? = some l → registered.numaDomain l = getCurrentNumaDomain numa (cpuNum t) ∧
      ∀ p n, h.node p = some n → n.threadList = l → ∀ page < numPages, pages p page = numa.nodeOfCpu (cpuNum t)) ∧
    ∀ tlAvgNodes h', balanceThreadLoad set.toPumaSet h tlAvgNodes = some h' →
      ((registered.numaBuild numa numPages numaMovePages).balancePages set.toPumaSet h tlAvgNodes pages).isSome := by
  obtain ⟨registered', done, setup', built, whole⟩ := setupThreadLists_registered elementSize topology pinned injective all
  cases Option.some.inj (setup'.symm.trans setup)
  have home {t : Nat} {l : ListPtr} (atThread : set.tidToThreadList[t]? = some l) :
      t < numThreads ∧ registered.numaDomain l = getCurrentNumaDomain numa (cpuNum t) :=
    built.home whole autoBalance splitter (by rw [← same]; exact atThread)
  have node {l : ListPtr} (member : l ∈ set.tidToThreadList) : registered.numaDomain l < numa.numConfiguredNodes := by
    obtain ⟨t, atThread⟩ := List.mem_iff_getElem?.mp member
    obtain ⟨below, domain⟩ := home atThread
    rw [domain]
    exact topology.node_lt _ (pinned t below)
  obtain ⟨setOk, on⟩ := run.onDomain moves (fun l member => Nat.le_sub_one_of_lt (node member))
    fun l member => (node member).trans_le few
  refine ⟨fun t l atThread => ⟨(home atThread).2, fun p n atNode owner page inside => ?_⟩, fun tlAvgNodes h' balanced => ?_⟩
  · rw [on p n atNode page inside, owner]
    exact (home atThread).2
  · obtain ⟨pages', moved, _⟩ := OnDomain.balanceThreadLoad moves on setOk set.threads set.cpus balanced
    rw [moved]
    rfl

end Threads

/-- A set of three threads with a list each, in two domains of two CPUs. -/
def threeHomes : CreatedSet where
  domains := [[0, 1], [2, 3]]
  tidToThreadList := [3, 2, 1]
  autoBalance := true
  splitter := fun _ _ => 0
  threads := by decide
  distinct := by decide
  cpus := by decide
  placed := by decide

/-- A call of `numa_move_pages` that moves every page. -/
def moveAllPages (pages : Pages) (addresses : List (NodePtr × Nat)) (nodes : List Nat) : Pages := fun node page =>
  ((addresses.zip nodes).lookup (node, page)).getD (pages node page)

theorem moveAllPages_moves (maxnode numPages : Nat) (numaDomain : ListPtr → Nat) :
    (⟨maxnode, numPages, numaDomain, moveAllPages⟩ : NumaBuild).MovesPages where
  moved pages addresses nodes nodup i node page domain atAddress atNode := by
    have there : (addresses.zip nodes).lookup (node, page) = some domain := by
      induction addresses generalizing nodes i with
      | nil => cases atAddress
      | cons first addresses ih =>
        obtain ⟨apart, rest⟩ := List.nodup_cons.mp nodup
        cases nodes with
        | nil => cases atNode
        | cons target nodes =>
          cases i with
          | zero =>
            cases atAddress
            cases atNode
            exact List.lookup_cons_self
          | succ i =>
            have other : (node, page) ≠ first := fun same => apart (same ▸ List.mem_of_getElem? atAddress)
            rw [List.zip_cons_cons, List.lookup_cons, beq_false_of_ne other]
            exact ih nodes rest i atAddress atNode
    simp only [moveAllPages, there, Option.getD_some]
  kept pages addresses nodes node page out := by
    have absent : (addresses.zip nodes).lookup (node, page) = none := by
      refine List.lookup_eq_none_iff.mpr fun pair member => ?_
      have inside := (List.of_mem_zip member).1
      exact bne_iff_ne.mpr fun same => out (same ▸ inside)
    simp only [moveAllPages, absent, Option.getD_none]

/-- The threads run on the CPUs 3, 1 and 2; the first of them allocates an element. -/
theorem threeHomes_atHome : ∃ (h : Heap Unit) (pages : Pages) (n : PumaNode Unit), h.node 8192 = some n ∧
    n.threadList = 3 ∧ ∀ page < 2, pages 8192 page = 1 := by
  obtain ⟨registered, setup, same⟩ : ∃ registered : DomainSet,
      [2, 0, 1].foldlM (setupThreadListsWorker interleavedNuma fun t => [3, 1, 2].getD t 0)
        (newDomainSet interleavedNuma 4000 3) = some registered ∧
      threeHomes.toPumaSet = registered.toPumaSet true fun _ _ => 0 := ⟨_, rfl, rfl⟩
  obtain ⟨h, e, n, performed, atNode, owner⟩ : ∃ (h : Heap Unit) (e : ElemPtr) (n : PumaNode Unit),
      (Op.pumalloc 8192).perform 3 (createPumaSet threeHomes.toPumaSet 4000 8192 : Heap Unit) = some (h, .element e) ∧
      h.node 8192 = some n ∧ n.threadList = 3 := ⟨_, _, _, rfl, rfl, rfl⟩
  have created : (registered.numaBuild interleavedNuma 2 moveAllPages).PagedRun threeHomes.toPumaSet
      (createPumaSet threeHomes.toPumaSet 4000 8192 : Heap Unit) fun _ _ => 0 := .created 4000 8192 _ (by decide)
  have domain : registered.numaDomain 3 = 1 := ((created.threadsAtHome interleavedNuma_topology (by decide) (by decide)
    (by decide) (by decide) setup same (moveAllPages_moves _ _ _)).1 0 3 rfl).1
  have own : (Op.pumalloc 8192).Own 3 (createPumaSet threeHomes.toPumaSet 4000 8192 : Heap Unit) := by
    refine ⟨fun t m p k atTail => ?_, by decide⟩
    cases atTail
  have obtains : (registered.numaBuild interleavedNuma 2 moveAllPages).Obtains 3
      (createPumaSet threeHomes.toPumaSet 4000 8192) h (fun _ _ => 0) fun _ _ => 1 := by
    refine ⟨fun p member => absurd member (Finset.notMem_empty p), fun p _ _ => ?_⟩
    have home : (registered.numaBuild interleavedNuma 2 moveAllPages).numaDomain 3 = 1 := domain
    obtain ⟨mask, built, nodes⟩ := @nodemask_nodes 1 1 le_rfl
    refine ⟨⟨8192, 8192, mask, 3⟩, ?_, fun page _ => by rw [nodes]; rfl⟩
    rw [home, numallocAlignedOnNode, show (registered.numaBuild interleavedNuma 2 moveAllPages).maxnode = 1 from rfl, built]
    rfl
  have run := created.perform (by decide) own performed obtains
  have home := (run.threadsAtHome interleavedNuma_topology (by decide) (by decide) (by decide) (by decide) setup same (moveAllPages_moves _ _ _)).1 0 3 rfl
  exact ⟨h, fun _ _ => 1, n, atNode, owner, home.2 8192 n atNode owner⟩

end Puma
