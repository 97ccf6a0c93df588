import Mathlib.Algebra.BigOperators.Fin
import Puma.Lib.Refinement
import Puma.MapReduce

namespace Puma

open Refinement

variable {α M : Type}

/-- What a caller sees of a call. -/
inductive SetEvent (α M : Type)
  | inserted (thread : Nat) (x : α)
  | removed (thread : Nat) (x : α)
  | replaced (thread : Nat) (x y : α)
  | ran (stages : List (Stage α M)) (sum : M)

section Machines

variable [AddCommMonoid M]

/-- A call on a set by a caller that fills the elements it allocates; the last argument of the first two
constructors is the thread whose list is allocated on. -/
inductive SetCall [Inhabited α] (set : PumaSet) : Heap α → List (SetEvent α M) → Heap α → Prop
  | pumalloc {h h' h'' : Heap α} {e : ElemPtr} (thread : Nat) (block : NodePtr) (x : α)
      (safe : ∀ l, set.tidToThreadList[thread]? = some l → AllocSafe h l)
      (run : pumalloc set h thread block = some (h', e)) (fill : h'.write e x = some h'') :
      SetCall set h [.inserted thread x] h''
  | pumallocManualBalancing {h h' h'' : Heap α} {e : ElemPtr} (balData : Nat) (block : NodePtr) (x : α)
      (safe : ∀ l, set.tidToThreadList[set.splitter balData set.tidToThreadList.length]? = some l → AllocSafe h l)
      (run : pumallocManualBalancing set h balData block = some (h', e)) (fill : h'.write e x = some h'') :
      SetCall set h [.inserted (set.splitter balData set.tidToThreadList.length) x] h''
  | pufree {h h' : Heap α} {l : ListPtr} {e : ElemPtr} {x : α} (thread : Nat)
      (atThread : set.tidToThreadList[thread]? = some l) (live : h.Live l e) (there : h.read e = some x)
      (run : pufree h e = some h') : SetCall set h [.removed thread x] h'
  | write {h h' : Heap α} {l : ListPtr} {e : ElemPtr} {x : α} (thread : Nat) (y : α)
      (atThread : set.tidToThreadList[thread]? = some l) (live : h.Live l e) (there : h.read e = some x)
      (run : h.write e y = some h') : SetCall set h [.replaced thread x y] h'
  | runKernelList {h h' : Heap α} (stages : List (Stage α M)) (oracle : Oracle) (cleanup : List Nat) {sum : M}
      {left : ThreadData M} (whole : oracle.Whole set stages.length cleanup h)
      (run : runKernelListWith set h (stages.map Stage.kernel) (some sumKernelData) oracle cleanup =
        some (h', some sum, left)) : SetCall set h [.ran stages sum] h'

/-- One multiset for each of `threads` threads. Kernels run on them as they are, or after contents have
been moved between them if the set is `balanced`. -/
inductive BagCall (balanced : Bool) (threads : Nat) (bags : Nat → Multiset α) :
    List (SetEvent α M) → (Nat → Multiset α) → Prop
  | insert (thread : Nat) (x : α) (inside : thread < threads) :
      BagCall balanced threads bags [.inserted thread x] (Function.update bags thread (x ::ₘ bags thread))
  | remove (thread : Nat) (x : α) (rest : Multiset α) (inside : thread < threads) (held : bags thread = x ::ₘ rest) :
      BagCall balanced threads bags [.removed thread x] (Function.update bags thread rest)
  | replace (thread : Nat) (x y : α) (rest : Multiset α) (inside : thread < threads) (held : bags thread = x ::ₘ rest) :
      BagCall balanced threads bags [.replaced thread x y] (Function.update bags thread (y ::ₘ rest))
  | run (stages : List (Stage α M)) (moved : Nat → Multiset α) (still : balanced = false → moved = bags)
      (kept : ∑ thread ∈ Finset.range threads, moved thread = ∑ thread ∈ Finset.range threads, bags thread) :
      BagCall balanced threads bags
        [.ran stages (∑ thread ∈ Finset.range threads, ((moved thread).map (Stage.gather stages)).sum)]
        fun thread => (moved thread).map (Stage.through stages)

/-- A single multiset. -/
inductive ContentCall (contents : Multiset α) : List (SetEvent α M) → Multiset α → Prop
  | insert (thread : Nat) (x : α) : ContentCall contents [.inserted thread x] (x ::ₘ contents)
  | remove (thread : Nat) (x : α) (rest : Multiset α) (held : contents = x ::ₘ rest) :
      ContentCall contents [.removed thread x] rest
  | replace (thread : Nat) (x y : α) (rest : Multiset α) (held : contents = x ::ₘ rest) :
      ContentCall contents [.replaced thread x y] (y ::ₘ rest)
  | run (stages : List (Stage α M)) :
      ContentCall contents [.ran stages (contents.map (Stage.gather stages)).sum] (contents.map (Stage.through stages))

theorem sum_update {threads thread : Nat} (inside : thread < threads) (bags : Nat → Multiset α) (bag : Multiset α) :
    ∃ rest, ∑ t ∈ Finset.range threads, bags t = bags thread + rest ∧
      ∑ t ∈ Finset.range threads, Function.update bags thread bag t = bag + rest := by
  have member : thread ∈ Finset.range threads := Finset.mem_range.mpr inside
  refine ⟨∑ t ∈ (Finset.range threads).erase thread, bags t, (Finset.add_sum_erase _ _ member).symm, ?_⟩
  rw [← Finset.add_sum_erase _ _ member, Function.update_self]
  refine congrArg _ (Finset.sum_congr rfl fun t inErase => ?_)
  rw [Function.update_of_ne (Finset.ne_of_mem_erase inErase)]

theorem bagCall_simulates (balanced : Bool) (threads : Nat) :
    Simulates (BagCall (α := α) (M := M) balanced threads) ContentCall fun bags contents =>
      contents = ∑ thread ∈ Finset.range threads, bags thread := by
  rintro bags contents events bags' rfl call
  cases call with
  | insert thread x inside =>
    obtain ⟨rest, before, after⟩ := sum_update inside bags (x ::ₘ bags thread)
    rw [Multiset.cons_add, ← before] at after
    exact ⟨_, .single (.insert thread x), after.symm⟩
  | remove thread x rest inside held =>
    obtain ⟨others, before, after⟩ := sum_update inside bags rest
    rw [held, Multiset.cons_add] at before
    exact ⟨_, .single (.remove thread x _ before), after.symm⟩
  | replace thread x y rest inside held =>
    obtain ⟨others, before, after⟩ := sum_update inside bags (y ::ₘ rest)
    rw [held, Multiset.cons_add] at before
    rw [Multiset.cons_add] at after
    exact ⟨_, .single (.replace thread x y _ before), after.symm⟩
  | run stages moved still kept =>
    have sum : ∑ thread ∈ Finset.range threads, ((moved thread).map (Stage.gather stages)).sum =
        ((∑ thread ∈ Finset.range threads, bags thread).map (Stage.gather stages)).sum := by
      rw [← kept]
      exact (map_sum (Multiset.sumAddMonoidHom.comp (Multiset.mapAddMonoidHom (Stage.gather stages))) moved _).symm
    rw [sum]
    refine ⟨_, .single (.run stages), ?_⟩
    rw [← kept]
    exact map_sum (Multiset.mapAddMonoidHom (Stage.through stages)) moved _

/-- A set in order, with the contents of its threads' lists. -/
structure Holds (set : CreatedSet) (h : Heap α) (bags : Nat → Multiset α) : Prop where
  setOk : SetOk h set.tidToThreadList
  each : ∀ thread l, set.tidToThreadList[thread]? = some l → bags thread = h.bag l

theorem Holds.sum {set : CreatedSet} {h : Heap α} {bags : Nat → Multiset α} (holds : Holds set h bags) :
    ∑ thread ∈ Finset.range set.tidToThreadList.length, bags thread = h.total := by
  rw [holds.setOk.total_eq set.distinct, Finset.sum_range]
  have own (thread : Fin set.tidToThreadList.length) : bags thread = h.bag set.tidToThreadList[thread] :=
    holds.each thread _ (List.getElem?_eq_getElem thread.isLt)
  rw [Finset.sum_congr rfl fun thread _ => own thread]
  exact (Fin.sum_univ_fun_getElem set.tidToThreadList h.bag)

/-- A call on the list of one thread. -/
theorem Holds.update {set : CreatedSet} {h h' : Heap α} {bags : Nat → Multiset α} (holds : Holds set h bags)
    {thread : Nat} {l : ListPtr} (atThread : set.tidToThreadList[thread]? = some l)
    (setOk : SetOk h' set.tidToThreadList) (others : ∀ m, m ≠ l → h'.bag m = h.bag m) :
    Holds set h' (Function.update bags thread (h'.bag l)) := by
  refine ⟨setOk, fun t m atT => ?_⟩
  by_cases same : t = thread
  · subst same
    rw [Function.update_self, Option.some.inj (atThread.symm.trans atT)]
  · rw [Function.update_of_ne same, others m (set.list_ne atT atThread same), holds.each t m atT]

/-- An allocation whose caller fills the new element. -/
theorem Holds.insert [Inhabited α] {set : CreatedSet} {h h' h'' : Heap α} {bags : Nat → Multiset α} (holds : Holds set h bags)
    {thread : Nat} {l : ListPtr} (atThread : set.tidToThreadList[thread]? = some l) (safe : AllocSafe h l)
    {block : NodePtr} {e : ElemPtr} {x : α} (run : pumallocOnThreadList h l block = some (h', e))
    (fill : h'.write e x = some h'') :
    Holds set h'' (Function.update bags thread (x ::ₘ bags thread)) := by
  obtain ⟨y, setOk', live, there, grown, others⟩ := holds.setOk.pumallocOnThreadList (List.mem_of_getElem? atThread) safe run
  obtain ⟨h₁, rest, written, setOk'', before, after, others'⟩ := setOk'.write live there x
  cases Option.some.inj (written.symm.trans fill)
  rw [grown, Multiset.cons_inj_right] at before
  have updated := holds.update atThread setOk'' fun m other => (others' m other).trans (others m other)
  rw [after, ← before, ← holds.each thread l atThread] at updated
  exact updated

theorem setCall_simulates [Inhabited α] (set : CreatedSet) :
    Simulates (SetCall (α := α) (M := M) set.toPumaSet) (BagCall set.autoBalance set.tidToThreadList.length)
      (Holds set) := by
  intro h bags events h' holds call
  cases call with
  | pumalloc thread block x safe run fill =>
    obtain ⟨l, atThread, run⟩ := Option.bind_eq_some_iff.mp run
    exact ⟨_, .single (.insert thread x (List.getElem?_eq_some_iff.mp atThread).1),
      holds.insert atThread (safe l atThread) run fill⟩
  | pumallocManualBalancing balData block x safe run fill =>
    obtain ⟨l, atThread, run⟩ := Option.bind_eq_some_iff.mp run
    exact ⟨_, .single (.insert _ x (List.getElem?_eq_some_iff.mp atThread).1),
      holds.insert atThread (safe l atThread) run fill⟩
  | @pufree _ l e x thread atThread live there run =>
    obtain ⟨setOk', bag, others⟩ := holds.setOk.pufree live there run
    have held := (holds.each thread l atThread).trans bag
    exact ⟨_, .single (.remove thread x _ (List.getElem?_eq_some_iff.mp atThread).1 held),
      holds.update atThread setOk' others⟩
  | @write _ l e x thread y atThread live there run =>
    obtain ⟨h₁, rest, written, setOk', before, after, others⟩ := holds.setOk.write live there y
    cases Option.some.inj (written.symm.trans run)
    have held := (holds.each thread l atThread).trans before
    have updated := holds.update atThread setOk' others
    rw [after] at updated
    exact ⟨_, .single (.replace thread x y rest (List.getElem?_eq_some_iff.mp atThread).1 held), updated⟩
  | @runKernelList _ stages oracle cleanup sum left whole run =>
    rw [← List.length_map (f := Stage.kernel)] at whole
    obtain ⟨h₁, h₂, retValue, left', entry, balanced, rebalanced, setOk₁, run', post⟩ :=
      holds.setOk.runKernelListWith (stages.map Stage.kernel) (some sumKernelData) whole
    rw [run] at run'
    cases run'
    have passed (thread : Nat) (l : ListPtr) (atThread : set.tidToThreadList[thread]? = some l) :=
      (post.passed thread l atThread).stages
    let moved (thread : Nat) : Multiset α := (set.tidToThreadList[thread]?.map h₁.bag).getD (bags thread)
    have atMoved (thread : Nat) (l : ListPtr) (atThread : set.tidToThreadList[thread]? = some l) :
        moved thread = h₁.bag l := by
      rw [show moved thread = (set.tidToThreadList[thread]?.map h₁.bag).getD (bags thread) from rfl, atThread]
      rfl
    have afterwards : Holds set h₁ moved := ⟨setOk₁, atMoved⟩
    have still (off : set.autoBalance = false) : moved = bags := by
      rw [balanceThreadLoad, off] at balanced
      have same : h = h₁ := Option.some.inj balanced
      funext thread
      cases atThread : set.tidToThreadList[thread]? with
      | none =>
        rw [show moved thread = (set.tidToThreadList[thread]?.map h₁.bag).getD (bags thread) from rfl, atThread]
        rfl
      | some l => rw [atMoved thread l atThread, holds.each thread l atThread, same]
    have kept : ∑ thread ∈ Finset.range set.tidToThreadList.length, moved thread =
        ∑ thread ∈ Finset.range set.tidToThreadList.length, bags thread := by
      rw [afterwards.sum, holds.sum, rebalanced.total]
    have result : sum = ∑ thread ∈ Finset.range set.tidToThreadList.length,
        ((moved thread).map (Stage.gather stages)).sum := by
      have returned := post.retValue_eq
      simp only [Option.getD_some, sumKernelData, initKernelData, emptyKernelData, Option.map_some, Option.some_or,
        zero_add, Option.some.injEq, List.map_map, Option.getD_none] at returned
      rw [returned]
      refine congrArg List.sum (List.map_congr_left fun thread member => ?_)
      have atThread := List.getElem?_eq_getElem (List.mem_range.mp member)
      rw [Function.comp_apply, (passed thread _ atThread).2, atMoved thread _ atThread, Option.getD_some, zero_add]
    rw [result]
    refine ⟨_, .single (.run stages moved still kept), post.setOk, fun thread l atThread => ?_⟩
    rw [(passed thread l atThread).1, atMoved thread l atThread]

section Runs

variable [Inhabited α] {set : CreatedSet} {elementSize nodeSize : Nat} {events : List (SetEvent α M)} {h : Heap α}

omit [Inhabited α] in
theorem createPumaSet_holds
    (capacity : 0 < (createPumaSet set.toPumaSet elementSize nodeSize : Heap α).capacityFor elementSize) :
    Holds set (createPumaSet set.toPumaSet elementSize nodeSize : Heap α) fun _ => 0 :=
  ⟨createPumaSet_ok set.toPumaSet capacity, fun _ _ _ => rfl⟩

/-- Every sequence of calls on a new set does, and returns, what it would do to a single multiset. -/
theorem setCalls_contents
    (capacity : 0 < (createPumaSet set.toPumaSet elementSize nodeSize : Heap α).capacityFor elementSize)
    (run : Run (SetCall set.toPumaSet) (createPumaSet set.toPumaSet elementSize nodeSize) events h) :
    Run ContentCall 0 events h.total := by
  have start : ∃ bags, Holds set (createPumaSet set.toPumaSet elementSize nodeSize : Heap α) bags ∧
      (0 : Multiset α) = ∑ thread ∈ Finset.range set.tidToThreadList.length, bags thread :=
    ⟨_, createPumaSet_holds capacity, Finset.sum_const_zero.symm⟩
  obtain ⟨contents, run', bags, holds, rfl⟩ :=
    ((setCall_simulates set).comp (bagCall_simulates _ _)).run start run
  rwa [holds.sum] at run'

/-- What an event does to the multiset of one thread, when nothing is moved between the threads. -/
def SetEvent.applyTo [DecidableEq α] (own : Nat) (bag : Multiset α) : SetEvent α M → Multiset α
  | .inserted thread x => if thread = own then x ::ₘ bag else bag
  | .removed thread x => if thread = own then bag.erase x else bag
  | .replaced thread x y => if thread = own then y ::ₘ bag.erase x else bag
  | .ran stages _ => bag.map (Stage.through stages)

omit [Inhabited α] in
theorem BagCall.applyTo [DecidableEq α] {threads : Nat} {bags bags' : Nat → Multiset α}
    (call : BagCall false threads bags events bags') (own : Nat) :
    bags' own = events.foldl (SetEvent.applyTo own) (bags own) := by
  have updated (thread : Nat) (bag : Multiset α) : Function.update bags thread bag own =
      if thread = own then bag else bags own := by
    rw [Function.update_apply]
    simp only [eq_comm]
  cases call with
  | insert thread x =>
    rw [updated]
    by_cases same : thread = own <;> simp [SetEvent.applyTo, same]
  | remove thread x rest inside held =>
    rw [updated]
    by_cases same : thread = own
    · subst same
      simp [SetEvent.applyTo, held]
    · simp [SetEvent.applyTo, same]
  | replace thread x y rest inside held =>
    rw [updated]
    by_cases same : thread = own
    · subst same
      simp [SetEvent.applyTo, held]
    · simp [SetEvent.applyTo, same]
  | run stages moved still =>
    rw [still rfl]
    rfl

/-- Without the balancer the list of a thread holds what its own calls and the kernels have made of it. -/
theorem setCalls_bag [DecidableEq α] (manual : set.autoBalance = false)
    (capacity : 0 < (createPumaSet set.toPumaSet elementSize nodeSize : Heap α).capacityFor elementSize)
    (run : Run (SetCall set.toPumaSet) (createPumaSet set.toPumaSet elementSize nodeSize) events h)
    {thread : Nat} {l : ListPtr} (atThread : set.tidToThreadList[thread]? = some l) :
    h.bag l = events.foldl (SetEvent.applyTo thread) 0 := by
  obtain ⟨bags, run', holds⟩ := (setCall_simulates set).run (createPumaSet_holds capacity) run
  rw [manual] at run'
  rw [← holds.each thread l atThread]
  exact run'.foldl fun bags events bags' call => call.applyTo thread

end Runs

end Machines

theorem SetCall.filled {M : Type} [AddCommMonoid M] [Inhabited α] {set : PumaSet} {h h' : Heap α} {l : ListPtr}
    {thread : Nat} {block : NodePtr} {x : α} (atThread : set.tidToThreadList[thread]? = some l) (safe : AllocSafe h l)
    (run : ((Puma.pumalloc set h thread block).bind fun r => r.1.write r.2 x) = some h') :
    SetCall set h [(.inserted thread x : SetEvent α M)] h' := by
  obtain ⟨r, made, fill⟩ := Option.bind_eq_some_iff.mp run
  exact .pumalloc thread block x (fun _ atEntry => Option.some.inj (atThread.symm.trans atEntry) ▸ safe) made fill

set_option maxRecDepth 8000 in
/-- Two threads allocate and fill elements, the first one writes again, frees, and allocates where a hole is left;
then a kernel sums the elements and counts them up. -/
theorem twoThreads_setCalls : ∃ h : Heap Nat,
    Run (SetCall twoThreadsManual.toPumaSet) (createPumaSet twoThreadsManual.toPumaSet 4000 8192)
      [.inserted 0 5, .inserted 1 7, .inserted 0 6, .replaced 0 6 4, .removed 0 5, .inserted 0 3,
        .ran [⟨(· + 1), id⟩] 14] h := by
  obtain ⟨h₀, h₁, h₂, h₃, h₄, h₅, h₆, h', left, rfl, safe₀, fill₀, safe₁, fill₁, safe₂, fill₂, ⟨live₃, there₃, rewritten⟩,
      ⟨live₄, there₄, freed⟩, safe₅, fill₅, few, run⟩ : ∃ (h₀ h₁ h₂ h₃ h₄ h₅ h₆ h' : Heap Nat) (left : ThreadData Nat),
      createPumaSet twoThreadsManual.toPumaSet 4000 8192 = h₀ ∧
      AllocSafe h₀ 0 ∧ ((pumalloc twoThreadsManual.toPumaSet h₀ 0 0).bind fun r => r.1.write r.2 5) = some h₁ ∧
      AllocSafe h₁ 1 ∧ ((pumalloc twoThreadsManual.toPumaSet h₁ 1 1).bind fun r => r.1.write r.2 7) = some h₂ ∧
      AllocSafe h₂ 0 ∧ ((pumalloc twoThreadsManual.toPumaSet h₂ 0 2).bind fun r => r.1.write r.2 6) = some h₃ ∧
      (h₃.Live 0 ⟨0, 1⟩ ∧ h₃.read ⟨0, 1⟩ = some 6 ∧ h₃.write ⟨0, 1⟩ 4 = some h₄) ∧
      (h₄.Live 0 ⟨0, 0⟩ ∧ h₄.read ⟨0, 0⟩ = some 5 ∧ pufree h₄ ⟨0, 0⟩ = some h₅) ∧
      AllocSafe h₅ 0 ∧ ((pumalloc twoThreadsManual.toPumaSet h₅ 0 2).bind fun r => r.1.write r.2 3) = some h₆ ∧
      h₆.blocks.card < 3 ∧ runKernelListWith twoThreadsManual.toPumaSet h₆ ([⟨(· + 1), id⟩].map Stage.kernel)
        (some sumKernelData) ⟨fun _ _ => 0, [0, 1, 1, 0, 0, 1], fun _ _ => 0, 3⟩ [1, 0] = some (h', some 14, left) :=
    ⟨_, _, _, _, _, _, _, _, _, rfl, by decide, rfl, by decide, rfl, by decide, rfl, ⟨⟨_, rfl, rfl, by decide⟩, rfl, rfl⟩,
      ⟨⟨_, rfl, rfl, by decide⟩, rfl, rfl⟩, by decide, rfl, by decide, rfl⟩
  have called := (((((Run.single (SetCall.filled (M := Nat) rfl safe₀ fill₀)).tail (.filled rfl safe₁ fill₁)).tail
    (.filled rfl safe₂ fill₂)).tail (.write 0 4 rfl live₃ there₃ rewritten)).tail (.pufree 0 rfl live₄ there₄ freed)).tail
    (.filled rfl safe₅ fill₅)
  refine ⟨h', called.tail (.runKernelList [⟨(· + 1), id⟩] _ [1, 0] ⟨fun thread => ?_, few, List.Perm.swap 0 1 []⟩ run)⟩
  rcases thread with _ | _ | thread <;> simp [twoThreadsManual, twoThreads]

theorem twoThreads_contents : ∃ h : Heap Nat, Run ContentCall 0 [.inserted 0 5, .inserted 1 7, .inserted 0 6,
    .replaced 0 6 4, .removed 0 5, .inserted 0 3, .ran [⟨(· + 1), id⟩] 14] h.total := by
  obtain ⟨h, run⟩ := twoThreads_setCalls
  exact ⟨h, setCalls_contents (by decide) run⟩

/-- The first thread has kept what it has written and what it has put where the hole was. -/
theorem twoThreads_bag : ∃ h : Heap Nat, h.bag 0 = {5, 4} := by
  obtain ⟨h, run⟩ := twoThreads_setCalls
  refine ⟨h, (setCalls_bag rfl (by decide) run (show twoThreadsManual.tidToThreadList[0]? = some 0 from rfl)).trans ?_⟩
  decide

end Puma
