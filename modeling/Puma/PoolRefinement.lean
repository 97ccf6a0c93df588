import Puma.Lib.Refinement
import Puma.PoolRounds

namespace Puma

open Refinement

variable {N : Nat} {C F A : Type}

/-- What the callers and the work functions see of the pool. -/
inductive PoolEvent (N : Nat) (C F A : Type)
  | called (c : C) (workFunction : F) (arg : A)
  | ran (i : Fin N) (workFunction : Option F) (arg : Option A)
  | returned (c : C)

/-- Where a thread is in a call: waiting to be taken up, being run, or run by all workers. -/
inductive JoinPc (F A : Type)
  | idle
  | called (workFunction : F) (arg : A)
  | running
  | joined

/-- The calling threads, and the call that is being run with the workers that have not run it yet. -/
structure JoinState (N : Nat) (C F A : Type) where
  caller : C → JoinPc F A
  current : Option (C × F × A × Finset (Fin N))

def JoinState.start : JoinState N C F A where
  caller _ := .idle
  current := none

section Steps

variable [DecidableEq C]

def JoinState.move (t : JoinState N C F A) (c : C) (pc : JoinPc F A) : JoinState N C F A :=
  { t with caller := Function.update t.caller c pc }

inductive JoinStep (t : JoinState N C F A) : List (PoolEvent N C F A) → JoinState N C F A → Prop
  | call (c : C) (workFunction : F) (arg : A) (here : t.caller c = .idle) :
      JoinStep t [.called c workFunction arg] (t.move c (.called workFunction arg))
  | fork (c : C) (workFunction : F) (arg : A) (here : t.caller c = .called workFunction arg) (free : t.current = none) :
      JoinStep t [] { t.move c .running with current := some (c, workFunction, arg, Finset.univ) }
  | run (i : Fin N) (c : C) (workFunction : F) (arg : A) (todo : Finset (Fin N))
      (here : t.current = some (c, workFunction, arg, todo)) (member : i ∈ todo) :
      JoinStep t [.ran i (some workFunction) (some arg)] { t with current := some (c, workFunction, arg, todo.erase i) }
  | join (c : C) (workFunction : F) (arg : A) (here : t.current = some (c, workFunction, arg, ∅)) :
      JoinStep t [] { t.move c .joined with current := none }
  | finish (c : C) (here : t.caller c = .joined) : JoinStep t [.returned c] (t.move c .idle)

/-- A step of the pool with what is seen of it. -/
inductive PoolMove (s : PoolState N C F A) : List (PoolEvent N C F A) → PoolState N C F A → Prop
  | call (c : C) (workFunction : F) (arg : A) (here : s.caller c = .idle) :
      PoolMove s [.called c workFunction arg] (s.move c (.wrlock workFunction arg))
  | run (i : Fin N) (workFunction : Option F) (arg : Option A) (here : s.worker i = .run workFunction arg) :
      PoolMove s [.ran i workFunction arg] { s.moveWorker i .arriveDone with
        ran := Function.update s.ran i (s.ran i ++ [(workFunction, arg)]) }
  | finish (c : C) (call : Nat) (here : s.caller c = .finish call) :
      PoolMove s [.returned c] { s.move c .idle with returned := call :: s.returned }
  | silent {s' : PoolState N C F A} (step : PoolStep (fun _ => True) s s') (ran : s'.ran = s.ran)
      (returned : s'.returned = s.returned) : PoolMove s [] s'

theorem PoolMove.steps {s s' : PoolState N C F A} {events : List (PoolEvent N C F A)} (move : PoolMove s events s') :
    PoolCall s s' ∨ PoolStep (fun _ => True) s s' := by
  cases move with
  | call c workFunction arg here => exact Or.inl (.call c workFunction arg here)
  | run i workFunction arg here => exact Or.inr (.run i workFunction arg here)
  | finish c call here => exact Or.inr (.finish c call here)
  | silent step _ _ => exact Or.inr step

omit [DecidableEq C] in
theorem PoolState.waitWork_record (s : PoolState N C F A) :
    s.waitWork.ran = s.ran ∧ s.waitWork.returned = s.returned ∧ s.waitWork.locked = s.locked := by
  unfold PoolState.waitWork
  split <;> exact ⟨rfl, rfl, rfl⟩

omit [DecidableEq C] in
theorem PoolState.waitDone_record (s : PoolState N C F A) :
    s.waitDone.ran = s.ran ∧ s.waitDone.returned = s.returned ∧ s.waitDone.locked = s.locked := by
  unfold PoolState.waitDone
  split <;> exact ⟨rfl, rfl, rfl⟩

/-- Every step of the pool is seen in one way. -/
theorem PoolStep.move {s s' : PoolState N C F A} (step : PoolStep (fun _ => True) s s') :
    ∃ events, PoolMove s events s' := by
  cases step with
  | run i workFunction arg here => exact ⟨_, .run i workFunction arg here⟩
  | finish c call here => exact ⟨_, .finish c call here⟩
  | callerWork c call here =>
    exact ⟨[], .silent (.callerWork c call here) (PoolState.waitWork_record _).1 (PoolState.waitWork_record _).2.1⟩
  | workerWork i here =>
    exact ⟨[], .silent (.workerWork i here) (PoolState.waitWork_record _).1 (PoolState.waitWork_record _).2.1⟩
  | callerDone c call here =>
    exact ⟨[], .silent (.callerDone c call here) (PoolState.waitDone_record _).1 (PoolState.waitDone_record _).2.1⟩
  | workerDone i here =>
    exact ⟨[], .silent (.workerDone i here) (PoolState.waitDone_record _).1 (PoolState.waitDone_record _).2.1⟩
  | wrlock c workFunction arg here free quiet may => exact ⟨[], .silent (.wrlock c workFunction arg here free quiet may) rfl rfl⟩
  | setFunction c call workFunction arg here => exact ⟨[], .silent (.setFunction c call workFunction arg here) rfl rfl⟩
  | setArg c call arg here => exact ⟨[], .silent (.setArg c call arg here) rfl rfl⟩
  | wrunlock c call here => exact ⟨[], .silent (.wrunlock c call here) rfl rfl⟩
  | rdlock i here free => exact ⟨[], .silent (.rdlock i here free) rfl rfl⟩
  | readFunction i here => exact ⟨[], .silent (.readFunction i here) rfl rfl⟩
  | readArg i workFunction here => exact ⟨[], .silent (.readArg i workFunction here) rfl rfl⟩
  | rdunlock i workFunction arg here => exact ⟨[], .silent (.rdunlock i workFunction arg here) rfl rfl⟩

end Steps

/-- A caller of the pool and the same caller of the abstract machine. -/
def CallPc.Shows (locked : List (Option F × Option A)) : CallPc F A → JoinPc F A → Prop
  | .idle, pc => pc = .idle
  | .wrlock workFunction arg, pc => pc = .called workFunction arg
  | .setFunction call _ _, pc | .setArg call _, pc | .arriveWork call, pc | .waitWork call, pc =>
    ∃ workFunction arg, locked[call]? = some (some workFunction, some arg) ∧ pc = .called workFunction arg
  | .unlock _, pc | .arriveDone _, pc | .waitDone _, pc => pc = .running
  | .finish _, pc => pc = .joined

/-- The call that is being run, for its caller. -/
def CallPc.serves : CallPc F A → Option Nat
  | .unlock call | .arriveDone call | .waitDone call => some call
  | _ => none

/-- The call that is being run and the workers that have not run it yet. -/
def PoolState.ShowsCurrent (s : PoolState N C F A) : Option (C × F × A × Finset (Fin N)) → Prop
  | none => ∀ c, (s.caller c).serves = none
  | some (c, workFunction, arg, todo) => ∃ call, (s.caller c).serves = some call ∧
      s.locked[call]? = some (some workFunction, some arg) ∧ ∀ i, i ∈ todo ↔ (s.worker i).pending = true

structure PoolState.Shows (s : PoolState N C F A) (t : JoinState N C F A) : Prop where
  caller : ∀ c, (s.caller c).Shows s.locked (t.caller c)
  current : s.ShowsCurrent t.current

theorem poolStart_shows : (PoolState.start : PoolState N C F A).Shows .start where
  caller _ := rfl
  current _ := rfl

theorem CallPc.serves_awaits {pc : CallPc F A} {call : Nat} (serves : pc.serves = some call) : pc.Awaits := by
  cases pc <;> first | cases serves; done | trivial

theorem CallPc.Awaits.serves {pc : CallPc F A} (awaits : pc.Awaits) : ∃ call, pc.serves = some call := by
  cases pc <;> first | exact ⟨_, rfl⟩ | exact absurd awaits id

theorem CallPc.serves_none {pc : CallPc F A} (other : ¬ pc.Awaits) : pc.serves = none := by
  cases pc <;> first | rfl | exact absurd trivial other

/-- The pairs of the earlier calls stay. -/
theorem CallPc.Shows.append {locked new : List (Option F × Option A)} {pc : CallPc F A} {seen : JoinPc F A}
    (shown : pc.Shows locked seen) : pc.Shows (locked ++ new) seen := by
  have kept {call : Nat} (known : ∃ workFunction arg, locked[call]? = some (some workFunction, some arg) ∧
      seen = .called workFunction arg) : ∃ workFunction arg,
      (locked ++ new)[call]? = some (some workFunction, some arg) ∧ seen = .called workFunction arg := by
    obtain ⟨workFunction, arg, pair, same⟩ := known
    refine ⟨workFunction, arg, ?_, same⟩
    rw [List.getElem?_append_left (List.getElem?_eq_some_iff.mp pair).1]
    exact pair
  cases pc with
  | setFunction => exact kept shown
  | setArg => exact kept shown
  | arriveWork => exact kept shown
  | waitWork => exact kept shown
  | _ => exact shown

section Simulation

variable {s : PoolState N C F A} {t : JoinState N C F A} {done : Nat} {setter waiter : Option C}

/-- The callers serve the same calls, the same workers have yet to run, and earlier calls keep their pairs. -/
theorem PoolState.ShowsCurrent.mono {s' : PoolState N C F A} {current : Option (C × F × A × Finset (Fin N))}
    (shown : s.ShowsCurrent current) (serves : ∀ c, (s'.caller c).serves = (s.caller c).serves)
    (pending : ∀ i, (s'.worker i).pending = (s.worker i).pending) (locked : s.locked <+: s'.locked) :
    s'.ShowsCurrent current := by
  cases current with
  | none => exact fun c => (serves c).trans (shown c)
  | some taken =>
    obtain ⟨call, serving, pair, todo⟩ := shown
    refine ⟨call, (serves _).trans serving, ?_, fun i => (todo i).trans (by rw [pending i])⟩
    obtain ⟨new, grown⟩ := locked
    rw [← grown, List.getElem?_append_left (List.getElem?_eq_some_iff.mp pair).1]
    exact pair

/-- The barrier that is not full: nothing is seen. -/
theorem PoolState.Shows.same {s' : PoolState N C F A} (shown : s.Shows t) (caller : s'.caller = s.caller)
    (worker : s'.worker = s.worker) (locked : s'.locked = s.locked) : s'.Shows t := by
  refine ⟨fun c => ?_, shown.current.mono (fun c => by rw [caller]) (fun i => by rw [worker]) (locked ▸ List.prefix_rfl)⟩
  rw [caller, locked]
  exact shown.caller c

section Moves

variable [DecidableEq C]

/-- A caller moves, and its call is not taken up or ended. -/
theorem PoolState.Shows.move (shown : s.Shows t) {c : C} {pc : CallPc F A} {seen : JoinPc F A}
    (serves : pc.serves = (s.caller c).serves) (here : pc.Shows s.locked seen) : (s.move c pc).Shows (t.move c seen) := by
  refine ⟨fun c' => ?_, shown.current.mono (congrFun (comp_update CallPc.serves serves)) (fun _ => rfl) List.prefix_rfl⟩
  by_cases same : c' = c
  · subst same
    simpa [PoolState.move, JoinState.move] using here
  · simpa [PoolState.move, JoinState.move, same] using shown.caller c'

/-- Nothing is seen of a caller's move. -/
theorem PoolState.Shows.stutter (shown : s.Shows t) {c : C} {pc : CallPc F A} (serves : pc.serves = (s.caller c).serves)
    (here : ∀ seen, (s.caller c).Shows s.locked seen → pc.Shows s.locked seen) : (s.move c pc).Shows t := by
  have moved := shown.move serves (here _ (shown.caller c))
  rwa [JoinState.move, Function.update_eq_self] at moved

end Moves

/-- Nothing is seen of a worker's move outside its work function. -/
theorem PoolState.Shows.moveWorker (shown : s.Shows t) {i : Fin N} {pc : LoopPc F A}
    (pending : pc.pending = (s.worker i).pending) : (s.moveWorker i pc).Shows t :=
  ⟨shown.caller, shown.current.mono (fun _ => rfl) (congrFun (comp_update LoopPc.pending pending)) List.prefix_rfl⟩

/-- The last arrival at `workWaitBarrier` takes up the call. -/
theorem PoolState.Shows.waitWork [DecidableEq C] (threads : 0 < N) (inv : PoolInv s done setter waiter 1 0) (shown : s.Shows t) :
    ∃ t', Run JoinStep t [] t' ∧ s.waitWork.Shows t' := by
  unfold PoolState.waitWork
  by_cases full : s.workCount + 1 = N + 1
  · rw [if_pos full]
    obtain ⟨all, c, rfl, waits⟩ := all_arrived (full.symm.trans inv.workCount)
    have atWork (i : Fin N) : s.worker i = .waitWork := by
      have here := all i
      cases pc : s.worker i <;> rw [pc] at here <;> first | rfl | cases here
    have nobody : waiter = none := by
      have first := inv.workers ⟨0, threads⟩
      rw [atWork] at first
      exact first.1
    obtain ⟨call, atCaller⟩ : ∃ call, s.caller c = .waitWork call := by
      cases pc : s.caller c <;> rw [pc] at waits <;> first | exact ⟨_, rfl⟩ | cases waits
    have unserved (c' : C) : (s.caller c').serves = none := CallPc.serves_none fun awaits => by
      have := (inv.awaits c').mp awaits
      rw [nobody] at this
      cases this
    have free : t.current = none := by
      have current := shown.current
      cases here : t.current with
      | none => rfl
      | some taken =>
        rw [here] at current
        obtain ⟨_, serves, _⟩ := current
        rw [unserved] at serves
        cases serves
    have still {c' : C} (other : c' ≠ c) : (s.caller c').releaseWork = s.caller c' := by
      have quiet : ¬ (s.caller c').Sets := fun sets => other (Option.some.inj ((inv.sets c').mp sets)).symm
      cases pc : s.caller c' <;> rw [pc] at quiet <;> first | rfl | exact absurd trivial quiet
    have known := shown.caller c
    rw [atCaller] at known
    obtain ⟨workFunction, arg, pair, seen⟩ := known
    refine ⟨_, Run.single (.fork c workFunction arg seen free), fun c' => ?_, call, ?_, pair, fun i => ?_⟩
    · by_cases same : c' = c
      · subst same
        simp only [atCaller, CallPc.releaseWork, JoinState.move, Function.update_self]
        rfl
      · simp only [still same, JoinState.move, Function.update_of_ne same]
        exact shown.caller c'
    · simp only [atCaller, CallPc.releaseWork, CallPc.serves]
    · simp [atWork, LoopPc.releaseWork, LoopPc.pending]
  · rw [if_neg full]
    exact ⟨t, .refl, shown.same rfl rfl rfl⟩

/-- The last arrival at `doneBarrier` ends the call. -/
theorem PoolState.Shows.waitDone [DecidableEq C] (inv : PoolInv s done setter waiter 0 1) (shown : s.Shows t) :
    ∃ t', Run JoinStep t [] t' ∧ s.waitDone.Shows t' := by
  unfold PoolState.waitDone
  by_cases full : s.doneCount + 1 = N + 1
  · rw [if_pos full]
    obtain ⟨all, c, rfl, waits⟩ := all_arrived (full.symm.trans inv.doneCount)
    have atDone (i : Fin N) : s.worker i = .waitDone := by
      have here := all i
      cases pc : s.worker i <;> rw [pc] at here <;> first | rfl | cases here
    obtain ⟨call, atCaller⟩ : ∃ call, s.caller c = .waitDone call := by
      cases pc : s.caller c <;> rw [pc] at waits <;> first | exact ⟨_, rfl⟩ | cases waits
    have quiet {c' : C} (other : c' ≠ c) : ¬ (s.caller c').Awaits := fun awaits =>
      other (Option.some.inj ((inv.awaits c').mp awaits)).symm
    have still {c' : C} (other : c' ≠ c) : (s.caller c').releaseDone = s.caller c' := by
      have := quiet other
      cases pc : s.caller c' <;> rw [pc] at this <;> first | rfl | exact absurd trivial this
    obtain ⟨workFunction, arg, here⟩ : ∃ workFunction arg, t.current = some (c, workFunction, arg, ∅) := by
      have current := shown.current
      cases taken : t.current with
      | none =>
        rw [taken] at current
        have := current c
        rw [atCaller] at this
        cases this
      | some call' =>
        obtain ⟨c', workFunction, arg, todo⟩ := call'
        rw [taken] at current
        obtain ⟨_, serves, _, pending⟩ := current
        have same : c' = c := by
          by_contra other
          exact quiet other (CallPc.serves_awaits serves)
        have empty : todo = ∅ := Finset.eq_empty_of_forall_notMem fun i member => by
          have := (pending i).mp member
          rw [atDone i] at this
          cases this
        exact ⟨workFunction, arg, by rw [same, empty]⟩
    refine ⟨_, Run.single (.join c workFunction arg here), fun c' => ?_, fun c' => ?_⟩
    · by_cases same : c' = c
      · subst same
        simp only [atCaller, CallPc.releaseDone, JoinState.move, Function.update_self]
        rfl
      · simp only [still same, JoinState.move, Function.update_of_ne same]
        exact shown.caller c'
    · by_cases same : c' = c
      · subst same
        simp only [atCaller, CallPc.releaseDone, CallPc.serves]
      · simp only [still same]
        exact CallPc.serves_none (quiet same)
  · rw [if_neg full]
    exact ⟨t, .refl, shown.same rfl rfl rfl⟩

variable [DecidableEq C]

/-- A step that nobody sees takes up a call, ends one, or changes nothing. -/
theorem PoolState.Shows.silent {s' : PoolState N C F A} (threads : 0 < N) (inv : PoolInv s done setter waiter 0 0)
    (shown : s.Shows t) (step : PoolStep (fun _ => True) s s') (ran : s'.ran = s.ran) (returned : s'.returned = s.returned) :
    ∃ t', Run JoinStep t [] t' ∧ s'.Shows t' := by
  cases step with
  | wrlock c workFunction arg here free quiet may =>
    refine ⟨t, .refl, fun c' => ?_, ?_⟩
    · by_cases same : c' = c
      · subst same
        have seen := shown.caller c'
        rw [here] at seen
        simp only [PoolState.move, Function.update_self]
        exact ⟨workFunction, arg, List.getElem?_concat_length .., seen⟩
      · simp only [PoolState.move, Function.update_of_ne same]
        exact (shown.caller c').append
    · exact shown.current.mono (congrFun (comp_update CallPc.serves (by rw [here]; rfl))) (fun _ => rfl)
        (List.prefix_append ..)
  | setFunction c call workFunction arg here =>
    have moved : (s.move c (.setArg call arg)).Shows t := shown.stutter (by rw [here]; rfl) (by rw [here]; exact fun _ => id)
    exact ⟨t, .refl, moved.caller, moved.current⟩
  | setArg c call arg here =>
    have moved : (s.move c (.arriveWork call)).Shows t := shown.stutter (by rw [here]; rfl) (by rw [here]; exact fun _ => id)
    exact ⟨t, .refl, moved.caller, moved.current⟩
  | callerWork c call here =>
    exact (shown.stutter (by rw [here]; rfl) (by rw [here]; exact fun _ => id)).waitWork threads (inv.callerWork here)
  | wrunlock c call here =>
    have moved : (s.move c (.arriveDone call)).Shows t := shown.stutter (by rw [here]; rfl) (by rw [here]; exact fun _ => id)
    exact ⟨t, .refl, moved.caller, moved.current⟩
  | callerDone c call here =>
    exact (shown.stutter (by rw [here]; rfl) (by rw [here]; exact fun _ => id)).waitDone (inv.callerDone here)
  | finish c call here => exact absurd returned (List.cons_ne_self _ _)
  | workerWork i here => exact (shown.moveWorker (by rw [here]; rfl)).waitWork threads (inv.workerWork here)
  | rdlock i here free =>
    have moved : (s.moveWorker i .readFunction).Shows t := shown.moveWorker (by rw [here]; rfl)
    exact ⟨t, .refl, moved.caller, moved.current⟩
  | readFunction i here => exact ⟨t, .refl, shown.moveWorker (by rw [here]; rfl)⟩
  | readArg i workFunction here => exact ⟨t, .refl, shown.moveWorker (by rw [here]; rfl)⟩
  | rdunlock i workFunction arg here =>
    have moved : (s.moveWorker i (.run workFunction arg)).Shows t := shown.moveWorker (by rw [here]; rfl)
    exact ⟨t, .refl, moved.caller, moved.current⟩
  | run i workFunction arg here =>
    have longer := congrFun ran i
    simp at longer
  | workerDone i here => exact (shown.moveWorker (by rw [here]; rfl)).waitDone (inv.workerDone here)

/-- A worker that runs its copy of the pair runs the pair of the call that is being run, which it
has not run yet. -/
theorem PoolState.Shows.run (inv : PoolInv s done setter waiter 0 0) (shown : s.Shows t) {i : Fin N} {workFunction : Option F}
    {arg : Option A} (here : s.worker i = .run workFunction arg) :
    ∃ t', Run JoinStep t [.ran i workFunction arg] t' ∧ PoolState.Shows { s.moveWorker i .arriveDone with
      ran := Function.update s.ran i (s.ran i ++ [(workFunction, arg)]) } t' := by
  have own := inv.workers i
  rw [here] at own
  obtain ⟨round, _, pair⟩ := own
  obtain ⟨c, rfl⟩ := Option.isSome_iff_exists.mp round
  obtain ⟨call, serves⟩ := ((inv.awaits c).mpr rfl).serves
  have number : call = done := by
    have known := inv.callers c
    cases pc : s.caller c <;> rw [pc] at known serves <;> cases serves <;> exact known
  subst number
  have current := shown.current
  cases taken : t.current with
  | none =>
    rw [taken] at current
    rw [current c] at serves
    cases serves
  | some call' =>
    obtain ⟨c', workFunction', arg', todo⟩ := call'
    rw [taken] at current
    obtain ⟨call', serves', pair', pending⟩ := current
    have same : c' = c := Option.some.inj ((inv.awaits c').mp (CallPc.serves_awaits serves')).symm
    subst same
    rw [serves] at serves'
    cases serves'
    rw [pair] at pair'
    cases pair'
    refine ⟨_, Run.single (.run i c' workFunction' arg' todo taken ((pending i).mpr (by rw [here]; rfl))), shown.caller,
      call, serves, pair, fun j => ?_⟩
    by_cases same : j = i
    · subst same
      simp [PoolState.moveWorker, LoopPc.pending]
    · simp [PoolState.moveWorker, same, pending j]

/-- One step. -/
theorem PoolMove.simulates (threads : 0 < N) :
    Simulates PoolMove JoinStep fun (s : PoolState N C F A) t =>
      (∃ done setter waiter, PoolInv s done setter waiter 0 0) ∧ s.Shows t := by
  rintro s t events s' ⟨⟨done, setter, waiter, inv⟩, shown⟩ move
  have inv' : ∃ done setter waiter, PoolInv s' done setter waiter 0 0 := by
    rcases move.steps with call | step
    · exact ⟨done, setter, waiter, (inv.call call).1⟩
    · obtain ⟨done', setter', waiter', inv', _⟩ := inv.step threads step
      exact ⟨done', setter', waiter', inv'⟩
  cases move with
  | call c workFunction arg here =>
    have seen := shown.caller c
    rw [here] at seen
    exact ⟨_, Run.single (.call c workFunction arg seen), inv', shown.move (by rw [here]; rfl) rfl⟩
  | run i workFunction arg here =>
    obtain ⟨t', run, shows'⟩ := shown.run inv here
    exact ⟨t', run, inv', shows'⟩
  | finish c call here =>
    have seen := shown.caller c
    rw [here] at seen
    have moved : (s.move c .idle).Shows (t.move c .idle) := shown.move (by rw [here]; rfl) rfl
    exact ⟨_, Run.single (.finish c seen), inv', moved.caller, moved.current⟩
  | silent step ran returned =>
    obtain ⟨t', run, shows'⟩ := shown.silent threads inv step ran returned
    exact ⟨t', run, inv', shows'⟩

end Simulation

/-- What is seen of a turn. -/
def PoolState.seen (s : PoolState N C F A) : PoolTurn N C F A → List (PoolEvent N C F A)
  | .call c workFunction arg => [.called c workFunction arg]
  | .caller c =>
    match s.caller c with
    | .finish _ => [.returned c]
    | _ => []
  | .worker i =>
    match s.worker i with
    | .run workFunction arg => [.ran i workFunction arg]
    | _ => []

theorem PoolMove.of_turn [DecidableEq C] {s s' : PoolState N C F A} {turn : PoolTurn N C F A}
    (made : s.turn (fun _ => True) turn = some s') : PoolMove s (s.seen turn) s' := by
  cases turn with
  | call c workFunction arg =>
    simp only [PoolState.turn] at made
    split at made <;> cases made
    exact .call c workFunction arg ‹_›
  | caller c =>
    have step := PoolState.turn_caller made
    simp only [PoolState.turn] at made
    cases here : s.caller c <;> rw [here] at made <;> simp only [PoolState.seen, here]
    case finish call =>
      cases made
      exact .finish c call here
    case wrlock workFunction arg =>
      obtain ⟨_, same⟩ := Option.ite_none_right_eq_some.mp made
      cases same
      exact .silent step rfl rfl
    case setFunction | setArg | unlock =>
      cases made
      exact .silent step rfl rfl
    case arriveWork call =>
      cases made
      obtain ⟨ran, returned, _⟩ := (s.move c (.waitWork call)).waitWork_record
      exact .silent step ran returned
    case arriveDone call =>
      cases made
      obtain ⟨ran, returned, _⟩ := (s.move c (.waitDone call)).waitDone_record
      exact .silent step ran returned
    case idle | waitWork | waitDone => cases made
  | worker i =>
    have step := PoolState.turn_worker made
    simp only [PoolState.turn] at made
    cases here : s.worker i <;> rw [here] at made <;> simp only [PoolState.seen, here]
    case run workFunction arg =>
      cases made
      exact .run i workFunction arg here
    case rdlock =>
      obtain ⟨_, same⟩ := Option.ite_none_right_eq_some.mp made
      cases same
      exact .silent step rfl rfl
    case readFunction | readArg | unlock =>
      cases made
      exact .silent step rfl rfl
    case arriveWork =>
      cases made
      obtain ⟨ran, returned, _⟩ := (s.moveWorker i .waitWork).waitWork_record
      exact .silent step ran returned
    case arriveDone =>
      cases made
      obtain ⟨ran, returned, _⟩ := (s.moveWorker i .waitDone).waitDone_record
      exact .silent step ran returned
    case waitWork | waitDone => cases made

theorem PoolMove.of_turns [DecidableEq C] {s : PoolState N C F A} {events : List (PoolEvent N C F A)}
    (turns : List (PoolTurn N C F A))
    (made : perform (PoolState.turn fun _ => True) PoolState.seen turns .start = some (events, s)) :
    Run PoolMove .start events s :=
  Run.of_perform (fun _ _ _ => PoolMove.of_turn) turns made

/-- Whatever the interleaving of the callers and the workers, what is seen of the pool is a run of the
abstract machine. -/
theorem PoolMove.refinesJoin [DecidableEq C] {s : PoolState N C F A} {events : List (PoolEvent N C F A)} (threads : 1 ≤ N)
    (run : Run PoolMove .start events s) : ∃ t, Run JoinStep .start events t ∧ s.Shows t := by
  obtain ⟨t, run', _, shown⟩ := (PoolMove.simulates threads).run ⟨⟨0, none, none, poolStart_inv⟩, poolStart_shows⟩ run
  exact ⟨t, run', shown⟩

set_option maxRecDepth 8000 in
/-- Two callers and two workers, until both calls have returned. -/
theorem twoWorkers_moves : ∃ s : PoolState 2 Bool Nat Nat,
    Run PoolMove .start [.called false 7 8, .called true 9 10, .ran 1 (some 7) (some 8), .ran 0 (some 7) (some 8),
      .returned false, .ran 0 (some 9) (some 10), .ran 1 (some 9) (some 10), .returned true] s ∧
      ∀ c, s.caller c = .idle :=
  ⟨_, PoolMove.of_turns (overlappingTurns ++ closingTurns) rfl, fun c => by cases c <;> rfl⟩

theorem twoWorkers_forkJoin : ∃ (s : PoolState 2 Bool Nat Nat) (t : JoinState 2 Bool Nat Nat),
    Run JoinStep .start [.called false 7 8, .called true 9 10, .ran 1 (some 7) (some 8), .ran 0 (some 7) (some 8),
      .returned false, .ran 0 (some 9) (some 10), .ran 1 (some 9) (some 10), .returned true] t ∧ s.Shows t := by
  obtain ⟨s, run, _⟩ := twoWorkers_moves
  exact ⟨s, PoolMove.refinesJoin (by decide) run⟩

/-- A call that the workers run, and the order in which they do. -/
structure Round (N : Nat) (C F A : Type) where
  caller : C
  workFunction : F
  arg : A
  order : List (Fin N)

def Round.runs (r : Round N C F A) : List (Fin N × Option F × Option A) :=
  r.order.map fun i => (i, some r.workFunction, some r.arg)

/-- Each worker has run the call, once. -/
def Round.Whole (r : Round N C F A) : Prop := r.order.Perm (List.finRange N)

def PoolEvent.run? : PoolEvent N C F A → Option (Fin N × Option F × Option A)
  | .ran i workFunction arg => some (i, workFunction, arg)
  | _ => none

section Callers

variable [DecidableEq C]

def PoolEvent.call? (c : C) : PoolEvent N C F A → Option (F × A)
  | .called c' workFunction arg => if c' = c then some (workFunction, arg) else none
  | _ => none

def PoolEvent.returns (c : C) : PoolEvent N C F A → Bool
  | .returned c' => c' = c
  | _ => false

/-- The pairs of the rounds of one caller. -/
def roundsOf (c : C) (rounds : List (Round N C F A)) : List (F × A) :=
  rounds.filterMap fun r => if r.caller = c then some (r.workFunction, r.arg) else none

/-- What a caller has seen: the calls it has made, how many have returned, and the rounds that are past. -/
def JoinPc.Seen (calls past : List (F × A)) (returns : Nat) (current : Option (F × A)) : JoinPc F A → Prop
  | .idle => current = none ∧ calls = past ∧ returns = past.length
  | .called workFunction arg => current = none ∧ calls = past ++ [(workFunction, arg)] ∧ returns = past.length
  | .running => ∃ pair, current = some pair ∧ calls = past ++ [pair] ∧ returns = past.length
  | .joined => current = none ∧ calls = past ∧ returns + 1 = past.length

/-- The round that is not past. -/
def JoinState.currentOf (t : JoinState N C F A) (c : C) : Option (F × A) :=
  t.current.bind fun taken => if taken.1 = c then some (taken.2.1, taken.2.2.1) else none

theorem JoinState.currentOf_none {t : JoinState N C F A} (free : t.current = none) (c : C) : t.currentOf c = none := by
  rw [currentOf, free, Option.bind_none]

theorem JoinState.currentOf_some {t : JoinState N C F A} {c : C} {workFunction : F} {arg : A} {todo : Finset (Fin N)}
    (here : t.current = some (c, workFunction, arg, todo)) (c' : C) :
    t.currentOf c' = if c = c' then some (workFunction, arg) else none := by
  rw [currentOf, here, Option.bind_some]

/-- The rounds that are over are whole, and the one that is not has run the call on the workers that
are not to run it any more. -/
structure RoundsInv (t : JoinState N C F A) (events : List (PoolEvent N C F A)) (rounds : List (Round N C F A))
    (order : List (Fin N)) : Prop where
  whole : ∀ r ∈ rounds, r.Whole
  nodup : order.Nodup
  ran : events.filterMap PoolEvent.run? = rounds.flatMap Round.runs ++
    t.current.elim [] fun taken => (Round.mk taken.1 taken.2.1 taken.2.2.1 order).runs
  todo : ∀ taken ∈ t.current, ∀ i, i ∈ order ↔ i ∉ taken.2.2.2
  callers : ∀ c, (t.caller c).Seen (events.filterMap (PoolEvent.call? c)) (roundsOf c rounds)
    (events.countP (PoolEvent.returns c)) (t.currentOf c)

/-- The round is over when each worker has run its call. -/
theorem RoundsInv.join {t : JoinState N C F A} {events : List (PoolEvent N C F A)} {rounds : List (Round N C F A)}
    {order : List (Fin N)} (inv : RoundsInv t events rounds order) {c : C} {workFunction : F} {arg : A}
    (here : t.current = some (c, workFunction, arg, ∅)) :
    RoundsInv { t.move c .joined with current := none } events (rounds ++ [⟨c, workFunction, arg, order⟩]) [] := by
  have all (i : Fin N) : i ∈ order := (inv.todo _ here i).mpr (Finset.notMem_empty i)
  have whole : order.Perm (List.finRange N) :=
    (List.perm_ext_iff_of_nodup inv.nodup (List.nodup_finRange N)).mpr fun i => by simp [all i]
  refine ⟨?_, List.nodup_nil, ?_, nofun, fun c' => ?_⟩
  · simpa [or_imp, forall_and] using ⟨inv.whole, whole⟩
  · simpa [here] using inv.ran
  · have seen := inv.callers c'
    by_cases same : c' = c
    · subst same
      rw [JoinState.currentOf_some here, if_pos rfl] at seen
      cases pc : t.caller c' with
      | running =>
        rw [pc] at seen
        obtain ⟨pair, taken, calls, returns⟩ := seen
        cases taken
        simp only [JoinState.move, Function.update_self]
        exact ⟨rfl, by simp [calls, roundsOf], by simp [returns, roundsOf]⟩
      | _ =>
        rw [pc] at seen
        cases seen.1
    · rw [JoinState.currentOf_some here, if_neg (Ne.symm same)] at seen
      simpa [JoinState.move, same, JoinState.currentOf, roundsOf, Ne.symm same] using seen

theorem JoinStep.rounds {t t' : JoinState N C F A} {events new : List (PoolEvent N C F A)}
    {rounds : List (Round N C F A)} {order : List (Fin N)} (inv : RoundsInv t events rounds order)
    (step : JoinStep t new t') : ∃ rounds' order', RoundsInv t' (events ++ new) rounds' order' := by
  cases step with
  | call c workFunction arg here =>
    refine ⟨rounds, order, inv.whole, inv.nodup, ?_, inv.todo, fun c' => ?_⟩
    · simpa [List.filterMap_cons, PoolEvent.run?, JoinState.move] using inv.ran
    · have seen := inv.callers c'
      by_cases same : c' = c
      · subst same
        rw [here] at seen
        obtain ⟨missing, calls, returns⟩ := seen
        simp only [JoinState.move, Function.update_self]
        exact ⟨missing, by simp [PoolEvent.call?, calls], by simpa [PoolEvent.returns] using returns⟩
      · simpa [List.filterMap_cons, JoinState.move, JoinState.currentOf, same, PoolEvent.call?, PoolEvent.returns, Ne.symm same]
          using seen
  | fork c workFunction arg here free =>
    refine ⟨rounds, [], inv.whole, List.nodup_nil, ?_, ?_, fun c' => ?_⟩
    · simpa [free, Round.runs] using inv.ran
    · simp
    · have seen := inv.callers c'
      by_cases same : c' = c
      · subst same
        rw [here] at seen
        obtain ⟨_, calls, returns⟩ := seen
        simp only [JoinState.move, Function.update_self, List.append_nil]
        exact ⟨(workFunction, arg), by simp [JoinState.currentOf], calls, returns⟩
      · rw [JoinState.currentOf_none free] at seen
        simpa [JoinState.move, same, JoinState.currentOf, Ne.symm same] using seen
  | run i c workFunction arg todo here member =>
    have pending := inv.todo _ here
    refine ⟨rounds, order ++ [i], inv.whole, ?_, ?_, ?_, fun c' => ?_⟩
    · rw [← List.concat_eq_append]
      exact inv.nodup.concat fun old => (pending i).mp old member
    · have ran := inv.ran
      rw [here] at ran
      simp [List.filterMap_append, ran, PoolEvent.run?, Round.runs]
    · rintro taken ⟨rfl⟩ j
      simp only [List.mem_append, List.mem_singleton, Finset.mem_erase, pending j]
      tauto
    · have seen := inv.callers c'
      rw [JoinState.currentOf_some here] at seen
      simpa [List.filterMap_cons, JoinState.currentOf, PoolEvent.call?, PoolEvent.returns] using seen
  | join c workFunction arg here =>
    rw [List.append_nil]
    exact ⟨_, [], inv.join here⟩
  | finish c here =>
    refine ⟨rounds, order, inv.whole, inv.nodup, ?_, inv.todo, fun c' => ?_⟩
    · simpa [List.filterMap_cons, PoolEvent.run?, JoinState.move] using inv.ran
    · have seen := inv.callers c'
      by_cases same : c' = c
      · subst same
        rw [here] at seen
        obtain ⟨missing, calls, returns⟩ := seen
        simp only [JoinState.move, Function.update_self]
        exact ⟨missing, by simpa [List.filterMap_cons, PoolEvent.call?] using calls, by simpa [PoolEvent.returns] using returns⟩
      · simpa [List.filterMap_cons, JoinState.move, JoinState.currentOf, same, PoolEvent.call?, PoolEvent.returns, Ne.symm same]
          using seen

theorem RoundsInv.run {t : JoinState N C F A} {events : List (PoolEvent N C F A)} (run : Run JoinStep .start events t) :
    ∃ rounds order, RoundsInv t events rounds order := by
  induction run with
  | refl => exact ⟨[], [], nofun, List.nodup_nil, rfl, nofun, fun _ => ⟨rfl, rfl, rfl⟩⟩
  | tail _ last ih =>
    obtain ⟨rounds, order, inv⟩ := ih
    exact last.rounds inv

/-- The work functions are run in rounds, all but the last one whole. The rounds of a caller run
what it calls, in order, and a call returns only after its round is over. -/
structure InRounds (events : List (PoolEvent N C F A)) (rounds : List (Round N C F A)) (last : Option (Round N C F A)) :
    Prop where
  whole : ∀ r ∈ rounds, r.Whole
  nodup : ∀ r ∈ last, r.order.Nodup
  ran : events.filterMap PoolEvent.run? = (rounds ++ last.toList).flatMap Round.runs
  calls : ∀ c, roundsOf c (rounds ++ last.toList) <+: events.filterMap (PoolEvent.call? c)
  returns : ∀ c, events.countP (PoolEvent.returns c) ≤ (roundsOf c rounds).length

theorem RoundsInv.inRounds {t : JoinState N C F A} {events : List (PoolEvent N C F A)} {rounds : List (Round N C F A)}
    {order : List (Fin N)} (inv : RoundsInv t events rounds order) :
    InRounds events rounds (t.current.map fun taken => ⟨taken.1, taken.2.1, taken.2.2.1, order⟩) := by
  refine ⟨inv.whole, fun r member => ?_, ?_, fun c => ?_, fun c => ?_⟩
  · obtain ⟨taken, _, rfl⟩ := Option.mem_map.mp member
    exact inv.nodup
  · rw [inv.ran]
    cases t.current <;> simp
  · have last : roundsOf c (rounds ++ (t.current.map fun taken => Round.mk taken.1 taken.2.1 taken.2.2.1 order).toList) =
        roundsOf c rounds ++ (t.currentOf c).toList := by
      cases here : t.current with
      | none => simp [JoinState.currentOf, here]
      | some taken =>
        by_cases same : taken.1 = c <;> simp [JoinState.currentOf, here, roundsOf, same]
    have seen := inv.callers c
    rw [last]
    cases pc : t.caller c <;> rw [pc] at seen
    case idle => simp [seen.1, seen.2.1]
    case called => simp [seen.1, seen.2.1]
    case running =>
      obtain ⟨pair, taken, calls, _⟩ := seen
      simp [taken, calls]
    case joined => simp [seen.1, seen.2.1]
  · have seen := inv.callers c
    cases pc : t.caller c <;> rw [pc] at seen
    case idle => exact seen.2.2.le
    case called => exact seen.2.2.le
    case running => exact seen.choose_spec.2.2.le
    case joined => exact (Nat.le_succ _).trans seen.2.2.le

theorem PoolMove.rounds {s : PoolState N C F A} {events : List (PoolEvent N C F A)} (threads : 1 ≤ N)
    (run : Run PoolMove .start events s) : ∃ t rounds order, s.Shows t ∧ RoundsInv t events rounds order := by
  obtain ⟨t, run', _, shown⟩ := (PoolMove.simulates threads).run ⟨⟨0, none, none, poolStart_inv⟩, poolStart_shows⟩ run
  obtain ⟨rounds, order, inv⟩ := RoundsInv.run run'
  exact ⟨t, rounds, order, shown, inv⟩

/-- Whatever the interleaving of the callers and the workers. -/
theorem PoolMove.wholeRounds {s : PoolState N C F A} {events : List (PoolEvent N C F A)} (threads : 1 ≤ N)
    (run : Run PoolMove .start events s) : ∃ rounds last, InRounds events rounds last := by
  obtain ⟨_, rounds, _, _, inv⟩ := PoolMove.rounds threads run
  exact ⟨rounds, _, inv.inRounds⟩

theorem twoWorkers_wholeRounds : ∃ (rounds : List (Round 2 Bool Nat Nat)) (last : Option (Round 2 Bool Nat Nat)),
    InRounds [.called false 7 8, .called true 9 10, .ran 1 (some 7) (some 8), .ran 0 (some 7) (some 8),
      .returned false, .ran 0 (some 9) (some 10), .ran 1 (some 9) (some 10), .returned true] rounds last := by
  obtain ⟨_, run, _⟩ := twoWorkers_moves
  exact PoolMove.wholeRounds (by decide) run

end Callers

end Puma
