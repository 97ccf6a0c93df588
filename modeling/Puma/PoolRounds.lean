import Mathlib.Data.Fintype.Card
import Mathlib.Data.List.Infix
import Mathlib.Logic.Relation
import Puma.Lib.Refinement

namespace Puma

open Relation

variable {N : Nat} {C F A : Type}

/-- Where a thread is in `executeOnThreadPool`; `call` numbers the calls in the order in which they
take the write lock. -/
inductive CallPc (F A : Type)
  | idle
  | wrlock (workFunction : F) (arg : A)
  | setFunction (call : Nat) (workFunction : F) (arg : A)
  | setArg (call : Nat) (arg : A)
  | arriveWork (call : Nat)
  | waitWork (call : Nat)
  | unlock (call : Nat)
  | arriveDone (call : Nat)
  | waitDone (call : Nat)
  | finish (call : Nat)

/-- Where a worker is in the loop of `_threadPoolWorker`, with its copies of the work function and its
argument; a slot that has not been written is `none`. -/
inductive LoopPc (F A : Type)
  | arriveWork
  | waitWork
  | rdlock
  | readFunction
  | readArg (workFunction : Option F)
  | unlock (workFunction : Option F) (arg : Option A)
  | run (workFunction : Option F) (arg : Option A)
  | arriveDone
  | waitDone
  deriving DecidableEq

/-- The pool, its callers `C` and its workers. The last four fields are a record of what has
happened: the pairs in the order in which their calls took the write lock, the pairs that
each worker has run, the times it has been released from `workWaitBarrier`, and the
calls that have returned. -/
structure PoolState (N : Nat) (C F A : Type) where
  writer : Option C
  readers : Finset (Fin N)
  workFunction : Option F
  arg : Option A
  workCount : Nat
  doneCount : Nat
  caller : C → CallPc F A
  worker : Fin N → LoopPc F A
  locked : List (Option F × Option A)
  ran : Fin N → List (Option F × Option A)
  rounds : Fin N → Nat
  returned : List Nat

def PoolState.start : PoolState N C F A where
  writer := none
  readers := ∅
  workFunction := none
  arg := none
  workCount := 0
  doneCount := 0
  caller _ := .idle
  worker _ := .arriveWork
  locked := []
  ran _ := []
  rounds _ := 0
  returned := []

def CallPc.releaseWork : CallPc F A → CallPc F A
  | .waitWork call => .unlock call
  | pc => pc

def CallPc.releaseDone : CallPc F A → CallPc F A
  | .waitDone call => .finish call
  | pc => pc

def LoopPc.releaseWork : LoopPc F A → LoopPc F A
  | .waitWork => .rdlock
  | pc => pc

def LoopPc.releaseDone : LoopPc F A → LoopPc F A
  | .waitDone => .arriveWork
  | pc => pc

def LoopPc.isWaitWork : LoopPc F A → Bool
  | .waitWork => true
  | _ => false

def LoopPc.isWaitDone : LoopPc F A → Bool
  | .waitDone => true
  | _ => false

/-- The arrival of one more thread at `workWaitBarrier`: a barrier lets all threads that wait at it go on when
the `N + 1`st arrives. -/
def PoolState.waitWork (s : PoolState N C F A) : PoolState N C F A :=
  if s.workCount + 1 = N + 1 then
    { s with
      workCount := 0
      caller := fun c => (s.caller c).releaseWork
      worker := fun i => (s.worker i).releaseWork
      rounds := fun i => s.rounds i + if (s.worker i).isWaitWork then 1 else 0 }
  else { s with workCount := s.workCount + 1 }

/-- The arrival of one more thread at `doneBarrier`. -/
def PoolState.waitDone (s : PoolState N C F A) : PoolState N C F A :=
  if s.doneCount + 1 = N + 1 then
    { s with
      doneCount := 0
      caller := fun c => (s.caller c).releaseDone
      worker := fun i => (s.worker i).releaseDone }
  else { s with doneCount := s.doneCount + 1 }

section Steps

variable [DecidableEq C]

def PoolState.move (s : PoolState N C F A) (c : C) (pc : CallPc F A) : PoolState N C F A :=
  { s with caller := Function.update s.caller c pc }

def PoolState.moveWorker (s : PoolState N C F A) (i : Fin N) (pc : LoopPc F A) : PoolState N C F A :=
  { s with worker := Function.update s.worker i pc }

/-- A thread calls `executeOnThreadPool`. -/
inductive PoolCall (s : PoolState N C F A) : PoolState N C F A → Prop
  | call (c : C) (workFunction : F) (arg : A) (here : s.caller c = .idle) :
      PoolCall s (s.move c (.wrlock workFunction arg))

/-- A step of a thread inside a call or of a worker. The write lock is taken in `allowed` states only. -/
inductive PoolStep (allowed : PoolState N C F A → Prop) (s : PoolState N C F A) : PoolState N C F A → Prop
  | wrlock (c : C) (workFunction : F) (arg : A) (here : s.caller c = .wrlock workFunction arg)
      (free : s.writer = none) (quiet : s.readers = ∅) (may : allowed s) :
      PoolStep allowed s { s.move c (.setFunction s.locked.length workFunction arg) with
        writer := some c
        locked := s.locked ++ [(some workFunction, some arg)] }
  | setFunction (c : C) (call : Nat) (workFunction : F) (arg : A) (here : s.caller c = .setFunction call workFunction arg) :
      PoolStep allowed s { s.move c (.setArg call arg) with workFunction := some workFunction }
  | setArg (c : C) (call : Nat) (arg : A) (here : s.caller c = .setArg call arg) :
      PoolStep allowed s { s.move c (.arriveWork call) with arg := some arg }
  | callerWork (c : C) (call : Nat) (here : s.caller c = .arriveWork call) :
      PoolStep allowed s (s.move c (.waitWork call)).waitWork
  | wrunlock (c : C) (call : Nat) (here : s.caller c = .unlock call) :
      PoolStep allowed s { s.move c (.arriveDone call) with writer := none }
  | callerDone (c : C) (call : Nat) (here : s.caller c = .arriveDone call) :
      PoolStep allowed s (s.move c (.waitDone call)).waitDone
  | finish (c : C) (call : Nat) (here : s.caller c = .finish call) :
      PoolStep allowed s { s.move c .idle with returned := call :: s.returned }
  | workerWork (i : Fin N) (here : s.worker i = .arriveWork) :
      PoolStep allowed s (s.moveWorker i .waitWork).waitWork
  | rdlock (i : Fin N) (here : s.worker i = .rdlock) (free : s.writer = none) :
      PoolStep allowed s { s.moveWorker i .readFunction with readers := insert i s.readers }
  | readFunction (i : Fin N) (here : s.worker i = .readFunction) :
      PoolStep allowed s (s.moveWorker i (.readArg s.workFunction))
  | readArg (i : Fin N) (workFunction : Option F) (here : s.worker i = .readArg workFunction) :
      PoolStep allowed s (s.moveWorker i (.unlock workFunction s.arg))
  | rdunlock (i : Fin N) (workFunction : Option F) (arg : Option A) (here : s.worker i = .unlock workFunction arg) :
      PoolStep allowed s { s.moveWorker i (.run workFunction arg) with readers := s.readers.erase i }
  | run (i : Fin N) (workFunction : Option F) (arg : Option A) (here : s.worker i = .run workFunction arg) :
      PoolStep allowed s { s.moveWorker i .arriveDone with
        ran := Function.update s.ran i (s.ran i ++ [(workFunction, arg)]) }
  | workerDone (i : Fin N) (here : s.worker i = .arriveDone) :
      PoolStep allowed s (s.moveWorker i .waitDone).waitDone

/-- Who makes the next step: a thread that calls `executeOnThreadPool`, one that is inside a call, or a worker. -/
inductive PoolTurn (N : Nat) (C F A : Type)
  | call (c : C) (workFunction : F) (arg : A)
  | caller (c : C)
  | worker (i : Fin N)

/-- The step of the thread whose turn it is, if it can make one. -/
def PoolState.turn (allowed : PoolState N C F A → Prop) [DecidablePred allowed] (s : PoolState N C F A) :
    PoolTurn N C F A → Option (PoolState N C F A)
  | .call c workFunction arg =>
    match s.caller c with
    | .idle => some (s.move c (.wrlock workFunction arg))
    | _ => none
  | .caller c =>
    match s.caller c with
    | .wrlock workFunction arg =>
      if s.writer.isNone ∧ s.readers = ∅ ∧ allowed s then
        some { s.move c (.setFunction s.locked.length workFunction arg) with
          writer := some c
          locked := s.locked ++ [(some workFunction, some arg)] }
      else none
    | .setFunction call workFunction arg => some { s.move c (.setArg call arg) with workFunction := some workFunction }
    | .setArg call arg => some { s.move c (.arriveWork call) with arg := some arg }
    | .arriveWork call => some (s.move c (.waitWork call)).waitWork
    | .unlock call => some { s.move c (.arriveDone call) with writer := none }
    | .arriveDone call => some (s.move c (.waitDone call)).waitDone
    | .finish call => some { s.move c .idle with returned := call :: s.returned }
    | .idle | .waitWork _ | .waitDone _ => none
  | .worker i =>
    match s.worker i with
    | .arriveWork => some (s.moveWorker i .waitWork).waitWork
    | .rdlock => if s.writer.isNone then some { s.moveWorker i .readFunction with readers := insert i s.readers } else none
    | .readFunction => some (s.moveWorker i (.readArg s.workFunction))
    | .readArg workFunction => some (s.moveWorker i (.unlock workFunction s.arg))
    | .unlock workFunction arg => some { s.moveWorker i (.run workFunction arg) with readers := s.readers.erase i }
    | .run workFunction arg => some { s.moveWorker i .arriveDone with
        ran := Function.update s.ran i (s.ran i ++ [(workFunction, arg)]) }
    | .arriveDone => some (s.moveWorker i .waitDone).waitDone
    | .waitWork | .waitDone => none

section Turns

variable {allowed : PoolState N C F A → Prop} [DecidablePred allowed] {s s' : PoolState N C F A}

theorem PoolState.turn_caller {c : C} (made : s.turn allowed (.caller c) = some s') : PoolStep allowed s s' := by
  simp only [PoolState.turn] at made
  cases here : s.caller c <;> rw [here] at made
  case wrlock workFunction arg =>
    obtain ⟨⟨free, quiet, may⟩, same⟩ := Option.ite_none_right_eq_some.mp made
    cases same
    exact .wrlock c workFunction arg here (Option.isNone_iff_eq_none.mp free) quiet may
  case setFunction call workFunction arg =>
    cases made
    exact .setFunction c call workFunction arg here
  case setArg call arg =>
    cases made
    exact .setArg c call arg here
  case arriveWork call =>
    cases made
    exact .callerWork c call here
  case unlock call =>
    cases made
    exact .wrunlock c call here
  case arriveDone call =>
    cases made
    exact .callerDone c call here
  case finish call =>
    cases made
    exact .finish c call here
  case idle | waitWork | waitDone => cases made

theorem PoolState.turn_worker {i : Fin N} (made : s.turn allowed (.worker i) = some s') : PoolStep allowed s s' := by
  simp only [PoolState.turn] at made
  cases here : s.worker i <;> rw [here] at made
  case rdlock =>
    obtain ⟨free, same⟩ := Option.ite_none_right_eq_some.mp made
    cases same
    exact .rdlock i here (Option.isNone_iff_eq_none.mp free)
  case arriveWork =>
    cases made
    exact .workerWork i here
  case readFunction =>
    cases made
    exact .readFunction i here
  case readArg workFunction =>
    cases made
    exact .readArg i workFunction here
  case unlock workFunction arg =>
    cases made
    exact .rdunlock i workFunction arg here
  case run workFunction arg =>
    cases made
    exact .run i workFunction arg here
  case arriveDone =>
    cases made
    exact .workerDone i here
  case waitWork | waitDone => cases made

theorem PoolState.turn_step {turn : PoolTurn N C F A} (made : s.turn allowed turn = some s') :
    PoolCall s s' ∨ PoolStep allowed s s' := by
  cases turn with
  | call c workFunction arg =>
    simp only [PoolState.turn] at made
    split at made <;> cases made
    exact Or.inl (.call c workFunction arg ‹_›)
  | caller c => exact Or.inr (PoolState.turn_caller made)
  | worker i => exact Or.inr (PoolState.turn_worker made)

end Turns

/-- The states of any interleaving. -/
def PoolReachable (allowed : PoolState N C F A → Prop) (s : PoolState N C F A) : Prop :=
  ReflTransGen (fun s s' => PoolCall s s' ∨ PoolStep allowed s s') .start s

theorem PoolReachable.of_turns {allowed : PoolState N C F A → Prop} [DecidablePred allowed] {s : PoolState N C F A}
    (turns : List (PoolTurn N C F A)) (made : turns.foldlM (PoolState.turn allowed) .start = some s) :
    PoolReachable allowed s :=
  Refinement.reflTransGen_of_foldlM (fun _ _ _ => PoolState.turn_step) made

end Steps

/-- Between taking the write lock and passing `workWaitBarrier`. -/
def CallPc.Sets : CallPc F A → Prop
  | .setFunction .. | .setArg .. | .arriveWork _ | .waitWork _ => True
  | _ => False

/-- Between passing `workWaitBarrier` and passing `doneBarrier`. -/
def CallPc.Awaits : CallPc F A → Prop
  | .unlock _ | .arriveDone _ | .waitDone _ => True
  | _ => False

def CallPc.Holds : CallPc F A → Prop
  | .setFunction .. | .setArg .. | .arriveWork _ | .waitWork _ | .unlock _ => True
  | _ => False

def CallPc.isWaitWork : CallPc F A → Bool
  | .waitWork _ => true
  | _ => false

def CallPc.isWaitDone : CallPc F A → Bool
  | .waitDone _ => true
  | _ => false

def LoopPc.Reads : LoopPc F A → Prop
  | .readFunction | .readArg _ | .unlock .. => True
  | _ => False

/-- Released from `workWaitBarrier`, and the work function has not returned yet. -/
def LoopPc.pending : LoopPc F A → Bool
  | .rdlock | .readFunction | .readArg _ | .unlock .. | .run .. => true
  | _ => false

/-- 1 if there is such a caller. -/
def oneIf (c : Option C) : Nat := if c.isSome then 1 else 0

/-- What a caller knows when `done` rounds are over. -/
def CallerOk (s : PoolState N C F A) (done : Nat) : CallPc F A → Prop
  | .setFunction call workFunction arg => call + 1 = s.locked.length ∧ s.locked.getLast? = some (some workFunction, some arg)
  | .setArg call arg => call + 1 = s.locked.length ∧ s.locked.getLast? = some (s.workFunction, some arg)
  | .arriveWork call | .waitWork call => call + 1 = s.locked.length ∧ s.locked.getLast? = some (s.workFunction, s.arg)
  | .unlock call | .arriveDone call | .waitDone call => call = done
  | .finish call => call < done
  | .idle | .wrlock .. => True

/-- What a worker has run when `done` rounds are over, and what it has read in the current one. -/
def WorkerOk (locked : List (Option F × Option A)) (done : Nat) (waiter : Option C) (ran : Nat) : LoopPc F A → Prop
  | .arriveWork | .waitWork => waiter = none ∧ ran = done
  | .rdlock | .readFunction => waiter.isSome ∧ ran = done
  | .readArg workFunction => waiter.isSome ∧ ran = done ∧ ∃ arg, locked[done]? = some (workFunction, arg)
  | .unlock workFunction arg | .run workFunction arg => waiter.isSome ∧ ran = done ∧
      locked[done]? = some (workFunction, arg)
  | .arriveDone | .waitDone => waiter.isSome ∧ ran = done + 1

/-- The state when `done` rounds are over: `setter` holds the write lock for the next round, `waiter` is
the caller of the current one. `work` and `last` threads have arrived at the barriers
but are not counted yet. -/
structure PoolInv (s : PoolState N C F A) (done : Nat) (setter waiter : Option C) (work last : Nat) : Prop where
  sets : ∀ c, (s.caller c).Sets ↔ setter = some c
  awaits : ∀ c, (s.caller c).Awaits ↔ waiter = some c
  length : s.locked.length = done + oneIf waiter + oneIf setter
  callers : ∀ c, CallerOk s done (s.caller c)
  writer : ∀ c, s.writer = some c ↔ (s.caller c).Holds
  readers : ∀ i, i ∈ s.readers ↔ (s.worker i).Reads
  exclusive : s.writer ≠ none → s.readers = ∅
  settled : setter = none → s.locked ≠ [] → s.locked.getLast? = some (s.workFunction, s.arg)
  workers : ∀ i, WorkerOk s.locked done waiter (s.ran i).length (s.worker i)
  ran : ∀ i, s.ran i <+: s.locked
  rounds : ∀ i, s.rounds i = done + oneIf waiter
  workCount : s.workCount + work = (Finset.univ.filter fun i => (s.worker i).isWaitWork).card +
    if setter.any fun c => (s.caller c).isWaitWork then 1 else 0
  doneCount : s.doneCount + last = (Finset.univ.filter fun i => (s.worker i).isWaitDone).card +
    if waiter.any fun c => (s.caller c).isWaitDone then 1 else 0
  workRoom : s.workCount ≤ N
  doneRoom : s.doneCount ≤ N
  returned : ∀ call ∈ s.returned, call < done

theorem comp_update {ι κ β : Type} [DecidableEq ι] (f : κ → β) {g : ι → κ} {i : ι} {x : κ} (same : f x = f (g i)) :
    (fun j => f (Function.update g i x j)) = fun j => f (g j) := by
  funext j
  by_cases here : j = i
  · rw [here, Function.update_self, same]
  · rw [Function.update_of_ne here]

theorem poolStart_inv : PoolInv (PoolState.start : PoolState N C F A) 0 none none 0 0 where
  sets c := by simp [PoolState.start, CallPc.Sets]
  awaits c := by simp [PoolState.start, CallPc.Awaits]
  length := rfl
  callers c := trivial
  writer c := by simp [PoolState.start, CallPc.Holds]
  readers i := by simp [PoolState.start, LoopPc.Reads]
  exclusive held := absurd rfl held
  settled _ nonempty := absurd rfl nonempty
  workers i := ⟨rfl, rfl⟩
  ran i := List.nil_prefix
  rounds i := rfl
  workCount := by simp [PoolState.start, LoopPc.isWaitWork]
  doneCount := by simp [PoolState.start, LoopPc.isWaitDone]
  workRoom := Nat.zero_le _
  doneRoom := Nat.zero_le _
  returned call member := absurd member List.not_mem_nil

section Invariant

variable {s : PoolState N C F A} {done work last : Nat} {setter waiter : Option C}

/-- A caller that does not hold the slot knows nothing about it. -/
theorem CallerOk.slot {s' : PoolState N C F A} {pc : CallPc F A} (other : ¬ pc.Sets) (ok : CallerOk s done pc) :
    CallerOk s' done pc := by
  cases pc with
  | setFunction => exact absurd trivial other
  | setArg => exact absurd trivial other
  | arriveWork => exact absurd trivial other
  | waitWork => exact absurd trivial other
  | _ => exact ok

section Moves

variable [DecidableEq C]

/-- A caller moves and may write the slot while it holds it. -/
theorem PoolInv.move (inv : PoolInv s done setter waiter work last) {c : C} {pc : CallPc F A} {work' last' : Nat}
    {writer : Option C} {workFunction : Option F} {arg : Option A} (sets : pc.Sets = (s.caller c).Sets)
    (awaits : pc.Awaits = (s.caller c).Awaits)
    (holds : ∀ c', writer = some c' ↔ (Function.update s.caller c pc c').Holds)
    (exclusive : writer ≠ none → s.readers = ∅)
    (slot : (workFunction = s.workFunction ∧ arg = s.arg) ∨ (s.caller c).Sets)
    (ok : CallerOk { s with workFunction := workFunction, arg := arg } done pc)
    (workCount : s.workCount + work' = (Finset.univ.filter fun i => (s.worker i).isWaitWork).card +
      if setter.any fun c' => (Function.update s.caller c pc c').isWaitWork then 1 else 0)
    (doneCount : s.doneCount + last' = (Finset.univ.filter fun i => (s.worker i).isWaitDone).card +
      if waiter.any fun c' => (Function.update s.caller c pc c').isWaitDone then 1 else 0) :
    PoolInv { s.move c pc with writer := writer, workFunction := workFunction, arg := arg } done setter waiter
      work' last' where
  sets c' := by
    rw [← inv.sets c']
    exact iff_of_eq (congrFun (comp_update CallPc.Sets sets) c')
  awaits c' := by
    rw [← inv.awaits c']
    exact iff_of_eq (congrFun (comp_update CallPc.Awaits awaits) c')
  length := inv.length
  callers c' := by
    by_cases here : c' = c
    · subst here
      simp only [PoolState.move, Function.update_self]
      exact ok
    · simp only [PoolState.move, Function.update_of_ne here]
      rcases slot with ⟨rfl, rfl⟩ | own
      · exact inv.callers c'
      · refine (inv.callers c').slot fun other => here ?_
        exact Option.some.inj (((inv.sets c').mp other).symm.trans ((inv.sets c).mp own))
  writer := holds
  readers := inv.readers
  exclusive := exclusive
  settled free nonempty := by
    rcases slot with ⟨rfl, rfl⟩ | own
    · exact inv.settled free nonempty
    · rw [(inv.sets c).mp own] at free
      cases free
  workers := inv.workers
  ran := inv.ran
  rounds := inv.rounds
  workCount := workCount
  doneCount := doneCount
  workRoom := inv.workRoom
  doneRoom := inv.doneRoom
  returned := inv.returned

/-- The lock when a caller moves that does not take it or give it up. -/
theorem PoolInv.move_holds (inv : PoolInv s done setter waiter work last) {c : C} {pc : CallPc F A}
    (holds : pc.Holds = (s.caller c).Holds) (c' : C) :
    s.writer = some c' ↔ (Function.update s.caller c pc c').Holds :=
  (inv.writer c').trans (iff_of_eq (congrFun (comp_update CallPc.Holds holds) c').symm)

/-- The counters when a caller moves that waits at no barrier. -/
theorem PoolInv.move_counts (inv : PoolInv s done setter waiter work last) {c : C} (pc : CallPc F A)
    (sameWork : pc.isWaitWork = (s.caller c).isWaitWork) (sameDone : pc.isWaitDone = (s.caller c).isWaitDone) :
    (s.workCount + work = (Finset.univ.filter fun i => (s.worker i).isWaitWork).card +
      if setter.any fun c' => (Function.update s.caller c pc c').isWaitWork then 1 else 0) ∧
    (s.doneCount + last = (Finset.univ.filter fun i => (s.worker i).isWaitDone).card +
      if waiter.any fun c' => (Function.update s.caller c pc c').isWaitDone then 1 else 0) := by
  rw [comp_update CallPc.isWaitWork sameWork, comp_update CallPc.isWaitDone sameDone]
  exact ⟨inv.workCount, inv.doneCount⟩

end Moves

/-- A worker moves. -/
theorem PoolInv.moveWorker (inv : PoolInv s done setter waiter work last) {i : Fin N} {pc : LoopPc F A}
    {work' last' : Nat} {readers : Finset (Fin N)} {ran : Fin N → List (Option F × Option A)}
    (reads : ∀ j, j ∈ readers ↔ (Function.update s.worker i pc j).Reads) (exclusive : s.writer ≠ none → readers = ∅)
    (others : ∀ j, j ≠ i → ran j = s.ran j) (runs : ran i <+: s.locked)
    (ok : WorkerOk s.locked done waiter (ran i).length pc)
    (workCount : s.workCount + work' = (Finset.univ.filter fun j => (Function.update s.worker i pc j).isWaitWork).card +
      if setter.any fun c => (s.caller c).isWaitWork then 1 else 0)
    (doneCount : s.doneCount + last' = (Finset.univ.filter fun j => (Function.update s.worker i pc j).isWaitDone).card +
      if waiter.any fun c => (s.caller c).isWaitDone then 1 else 0) :
    PoolInv { s.moveWorker i pc with readers := readers, ran := ran } done setter waiter work' last' where
  sets := inv.sets
  awaits := inv.awaits
  length := inv.length
  callers c := (inv.callers c)
  writer := inv.writer
  readers := reads
  exclusive := exclusive
  settled := inv.settled
  workers j := by
    by_cases here : j = i
    · subst here
      simp only [PoolState.moveWorker, Function.update_self]
      exact ok
    · simp only [PoolState.moveWorker, Function.update_of_ne here, others j here]
      exact inv.workers j
  ran j := by
    by_cases here : j = i
    · subst here
      exact runs
    · simp only [others j here]
      exact inv.ran j
  rounds := inv.rounds
  workCount := workCount
  doneCount := doneCount
  workRoom := inv.workRoom
  doneRoom := inv.doneRoom
  returned := inv.returned

/-- The counters when a worker moves that waits at no barrier. -/
theorem PoolInv.moveWorker_work (inv : PoolInv s done setter waiter work last) {i : Fin N} {pc : LoopPc F A}
    (same : pc.isWaitWork = (s.worker i).isWaitWork) :
    s.workCount + work = (Finset.univ.filter fun j => (Function.update s.worker i pc j).isWaitWork).card +
      if setter.any fun c => (s.caller c).isWaitWork then 1 else 0 := by
  have workers := comp_update LoopPc.isWaitWork same
  simp only [funext_iff] at workers
  simp only [workers]
  exact inv.workCount

theorem PoolInv.moveWorker_done (inv : PoolInv s done setter waiter work last) {i : Fin N} {pc : LoopPc F A}
    (same : pc.isWaitDone = (s.worker i).isWaitDone) :
    s.doneCount + last = (Finset.univ.filter fun j => (Function.update s.worker i pc j).isWaitDone).card +
      if waiter.any fun c => (s.caller c).isWaitDone then 1 else 0 := by
  have workers := comp_update LoopPc.isWaitDone same
  simp only [funext_iff] at workers
  simp only [workers]
  exact inv.doneCount

/-- One more worker waits. -/
theorem card_update {g : Fin N → LoopPc F A} (f : LoopPc F A → Bool) {i : Fin N} {pc : LoopPc F A}
    (before : f (g i) = false) (after : f pc = true) :
    (Finset.univ.filter fun j => f (Function.update g i pc j)).card = (Finset.univ.filter fun j => f (g j)).card + 1 := by
  have grown : (Finset.univ.filter fun j => f (Function.update g i pc j)) =
      insert i (Finset.univ.filter fun j => f (g j)) := by
    ext j
    by_cases here : j = i
    · simp [here, after]
    · simp [here]
  rw [grown, Finset.card_insert_of_notMem (by simp [before])]

/-- When all `N + 1` threads have arrived, all workers are among them, and a caller. -/
theorem all_arrived {P : Fin N → Bool} {Q : Option C} {f : C → Bool}
    (full : N + 1 = (Finset.univ.filter fun i => P i).card + if Q.any f then 1 else 0) :
    (∀ i, P i = true) ∧ ∃ c, Q = some c ∧ f c = true := by
  have most : (Finset.univ.filter fun i => P i).card ≤ N := by
    have := Finset.card_le_univ (Finset.univ.filter fun i => P i)
    rwa [Fintype.card_fin] at this
  have nonempty : Q.any f = true := by
    by_contra missing
    rw [if_neg missing] at full
    omega
  rw [if_pos nonempty] at full
  refine ⟨fun i => ?_, ?_⟩
  · have whole : (Finset.univ.filter fun i => P i) = Finset.univ := by
      rw [← Finset.card_eq_iff_eq_univ, Fintype.card_fin]
      omega
    have member : i ∈ Finset.univ.filter fun i => P i := by rw [whole]; exact Finset.mem_univ i
    exact (Finset.mem_filter.mp member).2
  · cases Q with
    | none => cases nonempty
    | some c => exact ⟨c, rfl, nonempty⟩

/-- The last arrival at `workWaitBarrier` starts a round for the caller that holds the lock. -/
theorem PoolInv.waitWork (inv : PoolInv s done setter waiter 1 0) (threads : 0 < N) :
    ∃ setter' waiter', PoolInv s.waitWork done setter' waiter' 0 0 ∧ (setter'.isSome → setter = setter') ∧
      (setter'.isSome → s.waitWork.worker = s.worker) := by
  unfold PoolState.waitWork
  by_cases full : s.workCount + 1 = N + 1
  · rw [if_pos full]
    obtain ⟨all, c, rfl, waits⟩ := all_arrived (full.symm.trans inv.workCount)
    have atWork (i : Fin N) : s.worker i = .waitWork := by
      have here := all i
      cases pc : s.worker i <;> rw [pc] at here <;> first | rfl | cases here
    have nobody : waiter = none := by
      have first := inv.workers ⟨0, threads⟩
      rw [atWork] at first
      exact first.1
    subst nobody
    obtain ⟨call, atCaller⟩ : ∃ call, s.caller c = .waitWork call := by
      cases pc : s.caller c <;> rw [pc] at waits <;> first | exact ⟨_, rfl⟩ | cases waits
    have same {c' : C} (other : c' ≠ c) : ¬ (s.caller c').Sets ∧ ¬ (s.caller c').Awaits :=
      ⟨fun sets => other (Option.some.inj ((inv.sets c').mp sets)).symm, fun awaits => by
        cases (inv.awaits c').mp awaits⟩
    have still {c' : C} (other : c' ≠ c) : (s.caller c').releaseWork = s.caller c' := by
      have := (same other).1
      cases pc : s.caller c' <;> rw [pc] at this <;> first | rfl | exact absurd trivial this
    have known := inv.callers c
    rw [atCaller] at known
    have length := inv.length
    simp only [oneIf, Option.isSome_none, Option.isSome_some, Bool.false_eq_true, if_false, if_true] at length
    refine ⟨none, some c, ⟨fun c' => ?_, fun c' => ?_, by simpa [oneIf] using length, fun c' => ?_, fun c' => ?_,
      fun i => ?_, inv.exclusive, fun _ _ => known.2, fun i => ?_, inv.ran, fun i => ?_, ?_, ?_, Nat.zero_le _,
      inv.doneRoom, inv.returned⟩, nofun, nofun⟩
    · by_cases here : c' = c
      · simp [here, atCaller, CallPc.releaseWork, CallPc.Sets]
      · simp only [still here]
        simpa using (same here).1
    · by_cases here : c' = c
      · simp [here, atCaller, CallPc.releaseWork, CallPc.Awaits]
      · simp only [still here]
        simpa [Ne.symm here] using (same here).2
    · by_cases here : c' = c
      · have number : call + 1 = s.locked.length := known.1
        simp only [here, atCaller, CallPc.releaseWork, CallerOk]
        omega
      · simp only [still here]
        exact (inv.callers c').slot (same here).1
    · rw [inv.writer c']
      by_cases here : c' = c
      · simp [here, atCaller, CallPc.releaseWork, CallPc.Holds]
      · simp only [still here]
    · rw [inv.readers i]
      simp [atWork, LoopPc.releaseWork, LoopPc.Reads]
    · have own := inv.workers i
      rw [atWork] at own
      simp only [atWork, LoopPc.releaseWork]
      exact ⟨rfl, own.2⟩
    · have own := inv.rounds i
      simpa [atWork, LoopPc.isWaitWork, oneIf] using own
    · simp [atWork, LoopPc.releaseWork, LoopPc.isWaitWork]
    · have before := inv.doneCount
      simpa [atWork, LoopPc.releaseWork, LoopPc.isWaitDone, atCaller, CallPc.releaseWork, CallPc.isWaitDone] using before
  · rw [if_neg full]
    have room := inv.workRoom
    exact ⟨setter, waiter, { inv with workCount := inv.workCount, workRoom := by dsimp only; omega }, fun _ => rfl, fun _ => rfl⟩

/-- The last arrival at `doneBarrier` ends the round. -/
theorem PoolInv.waitDone (inv : PoolInv s done setter waiter 0 1) :
    ∃ done' waiter', PoolInv s.waitDone done' setter waiter' 0 0 := by
  unfold PoolState.waitDone
  by_cases full : s.doneCount + 1 = N + 1
  · rw [if_pos full]
    obtain ⟨all, c, rfl, waits⟩ := all_arrived (full.symm.trans inv.doneCount)
    have atDone (i : Fin N) : s.worker i = .waitDone := by
      have here := all i
      cases pc : s.worker i <;> rw [pc] at here <;> first | rfl | cases here
    obtain ⟨call, atCaller⟩ : ∃ call, s.caller c = .waitDone call := by
      cases pc : s.caller c <;> rw [pc] at waits <;> first | exact ⟨_, rfl⟩ | cases waits
    have same {c' : C} (other : c' ≠ c) : ¬ (s.caller c').Awaits := fun awaits =>
      other (Option.some.inj ((inv.awaits c').mp awaits)).symm
    have still {c' : C} (other : c' ≠ c) : (s.caller c').releaseDone = s.caller c' := by
      have := same other
      cases pc : s.caller c' <;> rw [pc] at this <;> first | rfl | exact absurd trivial this
    have known := inv.callers c
    rw [atCaller] at known
    have length := inv.length
    simp only [oneIf, Option.isSome_some, if_true] at length
    refine ⟨done + 1, none, ⟨fun c' => ?_, fun c' => ?_, by simpa [oneIf] using length, fun c' => ?_, fun c' => ?_,
      fun i => ?_, inv.exclusive, inv.settled, fun i => ?_, inv.ran, fun i => ?_, ?_, ?_, inv.workRoom, Nat.zero_le _,
      fun call member => Nat.lt_succ_of_lt (inv.returned call member)⟩⟩
    · rw [← inv.sets c']
      by_cases here : c' = c
      · simp [here, atCaller, CallPc.releaseDone, CallPc.Sets]
      · simp only [still here]
    · by_cases here : c' = c
      · simp [here, atCaller, CallPc.releaseDone, CallPc.Awaits]
      · simp only [still here]
        simpa using same here
    · by_cases here : c' = c
      · simp only [here, atCaller, CallPc.releaseDone, CallerOk]
        exact known ▸ Nat.lt_succ_self _
      · simp only [still here]
        have ok := inv.callers c'
        have other := same here
        cases pc : s.caller c' <;> rw [pc] at ok other <;> first | exact ok | exact absurd trivial other | exact Nat.lt_succ_of_lt ok
    · rw [inv.writer c']
      by_cases here : c' = c
      · simp [here, atCaller, CallPc.releaseDone, CallPc.Holds]
      · simp only [still here]
    · rw [inv.readers i]
      simp [atDone, LoopPc.releaseDone, LoopPc.Reads]
    · have own := inv.workers i
      rw [atDone] at own
      simp only [atDone, LoopPc.releaseDone]
      exact ⟨rfl, own.2⟩
    · have own := inv.rounds i
      simpa [oneIf] using own
    · have before := inv.workCount
      have flag : (setter.any fun c' => (s.caller c').releaseDone.isWaitWork) =
          setter.any fun c' => (s.caller c').isWaitWork := by
        congr 1
        funext c'
        cases s.caller c' <;> rfl
      simpa [atDone, LoopPc.releaseDone, LoopPc.isWaitWork, flag] using before
    · simp [atDone, LoopPc.releaseDone, LoopPc.isWaitDone]
  · rw [if_neg full]
    have room := inv.doneRoom
    exact ⟨done, waiter, { inv with doneCount := inv.doneCount, doneRoom := by dsimp only; omega }⟩

theorem CallPc.Sets.holds {pc : CallPc F A} (sets : pc.Sets) : pc.Holds := by
  cases pc <;> trivial

theorem PoolInv.setter_none (inv : PoolInv s done setter waiter work last) (free : s.writer = none) : setter = none := by
  cases setter with
  | none => rfl
  | some c =>
    have held := (inv.writer c).mpr ((inv.sets c).mpr rfl).holds
    rw [free] at held
    cases held

/-- A reader finds the pair of its round in the slot. -/
theorem PoolInv.slot (inv : PoolInv s done setter waiter work last) {i : Fin N} (reads : (s.worker i).Reads)
    (round : waiter.isSome) : s.locked[done]? = some (s.workFunction, s.arg) := by
  have free : s.writer = none := by
    by_contra held
    have member := (inv.readers i).mpr reads
    rw [inv.exclusive held] at member
    exact absurd member (Finset.notMem_empty i)
  have missing := inv.setter_none free
  have length := inv.length
  rw [missing, oneIf, if_pos round] at length
  have length' : s.locked.length = done + 1 := length
  have nonempty : s.locked ≠ [] := fun empty => by simp [empty] at length'
  have known := inv.settled missing nonempty
  rw [List.getLast?_eq_getElem?, length'] at known
  exact known

theorem WorkerOk.append {locked new : List (Option F × Option A)} {ran : Nat} {pc : LoopPc F A}
    (ok : WorkerOk locked done waiter ran pc) : WorkerOk (locked ++ new) done waiter ran pc := by
  have kept {pair : Option F × Option A} (atIndex : locked[done]? = some pair) : (locked ++ new)[done]? = some pair := by
    rw [List.getElem?_append_left (List.getElem?_eq_some_iff.mp atIndex).1]
    exact atIndex
  cases pc with
  | readArg f =>
    obtain ⟨round, count, arg, atIndex⟩ := ok
    exact ⟨round, count, arg, kept atIndex⟩
  | unlock f a => exact ⟨ok.1, ok.2.1, kept ok.2.2⟩
  | run f a => exact ⟨ok.1, ok.2.1, kept ok.2.2⟩
  | _ => exact ok

theorem prefix_concat {α : Type} {l locked : List α} {x : α} (within : l <+: locked) (next : locked[l.length]? = some x) :
    l ++ [x] <+: locked := by
  obtain ⟨rest, rfl⟩ := within
  rw [List.getElem?_append_right le_rfl, Nat.sub_self] at next
  obtain ⟨tail, rfl⟩ : ∃ tail, rest = x :: tail := by
    cases rest with
    | nil => cases next
    | cons y tail =>
      cases next
      exact ⟨tail, rfl⟩
  exact ⟨tail, by simp⟩

/-- No worker waits for its read lock while a caller holds the write lock for the next round. -/
def NoStale (s : PoolState N C F A) (setter : Option C) : Prop := setter.isSome → ∀ i, s.worker i ≠ .rdlock

theorem NoStale.waitDone (stale : NoStale s setter) : NoStale s.waitDone setter := by
  intro nonempty i
  have before := stale nonempty i
  unfold PoolState.waitDone
  split
  · cases pc : s.worker i <;> rw [pc] at before <;> simp [pc, LoopPc.releaseDone] at before ⊢
  · exact before

/-- The readers when a worker moves that does not take the lock or give it up. -/
theorem PoolInv.moveWorker_reads (inv : PoolInv s done setter waiter work last) {i : Fin N} {pc : LoopPc F A}
    (reads : pc.Reads = (s.worker i).Reads) (j : Fin N) : j ∈ s.readers ↔ (Function.update s.worker i pc j).Reads :=
  (inv.readers j).trans (iff_of_eq (congrFun (comp_update LoopPc.Reads reads) j).symm)

theorem PoolInv.workerWork (inv : PoolInv s done setter waiter 0 0) {i : Fin N} (here : s.worker i = .arriveWork) :
    PoolInv (s.moveWorker i .waitWork) done setter waiter 1 0 := by
  have own := inv.workers i
  rw [here] at own
  have before := inv.workCount
  refine inv.moveWorker (inv.moveWorker_reads (by rw [here]; rfl)) inv.exclusive (fun _ _ => rfl) (inv.ran i) own ?_
    (inv.moveWorker_done (by rw [here]; rfl))
  rw [card_update LoopPc.isWaitWork (by rw [here]; rfl) rfl]
  omega

theorem PoolInv.workerDone (inv : PoolInv s done setter waiter 0 0) {i : Fin N} (here : s.worker i = .arriveDone) :
    PoolInv (s.moveWorker i .waitDone) done setter waiter 0 1 := by
  have own := inv.workers i
  rw [here] at own
  have before := inv.doneCount
  refine inv.moveWorker (inv.moveWorker_reads (by rw [here]; rfl)) inv.exclusive (fun _ _ => rfl) (inv.ran i) own
    (inv.moveWorker_work (by rw [here]; rfl)) ?_
  rw [card_update LoopPc.isWaitDone (by rw [here]; rfl) rfl]
  omega

/-- A worker takes its read lock. -/
theorem PoolInv.rdlock (inv : PoolInv s done setter waiter 0 0) {i : Fin N} (here : s.worker i = .rdlock)
    (free : s.writer = none) :
    PoolInv { s.moveWorker i .readFunction with readers := insert i s.readers } done setter waiter 0 0 := by
  have own := inv.workers i
  rw [here] at own
  refine inv.moveWorker (fun j => ?_) (fun held => absurd free held) (fun _ _ => rfl) (inv.ran i) own
    (inv.moveWorker_work (by rw [here]; rfl)) (inv.moveWorker_done (by rw [here]; rfl))
  by_cases same : j = i
  · simp [same, LoopPc.Reads]
  · rw [Function.update_of_ne same, ← inv.readers j, Finset.mem_insert, or_iff_right same]

theorem PoolInv.rdunlock (inv : PoolInv s done setter waiter 0 0) {i : Fin N} {workFunction : Option F} {arg : Option A}
    (here : s.worker i = .unlock workFunction arg) :
    PoolInv { s.moveWorker i (.run workFunction arg) with readers := s.readers.erase i } done setter waiter 0 0 := by
  have own := inv.workers i
  rw [here] at own
  refine inv.moveWorker (fun j => ?_) (fun held => ?_) (fun _ _ => rfl) (inv.ran i) own
    (inv.moveWorker_work (by rw [here]; rfl)) (inv.moveWorker_done (by rw [here]; rfl))
  · by_cases same : j = i
    · simp [same, LoopPc.Reads]
    · rw [Function.update_of_ne same, ← inv.readers j, Finset.mem_erase, and_iff_right same]
  · rw [inv.exclusive held]
    exact Finset.erase_empty i

/-- A worker runs the pair of its round. -/
theorem PoolInv.run (inv : PoolInv s done setter waiter 0 0) {i : Fin N} {workFunction : Option F} {arg : Option A}
    (here : s.worker i = .run workFunction arg) :
    PoolInv { s.moveWorker i .arriveDone with ran := Function.update s.ran i (s.ran i ++ [(workFunction, arg)]) }
      done setter waiter 0 0 := by
  have own := inv.workers i
  rw [here] at own
  obtain ⟨round, count, pair⟩ := own
  refine inv.moveWorker (inv.moveWorker_reads (by rw [here]; rfl)) inv.exclusive
    (fun j other => Function.update_of_ne other ..) ?_ ?_
    (inv.moveWorker_work (by rw [here]; rfl)) (inv.moveWorker_done (by rw [here]; rfl))
  · rw [Function.update_self]
    exact prefix_concat (inv.ran i) (by rw [count, pair])
  · rw [Function.update_self, List.length_append, List.length_singleton, count]
    exact ⟨round, rfl⟩

variable [DecidableEq C]

theorem PoolInv.call {s' : PoolState N C F A} (inv : PoolInv s done setter waiter 0 0) (call : PoolCall s s') :
    PoolInv s' done setter waiter 0 0 ∧ s'.worker = s.worker := by
  cases call with
  | call c workFunction arg here =>
    obtain ⟨work, last⟩ := inv.move_counts (.wrlock workFunction arg) (by rw [here]; rfl) (by rw [here]; rfl)
    exact ⟨inv.move (by rw [here]; rfl) (by rw [here]; rfl) (inv.move_holds (by rw [here]; rfl)) inv.exclusive
      (Or.inl ⟨rfl, rfl⟩) trivial work last, rfl⟩

/-- A caller takes the write lock. -/
theorem PoolInv.wrlock (inv : PoolInv s done setter waiter 0 0) {c : C} {workFunction : F} {arg : A}
    (here : s.caller c = .wrlock workFunction arg) (free : s.writer = none) (quiet : s.readers = ∅) :
    PoolInv { s.move c (.setFunction s.locked.length workFunction arg) with
      writer := some c
      locked := s.locked ++ [(some workFunction, some arg)] } done (some c) waiter 0 0 := by
  have missing := inv.setter_none free
  subst missing
  have idle {c' : C} : ¬ (s.caller c').Sets := fun sets => by cases (inv.sets c').mp sets
  have length := inv.length
  refine ⟨fun c' => ?_, fun c' => ?_, ?_, fun c' => ?_, fun c' => ?_, inv.readers, fun _ => quiet, nofun,
    fun i => (inv.workers i).append, fun i => (inv.ran i).trans (List.prefix_append ..), inv.rounds, ?_, ?_, inv.workRoom,
    inv.doneRoom, inv.returned⟩
  · by_cases same : c' = c
    · simp [PoolState.move, same, CallPc.Sets]
    · simp only [PoolState.move, Function.update_of_ne same]
      simpa [Ne.symm same] using idle
  · rw [← inv.awaits c']
    exact iff_of_eq (congrFun (comp_update CallPc.Awaits (by rw [here]; rfl)) c')
  · simp only [List.length_append, List.length_singleton, length, oneIf, Option.isSome_none, Option.isSome_some]
    rfl
  · by_cases same : c' = c
    · simp [PoolState.move, same, CallerOk]
    · simp only [PoolState.move, Function.update_of_ne same]
      exact (inv.callers c').slot idle
  · by_cases same : c' = c
    · simp [PoolState.move, same, CallPc.Holds]
    · simp only [PoolState.move, Function.update_of_ne same, ← inv.writer c', free]
      simp [Ne.symm same]
  · have before := inv.workCount
    have moving : ((some c).any fun c' => (Function.update s.caller c
        (.setFunction s.locked.length workFunction arg) c').isWaitWork) = false := by simp [CallPc.isWaitWork]
    simp only [PoolState.move, moving]
    exact before
  · have before := inv.doneCount
    simp only [PoolState.move, comp_update CallPc.isWaitDone (show (CallPc.setFunction s.locked.length workFunction arg
      : CallPc F A).isWaitDone = (s.caller c).isWaitDone by rw [here]; rfl)]
    exact before

theorem PoolInv.callerWork (inv : PoolInv s done setter waiter 0 0) {c : C} {call : Nat}
    (here : s.caller c = .arriveWork call) : PoolInv (s.move c (.waitWork call)) done setter waiter 1 0 := by
  have known := inv.callers c
  rw [here] at known
  have own : setter = some c := (inv.sets c).mp (by rw [here]; trivial)
  have before := inv.workCount
  subst own
  refine inv.move (by rw [here]; rfl) (by rw [here]; rfl) (inv.move_holds (by rw [here]; rfl)) inv.exclusive
    (Or.inl ⟨rfl, rfl⟩) known ?_ ?_
  · simp only [Option.any_some, here, CallPc.isWaitWork, Bool.false_eq_true, if_false, Nat.add_zero] at before
    simp only [Option.any_some, Function.update_self, CallPc.isWaitWork, if_true, before]
  · rw [comp_update CallPc.isWaitDone (by rw [here]; rfl)]
    exact inv.doneCount

theorem PoolInv.callerDone (inv : PoolInv s done setter waiter 0 0) {c : C} {call : Nat}
    (here : s.caller c = .arriveDone call) : PoolInv (s.move c (.waitDone call)) done setter waiter 0 1 := by
  have known := inv.callers c
  rw [here] at known
  have own : waiter = some c := (inv.awaits c).mp (by rw [here]; trivial)
  have before := inv.doneCount
  subst own
  refine inv.move (by rw [here]; rfl) (by rw [here]; rfl) (inv.move_holds (by rw [here]; rfl)) inv.exclusive
    (Or.inl ⟨rfl, rfl⟩) known ?_ ?_
  · rw [comp_update CallPc.isWaitWork (by rw [here]; rfl)]
    exact inv.workCount
  · simp only [Option.any_some, here, CallPc.isWaitDone, Bool.false_eq_true, if_false, Nat.add_zero] at before
    simp only [Option.any_some, Function.update_self, CallPc.isWaitDone, if_true, before]

/-- A caller gives up the write lock. -/
theorem PoolInv.wrunlock (inv : PoolInv s done setter waiter 0 0) {c : C} {call : Nat} (here : s.caller c = .unlock call) :
    PoolInv { s.move c (.arriveDone call) with writer := none } done setter waiter 0 0 := by
  have known := inv.callers c
  rw [here] at known
  have held : s.writer = some c := (inv.writer c).mpr (by rw [here]; trivial)
  obtain ⟨work, last⟩ := inv.move_counts (.arriveDone call) (by rw [here]; rfl) (by rw [here]; rfl)
  refine inv.move (by rw [here]; rfl) (by rw [here]; rfl) (fun c' => ?_) (fun free => absurd rfl free)
    (Or.inl ⟨rfl, rfl⟩) known work last
  by_cases same : c' = c
  · simp [same, CallPc.Holds]
  · rw [Function.update_of_ne same, ← inv.writer c', held]
    simp [Ne.symm same]

/-- One step, and what it does to the callers that hold the lock for the next round. -/
theorem PoolInv.step {allowed : PoolState N C F A → Prop} {s' : PoolState N C F A} (threads : 0 < N)
    (inv : PoolInv s done setter waiter 0 0) (step : PoolStep allowed s s') :
    ∃ done' setter' waiter', PoolInv s' done' setter' waiter' 0 0 ∧
      ((∀ s, allowed s → ∀ i, s.worker i ≠ LoopPc.rdlock) → NoStale s setter → NoStale s' setter') := by
  have stay (i : Fin N) (pc : LoopPc F A) (fresh : pc ≠ .rdlock) (stale : NoStale s setter) :
      NoStale (s.moveWorker i pc) setter := fun nonempty j => by
    by_cases same : j = i
    · simpa [PoolState.moveWorker, same] using fresh
    · simpa [PoolState.moveWorker, same] using stale nonempty j
  cases step with
  | wrlock c workFunction arg here free quiet may =>
    exact ⟨_, _, _, inv.wrlock here free quiet, fun condition _ _ => condition s may⟩
  | setFunction c call workFunction arg here =>
    have known := inv.callers c
    rw [here] at known
    obtain ⟨work, last⟩ := inv.move_counts (.setArg call arg) (by rw [here]; rfl) (by rw [here]; rfl)
    exact ⟨_, _, _, inv.move (by rw [here]; rfl) (by rw [here]; rfl) (inv.move_holds (by rw [here]; rfl)) inv.exclusive
      (Or.inr (by rw [here]; trivial)) known work last, fun _ stale => stale⟩
  | setArg c call arg here =>
    have known := inv.callers c
    rw [here] at known
    obtain ⟨work, last⟩ := inv.move_counts (.arriveWork call) (by rw [here]; rfl) (by rw [here]; rfl)
    exact ⟨_, _, _, inv.move (by rw [here]; rfl) (by rw [here]; rfl) (inv.move_holds (by rw [here]; rfl)) inv.exclusive
      (Or.inr (by rw [here]; trivial)) known work last, fun _ stale => stale⟩
  | callerWork c call here =>
    obtain ⟨setter', waiter', inv', same, workers⟩ := (inv.callerWork here).waitWork threads
    exact ⟨_, _, _, inv', fun _ stale nonempty i => by
      rw [workers nonempty]
      exact stale (same nonempty ▸ nonempty) i⟩
  | wrunlock c call here => exact ⟨_, _, _, inv.wrunlock here, fun _ stale => stale⟩
  | callerDone c call here =>
    obtain ⟨done', waiter', inv'⟩ := (inv.callerDone here).waitDone
    exact ⟨_, _, _, inv', fun _ stale => NoStale.waitDone stale⟩
  | finish c call here =>
    have known := inv.callers c
    rw [here] at known
    obtain ⟨work, last⟩ := inv.move_counts .idle (by rw [here]; rfl) (by rw [here]; rfl)
    have moved : PoolInv (s.move c .idle) done setter waiter 0 0 := inv.move (by rw [here]; rfl) (by rw [here]; rfl)
      (inv.move_holds (by rw [here]; rfl)) inv.exclusive (Or.inl ⟨rfl, rfl⟩) trivial work last
    exact ⟨_, _, _, { moved with returned := List.forall_mem_cons.mpr ⟨known, inv.returned⟩ }, fun _ stale => stale⟩
  | workerWork i here =>
    obtain ⟨setter', waiter', inv', same, workers⟩ := (inv.workerWork here).waitWork threads
    exact ⟨_, _, _, inv', fun _ stale nonempty j => by
      rw [workers nonempty]
      exact stay i .waitWork nofun stale (same nonempty ▸ nonempty) j⟩
  | rdlock i here free => exact ⟨_, _, _, inv.rdlock here free, fun _ stale => stay i _ nofun stale⟩
  | readFunction i here =>
    have own := inv.workers i
    rw [here] at own
    have pair := inv.slot (i := i) (by rw [here]; trivial) own.1
    exact ⟨_, _, _, inv.moveWorker (inv.moveWorker_reads (by rw [here]; rfl)) inv.exclusive (fun _ _ => rfl) (inv.ran i)
      ⟨own.1, own.2, s.arg, pair⟩ (inv.moveWorker_work (by rw [here]; rfl))
      (inv.moveWorker_done (by rw [here]; rfl)), fun _ stale => stay i _ nofun stale⟩
  | readArg i workFunction here =>
    have own := inv.workers i
    rw [here] at own
    obtain ⟨round, count, arg, known⟩ := own
    have pair := inv.slot (i := i) (by rw [here]; trivial) round
    rw [known] at pair
    cases pair
    exact ⟨_, _, _, inv.moveWorker (inv.moveWorker_reads (by rw [here]; rfl)) inv.exclusive (fun _ _ => rfl) (inv.ran i)
      ⟨round, count, known⟩ (inv.moveWorker_work (by rw [here]; rfl)) (inv.moveWorker_done (by rw [here]; rfl)),
      fun _ stale => stay i _ nofun stale⟩
  | rdunlock i workFunction arg here => exact ⟨_, _, _, inv.rdunlock here, fun _ stale => stay i _ nofun stale⟩
  | run i workFunction arg here => exact ⟨_, _, _, inv.run here, fun _ stale => stay i _ nofun stale⟩
  | workerDone i here =>
    obtain ⟨done', waiter', inv'⟩ := (inv.workerDone here).waitDone
    exact ⟨_, _, _, inv', fun _ stale => NoStale.waitDone (stay i _ nofun stale)⟩

theorem PoolReachable.inv {allowed : PoolState N C F A → Prop} (threads : 0 < N) (reachable : PoolReachable allowed s) :
    ∃ done setter waiter, PoolInv s done setter waiter 0 0 ∧
      ((∀ s, allowed s → ∀ i, s.worker i ≠ LoopPc.rdlock) → NoStale s setter) := by
  induction reachable with
  | refl => exact ⟨0, none, none, poolStart_inv, fun _ => nofun⟩
  | tail _ step ih =>
    obtain ⟨done, setter, waiter, inv, stale⟩ := ih
    rcases step with call | step
    · obtain ⟨inv', same⟩ := inv.call call
      exact ⟨done, setter, waiter, inv', fun condition nonempty i => by
        rw [same]
        exact stale condition nonempty i⟩
    · obtain ⟨done', setter', waiter', inv', stale'⟩ := inv.step threads step
      exact ⟨done', setter', waiter', inv', fun condition => stale' condition (stale condition)⟩

end Invariant

section Results

variable [DecidableEq C]

/-- In its `k`-th round each worker runs the pair of the `k`-th call to take the write lock, once, and a
call that has returned has had its own pair run by all workers. -/
def PoolState.RunsLocked (s : PoolState N C F A) : Prop :=
  (∀ i, s.ran i <+: s.locked ∧ (s.ran i).length + (if (s.worker i).pending then 1 else 0) = s.rounds i) ∧
    ∀ call ∈ s.returned, ∀ i, call < (s.ran i).length

/-- Whatever the interleaving of the callers and the workers. -/
theorem PoolReachable.runsLocked {s : PoolState N C F A} (threads : 1 ≤ N) (reachable : PoolReachable (fun _ => True) s) :
    s.RunsLocked := by
  obtain ⟨done, setter, waiter, inv, _⟩ := reachable.inv threads
  refine ⟨fun i => ⟨inv.ran i, ?_⟩, fun call member i => ?_⟩
  · have own := inv.workers i
    rw [inv.rounds i]
    cases pc : s.worker i <;> rw [pc] at own <;> simp only [WorkerOk] at own <;> simp [LoopPc.pending, oneIf, own]
  · have before := inv.returned call member
    have own := inv.workers i
    cases pc : s.worker i <;> rw [pc] at own <;> simp only [WorkerOk] at own <;> omega

/-- Two callers and two workers. The second caller comes while the first one sets up its round, and takes the write lock
once both workers have read. -/
def overlappingTurns : List (PoolTurn 2 Bool Nat Nat) :=
  [.call false 7 8, .caller false, .caller false, .call true 9 10, .caller false, .worker 1, .caller false, .worker 0,
    .caller false, .worker 0, .worker 1, .worker 1, .worker 0, .worker 1, .worker 1, .worker 0, .worker 0, .caller true,
    .caller true, .worker 1, .caller true, .caller true]

/-- The rest of both rounds; the workers run the second one in the other order. -/
def closingTurns : List (PoolTurn 2 Bool Nat Nat) :=
  [.worker 1, .caller false, .worker 0, .worker 0, .caller false, .worker 0, .worker 1, .caller true] ++
    (List.replicate 6 (.worker 0) ++ .caller true :: List.replicate 6 (.worker 1)) ++ [.caller true]

set_option maxRecDepth 8000 in
/-- Both calls have returned, and each worker has run both pairs in order. -/
theorem runsLocked_two : ∃ s : PoolState 2 Bool Nat Nat, s.returned = [1, 0] ∧
    (∀ i, s.ran i = [(some 7, some 8), (some 9, some 10)]) ∧ s.RunsLocked := by
  obtain ⟨s, reachable, returned, ran⟩ : ∃ s : PoolState 2 Bool Nat Nat, PoolReachable (fun _ => True) s ∧
      s.returned = [1, 0] ∧ ∀ i, s.ran i = [(some 7, some 8), (some 9, some 10)] :=
    ⟨_, PoolReachable.of_turns (overlappingTurns ++ closingTurns) rfl, by decide, by decide⟩
  exact ⟨s, returned, ran, PoolReachable.runsLocked (by decide) reachable⟩

/-- While a call has not returned, a thread inside a call or a worker can make a step. -/
def PoolState.Progresses (s : PoolState N C F A) : Prop :=
  (∃ c, s.caller c ≠ .idle) → ∃ s', PoolStep (fun _ => True) s s'

/-- No worker has been released from `workWaitBarrier` without having taken its read lock yet. -/
def PoolState.NoneReleased (s : PoolState N C F A) : Prop := ∀ i, s.worker i ≠ .rdlock

instance [DecidableEq F] [DecidableEq A] : DecidablePred (PoolState.NoneReleased : PoolState N C F A → Prop) :=
  fun s => inferInstanceAs (Decidable (∀ i, s.worker i ≠ .rdlock))

section Progress

variable {s : PoolState N C F A} {done : Nat} {setter waiter : Option C}

omit [DecidableEq C] in
theorem card_all {g : Fin N → LoopPc F A} (f : LoopPc F A → Bool) (all : ∀ i, f (g i) = true) :
    (Finset.univ.filter fun i => f (g i)).card = N := by
  rw [Finset.filter_true_of_mem fun i _ => all i, Finset.card_univ, Fintype.card_fin]

/-- The holder of the write lock makes a step unless it waits for the workers. -/
theorem PoolInv.holder_step (inv : PoolInv s done setter waiter 0 0) {c : C} (held : s.writer = some c) :
    (∃ s', PoolStep (fun _ => True) s s') ∨ ∃ call, s.caller c = .waitWork call := by
  have holds := (inv.writer c).mp held
  cases here : s.caller c <;> rw [here] at holds
  case setFunction => exact Or.inl ⟨_, .setFunction c _ _ _ here⟩
  case setArg => exact Or.inl ⟨_, .setArg c _ _ here⟩
  case arriveWork => exact Or.inl ⟨_, .callerWork c _ here⟩
  case waitWork call => exact Or.inr ⟨call, rfl⟩
  case unlock => exact Or.inl ⟨_, .wrunlock c _ here⟩
  all_goals exact absurd holds id

/-- A worker that waits at no barrier makes a step, or the holder of the lock does. -/
theorem PoolInv.worker_step (inv : PoolInv s done setter waiter 0 0) (stale : NoStale s setter) {i : Fin N}
    (work : s.worker i ≠ .waitWork) (last : s.worker i ≠ .waitDone) : ∃ s', PoolStep (fun _ => True) s s' := by
  cases here : s.worker i
  case arriveWork => exact ⟨_, .workerWork i here⟩
  case waitWork => exact absurd here work
  case rdlock =>
    cases held : s.writer with
    | none => exact ⟨_, .rdlock i here held⟩
    | some c =>
      rcases inv.holder_step held with step | ⟨call, waits⟩
      · exact step
      · have sets := (inv.sets c).mp (by rw [waits]; trivial)
        exact absurd here (stale (by rw [sets]; rfl) i)
  case readFunction => exact ⟨_, .readFunction i here⟩
  case readArg => exact ⟨_, .readArg i _ here⟩
  case unlock => exact ⟨_, .rdunlock i _ _ here⟩
  case run => exact ⟨_, .run i _ _ here⟩
  case arriveDone => exact ⟨_, .workerDone i here⟩
  case waitDone => exact absurd here last

omit [DecidableEq C] in
/-- When all workers wait at `workWaitBarrier`, no caller does. -/
theorem PoolInv.not_waitWork (inv : PoolInv s done setter waiter 0 0) (all : ∀ i, s.worker i = .waitWork) {c : C}
    {call : Nat} : s.caller c ≠ .waitWork call := by
  intro waits
  have sets := (inv.sets c).mp (by rw [waits]; trivial)
  have count := inv.workCount
  have room := inv.workRoom
  rw [card_all LoopPc.isWaitWork (fun i => by rw [all i]; rfl), sets, Option.any_some, waits] at count
  simp only [CallPc.isWaitWork, if_true] at count
  omega

omit [DecidableEq C] in
theorem PoolInv.not_waitDone (inv : PoolInv s done setter waiter 0 0) (all : ∀ i, s.worker i = .waitDone) {c : C}
    {call : Nat} : s.caller c ≠ .waitDone call := by
  intro waits
  have awaits := (inv.awaits c).mp (by rw [waits]; trivial)
  have count := inv.doneCount
  have room := inv.doneRoom
  rw [card_all LoopPc.isWaitDone (fun i => by rw [all i]; rfl), awaits, Option.any_some, waits] at count
  simp only [CallPc.isWaitDone, if_true] at count
  omega

/-- Between two rounds, with all workers at `workWaitBarrier`, every call makes a step or waits for one that does. -/
theorem PoolInv.between_step (inv : PoolInv s done setter none 0 0) (all : ∀ i, s.worker i = .waitWork) {c : C}
    (calls : s.caller c ≠ .idle) : ∃ s', PoolStep (fun _ => True) s s' := by
  have nobody {call : Nat} (awaits : s.caller c = .unlock call ∨ s.caller c = .arriveDone call ∨ s.caller c = .waitDone call) :
      False := by
    have := (inv.awaits c).mp (by rcases awaits with here | here | here <;> rw [here] <;> trivial)
    cases this
  cases here : s.caller c
  case idle => exact absurd here calls
  case wrlock workFunction arg =>
    cases held : s.writer with
    | none =>
      have quiet : s.readers = ∅ := Finset.eq_empty_of_forall_notMem fun i member => by
        have reads := (inv.readers i).mp member
        rw [all i] at reads
        exact reads
      exact ⟨_, .wrlock c workFunction arg here held quiet trivial⟩
    | some c' =>
      rcases inv.holder_step held with step | ⟨call, waits⟩
      · exact step
      · exact absurd waits (inv.not_waitWork all)
  case setFunction => exact ⟨_, .setFunction c _ _ _ here⟩
  case setArg => exact ⟨_, .setArg c _ _ here⟩
  case arriveWork => exact ⟨_, .callerWork c _ here⟩
  case waitWork => exact absurd here (inv.not_waitWork all)
  case unlock => exact (nobody (Or.inl here)).elim
  case arriveDone => exact (nobody (Or.inr (Or.inl here))).elim
  case waitDone => exact (nobody (Or.inr (Or.inr here))).elim
  case finish => exact ⟨_, .finish c _ here⟩

/-- With all workers at `doneBarrier`, the caller of the round makes a step. -/
theorem PoolInv.within_step {c : C} (inv : PoolInv s done setter (some c) 0 0) (all : ∀ i, s.worker i = .waitDone) :
    ∃ s', PoolStep (fun _ => True) s s' := by
  have awaits := (inv.awaits c).mpr rfl
  cases here : s.caller c <;> rw [here] at awaits
  case unlock => exact ⟨_, .wrunlock c _ here⟩
  case arriveDone => exact ⟨_, .callerDone c _ here⟩
  case waitDone => exact absurd here (inv.not_waitDone all)
  all_goals exact absurd awaits id

end Progress

/-- No deadlock is reached as long as the write lock is only taken when no released worker has yet to
take its read lock. -/
theorem PoolReachable.progresses {s : PoolState N C F A} (threads : 1 ≤ N)
    (reachable : PoolReachable PoolState.NoneReleased s) : s.Progresses := by
  obtain ⟨done, setter, waiter, inv, stale⟩ := reachable.inv threads
  rintro ⟨c, calls⟩
  by_cases moving : ∃ i, s.worker i ≠ .waitWork ∧ s.worker i ≠ .waitDone
  · obtain ⟨i, work, last⟩ := moving
    exact inv.worker_step (stale fun _ missing => missing) work last
  · have still (i : Fin N) : s.worker i = .waitWork ∨ s.worker i = .waitDone := by
      by_contra neither
      exact moving ⟨i, not_or.mp neither⟩
    cases waiter with
    | none =>
      refine inv.between_step (fun i => (still i).resolve_right fun here => ?_) calls
      have own := inv.workers i
      rw [here] at own
      cases own.1
    | some c' =>
      refine inv.within_step fun i => (still i).resolve_left fun here => ?_
      have own := inv.workers i
      rw [here] at own
      cases own.1

set_option maxRecDepth 8000 in
/-- The second caller waits with the write lock while a worker is still to run the first one's pair. -/
theorem progresses_two : ∃ s : PoolState 2 Bool Nat Nat, s.caller false = .arriveDone 0 ∧ s.caller true = .waitWork 1 ∧
    s.worker 0 = .run (some 7) (some 8) ∧ s.Progresses := by
  obtain ⟨s, reachable, first, second, running⟩ : ∃ s : PoolState 2 Bool Nat Nat,
      PoolReachable PoolState.NoneReleased s ∧ s.caller false = .arriveDone 0 ∧ s.caller true = .waitWork 1 ∧
        s.worker 0 = .run (some 7) (some 8) := ⟨_, PoolReachable.of_turns overlappingTurns rfl, rfl, rfl, rfl⟩
  exact ⟨s, first, second, running, PoolReachable.progresses (by decide) reachable⟩

/-- One worker and two callers: the second caller holds the write lock and waits for the worker, which
waits for the read lock of the first one's round. -/
theorem stuck {s : PoolState 1 Bool F A} {first second : Nat} (atFirst : s.caller false = .waitDone first)
    (atSecond : s.caller true = .waitWork second) (atWorker : s.worker 0 = .rdlock) (held : s.writer = some true) :
    ¬ ∃ s', PoolCall s s' ∨ PoolStep (fun _ => True) s s' := by
  have caller {c : Bool} {pc : CallPc F A} (here : s.caller c = pc) : pc = .waitDone first ∨ pc = .waitWork second := by
    cases c
    · exact Or.inl (here.symm.trans atFirst)
    · exact Or.inr (here.symm.trans atSecond)
  have worker {i : Fin 1} {pc : LoopPc F A} (here : s.worker i = pc) : pc = .rdlock := by
    rw [Subsingleton.elim i 0] at here
    exact here.symm.trans atWorker
  rintro ⟨s', call | step⟩
  · cases call with
    | call c workFunction arg here => exact (caller here).elim nofun nofun
  · cases step with
    | rdlock i here free => rw [held] at free; cases free
    | workerWork i here => cases worker here
    | readFunction i here => cases worker here
    | readArg i workFunction here => cases worker here
    | rdunlock i workFunction arg here => cases worker here
    | run i workFunction arg here => cases worker here
    | workerDone i here => cases worker here
    | wrlock c workFunction arg here => exact (caller here).elim nofun nofun
    | setFunction c call workFunction arg here => exact (caller here).elim nofun nofun
    | setArg c call arg here => exact (caller here).elim nofun nofun
    | callerWork c call here => exact (caller here).elim nofun nofun
    | wrunlock c call here => exact (caller here).elim nofun nofun
    | callerDone c call here => exact (caller here).elim nofun nofun
    | finish c call here => exact (caller here).elim nofun nofun

theorem two_callers_deadlock : ∃ s : PoolState 1 Bool Nat Nat, PoolReachable (fun _ => True) s ∧
    s.caller false ≠ .idle ∧ ¬ ∃ s', PoolCall s s' ∨ PoolStep (fun _ => True) s s' := by
  have called : PoolReachable (fun _ => True) (PoolState.start.move false (.wrlock 7 8) : PoolState 1 Bool Nat Nat) :=
    ReflTransGen.single (Or.inl (.call false 7 8 rfl))
  have released := called |>.tail (Or.inl (.call true 9 10 rfl))
    |>.tail (Or.inr (.wrlock false 7 8 rfl rfl rfl trivial))
    |>.tail (Or.inr (.setFunction false 0 7 8 rfl)) |>.tail (Or.inr (.setArg false 0 8 rfl))
    |>.tail (Or.inr (.callerWork false 0 rfl)) |>.tail (Or.inr (.workerWork 0 rfl))
  have waiting := released |>.tail (Or.inr (.wrunlock false 0 rfl)) |>.tail (Or.inr (.callerDone false 0 rfl))
    |>.tail (Or.inr (.wrlock true 9 10 rfl rfl rfl trivial))
    |>.tail (Or.inr (.setFunction true 1 9 10 rfl)) |>.tail (Or.inr (.setArg true 1 10 rfl))
    |>.tail (Or.inr (.callerWork true 1 rfl))
  exact ⟨_, waiting, nofun, stuck rfl rfl rfl rfl⟩

end Results

end Puma
