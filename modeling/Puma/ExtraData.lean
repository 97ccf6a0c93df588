import Mathlib.Data.List.OfFn
import Mathlib.Data.List.FinRange
import Mathlib.Logic.Function.Basic
import Puma.Heap

namespace Puma

variable {N : Nat} {δ : Type}

/-- The calls of the functions that the user hands over, in `struct pumaExtraKernelData` and in the list of kernels. -/
inductive KernelEvent (N : Nat) (δ : Type)
  | construct (thread : Fin N) (data : δ)
  | kernel (thread : Fin N) (index : Nat) (element : ElemPtr) (data : Option δ)
  | threadReduce (thread : Fin N) (data : Option δ)
  | reduce (data : List (Option δ))
  | destroy (thread : Fin N) (data : Option δ)

/-- The thread that makes the call inside `_runKernelWorker`. -/
def KernelEvent.worker : KernelEvent N δ → Option (Fin N)
  | .construct thread _ => some thread
  | .kernel thread _ _ _ => some thread
  | .threadReduce thread _ => some thread
  | .reduce _ => none
  | .destroy _ _ => none

/-- Where a thread is in `_runKernelWorker`: before the constructor, at the head of the loop,
inside `_runKernelThread` with its argument, at the end. -/
inductive WorkerPc (δ : Type)
  | start
  | loop (index : Nat)
  | running (index : Nat) (data : Option δ)
  | finished

/-- Where the caller is: in the first `executeOnThreadPool`, in the second, or at the end. -/
inductive CallerPc
  | working
  | cleaning
  | returned
  deriving DecidableEq

/-- A `runKernelList` that is being executed. `executeOnThreadPool` runs its work function once on each of the
`N` threads and returns when all have finished; an entry of `extraData` that has not been written is `none`. -/
structure ExtraDataState (N : Nat) (δ : Type) where
  extraData : Fin N → Option δ
  worker : Fin N → WorkerPc δ
  cleaned : Fin N → Bool
  caller : CallerPc

def ExtraDataState.start : ExtraDataState N δ := ⟨fun _ => none, fun _ => .start, fun _ => false, .working⟩

def ExtraDataState.move (s : ExtraDataState N δ) (thread : Fin N) (pc : WorkerPc δ) : ExtraDataState N δ :=
  { s with worker := Function.update s.worker thread pc }

/-- A step of a thread or of the caller, with the calls that it makes. A pass calls its kernel
on any elements. -/
inductive ExtraDataStep (numKernels : Nat) (s : ExtraDataState N δ) :
    List (KernelEvent N δ) → ExtraDataState N δ → Prop
  | construct (thread : Fin N) (data : δ) (here : s.worker thread = .start) :
      ExtraDataStep numKernels s [.construct thread data]
        { s.move thread (.loop 0) with extraData := Function.update s.extraData thread (some data) }
  | enter (thread : Fin N) (index : Nat) (here : s.worker thread = .loop index) (more : index < numKernels) :
      ExtraDataStep numKernels s [] (s.move thread (.running index (s.extraData thread)))
  | call (thread : Fin N) (index : Nat) (data : Option δ) (element : ElemPtr)
      (here : s.worker thread = .running index data) :
      ExtraDataStep numKernels s [.kernel thread index element data] s
  | leave (thread : Fin N) (index : Nat) (data : Option δ) (here : s.worker thread = .running index data) :
      ExtraDataStep numKernels s [] (s.move thread (.loop (index + 1)))
  | threadReduce (thread : Fin N) (index : Nat) (here : s.worker thread = .loop index) (all : numKernels ≤ index) :
      ExtraDataStep numKernels s [.threadReduce thread (s.extraData thread)] (s.move thread .finished)
  | reduce (here : s.caller = .working) (joined : ∀ thread, s.worker thread = .finished) :
      ExtraDataStep numKernels s [.reduce (List.ofFn s.extraData)] { s with caller := .cleaning }
  | destroy (thread : Fin N) (here : s.caller = .cleaning) (first : s.cleaned thread = false) :
      ExtraDataStep numKernels s [.destroy thread (s.extraData thread)]
        { s with cleaned := Function.update s.cleaned thread true }
  | return (here : s.caller = .cleaning) (joined : ∀ thread, s.cleaned thread = true) :
      ExtraDataStep numKernels s [] { s with caller := .returned }

/-- The runs of one `runKernelList`, with the calls made so far. -/
inductive ExtraDataRun (N : Nat) (δ : Type) (numKernels : Nat) : List (KernelEvent N δ) → ExtraDataState N δ → Prop
  | start : ExtraDataRun N δ numKernels [] .start
  | next {events new : List (KernelEvent N δ)} {s s' : ExtraDataState N δ} (before : ExtraDataRun N δ numKernels events s)
      (step : ExtraDataStep numKernels s new s') : ExtraDataRun N δ numKernels (events ++ new) s'

/-- A call of a kernel of the list on one thread with the given value. -/
def KernelCalls (numKernels : Nat) (thread : Fin N) (data : δ) (calls : List (KernelEvent N δ)) : Prop :=
  ∀ call ∈ calls, ∃ index element, index < numKernels ∧ call = .kernel thread index element (some data)

/-- The calls `own` that a thread has made before it reached `pc`. -/
def WorkerDone (numKernels : Nat) (thread : Fin N) (entry : Option δ) (own : List (KernelEvent N δ)) : WorkerPc δ → Prop
  | .start => own = []
  | .loop _ => ∃ data calls, entry = some data ∧ own = .construct thread data :: calls ∧
      KernelCalls numKernels thread data calls
  | .running index data => data = entry ∧ index < numKernels ∧ ∃ data calls, entry = some data ∧
      own = .construct thread data :: calls ∧ KernelCalls numKernels thread data calls
  | .finished => ∃ data calls, entry = some data ∧
      own = .construct thread data :: calls ++ [.threadReduce thread (some data)] ∧
      KernelCalls numKernels thread data calls

/-- The calls made by one worker. -/
def callsOf (thread : Fin N) (events : List (KernelEvent N δ)) : List (KernelEvent N δ) :=
  events.filter fun e => e.worker = some thread

/-- The first part of the calls of a run, by the workers. -/
structure WorkDone (numKernels : Nat) (s : ExtraDataState N δ) (work : List (KernelEvent N δ)) : Prop where
  workers : ∀ e ∈ work, e.worker ≠ none
  each : ∀ thread, WorkerDone numKernels thread (s.extraData thread) (callsOf thread work) (s.worker thread)

/-- The calls made up to a state: those of the workers and, once all have finished, the
reduction and the destructors. -/
inductive ExtraDataInv (numKernels : Nat) (s : ExtraDataState N δ) (events : List (KernelEvent N δ)) : Prop
  | working (here : s.caller = .working) (fresh : ∀ thread, s.cleaned thread = false)
      (done : WorkDone numKernels s events)
  | cleaning (later : s.caller ≠ .working) (joined : ∀ thread, s.worker thread = .finished)
      (work : List (KernelEvent N δ)) (order : List (Fin N)) (done : WorkDone numKernels s work) (nodup : order.Nodup)
      (cleaned : ∀ thread, thread ∈ order ↔ s.cleaned thread = true)
      (all : s.caller = .returned → ∀ thread, s.cleaned thread = true)
      (split : events = work ++ .reduce (List.ofFn s.extraData) :: order.map fun thread => .destroy thread (s.extraData thread))

theorem callsOf_append (thread : Fin N) (events new : List (KernelEvent N δ)) :
    callsOf thread (events ++ new) = callsOf thread events ++ callsOf thread new := List.filter_append ..

/-- A step of one worker that makes the calls `new`, all its own. -/
theorem WorkDone.move {numKernels : Nat} {s : ExtraDataState N δ} {work new : List (KernelEvent N δ)}
    (done : WorkDone numKernels s work) (thread : Fin N) (pc : WorkerPc δ) {extraData : Fin N → Option δ}
    (entries : ∀ other, other ≠ thread → extraData other = s.extraData other)
    (own : ∀ e ∈ new, e.worker = some thread)
    (here : WorkerDone numKernels thread (extraData thread) (callsOf thread work ++ new) pc) :
    WorkDone numKernels { s.move thread pc with extraData := extraData } (work ++ new) := by
  refine ⟨fun e member => ?_, fun other => ?_⟩
  · rcases List.mem_append.mp member with old | now
    · exact done.workers e old
    · rw [own e now]
      exact Option.some_ne_none _
  · rw [callsOf_append]
    by_cases same : other = thread
    · subst same
      have whole : callsOf other new = new := List.filter_eq_self.mpr fun e member => by simp [own e member]
      simp only [ExtraDataState.move, Function.update_self, whole]
      exact here
    · have nothing : callsOf other new = [] := List.filter_eq_nil_iff.mpr fun e member => by
        simp [own e member, Ne.symm same]
      simp only [ExtraDataState.move, Function.update_of_ne same, nothing, List.append_nil, entries other same]
      exact done.each other

theorem KernelCalls.append {numKernels : Nat} {thread : Fin N} {data : δ} {calls : List (KernelEvent N δ)}
    (kernelCalls : KernelCalls numKernels thread data calls) {index : Nat} (inside : index < numKernels)
    (element : ElemPtr) :
    KernelCalls numKernels thread data (calls ++ [.kernel thread index element (some data)]) := by
  intro call member
  rcases List.mem_append.mp member with old | new
  · exact kernelCalls call old
  · exact ⟨index, element, inside, List.mem_singleton.mp new⟩

/-- One step keeps the record of the calls. -/
theorem ExtraDataInv.step {numKernels : Nat} {s s' : ExtraDataState N δ} {events new : List (KernelEvent N δ)}
    (inv : ExtraDataInv numKernels s events) (step : ExtraDataStep numKernels s new s') :
    ExtraDataInv numKernels s' (events ++ new) := by
  -- Only the first part of a run has a thread that is not at the end of `_runKernelWorker`.
  have active (thread : Fin N) (unfinished : s.worker thread ≠ .finished) :
      s.caller = .working ∧ (∀ thread, s.cleaned thread = false) ∧ WorkDone numKernels s events := by
    cases inv with
    | working here fresh done => exact ⟨here, fresh, done⟩
    | cleaning _ joined => exact (unfinished (joined thread)).elim
  cases step with
  | construct thread data here =>
    obtain ⟨caller, fresh, done⟩ := active thread (by rw [here]; nofun)
    have before := done.each thread
    rw [here] at before
    refine .working caller fresh (done.move thread _ (fun other apart => Function.update_of_ne apart _ _) ?_ ?_)
    · simp [KernelEvent.worker]
    · rw [show callsOf thread events = [] from before, Function.update_self]
      exact ⟨data, [], rfl, rfl, fun call member => absurd member List.not_mem_nil⟩
  | enter thread index here more =>
    obtain ⟨caller, fresh, done⟩ := active thread (by rw [here]; nofun)
    have before := done.each thread
    rw [here] at before
    refine .working caller fresh (done.move thread _ (fun _ _ => rfl) (by simp) ?_)
    rw [List.append_nil]
    exact ⟨rfl, more, before⟩
  | call thread index data element here =>
    obtain ⟨caller, fresh, done⟩ := active thread (by rw [here]; nofun)
    have before := done.each thread
    rw [here] at before
    obtain ⟨rfl, inside, value, calls, entry, own, kernelCalls⟩ := before
    have owned : ∀ e ∈ [KernelEvent.kernel thread index element (s.extraData thread)], e.worker = some thread := by
      simp [KernelEvent.worker]
    have moved := done.move thread (.running index (s.extraData thread)) (fun _ _ => rfl) owned
      ⟨rfl, inside, value, calls ++ [.kernel thread index element (some value)], entry, by rw [own, entry]; rfl,
        kernelCalls.append inside element⟩
    have still : s.move thread (.running index (s.extraData thread)) = s := by
      rw [ExtraDataState.move, ← here, Function.update_eq_self]
    rw [still] at moved
    exact .working caller fresh moved
  | leave thread index data here =>
    obtain ⟨caller, fresh, done⟩ := active thread (by rw [here]; nofun)
    have before := done.each thread
    rw [here] at before
    refine .working caller fresh (done.move thread _ (fun _ _ => rfl) (by simp) ?_)
    rw [List.append_nil]
    exact before.2.2
  | threadReduce thread index here all =>
    obtain ⟨caller, fresh, done⟩ := active thread (by rw [here]; nofun)
    have before := done.each thread
    rw [here] at before
    obtain ⟨value, calls, entry, own, kernelCalls⟩ := before
    refine .working caller fresh (done.move thread _ (fun _ _ => rfl) (by simp [KernelEvent.worker]) ?_)
    exact ⟨value, calls, entry, by rw [own, entry], kernelCalls⟩
  | reduce here joined =>
    cases inv with
    | working _ fresh done =>
      exact .cleaning (by nofun) joined events [] ⟨done.workers, done.each⟩ List.nodup_nil
        (fun thread => by simp [fresh thread]) (by nofun) rfl
    | cleaning later => exact (later here).elim
  | destroy thread here first =>
    cases inv with
    | working caller => rw [here] at caller; cases caller
    | cleaning later joined work order done nodup cleaned all split =>
      have absent : thread ∉ order := fun member => by rw [cleaned, first] at member; cases member
      refine .cleaning later joined work (order ++ [thread]) ⟨done.workers, done.each⟩ ?_ (fun other => ?_)
        (fun returned => ?_) ?_
      · exact List.nodup_append.mpr ⟨nodup, List.nodup_singleton _, fun a inOrder b single => by
          rw [List.mem_singleton.mp single]
          exact fun same => absent (same ▸ inOrder)⟩
      · rw [List.mem_append, List.mem_singleton, cleaned]
        by_cases same : other = thread
        · simp [same]
        · simp [same]
      · rw [here] at returned
        cases returned
      · simp [split]
  | «return» here joined =>
    cases inv with
    | working caller => rw [here] at caller; cases caller
    | cleaning later others work order done nodup cleaned all split =>
      refine .cleaning (by nofun) others work order ⟨done.workers, done.each⟩ nodup cleaned (fun _ => joined) ?_
      rw [List.append_nil]
      exact split

theorem ExtraDataRun.inv {numKernels : Nat} {s : ExtraDataState N δ} {events : List (KernelEvent N δ)}
    (run : ExtraDataRun N δ numKernels events s) : ExtraDataInv numKernels s events := by
  induction run with
  | start => exact .working rfl (fun _ => rfl) ⟨fun e member => absurd member List.not_mem_nil, fun _ => rfl⟩
  | next _ step ih => exact ih.step step

/-- The calls of a whole `runKernelList`: each thread constructs its value, hands it to its kernel
calls and reduces it; then all values are reduced, and then each is destroyed. -/
def ForkJoin (numKernels : Nat) (events : List (KernelEvent N δ)) : Prop :=
  ∃ (value : Fin N → δ) (work : List (KernelEvent N δ)) (order : List (Fin N)),
    events = work ++ .reduce (List.ofFn fun thread => some (value thread)) ::
      order.map (fun thread => .destroy thread (some (value thread))) ∧
    (∀ e ∈ work, e.worker ≠ none) ∧
    (∀ thread, ∃ calls, callsOf thread work =
        .construct thread (value thread) :: calls ++ [.threadReduce thread (some (value thread))] ∧
      KernelCalls numKernels thread (value thread) calls) ∧
    order.Perm (List.finRange N)

/-- Whatever the interleaving, a call that returns has made its calls in this order. -/
theorem ExtraDataRun.forkJoin {numKernels : Nat} {s : ExtraDataState N δ} {events : List (KernelEvent N δ)}
    (run : ExtraDataRun N δ numKernels events s) (returned : s.caller = .returned) : ForkJoin numKernels events := by
  cases run.inv with
  | working here => rw [returned] at here; cases here
  | cleaning _ joined work order done nodup cleaned all split =>
    have each (thread : Fin N) := done.each thread
    simp only [joined, WorkerDone] at each
    choose value calls entry own kernelCalls using each
    have entries : s.extraData = fun thread => some (value thread) := funext entry
    refine ⟨value, work, order, ?_, done.workers, fun thread => ⟨calls thread, own thread, kernelCalls thread⟩, ?_⟩
    · rw [split, entries]
    · refine (List.perm_ext_iff_of_nodup nodup (List.nodup_finRange N)).mpr fun thread => ?_
      rw [cleaned]
      simp [all returned thread]

/-- Two threads, each with one element. -/
theorem forkJoin_two : ∃ (events : List (KernelEvent 2 Nat)) (s : ExtraDataState 2 Nat),
    ExtraDataRun 2 Nat 1 events s ∧ s.caller = .returned ∧ ForkJoin 1 events := by
  have working := (ExtraDataRun.start : ExtraDataRun 2 Nat 1 _ _)
    |>.next (.construct 0 10 rfl) |>.next (.construct 1 20 rfl)
    |>.next (.enter 1 0 rfl (by decide)) |>.next (.enter 0 0 rfl (by decide))
    |>.next (.call 0 0 _ ⟨0, 0⟩ rfl) |>.next (.call 1 0 _ ⟨1, 0⟩ rfl)
    |>.next (.leave 1 0 _ rfl) |>.next (.leave 0 0 _ rfl)
    |>.next (.threadReduce 1 1 rfl le_rfl) |>.next (.threadReduce 0 1 rfl le_rfl)
  have whole := working
    |>.next (.reduce rfl (Fin.forall_fin_two.mpr ⟨rfl, rfl⟩)) |>.next (.destroy 1 rfl rfl) |>.next (.destroy 0 rfl rfl)
    |>.next (.return rfl (Fin.forall_fin_two.mpr ⟨rfl, rfl⟩))
  exact ⟨_, _, whole, rfl, ExtraDataRun.forkJoin whole rfl⟩

end Puma
