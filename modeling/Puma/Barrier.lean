import Mathlib.Data.Fintype.Card
import Mathlib.Logic.Relation
import Puma.MachineInt

namespace Puma

open Relation

variable {N : Nat}

/-- Where a thread is: outside `pthread_barrier_wait`, inside `pthread_cond_wait`, or woken there. -/
inductive WaitPc
  | outside
  | waiting
  | woken
  deriving DecidableEq

/-- The counter of the barrier and the threads that use it. `entered` and `returned` count the calls of
each thread, and `ones` lists the calls that returned 1, as the thread and the number of its call. -/
structure BarrierState (N : Nat) where
  count : Int
  pc : Fin N → WaitPc
  entered : Fin N → Nat
  returned : Fin N → Nat
  ones : List (Fin N × Nat)

def BarrierState.start : BarrierState N := ⟨0, fun _ => .outside, fun _ => 0, fun _ => 0, []⟩

/-- What `pthread_barrier_init` makes of the `unsigned int` that it is given: `barrier->tripCount` is an `int`. -/
def tripCount (N : Nat) : Int := intOfSize N

/-- `pthread_cond_broadcast`. -/
def condBroadcast (pc : Fin N → WaitPc) : Fin N → WaitPc :=
  fun thread => if pc thread = .waiting then .woken else pc thread

/-- `pthread_barrier_wait` up to its return of 1 or its call of `pthread_cond_wait`, which gives the mutex up; the
barrier has been set up for `N` threads. The counter stays below the trip count, so that it never overflows. -/
def barrierEnter (s : BarrierState N) (thread : Fin N) : BarrierState N :=
  let entered := Function.update s.entered thread (s.entered thread + 1)
  let count := s.count + 1
  if tripCount N ≤ count then
    { count := 0
      pc := condBroadcast s.pc
      entered := entered
      returned := Function.update s.returned thread (s.returned thread + 1)
      ones := (thread, s.entered thread + 1) :: s.ones }
  else { s with count := count, pc := Function.update s.pc thread .waiting, entered := entered }

/-- The end of `pthread_barrier_wait` behind `pthread_cond_wait`. -/
def barrierLeave (s : BarrierState N) (thread : Fin N) : BarrierState N :=
  { s with
    pc := Function.update s.pc thread .outside
    returned := Function.update s.returned thread (s.returned thread + 1) }

/-- A step of a thread, which has the mutex all the while. If `spurious` holds, `pthread_cond_wait` may also return without a broadcast. -/
inductive BarrierStep (spurious : Prop) (s : BarrierState N) : BarrierState N → Prop
  | enter (thread : Fin N) (here : s.pc thread = .outside) : BarrierStep spurious s (barrierEnter s thread)
  | wake (thread : Fin N) (here : s.pc thread = .waiting) (may : spurious) :
      BarrierStep spurious s { s with pc := Function.update s.pc thread .woken }
  | leave (thread : Fin N) (here : s.pc thread = .woken) : BarrierStep spurious s (barrierLeave s thread)

/-- The states of any interleaving. -/
def BarrierReachable (spurious : Prop) (s : BarrierState N) : Prop :=
  ReflTransGen (BarrierStep spurious) BarrierState.start s

/-- No call returns before all threads have entered theirs of the same round, and as soon as they
have, one of them has returned 1, and only one. -/
def BarrierState.RoundsOk (s : BarrierState N) : Prop :=
  (∀ thread other, s.returned thread ≤ s.entered other) ∧
    ∀ round, 1 ≤ round →
      (s.ones.filter fun one => one.2 = round).length = if ∀ thread, round ≤ s.entered thread then 1 else 0

/-- The threads inside `pthread_cond_wait`. -/
def BarrierState.waiters (s : BarrierState N) : Finset (Fin N) := Finset.univ.filter fun thread => s.pc thread = .waiting

/-- The calls of a thread when `done` rounds are over: a waiting thread is one round ahead, and a woken one
has yet to return from the last round. -/
def InRound (done entered returned : Nat) : WaitPc → Prop
  | .outside => entered = done ∧ returned = done
  | .waiting => entered = done + 1 ∧ returned = done
  | .woken => entered = done ∧ returned + 1 = done

structure BarrierInv (s : BarrierState N) (done : Nat) : Prop where
  count : s.count = s.waiters.card
  room : s.count < N
  each : ∀ thread, InRound done (s.entered thread) (s.returned thread) (s.pc thread)
  ones : ∀ round, 1 ≤ round → (s.ones.filter fun one => one.2 = round).length = if round ≤ done then 1 else 0

theorem barrierStart_inv (threads : 1 ≤ N) : BarrierInv (BarrierState.start : BarrierState N) 0 where
  count := by simp [BarrierState.start, BarrierState.waiters]
  room := Int.natCast_pos.mpr threads
  each _ := ⟨rfl, rfl⟩
  ones round first := by
    have later : ¬ round ≤ 0 := by omega
    simp [BarrierState.start, later]

section Steps

variable {s : BarrierState N} {done : Nat} {thread : Fin N}

/-- The `int` holds a trip count up to its greatest value. -/
theorem tripCount_eq (small : N ≤ 2 ^ 31 - 1) : tripCount N = N := intOfSize_eq (by omega)

theorem BarrierInv.own (inv : BarrierInv s done) {pc : WaitPc} (here : s.pc thread = pc) :
    InRound done (s.entered thread) (s.returned thread) pc := here ▸ inv.each thread

/-- The last thread of a round finds all others waiting. -/
theorem BarrierInv.others_waiting (inv : BarrierInv s done) (here : s.pc thread = .outside) (last : (N : Int) ≤ s.count + 1) :
    ∀ other, other ≠ thread → s.pc other = .waiting := by
  have absent : thread ∉ s.waiters := by simp [BarrierState.waiters, here]
  have whole : s.waiters = Finset.univ.erase thread := by
    refine Finset.eq_of_subset_of_card_le (fun other member => ?_) ?_
    · exact Finset.mem_erase.mpr ⟨fun same => absent (same ▸ member), Finset.mem_univ _⟩
    · rw [Finset.card_erase_of_mem (Finset.mem_univ _), Finset.card_univ, Fintype.card_fin]
      have counted := inv.count
      omega
  intro other apart
  have member : other ∈ s.waiters := whole ▸ Finset.mem_erase.mpr ⟨apart, Finset.mem_univ _⟩
  exact (Finset.mem_filter.mp member).2

/-- The last thread of a round ends it. -/
theorem BarrierInv.enter_last (small : N ≤ 2 ^ 31 - 1) (inv : BarrierInv s done) (here : s.pc thread = .outside)
    (last : (N : Int) ≤ s.count + 1) :
    BarrierInv (barrierEnter s thread) (done + 1) := by
  have others := inv.others_waiting here last
  obtain ⟨entered, returned⟩ := inv.own here
  have awake (other : Fin N) : condBroadcast s.pc other ≠ .waiting := by
    unfold condBroadcast
    split <;> simp_all
  have positive : (0 : Int) < N := by
    have := thread.pos
    omega
  simp only [barrierEnter, tripCount_eq small, last, if_true]
  refine ⟨by simp [BarrierState.waiters, awake], positive, fun other => ?_, fun round first => ?_⟩
  · by_cases same : other = thread
    · subst same
      simp [condBroadcast, here, InRound, entered, returned]
    · have before := inv.own (others other same)
      simpa [condBroadcast, others other same, same, InRound] using before
  · have before := inv.ones round first
    by_cases now : round = done + 1
    · subst now
      simp only [Nat.not_succ_le_self, if_false] at before
      simp [entered, before]
    · have other : done + 1 ≠ round := fun same => now same.symm
      have same : round ≤ done ↔ round ≤ done + 1 := by omega
      simp only [entered, List.filter_cons, other, decide_false, Bool.false_eq_true, if_false, before, same]

/-- A thread that is not the last one waits. -/
theorem BarrierInv.enter_wait (small : N ≤ 2 ^ 31 - 1) (inv : BarrierInv s done) (here : s.pc thread = .outside)
    (more : ¬ (N : Int) ≤ s.count + 1) :
    BarrierInv (barrierEnter s thread) done := by
  obtain ⟨entered, returned⟩ := inv.own here
  have absent : thread ∉ s.waiters := by simp [BarrierState.waiters, here]
  have grown : (Finset.univ.filter fun other => Function.update s.pc thread .waiting other = .waiting) =
      insert thread s.waiters := by
    ext other
    by_cases same : other = thread
    · simp [same]
    · simp [same, BarrierState.waiters]
  simp only [barrierEnter, tripCount_eq small, more, if_false]
  refine ⟨?_, not_le.mp more, fun other => ?_, inv.ones⟩
  · rw [BarrierState.waiters, grown, Finset.card_insert_of_notMem absent, inv.count, Nat.cast_succ]
  · by_cases same : other = thread
    · subst same
      simp [InRound, entered, returned]
    · simpa [same] using inv.each other

/-- A woken thread returns. -/
theorem BarrierInv.leave (inv : BarrierInv s done) (here : s.pc thread = .woken) :
    BarrierInv (barrierLeave s thread) done := by
  obtain ⟨entered, returned⟩ := inv.own here
  have kept : (Finset.univ.filter fun other => Function.update s.pc thread .outside other = .waiting) = s.waiters := by
    ext other
    by_cases same : other = thread
    · simp [same, BarrierState.waiters, here]
    · simp [same, BarrierState.waiters]
  refine ⟨?_, inv.room, fun other => ?_, inv.ones⟩
  · rw [BarrierState.waiters, barrierLeave, kept]
    exact inv.count
  · by_cases same : other = thread
    · subst same
      simp [barrierLeave, InRound, entered, returned]
    · simpa [barrierLeave, same] using inv.each other

end Steps

/-- A single thread never waits, so that nothing can wake it. -/
theorem BarrierInv.step {s s' : BarrierState N} {done : Nat} {spurious : Prop} (small : N ≤ 2 ^ 31 - 1)
    (alone : spurious → N = 1) (inv : BarrierInv s done) (step : BarrierStep spurious s s') : ∃ done', BarrierInv s' done' := by
  cases step with
  | enter thread here =>
    by_cases last : (N : Int) ≤ s.count + 1
    · exact ⟨_, inv.enter_last small here last⟩
    · exact ⟨_, inv.enter_wait small here last⟩
  | wake thread here may =>
    have waits : 0 < s.waiters.card := Finset.card_pos.mpr ⟨thread, by simp [BarrierState.waiters, here]⟩
    have counted := inv.count
    have room := inv.room
    have single := alone may
    omega
  | leave thread here => exact ⟨_, inv.leave here⟩

theorem BarrierReachable.inv {spurious : Prop} (threads : 1 ≤ N) (small : N ≤ 2 ^ 31 - 1) (alone : spurious → N = 1)
    {s : BarrierState N} (reachable : BarrierReachable spurious s) : ∃ done, BarrierInv s done := by
  induction reachable with
  | refl => exact ⟨0, barrierStart_inv threads⟩
  | tail _ step ih =>
    obtain ⟨done, inv⟩ := ih
    exact inv.step small alone step

/-- The bounds on the calls of every thread. -/
theorem BarrierInv.bounds {s : BarrierState N} {done : Nat} (inv : BarrierInv s done) (thread : Fin N) :
    s.returned thread ≤ done ∧ done ≤ s.entered thread := by
  have own := inv.each thread
  cases here : s.pc thread <;> rw [here] at own <;> obtain ⟨entered, returned⟩ := own <;> omega

/-- Some thread has not entered the round behind the current one. -/
theorem BarrierInv.behind {s : BarrierState N} {done : Nat} (inv : BarrierInv s done) :
    ∃ thread, s.entered thread = done := by
  have awake : ∃ thread, thread ∉ s.waiters := by
    by_contra all
    have whole : s.waiters = Finset.univ := Finset.eq_univ_iff_forall.mpr fun thread => by
      by_contra absent
      exact all ⟨thread, absent⟩
    have room := inv.room
    rw [inv.count, whole, Finset.card_univ, Fintype.card_fin] at room
    omega
  obtain ⟨thread, absent⟩ := awake
  cases here : s.pc thread with
  | outside => exact ⟨thread, (inv.own here).1⟩
  | waiting => exact (absent (by simp [BarrierState.waiters, here])).elim
  | woken => exact ⟨thread, (inv.own here).1⟩

/-- The rounds are kept apart. -/
theorem BarrierInv.roundsOk {s : BarrierState N} {done : Nat} (inv : BarrierInv s done) : s.RoundsOk := by
  refine ⟨fun thread other => ?_, fun round first => ?_⟩
  · have low := inv.bounds thread
    have high := inv.bounds other
    omega
  · have entered : (∀ thread, round ≤ s.entered thread) ↔ round ≤ done := by
      constructor
      · intro all
        obtain ⟨thread, same⟩ := inv.behind
        exact same ▸ all thread
      · exact fun below thread => below.trans (inv.bounds thread).2
    rw [inv.ones round first]
    simp only [entered]

/-- A thread that returns while another has not entered has broken its round. -/
theorem BarrierState.RoundsOk.entered {s : BarrierState N} (ok : s.RoundsOk) {thread other : Fin N} (returned : s.returned thread = 1)
    : s.entered other ≠ 0 := fun outside => by
  have below := ok.1 thread other
  omega

/-- With a trip count in the upper half of the `unsigned int` the first thread to come does not wait. -/
theorem barrierEnter_large (large : 2 ^ 31 ≤ N) (word : N < 2 ^ 32) (thread : Fin N) :
    (barrierEnter .start thread).returned thread = 1 ∧ ∀ other, other ≠ thread → (barrierEnter .start thread).entered other = 0 := by
  have past : tripCount N ≤ (BarrierState.start : BarrierState N).count + 1 := by
    have negative : tripCount N < 0 := intOfSize_neg large word
    simp only [BarrierState.start]
    omega
  simp only [barrierEnter, if_pos past]
  exact ⟨by simp [BarrierState.start], fun other apart => by simp [BarrierState.start, apart]⟩

/-- A thread that is woken without a broadcast returns from its first call. -/
theorem BarrierReachable.wokenAlone (small : N ≤ 2 ^ 31 - 1) {thread other : Fin N} (apart : other ≠ thread) :
    ∃ s : BarrierState N, BarrierReachable True s ∧ s.returned thread = 1 ∧ s.entered other = 0 := by
  have more : ¬ tripCount N ≤ 1 := by
    have two : (thread : Nat) ≠ other := fun same => apart (Fin.ext same.symm)
    rw [tripCount_eq small]
    omega
  have waits : (barrierEnter .start thread).pc thread = .waiting := by simp [barrierEnter, BarrierState.start, more]
  have first : BarrierReachable True (barrierEnter .start thread) := ReflTransGen.single (.enter thread rfl)
  have third := (first.tail (.wake thread waits trivial)).tail (.leave thread (Function.update_self ..))
  exact ⟨_, third, by simp [barrierLeave, barrierEnter, more, BarrierState.start],
    by simp [barrierLeave, barrierEnter, more, BarrierState.start, apart]⟩

/-- The rounds are kept apart in every run just when the trip count is one of an `int` and `pthread_cond_wait` returns
after a broadcast only; a single thread never waits. -/
theorem barrier_roundsOk_iff (threads : 1 ≤ N) (word : N < 2 ^ 32) (spurious : Prop) :
    (∀ s : BarrierState N, BarrierReachable spurious s → s.RoundsOk) ↔ N ≤ 2 ^ 31 - 1 ∧ (spurious → N = 1) := by
  constructor
  · intro ok
    have small : N ≤ 2 ^ 31 - 1 := by
      by_contra large
      have two : 1 < N := by omega
      obtain ⟨returned, entered⟩ := barrierEnter_large (by omega) word (⟨0, threads⟩ : Fin N)
      exact (ok _ (.single (.enter _ rfl))).entered returned (entered ⟨1, two⟩ (by simp))
    refine ⟨small, fun may => ?_⟩
    by_contra more
    have two : 1 < N := by omega
    have apart : (⟨1, two⟩ : Fin N) ≠ ⟨0, threads⟩ := by simp
    obtain ⟨s, reachable, returned, entered⟩ := BarrierReachable.wokenAlone small apart
    exact (ok s (by rwa [eq_true may])).entered returned entered
  · rintro ⟨small, alone⟩ s reachable
    obtain ⟨done, inv⟩ := reachable.inv threads small alone
    exact inv.roundsOk

/-- Two threads meet; the first to arrive has returned, and has entered the next round. -/
theorem barrier_roundsOk_two : ∃ s : BarrierState 2, s.returned 0 = 1 ∧ s.entered 0 = 2 ∧ s.returned 1 = 1 ∧ s.RoundsOk := by
  have first : BarrierReachable False (barrierEnter (.start : BarrierState 2) 0) := ReflTransGen.single (.enter 0 rfl)
  have second := ((first.tail (.enter 1 rfl)).tail (.leave 0 rfl)).tail (.enter 0 rfl)
  exact ⟨_, rfl, rfl, rfl, (barrier_roundsOk_iff (by decide) (by decide) False).mpr ⟨by decide, False.elim⟩ _ second⟩

/-- After a spurious wake-up a thread returns alone. -/
theorem spurious_not_roundsOk : ∃ s : BarrierState 2, BarrierReachable True s ∧ s.returned 0 = 1 ∧ s.entered 1 = 0 ∧
    ¬ s.RoundsOk := by
  have first : BarrierReachable True (barrierEnter (.start : BarrierState 2) 0) := ReflTransGen.single (.enter 0 rfl)
  have second := first.tail (.wake 0 rfl trivial)
  have third := second.tail (.leave 0 rfl)
  exact ⟨_, third, rfl, rfl, fun ok => absurd (ok.1 0 1) (by decide)⟩

end Puma
