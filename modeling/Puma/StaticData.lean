import Mathlib.Data.List.Count
import Mathlib.Data.Nat.Bitwise
import Puma.StaticVar

namespace Puma

variable {τ : Type} [DecidableEq τ]

/-- A call of one of the threads; `block` is what the allocator returns if it is asked. -/
inductive StaticCall (τ : Type)
  | pumallocStaticLocal (thread : τ) (size block : Nat)
  | pumaDeleteStaticData (thread : τ)

def StaticCall.perform (pumaPageSize : Nat) (s : StaticState τ) : StaticCall τ → Option (StaticState τ)
  | .pumallocStaticLocal thread size block => (Puma.pumallocStaticLocal pumaPageSize s thread size block).map Prod.fst
  | .pumaDeleteStaticData thread => (Puma.pumaDeleteStaticData s thread).map Prod.fst

/-- The states that calls of any threads lead to, each of them allowed where it is made. -/
inductive StaticReachable (pumaPageSize : Nat) (allowed : StaticState τ → StaticCall τ → Prop) :
    StaticState τ → Prop
  | start : StaticReachable pumaPageSize allowed .start
  | next {s s' : StaticState τ} (call : StaticCall τ) (reach : StaticReachable pumaPageSize allowed s)
      (here : allowed s call) (run : call.perform pumaPageSize s = some s') : StaticReachable pumaPageSize allowed s'

/-- A thread deletes when the other threads hold no block, and no call overwrites a pointer to a block. -/
def StaticCall.Careful (s : StaticState τ) : StaticCall τ → Prop
  | .pumallocStaticLocal thread size _ => ¬ s.Overwrites thread size
  | .pumaDeleteStaticData thread => ∀ b u, (b, u) ∈ s.blocks → u = thread

section Delete

variable {pumaPageSize : Nat} {allowed : StaticState τ → StaticCall τ → Prop} {s s' : StaticState τ}

theorem StaticCall.perform_ok {call : StaticCall τ} (ok : s.Ok) (run : call.perform pumaPageSize s = some s') :
    s'.Ok := by
  cases call with
  | pumallocStaticLocal thread size block =>
    obtain ⟨⟨s₁, ret⟩, made, rfl⟩ := Option.map_eq_some_iff.mp run
    exact (pumallocStaticLocal_cases ok made).ok ok
  | pumaDeleteStaticData thread =>
    obtain ⟨s₁, deleted, ok₁, _⟩ := pumaDeleteStaticData_spec ok thread
    rw [StaticCall.perform, deleted] at run
    cases run
    exact ok₁

theorem StaticReachable.ok (reach : StaticReachable pumaPageSize allowed s) : s.Ok := by
  induction reach with
  | start => exact StaticState.start_ok
  | next call _ _ run ih => exact StaticCall.perform_ok ih run

theorem StaticReachable.complete (reach : StaticReachable pumaPageSize StaticCall.Careful s) : s.Complete := by
  induction reach with
  | start =>
    intro b u member
    cases member
  | next call reach careful run ih =>
    cases call with
    | pumallocStaticLocal thread size block =>
      obtain ⟨⟨s₁, ret⟩, made, rfl⟩ := Option.map_eq_some_iff.mp run
      exact (pumallocStaticLocal_cases reach.ok made).complete reach.ok careful ih
    | pumaDeleteStaticData thread =>
      obtain ⟨s₁, deleted, _, _, blocks⟩ := pumaDeleteStaticData_spec reach.ok thread
      rw [StaticCall.perform, deleted] at run
      cases run
      intro b u member
      rw [blocks, List.mem_filter, decide_eq_true_eq] at member
      have own := careful b u member.1
      subst own
      exact (member.2 (ih b u member.1)).elim

/-- A deletion releases no block of another thread and every block of its own. -/
def StaticState.DeletesOwn (s : StaticState τ) : Prop :=
  ∀ thread, ∃ s' freed, pumaDeleteStaticData s thread = some (s', freed) ∧
    (∀ b u, (b, u) ∈ s.blocks → u ≠ thread → b ∉ freed) ∧ ∀ b, (b, thread) ∈ s.blocks → b ∈ freed

/-- As long as no thread deletes while another one holds blocks, and no call overwrites a
pointer to a block, every thread can release all its blocks. -/
theorem StaticReachable.deletesOwn (reach : StaticReachable pumaPageSize StaticCall.Careful s) : s.DeletesOwn := by
  intro thread
  obtain ⟨s', run, _⟩ := pumaDeleteStaticData_spec reach.ok thread
  refine ⟨s', _, run, fun b u member other inside => ?_, fun b member => reach.complete b thread member⟩
  exact other (reach.ok.owner_unique member (reach.ok.chain_own inside))

omit [DecidableEq τ] in
theorem StaticState.not_overwrites_head {thread : τ} {size : Nat} (missing : s.head thread = none) :
    ¬ s.Overwrites thread size := by
  rintro ⟨a, n, atHead, _⟩
  rw [missing] at atHead
  cases atHead

omit [DecidableEq τ] in
theorem StaticState.not_overwrites_next {thread : τ} {size a : Nat} {n : PumaStaticNode} (atHead : s.head thread = some a)
    (atNode : s.node a = some n) (last : n.next = none) : ¬ s.Overwrites thread size := by
  rintro ⟨a', n', atHead', atNode', _, linked⟩
  cases atHead.symm.trans atHead'
  cases atNode.symm.trans atNode'
  exact linked last

/-- A thread takes a second block where its first one has no room, and deletes both; then two threads have blocks again,
one of them two. -/
theorem StaticReachable.deletesOwn_second : ∃ s : StaticState Bool,
    s.blocks = [(32768, false), (4096, true), (16384, false)] ∧ s.DeletesOwn := by
  have own : ∀ x ∈ [(16384, true), (4096, true)], x.2 = true := by decide
  obtain ⟨s, blocks, reach⟩ : ∃ s : StaticState Bool, s.blocks = [(32768, false), (4096, true), (16384, false)] ∧
      StaticReachable 4096 StaticCall.Careful s :=
    ⟨_, rfl, .next (.pumallocStaticLocal false 16384 32768) (.next (.pumallocStaticLocal true 8 4096)
      (.next (.pumallocStaticLocal false 8 16384) (.next (.pumaDeleteStaticData true)
        (.next (.pumallocStaticLocal true 16384 16384) (.next (.pumallocStaticLocal true 8 4096) .start
          (StaticState.not_overwrites_head rfl) rfl) (StaticState.not_overwrites_next rfl rfl rfl) rfl)
        (fun b u member => own (b, u) member) rfl) (StaticState.not_overwrites_head rfl) rfl)
      (StaticState.not_overwrites_head rfl) rfl) (StaticState.not_overwrites_next rfl rfl rfl) rfl⟩
  exact ⟨s, blocks, StaticReachable.deletesOwn reach⟩

/-- The thread that deletes second finds no head and leaves its block behind. -/
theorem pumaDeleteStaticData_leaks : ∃ s : StaticState Bool,
    StaticReachable 4096 (fun _ _ => True) s ∧ ¬ s.DeletesOwn := by
  refine ⟨_, .next (.pumaDeleteStaticData true) (.next (.pumallocStaticLocal false 8 16384)
    (.next (.pumallocStaticLocal true 8 4096) .start trivial rfl) trivial rfl) trivial rfl, fun own => ?_⟩
  obtain ⟨s', freed, run, _, all⟩ := own false
  cases run
  have inside := all 16384 (by decide)
  cases inside

end Delete

/-- A call of `pumallocStaticLocal` that has returned: the state before it, its argument and its result. -/
structure StaticAlloc (τ : Type) where
  before : StaticState τ
  size : Nat
  ret : Nat

/-- Calls of `pumallocStaticLocal` by one thread, each with its size and the block that the
allocator has ready. -/
def pumallocCalls (pumaPageSize : Nat) (thread : τ) :
    StaticState τ → List (Nat × Nat) → Option (StaticState τ × List (StaticAlloc τ))
  | s, [] => some (s, [])
  | s, (size, block) :: calls => do
    let (s₁, ret) ← pumallocStaticLocal pumaPageSize s thread size block
    let (s', later) ← pumallocCalls pumaPageSize thread s₁ calls
    pure (s', ⟨s, size, ret⟩ :: later)

section OneThread

variable {pumaPageSize : Nat} {thread : τ} {s s' : StaticState τ} {calls : List (Nat × Nat)}
  {trace : List (StaticAlloc τ)}

theorem pumallocCalls_cons {size block : Nat}
    (run : pumallocCalls pumaPageSize thread s ((size, block) :: calls) = some (s', trace)) :
    ∃ s₁ ret later, pumallocStaticLocal pumaPageSize s thread size block = some (s₁, ret) ∧
      pumallocCalls pumaPageSize thread s₁ calls = some (s', later) ∧ trace = ⟨s, size, ret⟩ :: later := by
  simp only [pumallocCalls, Option.bind_eq_bind] at run
  obtain ⟨⟨s₁, ret⟩, first, run⟩ := Option.bind_eq_some_iff.mp run
  obtain ⟨⟨s₂, later⟩, rest, run⟩ := Option.bind_eq_some_iff.mp run
  cases run
  exact ⟨s₁, ret, later, first, rest, rfl⟩

theorem pumallocCalls_ok (ok : s.Ok) (run : pumallocCalls pumaPageSize thread s calls = some (s', trace)) :
    s'.Ok := by
  induction calls generalizing s trace with
  | nil => cases run; exact ok
  | cons call calls ih =>
    obtain ⟨s₁, ret, later, first, rest, _⟩ := pumallocCalls_cons run
    exact ih ((pumallocStaticLocal_cases ok first).ok ok) rest

/-- A block that has left its thread's chain does not come back. -/
theorem pumallocCalls_lost {b : Nat} (ok : s.Ok) (inUse : b ∈ s.blocks.map Prod.fst) (lost : b ∉ s.chain thread)
    (run : pumallocCalls pumaPageSize thread s calls = some (s', trace)) :
    b ∈ s'.blocks.map Prod.fst ∧ b ∉ s'.chain thread := by
  induction calls generalizing s trace with
  | nil => cases run; exact ⟨inUse, lost⟩
  | cons call calls ih =>
    obtain ⟨s₁, ret, later, first, rest, _⟩ := pumallocCalls_cons run
    have case := pumallocStaticLocal_cases ok first
    refine ih (case.ok ok) ?_ ?_ rest
    · rcases case.chains ok with ⟨_, _, blocks, _⟩ | ⟨blocks, _⟩ | ⟨_, _, _, _, blocks, _⟩ <;> rw [blocks]
      · exact List.mem_cons_of_mem _ inUse
      · exact inUse
      · exact List.mem_cons_of_mem _ inUse
    · rcases case.chains ok with ⟨_, fresh, _, chain, _⟩ | ⟨_, chain, _⟩ | ⟨a, more, atChain, fresh, _, chain, _⟩ <;>
        rw [chain]
      · rw [Function.update_self, List.mem_singleton]
        exact fun same => fresh (same ▸ inUse)
      · exact lost
      · rw [Function.update_self, List.mem_cons, List.mem_singleton, not_or]
        exact ⟨fun same => lost (by rw [atChain, same]; exact List.mem_cons_self ..), fun same => fresh (same ▸ inUse)⟩

/-- After any number of calls the chain holds every block obtained since `old`, unless a call has
overwritten the pointer to one. -/
theorem pumallocCalls_chain {old : List Nat} (ok : s.Ok) (own : ∀ b ∈ s.chain thread, b ∉ old)
    (oldInUse : ∀ b ∈ old, b ∈ s.blocks.map Prod.fst)
    (complete : ∀ b ∈ s.blocks.map Prod.fst, b ∉ old → b ∈ s.chain thread)
    (run : pumallocCalls pumaPageSize thread s calls = some (s', trace)) :
    (∀ b ∈ s'.blocks.map Prod.fst, b ∉ old → b ∈ s'.chain thread) ↔
      ∀ alloc ∈ trace, ¬ alloc.before.Overwrites thread alloc.size := by
  induction calls generalizing s trace with
  | nil =>
    cases run
    simpa using complete
  | cons call calls ih =>
    obtain ⟨size, block⟩ := call
    obtain ⟨s₁, ret, later, first, rest, rfl⟩ := pumallocCalls_cons run
    have case := pumallocStaticLocal_cases ok first
    have grow (lost : List Nat) (fresh : block ∉ s.blocks.map Prod.fst)
        (blocks : s₁.blocks = (block, thread) :: s.blocks) (chain : ∀ b, b ∈ s₁.chain thread ↔ b ∈ lost ∨ b = block)
        (same : ∀ b, b ∈ s.chain thread ↔ b ∈ lost) (careful : ¬ s.Overwrites thread size) :
        (∀ b ∈ s'.blocks.map Prod.fst, b ∉ old → b ∈ s'.chain thread) ↔
          ∀ alloc ∈ ⟨s, size, ret⟩ :: later, ¬ alloc.before.Overwrites thread alloc.size := by
      rw [ih (case.ok ok) (fun b inside => ?_) (fun b inside => ?_) (fun b inside new => ?_) rest, List.forall_mem_cons,
        and_iff_right careful]
      · rcases (chain b).mp inside with before | rfl
        · exact own b ((same b).mpr before)
        · exact fun inOld => fresh (oldInUse b inOld)
      · rw [blocks]
        exact List.mem_cons_of_mem _ (oldInUse b inside)
      · rw [blocks, List.map_cons, List.mem_cons] at inside
        rcases inside with rfl | before
        · exact (chain b).mpr (Or.inr rfl)
        · exact (chain b).mpr (Or.inl ((same b).mp (complete b before new)))
    rcases case.chains ok with ⟨missing, fresh, blocks, chain, careful⟩ | ⟨blocks, chain, careful⟩ |
      ⟨a, lost, atChain, fresh, blocks, chain, bad⟩
    · refine grow [] fresh blocks (fun b => ?_) (fun b => ?_) careful
      · rw [chain, Function.update_self]
        simp
      · rw [missing]
    · rw [ih (case.ok ok) (by rw [chain]; exact own) (by rw [blocks]; exact oldInUse)
        (by rw [blocks, chain]; exact complete) rest, List.forall_mem_cons, and_iff_right careful]
    · by_cases nothing : lost = []
      · refine grow [a] fresh blocks (fun b => ?_) (fun b => ?_) (mt bad.mp (not_not.mpr nothing))
        · rw [chain, Function.update_self]
          simp
        · rw [atChain, nothing]
      · obtain ⟨x, more, rfl⟩ := List.exists_cons_of_ne_nil nothing
        have inChain : x ∈ s.chain thread := by simp [atChain]
        have inUse : x ∈ s.blocks.map Prod.fst := List.mem_map_of_mem (f := Prod.fst) (ok.chain_own inChain)
        have nodup := ok.chain_nodup thread
        rw [atChain] at nodup
        have gone : x ∉ s₁.chain thread := by
          rw [chain, Function.update_self, List.mem_cons, List.mem_singleton, not_or]
          exact ⟨fun same => by simp [same] at nodup, fun same => fresh (same ▸ inUse)⟩
        have inUse₁ : x ∈ s₁.blocks.map Prod.fst := by
          rw [blocks]
          exact List.mem_cons_of_mem _ inUse
        obtain ⟨stays, away⟩ := pumallocCalls_lost (case.ok ok) inUse₁ gone rest
        refine iff_of_false (fun all => away (all x stays (own x inChain))) fun all => ?_
        exact (List.forall_mem_cons.mp all).1 (bad.mpr nothing)

/-- The calls of one thread since the last deletion are all undone by the next one, if and only if
none of them overwrites the pointer to a block. -/
theorem pumallocCalls_freed {allowed : StaticState τ → StaticCall τ → Prop} {s₀ : StaticState τ}
    (reach : StaticReachable pumaPageSize allowed s₀) (deleted : s₀.initialiseOnce = false)
    (run : pumallocCalls pumaPageSize thread s₀ calls = some (s, trace)) :
    ∃ s' freed, pumaDeleteStaticData s thread = some (s', freed) ∧
      ((∀ b ∈ s.blocks.map Prod.fst, b ∉ s₀.blocks.map Prod.fst → freed.count b = 1) ↔
        ∀ alloc ∈ trace, ¬ alloc.before.Overwrites thread alloc.size) := by
  have ok := pumallocCalls_ok reach.ok run
  obtain ⟨s', freed, _⟩ := pumaDeleteStaticData_spec ok thread
  have empty : s₀.chain thread = [] := by
    refine StaticState.chain_none ?_
    rw [StaticState.head, deleted]
    rfl
  refine ⟨s', _, freed, ?_⟩
  rw [← pumallocCalls_chain reach.ok (by simp [empty]) (fun b inside => inside)
    (fun b inside new => (new inside).elim) run]
  refine forall₃_congr fun b _ _ => ?_
  constructor
  · intro once
    exact List.count_pos_iff.mp (by omega)
  · exact fun inside => List.count_eq_one_of_mem (ok.chain_nodup thread) inside

/-- Two blocks, both released. -/
theorem pumallocCalls_freed_two : ∃ (s s' : StaticState Unit) (trace : List (StaticAlloc Unit)) (freed : List Nat),
    pumallocCalls 4096 () .start [(4096, 8192), (4096, 16384)] = some (s, trace) ∧
      pumaDeleteStaticData s () = some (s', freed) ∧
      ((∀ b ∈ s.blocks.map Prod.fst, b ∉ [] → freed.count b = 1) ↔
        ∀ alloc ∈ trace, ¬ alloc.before.Overwrites () alloc.size) := by
  obtain ⟨s, trace, run⟩ : ∃ (s : StaticState Unit) (trace : List (StaticAlloc Unit)),
      pumallocCalls 4096 () .start [(4096, 8192), (4096, 16384)] = some (s, trace) := ⟨_, _, rfl⟩
  have reach : StaticReachable 4096 (fun _ _ => True) (StaticState.start : StaticState Unit) := .start
  obtain ⟨s', freed, deleted, equiv⟩ := pumallocCalls_freed reach rfl run
  exact ⟨s, s', trace, freed, run, deleted, equiv⟩

/-- The third block takes the place of the second one, which no deletion finds any more. -/
theorem pumallocCalls_leaks : ∃ (s s' : StaticState Unit) (trace : List (StaticAlloc Unit)) (freed : List Nat),
    pumallocCalls 4096 () .start [(4096, 8192), (4096, 16384), (4096, 32768)] = some (s, trace) ∧
      pumaDeleteStaticData s () = some (s', freed) ∧ 16384 ∈ s.blocks.map Prod.fst ∧ freed.count 16384 = 0 :=
  ⟨_, _, _, _, rfl, rfl, by decide, by decide⟩

end OneThread

end Puma
