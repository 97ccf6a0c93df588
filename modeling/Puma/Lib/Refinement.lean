import Mathlib.Data.List.Basic
import Mathlib.Logic.Relation

namespace Refinement

variable {S T U E : Type}

/-- A run from a state, with the events of its steps in order. -/
inductive Run (step : S → List E → S → Prop) (s : S) : List E → S → Prop
  | refl : Run step s [] s
  | tail {events new : List E} {s' s'' : S} (before : Run step s events s') (last : step s' new s'') :
      Run step s (events ++ new) s''

theorem Run.single {step : S → List E → S → Prop} {s s' : S} {events : List E} (once : step s events s') :
    Run step s events s' := by
  simpa using Run.refl.tail once

theorem Run.trans {step : S → List E → S → Prop} {s s' s'' : S} {events events' : List E} (first : Run step s events s')
    (second : Run step s' events' s'') : Run step s (events ++ events') s'' := by
  induction second with
  | refl => simpa using first
  | tail _ last ih =>
    rw [← List.append_assoc]
    exact ih.tail last

/-- What is seen of calls that are carried out one after the other, and the state behind them. -/
def perform (call : S → T → Option S) (seen : S → T → List E) : List T → S → Option (List E × S)
  | [], s => some ([], s)
  | t :: calls, s => do
    let s' ← call s t
    let (events, s'') ← perform call seen calls s'
    pure (seen s t ++ events, s'')

/-- Calls that are steps make a run. -/
theorem Run.of_perform {call : S → T → Option S} {seen : S → T → List E} {step : S → List E → S → Prop}
    (each : ∀ s t s', call s t = some s' → step s (seen s t) s') (calls : List T) {s s' : S} {events : List E}
    (run : perform call seen calls s = some (events, s')) : Run step s events s' := by
  induction calls generalizing s events with
  | nil =>
    cases run
    exact .refl
  | cons t calls ih =>
    obtain ⟨s₁, first, run⟩ := Option.bind_eq_some_iff.mp run
    obtain ⟨⟨new, s₂⟩, rest, same⟩ := Option.bind_eq_some_iff.mp run
    cases same
    exact (Run.single (each _ _ _ first)).trans (ih rest)

theorem reflTransGen_of_foldlM {call : S → T → Option S} {step : S → S → Prop}
    (each : ∀ s t s', call s t = some s' → step s s') {calls : List T} {s s' : S}
    (run : calls.foldlM call s = some s') : Relation.ReflTransGen step s s' := by
  induction calls generalizing s with
  | nil =>
    cases run
    exact .refl
  | cons t calls ih =>
    obtain ⟨s₁, first, rest⟩ := Option.bind_eq_some_iff.mp ((List.foldlM_cons ..).symm.trans run)
    exact .head (each _ _ _ first) (ih rest)

/-- A part of the state that each step changes by its events only. -/
theorem Run.foldl {step : S → List E → S → Prop} {part : S → T} {apply : T → E → T}
    (each : ∀ s events s', step s events s' → part s' = events.foldl apply (part s)) {s s' : S} {events : List E}
    (run : Run step s events s') : part s' = events.foldl apply (part s) := by
  induction run with
  | refl => rfl
  | tail _ last ih => rw [each _ _ _ last, ih, List.foldl_append]

/-- Forward simulation: where the states are related, every step of the first system is a run
of the second one with the same events, to a related state. -/
def Simulates (step : S → List E → S → Prop) (spec : T → List E → T → Prop) (rel : S → T → Prop) : Prop :=
  ∀ s t events s', rel s t → step s events s' → ∃ t', Run spec t events t' ∧ rel s' t'

variable {step : S → List E → S → Prop} {mid : T → List E → T → Prop} {spec : U → List E → U → Prop}

theorem Simulates.run {rel : S → T → Prop} (simulates : Simulates step mid rel) {s s' : S} {t : T} {events : List E}
    (related : rel s t) (run : Run step s events s') : ∃ t', Run mid t events t' ∧ rel s' t' := by
  induction run with
  | refl => exact ⟨t, .refl, related⟩
  | tail _ last ih =>
    obtain ⟨t₁, run₁, related₁⟩ := ih
    obtain ⟨t', run', related'⟩ := simulates _ t₁ _ _ related₁ last
    exact ⟨t', run₁.trans run', related'⟩

/-- Simulations compose. -/
theorem Simulates.comp {rel : S → T → Prop} {rel' : T → U → Prop} (first : Simulates step mid rel)
    (second : Simulates mid spec rel') : Simulates step spec fun s u => ∃ t, rel s t ∧ rel' t u := by
  intro s u events s' ⟨t, related, related'⟩ once
  obtain ⟨t', run, after⟩ := first s t events s' related once
  obtain ⟨u', run', after'⟩ := second.run related' run
  exact ⟨u', run', t', after, after'⟩

section Parts

variable {V O : Type} [DecidableEq T] {step : S → List E → S → Prop}

/-- If a step is a step of the part that owns its event, and leaves the other parts alone, then a run is, for each part, a run of
this part alone, with the events that it owns. -/
theorem Run.project (alone : T → V → List E → V → Prop) (inv : S → Prop) (part : T → S → V) (owner : E → T)
    (each : ∀ s events s', inv s → step s events s' → inv s' ∧ ∃ e, events = [e] ∧
      alone (owner e) (part (owner e) s) [e] (part (owner e) s') ∧ ∀ t, t ≠ owner e → part t s' = part t s)
    {s s' : S} {events : List E} (start : inv s) (run : Run step s events s') :
    inv s' ∧ ∀ t, Run (alone t) (part t s) (events.filter fun e => owner e = t) (part t s') := by
  induction run with
  | refl => exact ⟨start, fun t => .refl⟩
  | @tail _ _ s₁ s₂ _ last ih =>
    obtain ⟨inv₁, runs⟩ := ih
    obtain ⟨inv₂, e, rfl, own, others⟩ := each _ _ _ inv₁ last
    refine ⟨inv₂, fun t => ?_⟩
    rw [List.filter_append]
    by_cases same : owner e = t
    · subst same
      have once : List.filter (fun e' => owner e' = owner e) [e] = [e] := by simp
      rw [once]
      exact (runs (owner e)).tail own
    · have empty : List.filter (fun e' => owner e' = t) [e] = [] := by simp [same]
      rw [empty, List.append_nil, others t (Ne.symm same)]
      exact runs t

omit [DecidableEq T] in
/-- Where what is done decides what is seen and what follows, so it does in runs. -/
theorem Run.determined {step : V → List E → V → Prop} (op : E → O) (one : ∀ v events v', step v events v' → ∃ e, events = [e])
    (functional : ∀ v e e' v' v'', step v [e] v' → step v [e'] v'' → op e = op e' → e = e' ∧ v' = v'')
    {v v' v'' : V} {events events' : List E} (run : Run step v events v') (run' : Run step v events' v'')
    (same : events.map op = events'.map op) : events = events' ∧ v' = v'' := by
  induction run generalizing events' v'' with
  | refl =>
    cases run' with
    | refl => exact ⟨rfl, rfl⟩
    | tail _ last =>
      obtain ⟨e, rfl⟩ := one _ _ _ last
      simp at same
  | tail _ last ih =>
    obtain ⟨e, rfl⟩ := one _ _ _ last
    cases run' with
    | refl => simp at same
    | tail before' last' =>
      obtain ⟨e', rfl⟩ := one _ _ _ last'
      rw [List.map_append, List.map_append, List.map_singleton, List.map_singleton] at same
      obtain ⟨front, back⟩ := List.append_inj' same rfl
      obtain ⟨rfl, rfl⟩ := ih before' front
      obtain ⟨rfl, rfl⟩ := functional _ _ _ _ _ last last' (List.singleton_inj.mp back)
      exact ⟨rfl, rfl⟩

end Parts

end Refinement
