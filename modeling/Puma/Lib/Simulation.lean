import Mathlib.Logic.Basic

namespace Simulation

variable {A A' B B' : Type}

/-- If `x` returns, so does `y`, and their results are related by `r`. -/
def Carries (r : A → A' → Prop) (x : Option A) (y : Option A') : Prop := ∀ a, x = some a → ∃ b, y = some b ∧ r a b

/-- Related results, each with the same value. -/
def With (r : A → A' → Prop) (x : A × B) (y : A' × B) : Prop := r x.1 y.1 ∧ x.2 = y.2

variable {r : A → A' → Prop} {s : B → B' → Prop}

theorem Carries.none (y : Option A') : Carries r none y := fun _ returned => by cases returned

theorem Carries.some {a : A} {b : A'} (related : r a b) : Carries r (some a) (some b) := fun a' returned => by
  cases returned
  exact ⟨b, rfl, related⟩

theorem Carries.bind {x : Option A} {y : Option A'} {k : A → Option B} {k' : A' → Option B'}
    (first : Carries r x y) (second : ∀ a b, x = .some a → r a b → Carries s (k a) (k' b)) :
    Carries s (x.bind k) (y.bind k') := by
  intro c returned
  obtain ⟨a, atA, atC⟩ := Option.bind_eq_some_iff.mp returned
  obtain ⟨b, atB, related⟩ := first a atA
  obtain ⟨d, atD, related'⟩ := second a b atA related c atC
  exact ⟨d, by rw [atB]; exact atD, related'⟩

theorem Carries.map {x : Option A} {y : Option A'} {f : A → B} {f' : A' → B'} (first : Carries r x y)
    (second : ∀ a b, r a b → s (f a) (f' b)) : Carries s (x.map f) (y.map f') := by
  intro c returned
  obtain ⟨a, atA, rfl⟩ := Option.map_eq_some_iff.mp returned
  obtain ⟨b, atB, related⟩ := first a atA
  exact ⟨f' b, by rw [atB]; rfl, second a b related⟩

/-- Two calls that agree go on to agree. -/
theorem rel_bind {x : Option A} {y : Option A'} {k : A → Option B} {k' : A' → Option B'} (first : Option.Rel r x y)
    (second : ∀ a b, r a b → Option.Rel s (k a) (k' b)) : Option.Rel s (x.bind k) (y.bind k') := by
  cases first with
  | none => exact .none
  | some related => exact second _ _ related

theorem rel_cases {x : Option A} {y : Option A'} (same : Option.Rel r x y) :
    (x = .none ∧ y = .none) ∨ ∃ a b, x = .some a ∧ y = .some b ∧ r a b := by
  cases same with
  | none => exact Or.inl ⟨rfl, rfl⟩
  | some related => exact Or.inr ⟨_, _, rfl, rfl, related⟩

end Simulation
