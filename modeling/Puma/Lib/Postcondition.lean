import Mathlib.Logic.Basic

namespace Postcondition

variable {A B : Type}

/-- Whatever `x` returns satisfies `post`. -/
def Ensures (x : Option A) (post : A → Prop) : Prop := ∀ a, x = some a → post a

variable {post : B → Prop}

theorem Ensures.none : Ensures none post := fun _ returned => by cases returned

theorem Ensures.some {b : B} (holds : post b) : Ensures (some b) post := fun b' returned => by
  cases returned
  exact holds

theorem Ensures.bind {mid : A → Prop} {x : Option A} {k : A → Option B} (first : Ensures x mid)
    (second : ∀ a, mid a → Ensures (k a) post) : Ensures (x.bind k) post := by
  intro b returned
  obtain ⟨a, atA, atB⟩ := Option.bind_eq_some_iff.mp returned
  exact second a (first a atA) b atB

/-- The rest of a program may use the value that its first step returned. -/
theorem Ensures.read {x : Option A} {k : A → Option B} (rest : ∀ a, x = .some a → Ensures (k a) post) :
    Ensures (x.bind k) post := Ensures.bind (fun _ returned => returned) rest

/-- A loop over a list keeps what each of its turns keeps. -/
theorem Ensures.foldlM {body : B → A → Option B} {items : List A} {s : B} (start : post s)
    (turn : ∀ s a, a ∈ items → post s → Ensures (body s a) post) : Ensures (items.foldlM body s) post := by
  induction items generalizing s with
  | nil => exact Ensures.some start
  | cons a items ih =>
    rw [List.foldlM_cons]
    exact Ensures.bind (turn s a (List.mem_cons_self ..) start) fun s' kept =>
      ih kept fun s b member => turn s b (List.mem_cons_of_mem a member)

end Postcondition
