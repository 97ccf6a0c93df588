import Mathlib.Data.List.Basic

namespace Tokens

variable {α : Type*} [DecidableEq α] {sep : α}

/-- The parts of `l` between separators, as far as they are not empty. -/
def of (sep : α) (l : List α) : List (List α) := (l.splitOn sep).filter (· ≠ [])

@[simp] theorem of_nil : of sep [] = [] := by simp [of]

theorem of_append_sep (l rest : List α) : of sep (l ++ sep :: rest) = of sep l ++ of sep rest := by
  simp [of, List.splitOn_append_cons_self]

@[simp] theorem of_sep_cons (rest : List α) : of sep (sep :: rest) = of sep rest := by
  simpa using of_append_sep [] rest

/-- A list without separators is one token. -/
theorem of_notMem {token : List α} (noSep : sep ∉ token) (nonempty : token ≠ []) : of sep token = [token] := by
  simp [of, List.splitOn_eq_singleton noSep, nonempty]

theorem of_token_append {token : List α} (noSep : sep ∉ token) (nonempty : token ≠ []) (rest : List α) :
    of sep (token ++ sep :: rest) = token :: of sep rest := by
  rw [of_append_sep, of_notMem noSep nonempty, List.singleton_append]

/-- Separators in front make no tokens. -/
theorem of_separators_append {separators : List α} (all : ∀ c ∈ separators, c = sep) (rest : List α) :
    of sep (separators ++ rest) = of sep rest := by
  induction separators with
  | nil => rfl
  | cons c separators ih =>
    obtain ⟨rfl, all⟩ := List.forall_mem_cons.mp all
    rw [List.cons_append, of_sep_cons, ih all]

/-- A list without tokens is empty or begins with a separator. -/
theorem head_of_eq_nil {l : List α} (empty : of sep l = []) : l = [] ∨ ∃ rest, l = sep :: rest := by
  match l with
  | [] => exact .inl rfl
  | c :: rest =>
    by_cases isSep : c = sep
    · exact .inr ⟨rest, by rw [isSep]⟩
    · have parts := List.splitOn_ne_nil sep rest
      rw [of, List.splitOn_cons_eq_if_modifyHead, beq_eq_false_iff_ne.mpr isSep] at empty
      obtain ⟨part, more, parts⟩ := List.exists_cons_of_ne_nil parts
      simp [parts] at empty

/-- The tokens of joined tokens are these. -/
theorem of_intercalate {tokens : List (List α)} (noSep : ∀ token ∈ tokens, sep ∉ token)
    (nonempty : ∀ token ∈ tokens, token ≠ []) : of sep ([sep].intercalate tokens) = tokens := by
  by_cases empty : tokens = []
  · simp [empty]
  · rw [of, List.splitOn_intercalate sep noSep empty]
    exact List.filter_eq_self.mpr fun token member => by simpa using nonempty token member

end Tokens
