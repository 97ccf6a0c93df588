import Mathlib.Algebra.BigOperators.Group.List.Basic
import Mathlib.Data.List.DropRight
import Mathlib.Data.List.Rotate

namespace SlidingWindow

variable {α : Type*}

/-- The last `n` items with the oldest first, and `d` for those that have not been there. -/
def last (n : Nat) (d : α) (items : List α) : List α := (List.replicate n d ++ items).drop items.length

@[simp] theorem last_nil (n : Nat) (d : α) : last n d [] = List.replicate n d := by simp [last]

/-- A new item takes the place of the oldest one. -/
theorem last_concat {n : Nat} (positive : 0 < n) (d x : α) (items : List α) :
    last n d (items ++ [x]) = (last n d items).tail ++ [x] := by
  have within : items.length + 1 ≤ (List.replicate n d ++ items).length := by simp; omega
  rw [last, last, List.length_append, List.length_singleton, ← List.append_assoc, List.drop_append_of_le_length within,
    List.tail_drop]

/-- The items of the window, in the order in which they came. -/
theorem last_eq (n : Nat) (d : α) (items : List α) :
    last n d items = List.replicate (n - items.length) d ++ items.rtake n := by
  rw [last, List.drop_append, List.drop_replicate, List.length_replicate, List.rtake_eq_reverse_take_reverse,
    List.take_reverse, List.reverse_reverse]

/-- `slots` hold the last items; the next one goes to `slot`. -/
structure Holds (d : α) (items slots : List α) (slot : Nat) : Prop where
  next : slot = items.length % slots.length
  window : slots.rotate slot = last slots.length d items

variable {d : α} {items slots : List α} {slot : Nat}

theorem Holds.start (n : Nat) (d : α) : Holds d [] (List.replicate n d) 0 where
  next := by simp
  window := by simp

theorem rotate_set (within : slot < slots.length) (x : α) :
    (slots.set slot x).rotate (slot + 1) = (slots.rotate slot).tail ++ [x] := by
  have nonempty : slots.drop slot ≠ [] := by simpa using within
  rw [List.rotate_eq_drop_append_take (by simpa using Nat.succ_le_of_lt within), List.rotate_eq_drop_append_take within.le,
    List.tail_append_of_ne_nil nonempty, List.tail_drop, List.drop_set_of_lt (Nat.lt_succ_self slot), List.append_assoc,
    List.take_add_one, List.take_set_of_le le_rfl, List.getElem?_set_self within]
  rfl

/-- The slot of the oldest item takes the new one. -/
theorem Holds.push (holds : Holds d items slots slot) (positive : 0 < slots.length) (x : α) :
    Holds d (items ++ [x]) (slots.set slot x) ((slot + 1) % slots.length) := by
  have within : slot < slots.length := by
    rw [holds.next]
    exact Nat.mod_lt _ positive
  refine ⟨?_, ?_⟩
  · rw [holds.next, List.length_set, List.length_append, List.length_singleton, Nat.mod_add_mod]
  · have same : (slots.set slot x).rotate ((slot + 1) % slots.length) = (slots.set slot x).rotate (slot + 1) := by
      have length : slots.length = (slots.set slot x).length := List.length_set.symm
      rw [length, List.rotate_mod]
    rw [same, rotate_set within, holds.window, List.length_set, last_concat positive]

/-- Whatever the slots are summed up from. -/
theorem Holds.sum [AddCommMonoid α] (holds : Holds 0 items slots slot) : slots.sum = (items.rtake slots.length).sum := by
  have total := (slots.rotate_perm slot).sum_eq
  rw [holds.window, last_eq] at total
  simpa using total.symm

end SlidingWindow
