import Mathlib.Data.List.MinMax
import Puma.Autobalance

namespace Puma

variable {α : Type}

/-- The body of the search: `minThreadList` once the list `tmpThreadList` has been looked at. -/
def compareThreadList (h : Heap α) (minThreadList : Option ListPtr) (tmpThreadList : ListPtr) : Option ListPtr :=
  if (h.lists tmpThreadList).active && minThreadList.any fun l =>
      decide ((h.lists tmpThreadList).numElements < (h.lists l).numElements) then
    some tmpThreadList
  else minThreadList

/-- The loops over the domains and their lists, with `minThreadList` set to `NULL` in front of them. -/
def findMinThreadList (set : PumaSet) (h : Heap α) : Option ListPtr :=
  set.domains.foldl (fun minThreadList domain => domain.foldl (compareThreadList h) minThreadList) none

/-- `_pumallocOnThreadList` dereferences the list it is given. -/
def pumallocAutoBalancing [Inhabited α] (set : PumaSet) (h : Heap α) (block : NodePtr) : Option (Heap α × ElemPtr) := do
  let threadList ← findMinThreadList set h
  pumallocOnThreadList h threadList block

/-- `l` is an active list of the set, and no active list has fewer elements. -/
structure PumaSet.LeastLoaded (set : PumaSet) (h : Heap α) (l : ListPtr) : Prop where
  member : l ∈ set.domains.flatten
  active : (h.lists l).active = true
  least : ∀ m ∈ set.domains.flatten, (h.lists m).active = true → (h.lists l).numElements ≤ (h.lists m).numElements

/-- With a list to compare with, the search looks for the minimum. -/
theorem compareThreadList_foldl_some (h : Heap α) (lists : List ListPtr) (l : ListPtr) :
    lists.foldl (compareThreadList h) (some l) =
      (l :: lists.filter fun m => (h.lists m).active).argmin fun m => (h.lists m).numElements := by
  induction lists generalizing l with
  | nil => rfl
  | cons m lists ih =>
    rw [List.foldl_cons, List.filter_cons]
    by_cases active : (h.lists m).active = true
    · by_cases fewer : (h.lists m).numElements < (h.lists l).numElements
      · have next : compareThreadList h (some l) m = some m := by simp [compareThreadList, active, fewer]
        rw [next, ih, if_pos active]
        simp [List.argmin, List.argAux, fewer]
      · have next : compareThreadList h (some l) m = some l := by simp [compareThreadList, fewer]
        rw [next, ih, if_pos active]
        simp [List.argmin, List.argAux, fewer]
    · have next : compareThreadList h (some l) m = some l := by simp [compareThreadList, active]
      rw [next, ih, if_neg active]

/-- Without one it takes none. -/
theorem compareThreadList_foldl_none (h : Heap α) (lists : List ListPtr) :
    lists.foldl (compareThreadList h) none = none := by
  induction lists with
  | nil => rfl
  | cons m lists ih =>
    have next : compareThreadList h none m = none := by simp [compareThreadList]
    rw [List.foldl_cons, next, ih]

/-- From an active list of the set, the search ends at an active list with the fewest elements. -/
theorem compareThreadList_leastLoaded {set : PumaSet} {h : Heap α} {l m : ListPtr} (member : l ∈ set.domains.flatten)
    (active : (h.lists l).active = true)
    (found : set.domains.flatten.foldl (compareThreadList h) (some l) = some m) : set.LeastLoaded h m := by
  rw [compareThreadList_foldl_some] at found
  have among : ∀ k ∈ l :: set.domains.flatten.filter fun m => (h.lists m).active,
      k ∈ set.domains.flatten ∧ (h.lists k).active = true := by
    intro k inside
    rcases List.mem_cons.mp inside with rfl | later
    · exact ⟨member, active⟩
    · exact List.mem_filter.mp later
  obtain ⟨member', active'⟩ := among m (List.argmin_mem found)
  refine ⟨member', active', fun k inSet on => ?_⟩
  have inside : k ∈ l :: set.domains.flatten.filter fun m => (h.lists m).active :=
    List.mem_cons_of_mem l (List.mem_filter.mpr ⟨inSet, on⟩)
  exact List.le_of_mem_argmin (f := fun m => (h.lists m).numElements) inside found

/-- But the search starts from `NULL`, and ends there. -/
theorem findMinThreadList_eq_none (set : PumaSet) (h : Heap α) : findMinThreadList set h = none := by
  rw [findMinThreadList, ← List.foldl_flatten]
  exact compareThreadList_foldl_none h _

section Calls

variable [Inhabited α]

/-- `pumallocAutoBalancing` never allocates on a least loaded list: it never allocates at all. -/
theorem pumallocAutoBalancing_never (set : PumaSet) (h : Heap α) (block : NodePtr) :
    ¬ ∃ l r, set.LeastLoaded h l ∧ pumallocAutoBalancing set h block = some r ∧
      pumallocOnThreadList h l block = some r := by
  rintro ⟨l, r, _, run, _⟩
  rw [pumallocAutoBalancing, findMinThreadList_eq_none] at run
  cases run

end Calls

/-- A new set of two threads has active lists, and room for the element on each of them. -/
theorem twoThreads_autoBalancing :
    (∃ l, twoThreads.LeastLoaded (createPumaSet twoThreads.toPumaSet 8 8192 : Heap Unit) l ∧
      (pumallocOnThreadList (createPumaSet twoThreads.toPumaSet 8 8192 : Heap Unit) l 0).isSome) ∧
    ¬ ∃ l r, twoThreads.LeastLoaded (createPumaSet twoThreads.toPumaSet 8 8192 : Heap Unit) l ∧
      pumallocAutoBalancing twoThreads.toPumaSet (createPumaSet twoThreads.toPumaSet 8 8192 : Heap Unit) 0 = some r ∧
      pumallocOnThreadList (createPumaSet twoThreads.toPumaSet 8 8192 : Heap Unit) l 0 = some r := by
  refine ⟨⟨0, ⟨by decide, rfl, by decide⟩, by decide⟩, ?_⟩
  rintro ⟨l, r, _, run, _⟩
  cases run

end Puma
