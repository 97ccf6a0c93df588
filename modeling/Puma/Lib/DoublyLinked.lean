import Mathlib.Data.List.Basic
import Mathlib.Data.List.Nodup

namespace DoublyLinked

variable {κ : Type} {next prev next' prev' : κ → Option κ}

/-- `c` is a segment of cells entered from `before` and left towards `after`:
each cell's `prev` is the cell in front of it and its `next` the cell behind. -/
def Segment (next prev : κ → Option κ) : Option κ → List κ → Option κ → Prop
  | _, [], _ => True
  | before, p :: c, after =>
      prev p = before ∧ next p = c.head?.or after ∧ Segment next prev (some p) c after

theorem segment_singleton {before after : Option κ} {p : κ} :
    Segment next prev before [p] after ↔ prev p = before ∧ next p = after := by
  simp [Segment]

/-- A chain splits at every point into two segments that know each other's ends. -/
theorem segment_append {before after : Option κ} {c d : List κ} :
    Segment next prev before (c ++ d) after ↔
      Segment next prev before c (d.head?.or after) ∧ Segment next prev (c.getLast?.or before) d after := by
  induction c generalizing before with
  | nil => simp [Segment]
  | cons p c ih =>
    have last : (p :: c).getLast?.or before = c.getLast?.or (some p) := by
      cases c with
      | nil => rfl
      | cons q c => rw [List.getLast?_cons_cons]; simp [List.getLast?_cons]
    simp only [List.cons_append, Segment, ih, last, List.head?_append, Option.or_assoc, and_assoc]

/-- The links at one cell of a chain. -/
theorem Segment.at {before after : Option κ} {c d : List κ} {p : κ}
    (chain : Segment next prev before (c ++ p :: d) after) :
    prev p = c.getLast?.or before ∧ next p = d.head?.or after := by
  have right := (segment_append.mp chain).2
  exact ⟨right.1, right.2.1⟩

theorem Segment.prev_head {before after : Option κ} {c : List κ} (chain : Segment next prev before c after) {p : κ}
    (atHead : c.head? = some p) : prev p = before := by
  cases c with
  | nil => cases atHead
  | cons q c =>
    cases Option.some.inj atHead
    exact chain.1

theorem Segment.next_last {before after : Option κ} {c : List κ} (chain : Segment next prev before c after) {p : κ}
    (atLast : c.getLast? = some p) : next p = after := by
  obtain ⟨d, rfl⟩ := List.getLast?_eq_some_iff.mp atLast
  rw [chain.at.2]
  rfl

theorem Segment.congr {before after : Option κ} {c : List κ}
    (sameNext : ∀ p ∈ c, next' p = next p) (samePrev : ∀ p ∈ c, prev' p = prev p)
    (chain : Segment next prev before c after) : Segment next' prev' before c after := by
  induction c generalizing before with
  | nil => trivial
  | cons p c ih =>
    obtain ⟨atPrev, atNext, rest⟩ := chain
    exact ⟨(samePrev p (List.mem_cons_self ..)).trans atPrev, (sameNext p (List.mem_cons_self ..)).trans atNext,
      ih (fun q member => sameNext q (List.mem_cons_of_mem _ member))
        (fun q member => samePrev q (List.mem_cons_of_mem _ member)) rest⟩

/-- Stores to the first cell's `prev` and the last cell's `next` move a
segment between other neighbours and change nothing inside it. -/
theorem Segment.relink {before after before' after' : Option κ} {c : List κ}
    (sameNext : ∀ p ∈ c, c.getLast? ≠ some p → next' p = next p)
    (samePrev : ∀ p ∈ c, c.head? ≠ some p → prev' p = prev p)
    (first : ∀ p, c.head? = some p → prev' p = before')
    (last : ∀ p, c.getLast? = some p → next' p = after')
    (distinct : c.Nodup) (chain : Segment next prev before c after) :
    Segment next' prev' before' c after' := by
  induction c generalizing before before' with
  | nil => trivial
  | cons p c ih =>
    obtain ⟨atPrev, atNext, rest⟩ := chain
    rw [List.nodup_cons] at distinct
    refine ⟨first p rfl, ?_, ?_⟩
    · cases c with
      | nil => simpa using last p rfl
      | cons q c =>
        have inner : (p :: q :: c).getLast? ≠ some p := by
          rw [List.getLast?_cons_cons]
          exact fun same => distinct.1 (List.mem_of_getLast? same)
        rw [sameNext p (List.mem_cons_self ..) inner, atNext]
        rfl
    · refine ih (fun q member inner => ?_) (fun q member inner => ?_) (fun q atHead => ?_)
        (fun q atLast => ?_) distinct.2 rest
      · refine sameNext q (List.mem_cons_of_mem _ member) ?_
        cases c with
        | nil => cases member
        | cons r c => rwa [List.getLast?_cons_cons]
      · refine samePrev q (List.mem_cons_of_mem _ member) fun same => distinct.1 ?_
        rwa [Option.some.inj same]
      · cases c with
        | nil => cases atHead
        | cons r c =>
          have inner : (p :: r :: c).head? ≠ some r := fun same =>
            distinct.1 (by simp [Option.some.inj same])
          rw [← Option.some.inj atHead, samePrev r (by simp) inner]
          exact rest.1
      · refine last q ?_
        cases c with
        | nil => cases atLast
        | cons r c => rwa [List.getLast?_cons_cons]

/-- A cell is taken out of a chain by storing its neighbours in each other. -/
theorem Segment.remove {before after : Option κ} {c d : List κ} {p : κ}
    (chain : Segment next prev before (c ++ p :: d) after) (distinct : (c ++ p :: d).Nodup)
    (sameNext : ∀ q ∈ c ++ d, c.getLast? ≠ some q → next' q = next q)
    (samePrev : ∀ q ∈ c ++ d, d.head? ≠ some q → prev' q = prev q)
    (last : ∀ q, c.getLast? = some q → next' q = d.head?.or after)
    (first : ∀ q, d.head? = some q → prev' q = c.getLast?.or before) :
    Segment next' prev' before (c ++ d) after := by
  rw [List.nodup_middle, List.nodup_cons, List.nodup_append] at distinct
  obtain ⟨left, right⟩ := segment_append.mp chain
  refine segment_append.mpr ⟨?_, ?_⟩
  · refine left.relink (fun q member inner => sameNext q (List.mem_append_left d member) inner)
      (fun q member _ => samePrev q (List.mem_append_left d member) fun atHead => ?_) (fun q atHead => ?_) last
      distinct.2.1
    · exact distinct.2.2.2 q member q (List.mem_of_mem_head? atHead) rfl
    · rw [samePrev q (List.mem_append_left d (List.mem_of_mem_head? atHead)) fun same =>
        distinct.2.2.2 q (List.mem_of_mem_head? atHead) q (List.mem_of_mem_head? same) rfl]
      exact left.prev_head atHead
  · refine Segment.relink
      (fun q member _ => sameNext q (List.mem_append_right c member) fun atLast => ?_)
      (fun q member inner => samePrev q (List.mem_append_right c member) inner) first (fun q atLast => ?_)
      distinct.2.2.1 right.2.2
    · exact distinct.2.2.2 q (List.mem_of_getLast? atLast) q member rfl
    · rw [sameNext q (List.mem_append_right c (List.mem_of_getLast? atLast)) fun same =>
        distinct.2.2.2 q (List.mem_of_getLast? same) q (List.mem_of_getLast? atLast) rfl]
      exact right.2.2.next_last atLast

end DoublyLinked
