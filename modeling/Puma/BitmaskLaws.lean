import Mathlib.Data.List.Induction
import Mathlib.Order.Bounds.Defs
import Puma.Bitmask

namespace Puma

/-- `createPumaBitmask`. The number of words is computed in a `size_t`; their bytes fit into one. -/
def createPumaBitmask (numElements : Nat) (initialValue : BitVec 8) : PumaBitmask where
  buckets := List.replicate ((numElements + 63) % 2 ^ 64 / 64) (filledBucket initialValue)
  numElements := numElements

/-- `pumaBitmaskSet` and `pumaBitmaskGet` with their accesses checked; `none` is one outside the array of words. -/
def Machine.pumaBitmaskSet (bitmask : PumaBitmask) (index : Nat) (value : BitVec 8) : Option PumaBitmask := do
  let _word ← bitmask.buckets[index / 64]?
  pure (Puma.pumaBitmaskSet bitmask index value)

def Machine.pumaBitmaskGet (bitmask : PumaBitmask) (index : Nat) : Option (BitVec 8) := do
  let _word ← bitmask.buckets[index / 64]?
  pure (Puma.pumaBitmaskGet bitmask index)

def Machine.pumaBitmaskSets (bitmask : PumaBitmask) (sets : List (Nat × BitVec 8)) : Option PumaBitmask :=
  sets.foldlM (fun bitmask set => Machine.pumaBitmaskSet bitmask set.1 set.2) bitmask

/-- Calls of `pumaBitmaskSet`, one after the other. -/
def pumaBitmaskSets (bitmask : PumaBitmask) (sets : List (Nat × BitVec 8)) : PumaBitmask :=
  sets.foldl (fun bitmask set => pumaBitmaskSet bitmask set.1 set.2) bitmask

/-- The last value stored at an index, or the initial one. -/
def lastValue (initialValue : BitVec 8) (sets : List (Nat × BitVec 8)) (index : Nat) : BitVec 8 :=
  ((sets.filter fun set => set.1 = index).getLast?.map Prod.snd).getD initialValue

theorem filledBucket_getLsbD (initialValue : BitVec 8) {i : Nat} (inWord : i < 64) :
    (filledBucket initialValue).getLsbD i = initialValue.getLsbD 0 := by
  have low : initialValue &&& 1 = if initialValue.getLsbD 0 then 1 else 0 := and_one_eq initialValue
  have ones : (~~~((1 : BitVec 8) - 1)).replicate 8 = BitVec.allOnes 64 := by decide
  have zeros : (~~~((0 : BitVec 8) - 1)).replicate 8 = 0#64 := by decide
  rw [filledBucket, low]
  cases initialValue.getLsbD 0
  · rw [if_neg Bool.false_ne_true, zeros, BitVec.getLsbD_zero]
  · rw [if_pos rfl, ones, BitVec.getLsbD_allOnes, decide_eq_true inWord]

theorem createPumaBitmask_sized {numElements : Nat} (small : numElements ≤ 2 ^ 64 - 64) (initialValue : BitVec 8) :
    (createPumaBitmask numElements initialValue).Sized := by
  rw [PumaBitmask.Sized, createPumaBitmask, List.length_replicate, Nat.mod_eq_of_lt (by omega)]

theorem createPumaBitmask_get {numElements : Nat} (small : numElements ≤ 2 ^ 64 - 64) (initialValue : BitVec 8) {index : Nat}
    (within : index < numElements) :
    pumaBitmaskGet (createPumaBitmask numElements initialValue) index = initialValue &&& 1 := by
  have stored : index / 64 < (numElements + 63) % 2 ^ 64 / 64 := by omega
  have low : initialValue &&& 1 = if initialValue.getLsbD 0 then 1 else 0 := and_one_eq initialValue
  rw [pumaBitmaskGet_eq, PumaBitmask.bit, PumaBitmask.bucket, createPumaBitmask, List.getD_eq_getElem?_getD,
    List.getElem?_replicate, if_pos stored, Option.getD_some, filledBucket_getLsbD initialValue (by omega), low]

/-- No store changes the number of elements or of words. -/
theorem pumaBitmaskSets_sized {bitmask : PumaBitmask} (sized : bitmask.Sized) (sets : List (Nat × BitVec 8)) :
    (pumaBitmaskSets bitmask sets).Sized ∧ (pumaBitmaskSets bitmask sets).numElements = bitmask.numElements := by
  induction sets generalizing bitmask with
  | nil => exact ⟨sized, rfl⟩
  | cons set sets ih => exact ih (sized.set set.1 set.2)

/-- After any stores into a new mask each index holds the low bit of the last value stored there. -/
theorem createPumaBitmask_sets {numElements : Nat} (small : numElements ≤ 2 ^ 64 - 64) {initialValue : BitVec 8}
    {sets : List (Nat × BitVec 8)} (inside : ∀ set ∈ sets, set.1 < numElements) {index : Nat} (within : index < numElements) :
    pumaBitmaskGet (pumaBitmaskSets (createPumaBitmask numElements initialValue) sets) index =
      lastValue initialValue sets index &&& 1 := by
  induction sets using List.reverseRecOn with
  | nil => exact createPumaBitmask_get small initialValue within
  | append_singleton sets set ih =>
    rw [List.forall_mem_append, List.forall_mem_singleton] at inside
    obtain ⟨sized, size⟩ := pumaBitmaskSets_sized (createPumaBitmask_sized small initialValue) sets
    have step : pumaBitmaskSets (createPumaBitmask numElements initialValue) (sets ++ [set]) =
        pumaBitmaskSet (pumaBitmaskSets (createPumaBitmask numElements initialValue) sets) set.1 set.2 := by
      simp [pumaBitmaskSets]
    rw [step, pumaBitmaskGet_set sized (size ▸ inside.2)]
    split
    · rename_i here
      simp [lastValue, List.filter_append, here]
    · rename_i elsewhere
      rw [ih inside.1]
      simp [lastValue, List.filter_append, Ne.symm elsewhere]

section Checked

variable {bitmask : PumaBitmask} {index : Nat}

/-- A word of the mask is read inside the array. -/
theorem PumaBitmask.Sized.getElem?_buckets (sized : bitmask.Sized) {bucket : Nat}
    (within : bucket < (bitmask.numElements + 63) / 64) : bitmask.buckets[bucket]? = some (bitmask.bucket bucket) := by
  have stored : bucket < bitmask.buckets.length := sized.symm ▸ within
  rw [PumaBitmask.bucket, List.getD_eq_getElem?_getD, List.getElem?_eq_getElem stored, Option.getD_some]

theorem Machine.pumaBitmaskSet_eq (sized : bitmask.Sized) (within : index < bitmask.numElements) (value : BitVec 8) :
    Machine.pumaBitmaskSet bitmask index value = some (Puma.pumaBitmaskSet bitmask index value) := by
  rw [Machine.pumaBitmaskSet, sized.getElem?_buckets (by omega)]
  rfl

theorem Machine.pumaBitmaskGet_eq (sized : bitmask.Sized) (within : index < bitmask.numElements) :
    Machine.pumaBitmaskGet bitmask index = some (Puma.pumaBitmaskGet bitmask index) := by
  rw [Machine.pumaBitmaskGet, sized.getElem?_buckets (by omega)]
  rfl

theorem Machine.pumaBitmaskGet_set (sized : bitmask.Sized) (within : index < bitmask.numElements) (value : BitVec 8)
    {other : Nat} (apart : other ≠ index) :
    Machine.pumaBitmaskGet (Puma.pumaBitmaskSet bitmask index value) other = Machine.pumaBitmaskGet bitmask other := by
  have length : (Puma.pumaBitmaskSet bitmask index value).buckets.length = bitmask.buckets.length := List.length_set ..
  have same := Puma.pumaBitmaskGet_set sized within value other
  rw [if_neg apart] at same
  by_cases stored : other / 64 < bitmask.buckets.length
  · rw [Machine.pumaBitmaskGet, Machine.pumaBitmaskGet, List.getElem?_eq_getElem stored,
      List.getElem?_eq_getElem (length.symm ▸ stored), same]
    rfl
  · rw [Machine.pumaBitmaskGet, Machine.pumaBitmaskGet, List.getElem?_eq_none (not_lt.mp stored),
      List.getElem?_eq_none (length.symm ▸ not_lt.mp stored)]
    rfl

theorem Machine.pumaBitmaskSets_eq (sized : bitmask.Sized) {sets : List (Nat × BitVec 8)}
    (inside : ∀ set ∈ sets, set.1 < bitmask.numElements) :
    Machine.pumaBitmaskSets bitmask sets = some (Puma.pumaBitmaskSets bitmask sets) := by
  induction sets generalizing bitmask with
  | nil => rfl
  | cons set sets ih =>
    rw [List.forall_mem_cons] at inside
    rw [Machine.pumaBitmaskSets, List.foldlM_cons, Machine.pumaBitmaskSet_eq sized inside.1]
    exact ih (sized.set set.1 set.2) inside.2

/-- Stores do not change the number of words. -/
theorem Machine.pumaBitmaskSets_length {sets : List (Nat × BitVec 8)} {bitmask' : PumaBitmask}
    (stored : Machine.pumaBitmaskSets bitmask sets = some bitmask') : bitmask'.buckets.length = bitmask.buckets.length := by
  induction sets generalizing bitmask with
  | nil =>
    cases stored
    rfl
  | cons set sets ih =>
    rw [Machine.pumaBitmaskSets, List.foldlM_cons] at stored
    obtain ⟨first, run, rest⟩ := Option.bind_eq_some_iff.mp stored
    obtain ⟨_, _, same⟩ := Option.bind_eq_some_iff.mp run
    cases same
    rw [ih rest, Puma.pumaBitmaskSet, List.length_set]

end Checked

/-- Stores into a new mask and reads of it stay inside its words; each index holds the low bit of the last value
stored there, or of the initial one, and the next store changes its own index alone. -/
def KeepsValues (numElements : Nat) (initialValue : BitVec 8) (sets : List (Nat × BitVec 8)) : Prop :=
  ∃ bitmask, Machine.pumaBitmaskSets (createPumaBitmask numElements initialValue) sets = some bitmask ∧
    (∀ index < numElements,
      Machine.pumaBitmaskGet bitmask index = some (lastValue initialValue sets index &&& 1)) ∧
    ∀ index < numElements, ∀ value, ∃ bitmask', Machine.pumaBitmaskSet bitmask index value = some bitmask' ∧
      ∀ other, other ≠ index → Machine.pumaBitmaskGet bitmask' other = Machine.pumaBitmaskGet bitmask other

/-- With more elements than a `size_t` can round up to whole words the array is empty. -/
theorem createPumaBitmask_overflows {numElements : Nat} (large : 2 ^ 64 - 64 < numElements) (word : numElements < 2 ^ 64)
    (initialValue : BitVec 8) (sets : List (Nat × BitVec 8)) : ¬ KeepsValues numElements initialValue sets := by
  rintro ⟨bitmask, stored, held, _⟩
  have zero : (numElements + 63) % 2 ^ 64 / 64 = 0 := by omega
  have empty : bitmask.buckets.length = 0 := by
    rw [Machine.pumaBitmaskSets_length stored, createPumaBitmask, List.length_replicate, zero]
  have outside : bitmask.buckets[0 / 64]? = none := List.getElem?_eq_none (by omega)
  have first := held 0 (by omega)
  rw [Machine.pumaBitmaskGet, outside] at first
  cases first

/-- A new mask keeps what is stored into it just when its number of elements can be rounded up to whole words. -/
theorem createPumaBitmask_sets_iff {numElements : Nat} (word : numElements < 2 ^ 64) {initialValue : BitVec 8}
    {sets : List (Nat × BitVec 8)} (inside : ∀ set ∈ sets, set.1 < numElements) :
    KeepsValues numElements initialValue sets ↔ numElements ≤ 2 ^ 64 - 64 := by
  constructor
  · intro keeps
    by_contra large
    exact createPumaBitmask_overflows (not_le.mp large) word initialValue sets keeps
  · intro small
    have new := createPumaBitmask_sized small initialValue
    obtain ⟨sized, size⟩ := pumaBitmaskSets_sized new sets
    refine ⟨_, Machine.pumaBitmaskSets_eq new inside, fun index within => ?_, fun index within value => ?_⟩
    · rw [Machine.pumaBitmaskGet_eq sized (size ▸ within), createPumaBitmask_sets small inside within]
    · exact ⟨_, Machine.pumaBitmaskSet_eq sized (size ▸ within) value,
        fun other apart => Machine.pumaBitmaskGet_set sized (size ▸ within) value apart⟩

/-- Stores on both sides of the border of two words. -/
theorem createPumaBitmask_sets_two : KeepsValues 130 0 [(63, 255), (64, 7), (63, 2)] :=
  (createPumaBitmask_sets_iff (by decide) (by decide)).mpr (by decide)

/-- A mask of as many elements as a `size_t` can count has no word to read. -/
theorem createPumaBitmask_not_sets : ¬ KeepsValues (2 ^ 64 - 1) 0 [] :=
  createPumaBitmask_overflows (by decide) (by decide) 0 []

/-- Where a search ends: the index and `*found`. It returns the highest `size_t` if it finds nothing. -/
def searchResult : Option Nat → Nat × Bool
  | some index => (index, true)
  | none => (2 ^ 64 - 1, false)

/-- The outer loop of `pumaFirstIndexOfValue` in `size_t` arithmetic; `none` is a read outside the array of words.
`bucket * 64 + i` is below `numElements`, and so does not wrap. -/
def Machine.firstIndexLoop (bitmask : PumaBitmask) (value : BitVec 8) : Nat → Nat → Option (Nat × Bool)
  | 0, _ => none
  | turns + 1, bucket =>
    if bucket * 64 % 2 ^ 64 < bitmask.numElements then do
      let numFromBucketOn := bitmask.numElements - bucket * 64 % 2 ^ 64
      let currentBucket ← bitmask.buckets[bucket]?
      let bucketValueMask := bucketValueMask numFromBucketOn
      let numFromBucketOn := min numFromBucketOn 64
      let index := if (currentBucket ^^^ maskValue value) &&& bucketValueMask ≠ 0 then
          (List.range numFromBucketOn).findSome? fun i =>
            if (currentBucket >>> (63 - i)) &&& 1 = value.signExtend 64 then some (bucket * 64 % 2 ^ 64 + i) else none
        else none
      match index with
      | some index => pure (searchResult (some index))
      | none => Machine.firstIndexLoop bitmask value turns ((bucket + 1) % 2 ^ 64)
    else pure (searchResult none)

/-- `pumaFirstIndexOfValue` with its reads checked. The word that it reads first is not used. An array of
the length that `numElements` asks for ends before the turns do. -/
def Machine.pumaFirstIndexOfValue (bitmask : PumaBitmask) (value : BitVec 8) : Option (Nat × Bool) := do
  let _currentBucket ← bitmask.buckets[0]?
  Machine.firstIndexLoop bitmask value ((bitmask.numElements + 63) / 64 + 1) 0

/-- The outer loop of `pumaLastIndexOfValue`, which counts `bucket` down. -/
def Machine.lastIndexLoop (bitmask : PumaBitmask) (value : BitVec 8) : Nat → Option (Nat × Bool)
  | 0 => pure (searchResult none)
  | bucket + 1 => do
    let numFromBucketOn := (bitmask.numElements + (2 ^ 64 - bucket * 64 % 2 ^ 64)) % 2 ^ 64
    let currentBucket ← bitmask.buckets[bucket]?
    let bucketValueMask := bucketValueMask numFromBucketOn
    let numFromBucketOn := min numFromBucketOn 64
    let index := if (currentBucket ^^^ maskValue value) &&& bucketValueMask ≠ 0 then
        (List.range' (64 - numFromBucketOn) numFromBucketOn).findSome? fun i =>
          if (currentBucket >>> i) &&& 1 = value.signExtend 64 then some (bucket * 64 % 2 ^ 64 + (63 - i)) else none
      else none
    match index with
    | some index => pure (searchResult (some index))
    | none => Machine.lastIndexLoop bitmask value bucket

/-- `pumaLastIndexOfValue` with its reads checked; its number of words is a `size_t`. -/
def Machine.pumaLastIndexOfValue (bitmask : PumaBitmask) (value : BitVec 8) : Option (Nat × Bool) :=
  Machine.lastIndexLoop bitmask value ((bitmask.numElements + 63) % 2 ^ 64 / 64)

/-- The indices of a mask that hold the value. -/
def PumaBitmask.indices (bitmask : PumaBitmask) (value : BitVec 8) : Set Nat :=
  { index | index < bitmask.numElements ∧ pumaBitmaskGet bitmask index = value }

/-- The searches read no word outside the mask; the first returns the least index that holds the value and
the last the greatest, with `found` if there is one and without it if there is none. -/
def PumaBitmask.Searched (bitmask : PumaBitmask) (value : BitVec 8) : Prop :=
  (∃ index found, Machine.pumaFirstIndexOfValue bitmask value = some (index, found) ∧
    (found = true ↔ (bitmask.indices value).Nonempty) ∧ (found = true → IsLeast (bitmask.indices value) index)) ∧
  ∃ index found, Machine.pumaLastIndexOfValue bitmask value = some (index, found) ∧
    (found = true ↔ (bitmask.indices value).Nonempty) ∧ (found = true → IsGreatest (bitmask.indices value) index)

section Searches

variable {bitmask : PumaBitmask} {value : BitVec 8}

/-- The loop goes through all words of the mask, unless it finds the value. -/
theorem Machine.firstIndexLoop_scan (sized : bitmask.Sized) (word : bitmask.numElements < 2 ^ 64) {turns bucket left : Nat}
    (count : bucket + left = (bitmask.numElements + 63) / 64) :
    Machine.firstIndexLoop bitmask value (turns + left) bucket =
      match (List.range' bucket left).findSome? (firstIndexInBucket bitmask value) with
      | some index => some (searchResult (some index))
      | none => Machine.firstIndexLoop bitmask value turns ((bitmask.numElements + 63) / 64) := by
  induction left generalizing bucket with
  | zero => rw [← count]; rfl
  | succ left ih =>
    have more : bucket * 64 < bitmask.numElements := by omega
    have turn : Machine.firstIndexLoop bitmask value (turns + (left + 1)) bucket =
        match firstIndexInBucket bitmask value bucket with
        | some index => some (searchResult (some index))
        | none => Machine.firstIndexLoop bitmask value (turns + left) (bucket + 1) := by
      have next : (bucket + 1) % 2 ^ 64 = bucket + 1 := Nat.mod_eq_of_lt (by omega)
      have first : bucket * 64 % 2 ^ 64 = bucket * 64 := Nat.mod_eq_of_lt (by omega)
      rw [← Nat.add_assoc, Machine.firstIndexLoop, first, if_pos more, next, sized.getElem?_buckets (by omega)]
      rfl
    rw [turn, List.range'_succ, List.findSome?_cons]
    cases firstIndexInBucket bitmask value bucket with
    | some index => rfl
    | none => exact ih (by omega)

theorem Machine.lastIndexLoop_eq (sized : bitmask.Sized) (word : bitmask.numElements < 2 ^ 64) {buckets : Nat}
    (within : buckets ≤ (bitmask.numElements + 63) / 64) :
    Machine.lastIndexLoop bitmask value buckets =
      some (searchResult ((List.range buckets).reverse.findSome? (lastIndexInBucket bitmask value))) := by
  induction buckets with
  | zero => rfl
  | succ bucket ih =>
    have turn : Machine.lastIndexLoop bitmask value (bucket + 1) =
        match lastIndexInBucket bitmask value bucket with
        | some index => some (searchResult (some index))
        | none => Machine.lastIndexLoop bitmask value bucket := by
      have first : bucket * 64 % 2 ^ 64 = bucket * 64 := Nat.mod_eq_of_lt (by omega)
      have numFromBucketOn : (bitmask.numElements + (2 ^ 64 - bucket * 64)) % 2 ^ 64 = bitmask.numElements - bucket * 64 := by
        omega
      rw [Machine.lastIndexLoop, first, numFromBucketOn, sized.getElem?_buckets (by omega)]
      rfl
    rw [turn, List.range_succ, List.reverse_append, List.reverse_singleton, List.singleton_append, List.findSome?_cons]
    cases lastIndexInBucket bitmask value bucket with
    | some index => rfl
    | none => exact ih (by omega)

/-- Behind the last word the first search ends, unless the index of the next word wraps. -/
theorem Machine.pumaFirstIndexOfValue_eq (sized : bitmask.Sized) (nonempty : 1 ≤ bitmask.numElements)
    (word : bitmask.numElements < 2 ^ 64) :
    Machine.pumaFirstIndexOfValue bitmask value =
      if bitmask.numElements ≤ 2 ^ 64 - 64 then some (searchResult (Puma.pumaFirstIndexOfValue bitmask value))
      else (Puma.pumaFirstIndexOfValue bitmask value).map fun index => searchResult (some index) := by
  have scan : Machine.firstIndexLoop bitmask value (1 + (bitmask.numElements + 63) / 64) 0 = _ :=
    Machine.firstIndexLoop_scan sized word (Nat.zero_add _)
  rw [← List.range_eq_range', ← Puma.pumaFirstIndexOfValue, Nat.add_comm 1] at scan
  rw [Machine.pumaFirstIndexOfValue, sized.getElem?_buckets (by omega), Option.bind_eq_bind, Option.bind_some, scan]
  cases Puma.pumaFirstIndexOfValue bitmask value with
  | some index => simp
  | none =>
    dsimp only
    rw [Machine.firstIndexLoop]
    split_ifs with more small small
    · omega
    · rw [List.getElem?_eq_none sized.le]
      rfl
    · rfl
    · omega

theorem Machine.pumaLastIndexOfValue_eq (sized : bitmask.Sized) (small : bitmask.numElements ≤ 2 ^ 64 - 64) :
    Machine.pumaLastIndexOfValue bitmask value = some (searchResult (Puma.pumaLastIndexOfValue bitmask value)) := by
  rw [Machine.pumaLastIndexOfValue, Nat.mod_eq_of_lt (by omega)]
  exact Machine.lastIndexLoop_eq sized (by omega) le_rfl

/-- The number of words is 0 when it is rounded up past the highest `size_t`. -/
theorem Machine.pumaLastIndexOfValue_overflows (large : 2 ^ 64 - 64 < bitmask.numElements)
    (word : bitmask.numElements < 2 ^ 64) : Machine.pumaLastIndexOfValue bitmask value = some (searchResult none) := by
  have zero : (bitmask.numElements + 63) % 2 ^ 64 / 64 = 0 := by omega
  rw [Machine.pumaLastIndexOfValue, zero]
  rfl

/-- Either the value is there, and the last search does not find it, or it is not, and the first runs out of the array. -/
theorem PumaBitmask.searched_overflows (sized : bitmask.Sized) (binary : value = 0 ∨ value = 1)
    (large : 2 ^ 64 - 64 < bitmask.numElements) (word : bitmask.numElements < 2 ^ 64) : ¬ bitmask.Searched value := by
  rintro ⟨⟨_, _, first, _⟩, _, found, last, equiv, _⟩
  rw [Machine.pumaFirstIndexOfValue_eq sized (by omega) word, if_neg (by omega)] at first
  rw [Machine.pumaLastIndexOfValue_overflows large word] at last
  cases last
  cases search : Puma.pumaFirstIndexOfValue bitmask value with
  | none =>
    rw [search] at first
    cases first
  | some index =>
    obtain ⟨within, held, _⟩ := pumaFirstIndexOfValue_eq_some binary search
    exact Bool.false_ne_true (equiv.mpr ⟨index, within, held⟩)

theorem PumaBitmask.searched_small (sized : bitmask.Sized) (nonempty : 1 ≤ bitmask.numElements)
    (binary : value = 0 ∨ value = 1) (small : bitmask.numElements ≤ 2 ^ 64 - 64) : bitmask.Searched value := by
  constructor
  · rw [Machine.pumaFirstIndexOfValue_eq sized nonempty (by omega), if_pos small]
    cases search : Puma.pumaFirstIndexOfValue bitmask value with
    | none =>
      refine ⟨_, _, rfl, iff_of_false (by simp) ?_, fun found => by cases found⟩
      rintro ⟨index, within, held⟩
      exact pumaFirstIndexOfValue_eq_none binary search within held
    | some index =>
      obtain ⟨within, held, before⟩ := pumaFirstIndexOfValue_eq_some binary search
      refine ⟨_, _, rfl, iff_of_true rfl ⟨index, within, held⟩, fun _ => ⟨⟨within, held⟩, fun other member => ?_⟩⟩
      exact Nat.le_of_not_lt fun smaller => before other smaller member.2
  · rw [Machine.pumaLastIndexOfValue_eq sized small]
    cases search : Puma.pumaLastIndexOfValue bitmask value with
    | none =>
      refine ⟨_, _, rfl, iff_of_false (by simp) ?_, fun found => by cases found⟩
      rintro ⟨index, within, held⟩
      exact pumaLastIndexOfValue_eq_none binary search within held
    | some index =>
      obtain ⟨within, held, after⟩ := pumaLastIndexOfValue_eq_some binary search
      refine ⟨_, _, rfl, iff_of_true rfl ⟨index, within, held⟩, fun _ => ⟨⟨within, held⟩, fun other member => ?_⟩⟩
      exact Nat.le_of_not_lt fun larger => after other larger member.1 member.2

/-- Both searches do what they are to do just when the number of elements can be rounded up to whole words, whatever
the words hold. -/
theorem Machine.pumaIndexOfValue_searches_iff (sized : bitmask.Sized) (nonempty : 1 ≤ bitmask.numElements)
    (word : bitmask.numElements < 2 ^ 64) (binary : value = 0 ∨ value = 1) :
    bitmask.Searched value ↔ bitmask.numElements ≤ 2 ^ 64 - 64 := by
  constructor
  · intro searched
    by_contra large
    exact PumaBitmask.searched_overflows sized binary (not_le.mp large) word searched
  · exact PumaBitmask.searched_small sized nonempty binary

end Searches

/-- The last word of a mask of 67 elements has more bits, and they are all set. -/
theorem Machine.pumaIndexOfValue_two : (⟨[0, BitVec.allOnes 64 >>> 2], 67⟩ : PumaBitmask).Searched 1 :=
  (Machine.pumaIndexOfValue_searches_iff (by rw [PumaBitmask.Sized]; rfl) (by decide) (by decide) (Or.inr rfl)).mpr (by decide)

/-- A mask of as many elements as a `size_t` can count, all of them set: the last search finds none of them. -/
theorem Machine.pumaIndexOfValue_not_searches :
    ¬ (⟨List.replicate (2 ^ 58) (BitVec.allOnes 64), 2 ^ 64 - 1⟩ : PumaBitmask).Searched 1 :=
  PumaBitmask.searched_overflows (List.length_replicate ..) (Or.inr rfl) (by decide) (by decide)

end Puma
