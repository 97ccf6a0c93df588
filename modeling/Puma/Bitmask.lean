import Mathlib.Data.List.Basic
import Mathlib.Tactic.IntervalCases

namespace Puma

/-- `MASKFREE` and `MASKNOTFREE`: the two values of a slot's bit. -/
def maskFree : BitVec 8 := 1

def maskNotFree : BitVec 8 := 0

/-- `struct pumaBitmask`. Bit `i` lies in word `i / 64`, most significant bit
first. The flag `mallocedBuckets` only tells the destructor whom to free. -/
structure PumaBitmask where
  buckets : List (BitVec 64)
  numElements : Nat

/-- Word `bucket` of the array. -/
def PumaBitmask.bucket (bitmask : PumaBitmask) (bucket : Nat) : BitVec 64 :=
  bitmask.buckets.getD bucket 0

def pumaBitmaskSet (bitmask : PumaBitmask) (index : Nat) (value : BitVec 8) : PumaBitmask :=
  let bucket := index / 64
  let lOffset := 63 - index % 64
  let value := value &&& 1
  let word := bitmask.bucket bucket ||| (value.setWidth 64 <<< lOffset)
  let word := word &&& ~~~((1 - value).setWidth 64 <<< lOffset)
  { bitmask with buckets := bitmask.buckets.set bucket word }

def pumaBitmaskGet (bitmask : PumaBitmask) (index : Nat) : BitVec 8 :=
  let bucket := index / 64
  let lOffset := 63 - index % 64
  let bucketValue := bitmask.bucket bucket >>> lOffset
  (bucketValue &&& 1).setWidth 8

/-- The mask that both searches apply to a whole word: it turns every bit
equal to `value` into a one. -/
def maskValue (value : BitVec 8) : BitVec 64 := ((value &&& 1) - 1).signExtend 64

/-- The bits of a word that belong to the mask, when `numFromBucketOn`
elements are left from this word on. -/
def bucketValueMask (numFromBucketOn : Nat) : BitVec 64 :=
  if numFromBucketOn < 64 then BitVec.allOnes 64 <<< (64 - numFromBucketOn) else BitVec.allOnes 64

/-- The body of the outer loop of `pumaFirstIndexOfValue`: one word, searched
from its most significant bit on when the filter lets it through. -/
def firstIndexInBucket (bitmask : PumaBitmask) (value : BitVec 8) (bucket : Nat) : Option Nat :=
  if (bitmask.bucket bucket ^^^ maskValue value) &&&
      bucketValueMask (bitmask.numElements - bucket * 64) ≠ 0 then
    (List.range (min (bitmask.numElements - bucket * 64) 64)).findSome? fun i =>
      if (bitmask.bucket bucket >>> (63 - i)) &&& 1 = value.signExtend 64 then some (bucket * 64 + i)
      else none
  else none

/-- `pumaFirstIndexOfValue`; `none` stands for `*found = false`. -/
def pumaFirstIndexOfValue (bitmask : PumaBitmask) (value : BitVec 8) : Option Nat :=
  (List.range ((bitmask.numElements + 63) / 64)).findSome? (firstIndexInBucket bitmask value)

/-- The body of the outer loop of `pumaLastIndexOfValue`, which shifts by `i`
itself and so meets the last element of the word first. -/
def lastIndexInBucket (bitmask : PumaBitmask) (value : BitVec 8) (bucket : Nat) : Option Nat :=
  if (bitmask.bucket bucket ^^^ maskValue value) &&&
      bucketValueMask (bitmask.numElements - bucket * 64) ≠ 0 then
    (List.range' (64 - min (bitmask.numElements - bucket * 64) 64)
        (min (bitmask.numElements - bucket * 64) 64)).findSome? fun i =>
      if (bitmask.bucket bucket >>> i) &&& 1 = value.signExtend 64 then some (bucket * 64 + (63 - i))
      else none
  else none

/-- `pumaLastIndexOfValue`; `none` stands for `*found = false`. -/
def pumaLastIndexOfValue (bitmask : PumaBitmask) (value : BitVec 8) : Option Nat :=
  (List.range ((bitmask.numElements + 63) / 64)).reverse.findSome? (lastIndexInBucket bitmask value)

/-- The word that `memset` with the one byte `~((initialValue & 1) - 1)` leaves. -/
def filledBucket (initialValue : BitVec 8) : BitVec 64 :=
  (~~~((initialValue &&& 1) - 1)).replicate 8

/-- `createPumaBitmaskForElemArray`: the mask at the start of an array of
`arraySize` bytes and the number of elements that it leaves room for. -/
def createPumaBitmaskForElemArray (arraySize : Nat) (initialValue : BitVec 8) (elemSize : Nat) :
    PumaBitmask × Nat :=
  let spacePerBucket := 64 * elemSize + 8
  let baseNumElements := 64 * (arraySize / spacePerBucket)
  let spaceLeft := arraySize - baseNumElements * spacePerBucket / 64
  let extraElements := if elemSize + 8 < spaceLeft then (spaceLeft - 8) / elemSize else 0
  let numElements := baseNumElements + extraElements
  ({ buckets := List.replicate ((numElements + 63) / 64) (filledBucket initialValue)
     numElements := numElements }, numElements)

/-- The array of words has the length that its number of elements asks for. -/
def PumaBitmask.Sized (bitmask : PumaBitmask) : Prop :=
  bitmask.buckets.length = (bitmask.numElements + 63) / 64

/-- The bit of an index, read directly from its word. -/
def PumaBitmask.bit (bitmask : PumaBitmask) (index : Nat) : Bool :=
  (bitmask.bucket (index / 64)).getLsbD (63 - index % 64)

theorem and_one_eq {w : Nat} (word : BitVec w) : word &&& 1#w = if word.getLsbD 0 then 1#w else 0#w := by
  apply BitVec.eq_of_getLsbD_eq
  intro i hi
  rw [BitVec.getLsbD_and, BitVec.getLsbD_one]
  cases i with
  | zero => cases bit : word.getLsbD 0 <;> simp [hi]
  | succ i => split <;> simp

theorem shift_and_one_eq (word : BitVec 64) (i : Nat) :
    (word >>> i) &&& 1 = if word.getLsbD i then 1 else 0 := by
  rw [show (1 : BitVec 64) = 1#64 from rfl, and_one_eq, BitVec.getLsbD_ushiftRight, Nat.add_zero]
  rfl

theorem pumaBitmaskGet_eq (bitmask : PumaBitmask) (index : Nat) :
    pumaBitmaskGet bitmask index = if bitmask.bit index then 1 else 0 := by
  simp only [pumaBitmaskGet, PumaBitmask.bit, shift_and_one_eq]
  rw [apply_ite (BitVec.setWidth 8)]
  rfl

theorem PumaBitmask.Sized.set {bitmask : PumaBitmask} (sized : bitmask.Sized) (index : Nat)
    (value : BitVec 8) : (pumaBitmaskSet bitmask index value).Sized := by
  simpa [PumaBitmask.Sized, pumaBitmaskSet] using sized

theorem PumaBitmask.Sized.bucket_lt {bitmask : PumaBitmask} (sized : bitmask.Sized) {index : Nat}
    (within : index < bitmask.numElements) : index / 64 < bitmask.buckets.length := by
  unfold PumaBitmask.Sized at sized
  omega

/-- The word that a store leaves: the addressed bit gets the low bit of the
value, every other bit keeps its own. -/
theorem setWord_getLsbD (word : BitVec 64) (value : BitVec 8) (offset i : Nat) (hi : i < 64) :
    ((word ||| ((value &&& 1).setWidth 64 <<< offset)) &&&
      ~~~((1 - (value &&& 1)).setWidth 64 <<< offset)).getLsbD i =
      if i = offset then value.getLsbD 0 else word.getLsbD i := by
  have low : value &&& 1 = if value.getLsbD 0 then 1 else 0 := and_one_eq value
  rw [low]
  cases value.getLsbD 0 <;>
    simp only [Bool.false_eq_true, if_true, if_false, BitVec.getLsbD_and, BitVec.getLsbD_or, BitVec.getLsbD_not,
      BitVec.getLsbD_shiftLeft, BitVec.getLsbD_setWidth, hi, decide_true, Bool.true_and] <;>
    by_cases same : i = offset
  all_goals simp [same, hi]
  all_goals grind

theorem pumaBitmaskSet_bit {bitmask : PumaBitmask} {index : Nat} (value : BitVec 8) (other : Nat)
    (stored : index / 64 < bitmask.buckets.length) :
    (pumaBitmaskSet bitmask index value).bit other =
      if other = index then value.getLsbD 0 else bitmask.bit other := by
  by_cases sameWord : other / 64 = index / 64
  · have offset : 63 - other % 64 = 63 - index % 64 ↔ other = index := by omega
    simp only [PumaBitmask.bit, PumaBitmask.bucket, pumaBitmaskSet, List.getD_eq_getElem?_getD,
      sameWord, List.getElem?_set_self stored, Option.getD_some]
    rw [setWord_getLsbD _ _ _ _ (by omega)]
    simp only [offset]
  · have distinct : other ≠ index := fun same => sameWord (by rw [same])
    simp only [PumaBitmask.bit, PumaBitmask.bucket, pumaBitmaskSet, List.getD_eq_getElem?_getD,
      List.getElem?_set_ne (Ne.symm sameWord), if_neg distinct]

/-- A store at an index of the mask sets that bit to the low bit of the
value and no other. -/
theorem pumaBitmaskGet_set {bitmask : PumaBitmask} (sized : bitmask.Sized) {index : Nat}
    (within : index < bitmask.numElements) (value : BitVec 8) (other : Nat) :
    pumaBitmaskGet (pumaBitmaskSet bitmask index value) other =
      if other = index then value &&& 1 else pumaBitmaskGet bitmask other := by
  rw [pumaBitmaskGet_eq, pumaBitmaskSet_bit value other (sized.bucket_lt within)]
  split
  · exact (and_one_eq value).symm
  · rw [pumaBitmaskGet_eq]

/-- The test of both inner loops reads one bit of the mask. -/
theorem bitTest_iff {bitmask : PumaBitmask} {value : BitVec 8} (binary : value = 0 ∨ value = 1)
    {bucket i : Nat} (within : i < 64) :
    (bitmask.bucket bucket >>> (63 - i)) &&& 1 = value.signExtend 64 ↔
      pumaBitmaskGet bitmask (bucket * 64 + i) = value := by
  have word : (bucket * 64 + i) / 64 = bucket := by omega
  have offset : 63 - (bucket * 64 + i) % 64 = 63 - i := by omega
  rw [shift_and_one_eq, pumaBitmaskGet_eq, PumaBitmask.bit, word, offset]
  rcases binary with rfl | rfl <;> cases (bitmask.bucket bucket).getLsbD (63 - i) <;> decide

theorem bucketValueMask_getLsbD {left i : Nat} (within : i < left) (inWord : i < 64) :
    (bucketValueMask left).getLsbD (63 - i) = true := by
  unfold bucketValueMask
  split
  · rw [BitVec.getLsbD_shiftLeft, BitVec.getLsbD_allOnes]
    simp only [Bool.and_eq_true, decide_eq_true_eq, Bool.not_eq_true', decide_eq_false_iff_not]
    omega
  · rw [BitVec.getLsbD_allOnes, decide_eq_true_eq]
    omega

/-- The whole-word filter never drops a word that holds the value at one of
the mask's own indices. -/
theorem filter_ne_zero {word : BitVec 64} {value : BitVec 8} (binary : value = 0 ∨ value = 1)
    {left i : Nat} (within : i < left) (inWord : i < 64)
    (bit : (word >>> (63 - i)) &&& 1 = value.signExtend 64) :
    (word ^^^ maskValue value) &&& bucketValueMask left ≠ 0 := by
  intro zero
  have atBit : ((word ^^^ maskValue value) &&& bucketValueMask left).getLsbD (63 - i) = false := by
    rw [zero]; exact BitVec.getLsbD_zero
  rw [BitVec.getLsbD_and, BitVec.getLsbD_xor, bucketValueMask_getLsbD within inWord, Bool.and_true] at atBit
  have offset : 63 - i < 64 := by omega
  rw [shift_and_one_eq] at bit
  rcases binary with rfl | rfl
  · have ones : maskValue 0 = BitVec.allOnes 64 := by decide
    rw [ones, BitVec.getLsbD_allOnes, decide_eq_true offset] at atBit
    cases set : word.getLsbD (63 - i) <;> simp [set] at atBit bit
  · have none : maskValue 1 = 0#64 := by decide
    rw [none, BitVec.getLsbD_zero] at atBit
    cases set : word.getLsbD (63 - i) <;> simp [set] at atBit bit

theorem findSome?_range_eq_some {β : Type} {f : Nat → Option β} {n : Nat} {b : β}
    (found : (List.range n).findSome? f = some b) :
    ∃ a < n, f a = some b ∧ ∀ x < a, f x = none := by
  induction n with
  | zero => simp at found
  | succ n ih =>
    rw [List.range_succ, List.findSome?_append, Option.or_eq_some_iff] at found
    rcases found with early | ⟨absent, last⟩
    · obtain ⟨a, bound, value, before⟩ := ih early
      exact ⟨a, by omega, value, before⟩
    · rw [List.findSome?_eq_none_iff] at absent
      refine ⟨n, by omega, by simpa using last, fun x bound => absent x (List.mem_range.mpr bound)⟩

theorem findSome?_range_reverse_eq_some {β : Type} {f : Nat → Option β} {n : Nat} {b : β}
    (found : (List.range n).reverse.findSome? f = some b) :
    ∃ a < n, f a = some b ∧ ∀ x, a < x → x < n → f x = none := by
  induction n with
  | zero => simp at found
  | succ n ih =>
    rw [List.range_succ, List.reverse_append, List.reverse_singleton, List.singleton_append,
      List.findSome?_cons] at found
    cases last : f n with
    | some c =>
      rw [last] at found
      exact ⟨n, by omega, last.trans found, fun x lower upper => by omega⟩
    | none =>
      rw [last] at found
      obtain ⟨a, bound, value, after⟩ := ih found
      refine ⟨a, by omega, value, fun x lower upper => ?_⟩
      by_cases final : x = n
      · rw [final, last]
      · exact after x lower (by omega)

theorem firstIndexInBucket_eq_none {bitmask : PumaBitmask} {value : BitVec 8}
    (binary : value = 0 ∨ value = 1) {bucket i : Nat} (absent : firstIndexInBucket bitmask value bucket = none)
    (inWord : i < 64) (within : bucket * 64 + i < bitmask.numElements) :
    pumaBitmaskGet bitmask (bucket * 64 + i) ≠ value := by
  intro bit
  rw [← bitTest_iff binary inWord] at bit
  rw [firstIndexInBucket, if_pos (filter_ne_zero binary (by omega) inWord bit),
    List.findSome?_eq_none_iff] at absent
  have atIndex := absent i (List.mem_range.mpr (by omega))
  rw [if_pos bit] at atIndex
  cases atIndex

theorem firstIndexInBucket_eq_some {bitmask : PumaBitmask} {value : BitVec 8}
    (binary : value = 0 ∨ value = 1) {bucket index : Nat}
    (found : firstIndexInBucket bitmask value bucket = some index) :
    ∃ i < 64, index = bucket * 64 + i ∧ index < bitmask.numElements ∧ pumaBitmaskGet bitmask index = value ∧
      ∀ j < i, pumaBitmaskGet bitmask (bucket * 64 + j) ≠ value := by
  unfold firstIndexInBucket at found
  split at found
  · obtain ⟨i, bound, atIndex, early⟩ := findSome?_range_eq_some found
    have inWord : i < 64 := by omega
    split at atIndex
    · rename_i bit
      have same := Option.some.inj atIndex
      refine ⟨i, inWord, same.symm, by omega, ?_, fun j smaller held => ?_⟩
      · rwa [← same, ← bitTest_iff binary inWord]
      · have atOther := early j smaller
        rw [if_pos ((bitTest_iff binary (by omega)).mpr held)] at atOther
        cases atOther
    · cases atIndex
  · cases found

theorem lastIndexInBucket_eq_none {bitmask : PumaBitmask} {value : BitVec 8}
    (binary : value = 0 ∨ value = 1) {bucket i : Nat} (absent : lastIndexInBucket bitmask value bucket = none)
    (inWord : i < 64) (within : bucket * 64 + i < bitmask.numElements) :
    pumaBitmaskGet bitmask (bucket * 64 + i) ≠ value := by
  intro bit
  rw [← bitTest_iff binary inWord] at bit
  rw [lastIndexInBucket, if_pos (filter_ne_zero binary (by omega) inWord bit),
    List.findSome?_eq_none_iff] at absent
  have atIndex := absent (63 - i) (List.mem_range'_1.mpr (by omega))
  rw [if_pos bit] at atIndex
  cases atIndex

theorem lastIndexInBucket_eq_some {bitmask : PumaBitmask} {value : BitVec 8}
    (binary : value = 0 ∨ value = 1) {bucket index : Nat}
    (found : lastIndexInBucket bitmask value bucket = some index) :
    ∃ i < 64, index = bucket * 64 + i ∧ index < bitmask.numElements ∧ pumaBitmaskGet bitmask index = value ∧
      ∀ j, i < j → j < 64 → bucket * 64 + j < bitmask.numElements →
        pumaBitmaskGet bitmask (bucket * 64 + j) ≠ value := by
  unfold lastIndexInBucket at found
  split at found
  · rw [List.range'_eq_map_range, List.findSome?_map] at found
    obtain ⟨k, bound, atIndex, early⟩ := findSome?_range_eq_some found
    simp only [Function.comp_apply] at atIndex early
    split at atIndex
    · rename_i bit
      have same := Option.some.inj atIndex
      -- The loop runs over shifts, so the k-th shift is the k-th element from the end.
      generalize shift : 64 - min (bitmask.numElements - bucket * 64) 64 = base at *
      have inWord : 63 - (base + k) < 64 := by omega
      have back : 63 - (63 - (base + k)) = base + k := by omega
      refine ⟨63 - (base + k), inWord, same.symm, by omega, ?_, fun j larger jWord jBound held => ?_⟩
      · rwa [← same, ← bitTest_iff binary inWord, back]
      · have atOther := early (63 - j - base) (by omega)
        have shiftBack : base + (63 - j - base) = 63 - j := by omega
        rw [shiftBack, if_pos ((bitTest_iff binary jWord).mpr held)] at atOther
        cases atOther
    · cases atIndex
  · cases found

theorem index_split (index : Nat) : index / 64 * 64 + index % 64 = index := by omega

/-- Both searches miss only values that no index of the mask holds. -/
theorem pumaFirstIndexOfValue_eq_none {bitmask : PumaBitmask} {value : BitVec 8}
    (binary : value = 0 ∨ value = 1) (absent : pumaFirstIndexOfValue bitmask value = none)
    {index : Nat} (within : index < bitmask.numElements) : pumaBitmaskGet bitmask index ≠ value := by
  have inBucket := List.findSome?_eq_none_iff.mp absent (index / 64) (List.mem_range.mpr (by omega))
  have unequal := firstIndexInBucket_eq_none binary inBucket (i := index % 64) (by omega) (by omega)
  rwa [index_split] at unequal

theorem pumaLastIndexOfValue_eq_none {bitmask : PumaBitmask} {value : BitVec 8}
    (binary : value = 0 ∨ value = 1) (absent : pumaLastIndexOfValue bitmask value = none)
    {index : Nat} (within : index < bitmask.numElements) : pumaBitmaskGet bitmask index ≠ value := by
  have inBucket := List.findSome?_eq_none_iff.mp absent (index / 64)
    (List.mem_reverse.mpr (List.mem_range.mpr (by omega)))
  have unequal := lastIndexInBucket_eq_none binary inBucket (i := index % 64) (by omega) (by omega)
  rwa [index_split] at unequal

/-- The first search returns the least index that holds the value. -/
theorem pumaFirstIndexOfValue_eq_some {bitmask : PumaBitmask} {value : BitVec 8}
    (binary : value = 0 ∨ value = 1) {index : Nat}
    (found : pumaFirstIndexOfValue bitmask value = some index) :
    index < bitmask.numElements ∧ pumaBitmaskGet bitmask index = value ∧
      ∀ other < index, pumaBitmaskGet bitmask other ≠ value := by
  obtain ⟨bucket, _, inBucket, before⟩ := findSome?_range_eq_some found
  obtain ⟨i, inWord, same, bound, held, early⟩ := firstIndexInBucket_eq_some binary inBucket
  refine ⟨bound, held, fun other smaller => ?_⟩
  rw [← index_split other]
  by_cases earlier : other / 64 < bucket
  · exact firstIndexInBucket_eq_none binary (before _ earlier) (by omega) (by omega)
  · have sameBucket : other / 64 = bucket := by omega
    rw [sameBucket]
    exact early (other % 64) (by omega)

/-- The last search returns the greatest index of the mask that holds the value. -/
theorem pumaLastIndexOfValue_eq_some {bitmask : PumaBitmask} {value : BitVec 8}
    (binary : value = 0 ∨ value = 1) {index : Nat}
    (found : pumaLastIndexOfValue bitmask value = some index) :
    index < bitmask.numElements ∧ pumaBitmaskGet bitmask index = value ∧
      ∀ other, index < other → other < bitmask.numElements → pumaBitmaskGet bitmask other ≠ value := by
  obtain ⟨bucket, _, inBucket, after⟩ := findSome?_range_reverse_eq_some found
  obtain ⟨i, inWord, same, bound, held, late⟩ := lastIndexInBucket_eq_some binary inBucket
  refine ⟨bound, held, fun other larger within => ?_⟩
  rw [← index_split other]
  by_cases later : bucket < other / 64
  · exact lastIndexInBucket_eq_none binary (after _ later (by omega)) (by omega) (by omega)
  · have sameBucket : other / 64 = bucket := by omega
    rw [sameBucket]
    exact late (other % 64) (by omega) (by omega) (by omega)

/-- A new mask is sized and holds the initial value everywhere. -/
theorem createPumaBitmaskForElemArray_sized (arraySize : Nat) (initialValue : BitVec 8) (elemSize : Nat) :
    (createPumaBitmaskForElemArray arraySize initialValue elemSize).1.Sized := by
  simp [createPumaBitmaskForElemArray, PumaBitmask.Sized]

/-- An array with room for an element is as long as one. -/
theorem createPumaBitmaskForElemArray_fits {arraySize elemSize : Nat} {initialValue : BitVec 8}
    (room : 0 < (createPumaBitmaskForElemArray arraySize initialValue elemSize).2) : elemSize ≤ arraySize := by
  by_contra long
  have zero : arraySize / (64 * elemSize + 8) = 0 := Nat.div_eq_of_lt (by omega)
  simp only [createPumaBitmaskForElemArray, zero] at room
  rw [if_neg (by omega)] at room
  omega

theorem createPumaBitmaskForElemArray_get {arraySize elemSize index : Nat}
    (within : index < (createPumaBitmaskForElemArray arraySize maskFree elemSize).2) :
    pumaBitmaskGet (createPumaBitmaskForElemArray arraySize maskFree elemSize).1 index = maskFree := by
  have stored := (createPumaBitmaskForElemArray_sized arraySize maskFree elemSize).bucket_lt within
  have ones : filledBucket maskFree = BitVec.allOnes 64 := by decide
  rw [pumaBitmaskGet_eq]
  simp only [PumaBitmask.bit, PumaBitmask.bucket, createPumaBitmaskForElemArray, ones,
    List.length_replicate] at stored ⊢
  rw [List.getD_eq_getElem?_getD, List.getElem?_replicate, if_pos stored, Option.getD_some,
    BitVec.getLsbD_allOnes, decide_eq_true (by omega : 63 - index % 64 < 64)]
  rfl

end Puma
