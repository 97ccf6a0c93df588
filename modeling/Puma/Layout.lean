import Mathlib.Order.Bounds.Defs
import Mathlib.Tactic.Ring
import Puma.Bitmask
import Puma.Lib.AlignedBlock

namespace Puma

/-- The bytes of the words of a mask. -/
def getPumaBitmaskArraySize (numElements : Nat) : Nat := (numElements + 63) / 64 * 8

/-- The bytes that `n` elements take together with their mask. -/
def elemArrayBytes (elemSize n : Nat) : Nat := n * elemSize + getPumaBitmaskArraySize n

section Groups

variable {arraySize elemSize : Nat}

/-- Whole groups of 64 elements share a word each; the rest, if any, needs one more. -/
theorem elemArrayBytes_groups (elemSize groups : Nat) {rest : Nat} (few : rest ≤ 64) :
    elemArrayBytes elemSize (64 * groups + rest) =
      groups * (64 * elemSize + 8) + (rest * elemSize + if rest = 0 then 0 else 8) := by
  have words : (64 * groups + rest + 63) / 64 = groups + if rest = 0 then 0 else 1 := by
    split <;> omega
  rw [elemArrayBytes, getPumaBitmaskArraySize, words]
  split <;> ring

theorem elemArrayBytes_strictMono (elemSize : Nat) {n m : Nat} (less : n < m) (positive : 0 < elemSize) :
    elemArrayBytes elemSize n < elemArrayBytes elemSize m := by
  have elements : n * elemSize < m * elemSize := Nat.mul_lt_mul_of_pos_right less positive
  simp only [elemArrayBytes, getPumaBitmaskArraySize]
  omega

/-- The elements behind the whole groups, `rest` bytes long. -/
def extraElements (elemSize rest : Nat) : Nat := if elemSize + 8 < rest then (rest - 8) / elemSize else 0

theorem createPumaBitmaskForElemArray_groups (arraySize elemSize : Nat) (initialValue : BitVec 8) :
    (createPumaBitmaskForElemArray arraySize initialValue elemSize).2 =
      64 * (arraySize / (64 * elemSize + 8)) + extraElements elemSize (arraySize % (64 * elemSize + 8)) := by
  have whole : 64 * (arraySize / (64 * elemSize + 8)) * (64 * elemSize + 8) / 64 =
      (64 * elemSize + 8) * (arraySize / (64 * elemSize + 8)) := by
    rw [Nat.mul_assoc, Nat.mul_div_cancel_left _ (by decide), Nat.mul_comm]
  have rest : arraySize - (64 * elemSize + 8) * (arraySize / (64 * elemSize + 8)) = arraySize % (64 * elemSize + 8) := by
    rw [Nat.mod_eq_sub]
  simp only [createPumaBitmaskForElemArray, whole, rest, extraElements]

theorem extraElements_lt (positive : 0 < elemSize) {rest : Nat} (less : rest < 64 * elemSize + 8) :
    extraElements elemSize rest < 64 := by
  unfold extraElements
  split
  · exact Nat.div_lt_of_lt_mul (by omega)
  · omega

/-- The code counts no more elements than fit. -/
theorem extraElements_fits (elemSize rest : Nat) :
    extraElements elemSize rest * elemSize + (if extraElements elemSize rest = 0 then 0 else 8) ≤ rest := by
  unfold extraElements
  split
  · have fits := Nat.div_mul_le_self (rest - 8) elemSize
    split <;> omega
  · simp

/-- The number of elements of an array, and how the bytes of the array divide among them. -/
theorem createPumaBitmaskForElemArray_split (positive : 0 < elemSize) (arraySize : Nat) (initialValue : BitVec 8) :
    ∃ groups extra rest, (createPumaBitmaskForElemArray arraySize initialValue elemSize).2 = 64 * groups + extra ∧
      arraySize = groups * (64 * elemSize + 8) + rest ∧ rest = arraySize % (64 * elemSize + 8) ∧
      rest < 64 * elemSize + 8 ∧ extra = extraElements elemSize rest ∧ extra < 64 := by
  have less : arraySize % (64 * elemSize + 8) < 64 * elemSize + 8 := Nat.mod_lt _ (by omega)
  refine ⟨_, _, _, createPumaBitmaskForElemArray_groups arraySize elemSize initialValue, ?_, rfl, less, rfl,
    extraElements_lt positive less⟩
  rw [Nat.mul_comm, Nat.div_add_mod]

/-- The elements and their mask fit into the array. -/
theorem createPumaBitmaskForElemArray_le (positive : 0 < elemSize) (arraySize : Nat) (initialValue : BitVec 8) :
    elemArrayBytes elemSize (createPumaBitmaskForElemArray arraySize initialValue elemSize).2 ≤ arraySize := by
  obtain ⟨groups, extra, rest, count, bytes, _, _, same, few⟩ :=
    createPumaBitmaskForElemArray_split positive arraySize initialValue
  have fits := extraElements_fits elemSize rest
  rw [← same] at fits
  rw [count, elemArrayBytes_groups elemSize groups few.le, bytes]
  omega

/-- One more element would not have fitted, unless the rest was as long as an element and its word. -/
theorem createPumaBitmaskForElemArray_maximal_iff (positive : 0 < elemSize) (arraySize : Nat) (initialValue : BitVec 8) :
    (∀ m, elemArrayBytes elemSize m ≤ arraySize → m ≤ (createPumaBitmaskForElemArray arraySize initialValue elemSize).2) ↔
      arraySize % (64 * elemSize + 8) ≠ elemSize + 8 := by
  obtain ⟨groups, extra, rest, count, bytes, modulo, _, same, few⟩ :=
    createPumaBitmaskForElemArray_split positive arraySize initialValue
  have next : (∀ m, elemArrayBytes elemSize m ≤ arraySize → m ≤ 64 * groups + extra) ↔
      arraySize < elemArrayBytes elemSize (64 * groups + (extra + 1)) := by
    constructor
    · intro maximal
      by_contra fits
      have := maximal _ (not_lt.mp fits)
      omega
    · intro tooLong m fits
      by_contra more
      rcases Nat.eq_or_lt_of_le (by omega : 64 * groups + (extra + 1) ≤ m) with rfl | larger
      · omega
      · have := elemArrayBytes_strictMono elemSize larger positive
        omega
  rw [count, next, elemArrayBytes_groups elemSize groups (by omega : extra + 1 ≤ 64), if_neg (by omega), ← modulo, bytes,
    Nat.add_lt_add_iff_left, Nat.succ_mul]
  unfold extraElements at same
  by_cases room : elemSize + 8 < rest
  · -- The quotient leaves less than an element.
    rw [if_pos room] at same
    have division := Nat.div_add_mod (rest - 8) elemSize
    have short := Nat.mod_lt (rest - 8) positive
    rw [← same, Nat.mul_comm] at division
    omega
  · rw [if_neg room] at same
    rw [same, Nat.zero_mul]
    omega

/-- The closing assertion recovers the number of elements, unless the rest was as long as an element but
had no room for one more than an element and its word. -/
theorem createPumaBitmaskForElemArray_assertion_iff (positive : 0 < elemSize) (arraySize : Nat) (initialValue : BitVec 8) :
    (arraySize - getPumaBitmaskArraySize (createPumaBitmaskForElemArray arraySize initialValue elemSize).2) / elemSize =
        (createPumaBitmaskForElemArray arraySize initialValue elemSize).2 ↔
      arraySize % (64 * elemSize + 8) < elemSize ∨ elemSize + 8 < arraySize % (64 * elemSize + 8) := by
  obtain ⟨groups, extra, rest, count, bytes, modulo, _, same, few⟩ :=
    createPumaBitmaskForElemArray_split positive arraySize initialValue
  have words : getPumaBitmaskArraySize (64 * groups + extra) = 8 * groups + if extra = 0 then 0 else 8 := by
    unfold getPumaBitmaskArraySize
    split <;> omega
  have split (bytes : Nat) : (elemSize * (64 * groups) + bytes) / elemSize = 64 * groups + bytes / elemSize :=
    Nat.mul_add_div positive _ _
  rw [count, words, ← modulo, bytes]
  unfold extraElements at same
  by_cases room : elemSize + 8 < rest
  · have one : 0 < extra := by
      rw [same, if_pos room]
      exact Nat.div_pos (by omega) positive
    have left : groups * (64 * elemSize + 8) + rest - (8 * groups + 8) = elemSize * (64 * groups) + (rest - 8) := by
      have expand : groups * (64 * elemSize + 8) = elemSize * (64 * groups) + 8 * groups := by ring
      omega
    rw [if_neg one.ne', left, split, same, if_pos room]
    simp [room]
  · have left : groups * (64 * elemSize + 8) + rest - (8 * groups + 0) = elemSize * (64 * groups) + rest := by
      have expand : groups * (64 * elemSize + 8) = elemSize * (64 * groups) + 8 * groups := by ring
      omega
    rw [if_neg room] at same
    rw [same, if_pos rfl, left, split, Nat.add_zero, Nat.add_eq_left, Nat.div_eq_zero_iff]
    omega

end Groups

/-- The fields of `struct pumaNode` and of its mask that say where its elements and their bits are. -/
structure NodeLayout where
  buckets : BitVec 64
  elementArray : BitVec 64
  elementSize : BitVec 64
  capacity : BitVec 64

namespace Machine

/-- `createPumaBitmaskForElemArray` in 64-bit arithmetic. `_appendPumaNode` stores the results in the node, and the
element size with them. -/
def createPumaBitmaskForElemArray (array arraySize elemSize : BitVec 64) : NodeLayout :=
  let spacePerBucket := 64 * elemSize + 8
  let baseNumElements := 64 * (arraySize / spacePerBucket)
  let spaceLeft := arraySize - baseNumElements * spacePerBucket / 64
  let extraElements := if elemSize + 8 < spaceLeft then (spaceLeft - 8) / elemSize else 0
  let numElements := baseNumElements + extraElements
  let numBuckets := (numElements + 63) / 64
  { buckets := array
    elementArray := array + numBuckets * 8
    elementSize := elemSize
    capacity := numElements }

def getElement (node : NodeLayout) (i : BitVec 64) : BitVec 64 := i * node.elementSize + node.elementArray

def getIndexOfElementOnNode (element : BitVec 64) (node : NodeLayout) : BitVec 64 :=
  (element - node.elementArray) / node.elementSize

/-- `blockSize` stands for `pumaPageSize * PUMA_NODEPAGES`. -/
def getNodeForElement (blockSize element : BitVec 64) : BitVec 64 := element &&& ~~~(blockSize - 1)

/-- `memory` holds the nodes at their addresses. -/
def getIndexOfElement (blockSize : BitVec 64) (memory : BitVec 64 → NodeLayout) (element : BitVec 64) : BitVec 64 :=
  getIndexOfElementOnNode element (memory (getNodeForElement blockSize element))

/-- The closing assertion of `createPumaBitmaskForElemArray`. -/
def arrayAssertion (array arraySize elemSize : BitVec 64) : Prop :=
  (array + arraySize - (createPumaBitmaskForElemArray array arraySize elemSize).elementArray) / elemSize =
    (createPumaBitmaskForElemArray array arraySize elemSize).capacity

section Layout

variable {array arraySize elemSize : BitVec 64}

theorem toNat_extraElements (small : elemSize.toNat < 2 ^ 57) (rest : BitVec 64) :
    (if elemSize + 8 < rest then (rest - 8) / elemSize else 0).toNat = extraElements elemSize.toNat rest.toNat := by
  have sum : (elemSize + 8).toNat = elemSize.toNat + 8 := BitVec.toNat_add_of_lt (by simp; omega)
  have compare : elemSize + 8 < rest ↔ elemSize.toNat + 8 < rest.toNat := by rw [BitVec.lt_def, sum]
  unfold extraElements
  by_cases more : elemSize + 8 < rest
  · have eight : (8 : BitVec 64) ≤ rest := by
      have := compare.mp more
      rw [BitVec.le_def]
      simp
      omega
    rw [if_pos more, if_pos (compare.mp more), BitVec.toNat_udiv, BitVec.toNat_sub_of_le eight]
    rfl
  · rw [if_neg more, if_neg fun less => more (compare.mpr less)]
    rfl

/-- Below 2^57 bytes nothing overflows. -/
theorem toNat_capacity (array : BitVec 64) (small : arraySize.toNat < 2 ^ 57) (positive : 0 < elemSize.toNat)
    (fits : elemSize.toNat ≤ arraySize.toNat) (initialValue : BitVec 8) :
    (createPumaBitmaskForElemArray array arraySize elemSize).capacity.toNat =
      (Puma.createPumaBitmaskForElemArray arraySize.toNat initialValue elemSize.toNat).2 := by
  have group : (64 * elemSize + 8).toNat = 64 * elemSize.toNat + 8 := by
    have times : (64 * elemSize).toNat = 64 * elemSize.toNat := BitVec.toNat_mul_of_lt (by simp; omega)
    rw [BitVec.toNat_add_of_lt (by rw [times]; simp; omega), times]
    rfl
  have quotient : arraySize.toNat / (64 * elemSize.toNat + 8) * (64 * elemSize.toNat + 8) ≤ arraySize.toNat :=
    Nat.div_mul_le_self _ _
  have few : arraySize.toNat / (64 * elemSize.toNat + 8) ≤ arraySize.toNat := Nat.div_le_self _ _
  have groups : (64 * (arraySize / (64 * elemSize + 8))).toNat =
      64 * (arraySize.toNat / (64 * elemSize.toNat + 8)) := by
    rw [BitVec.toNat_mul_of_lt (by rw [BitVec.toNat_udiv, group]; simp; omega), BitVec.toNat_udiv, group]
    rfl
  have bytes : (64 * (arraySize / (64 * elemSize + 8)) * (64 * elemSize + 8) / 64).toNat =
      arraySize.toNat / (64 * elemSize.toNat + 8) * (64 * elemSize.toNat + 8) := by
    have product : 64 * (arraySize.toNat / (64 * elemSize.toNat + 8)) * (64 * elemSize.toNat + 8) < 2 ^ 64 := by
      rw [Nat.mul_assoc]
      omega
    rw [BitVec.toNat_udiv, BitVec.toNat_mul_of_lt (by rw [groups, group]; exact product), groups, group, Nat.mul_assoc]
    exact Nat.mul_div_cancel_left _ (by decide)
  have left : (arraySize - 64 * (arraySize / (64 * elemSize + 8)) * (64 * elemSize + 8) / 64).toNat =
      arraySize.toNat % (64 * elemSize.toNat + 8) := by
    rw [BitVec.toNat_sub_of_le (by rw [BitVec.le_def, bytes]; exact quotient), bytes, Nat.mod_eq_sub, Nat.mul_comm]
  have extra := toNat_extraElements (by omega : elemSize.toNat < 2 ^ 57)
    (arraySize - 64 * (arraySize / (64 * elemSize + 8)) * (64 * elemSize + 8) / 64)
  rw [left] at extra
  have bound := extraElements_lt positive (Nat.mod_lt arraySize.toNat (by omega : 0 < 64 * elemSize.toNat + 8))
  rw [createPumaBitmaskForElemArray_groups, ← extra, ← groups]
  exact BitVec.toNat_add_of_lt (by rw [groups, extra]; omega)

theorem words_eq {n : BitVec 64} (small : n.toNat < 2 ^ 57) :
    (n + 63) / 64 * 8 = BitVec.ofNat 64 (getPumaBitmaskArraySize n.toNat) := by
  have sum : (n + 63).toNat = n.toNat + 63 := BitVec.toNat_add_of_lt (by simp; omega)
  have words : ((n + 63) / 64).toNat = (n.toNat + 63) / 64 := by
    rw [BitVec.toNat_udiv, sum]
    rfl
  refine BitVec.eq_of_toNat_eq ?_
  rw [BitVec.toNat_mul_of_lt (by rw [words]; simp; omega), words, BitVec.toNat_ofNat, getPumaBitmaskArraySize,
    Nat.mod_eq_of_lt (by omega)]
  rfl

/-- The elements and the words of their mask fit into the array, so the element slots start behind the words. -/
theorem elementArray_eq (array : BitVec 64) (small : arraySize.toNat < 2 ^ 57) (positive : 0 < elemSize.toNat)
    (fits : elemSize.toNat ≤ arraySize.toNat) :
    elemArrayBytes elemSize.toNat (createPumaBitmaskForElemArray array arraySize elemSize).capacity.toNat ≤
        arraySize.toNat ∧
      (createPumaBitmaskForElemArray array arraySize elemSize).elementArray =
        array + BitVec.ofNat 64
          (getPumaBitmaskArraySize (createPumaBitmaskForElemArray array arraySize elemSize).capacity.toNat) := by
  have within : elemArrayBytes elemSize.toNat (createPumaBitmaskForElemArray array arraySize elemSize).capacity.toNat ≤
      arraySize.toNat := by
    rw [toNat_capacity array small positive fits maskFree]
    exact createPumaBitmaskForElemArray_le positive _ _
  have few : (createPumaBitmaskForElemArray array arraySize elemSize).capacity.toNat < 2 ^ 57 := by
    have times := Nat.mul_le_mul_left (createPumaBitmaskForElemArray array arraySize elemSize).capacity.toNat positive
    unfold elemArrayBytes at within
    omega
  exact ⟨within, congrArg (array + ·) (words_eq few)⟩

/-- The number of elements is the largest that fits and the closing assertion holds, unless the bytes behind the
whole groups are at least as many as an element has and at most as many as an element and a word have. -/
theorem createPumaBitmaskForElemArray_exact_iff (array : BitVec 64) (small : arraySize.toNat < 2 ^ 57)
    (positive : 0 < elemSize.toNat) (fits : elemSize.toNat ≤ arraySize.toNat) :
    (IsGreatest { n | elemArrayBytes elemSize.toNat n ≤ arraySize.toNat }
        (createPumaBitmaskForElemArray array arraySize elemSize).capacity.toNat ∧
      arrayAssertion array arraySize elemSize) ↔
    arraySize.toNat % (64 * elemSize.toNat + 8) < elemSize.toNat ∨
      elemSize.toNat + 8 < arraySize.toNat % (64 * elemSize.toNat + 8) := by
  obtain ⟨within, start⟩ := elementArray_eq array small positive fits
  have count := toNat_capacity array small positive fits maskFree
  have greatest : IsGreatest { n | elemArrayBytes elemSize.toNat n ≤ arraySize.toNat }
      (createPumaBitmaskForElemArray array arraySize elemSize).capacity.toNat ↔
      arraySize.toNat % (64 * elemSize.toNat + 8) ≠ elemSize.toNat + 8 := by
    rw [← createPumaBitmaskForElemArray_maximal_iff positive arraySize.toNat maskFree, count]
    exact and_iff_right (by rw [← count]; exact within)
  have assertion : arrayAssertion array arraySize elemSize ↔ arraySize.toNat % (64 * elemSize.toNat + 8) < elemSize.toNat ∨
      elemSize.toNat + 8 < arraySize.toNat % (64 * elemSize.toNat + 8) := by
    rw [← createPumaBitmaskForElemArray_assertion_iff positive arraySize.toNat maskFree, ← count, arrayAssertion, start,
      add_sub_add_left_eq_sub, ← BitVec.toNat_inj]
    generalize (createPumaBitmaskForElemArray array arraySize elemSize).capacity = n at within ⊢
    have words : (BitVec.ofNat 64 (getPumaBitmaskArraySize n.toNat)).toNat = getPumaBitmaskArraySize n.toNat := by
      rw [BitVec.toNat_ofNat, Nat.mod_eq_of_lt]
      rw [elemArrayBytes] at within
      omega
    rw [BitVec.toNat_udiv, BitVec.toNat_sub_of_le (by rw [BitVec.le_def, words]; rw [elemArrayBytes] at within; omega),
      words]
  rw [greatest, assertion]
  omega

/-- Nine bytes have room for one element of one byte and its word, but are taken to have none. -/
theorem nineBytes_not_exact : ¬ (IsGreatest { n | elemArrayBytes 1 n ≤ 9 }
      (createPumaBitmaskForElemArray 4096 9 1).capacity.toNat ∧ arrayAssertion 4096 9 1) := by
  rintro ⟨⟨_, greatest⟩, _⟩
  have one : elemArrayBytes 1 1 ≤ 9 := by decide
  have zero : (createPumaBitmaskForElemArray 4096 9 1).capacity.toNat = 0 := by decide
  have bound := greatest one
  omega

/-- Eight bytes more are room for nine elements. -/
theorem seventeenBytes_exact_iff : (IsGreatest { n | elemArrayBytes 1 n ≤ 17 }
      (createPumaBitmaskForElemArray 4096 17 1).capacity.toNat ∧ arrayAssertion 4096 17 1) ↔
    17 % (64 * 1 + 8) < 1 ∨ 1 + 8 < 17 % (64 * 1 + 8) :=
  @createPumaBitmaskForElemArray_exact_iff 17 1 4096 (by decide) (by decide) (by decide)

/-- A byte of the words of the mask, and a byte of slot `i`. -/
def MaskByte (node : NodeLayout) (a : BitVec 64) : Prop :=
  ∃ j, j < getPumaBitmaskArraySize node.capacity.toNat ∧ a = node.buckets + BitVec.ofNat 64 j

def SlotByte (node : NodeLayout) (i a : BitVec 64) : Prop :=
  i < node.capacity ∧ ∃ j, j < node.elementSize.toNat ∧ a = getElement node i + BitVec.ofNat 64 j

/-- The distance of a byte of a slot from the first slot. -/
theorem SlotByte.distance {node : NodeLayout} {i a : BitVec 64} (byte : SlotByte node i a) :
    ∃ j, j < node.elementSize.toNat ∧ a = node.elementArray + BitVec.ofNat 64 (i.toNat * node.elementSize.toNat + j) ∧
      i.toNat * node.elementSize.toNat + j < node.capacity.toNat * node.elementSize.toNat := by
  obtain ⟨within, j, bound, rfl⟩ := byte
  refine ⟨j, bound, ?_, ?_⟩
  · rw [getElement, BitVec.ofNat_add, BitVec.ofNat_mul, BitVec.ofNat_toNat, BitVec.ofNat_toNat, BitVec.setWidth_eq,
      BitVec.setWidth_eq]
    ring
  · have next := Nat.mul_le_mul_right node.elementSize.toNat (Nat.succ_le_of_lt (BitVec.lt_def.mp within))
    rw [Nat.succ_mul] at next
    omega

section Block

variable {k : Nat} {blockSize node offset : BitVec 64}

/-- Every byte of a slot lies behind the words of the mask and inside the array. -/
theorem SlotByte.inArray {i a : BitVec 64} (small : arraySize.toNat < 2 ^ 57) (positive : 0 < elemSize.toNat)
    (fits : elemSize.toNat ≤ arraySize.toNat)
    (byte : SlotByte (createPumaBitmaskForElemArray (node + offset) arraySize elemSize) i a) :
    ∃ t, a = node + BitVec.ofNat 64 (offset.toNat + t) ∧ t < arraySize.toNat ∧
      getPumaBitmaskArraySize (createPumaBitmaskForElemArray (node + offset) arraySize elemSize).capacity.toNat ≤ t ∧
      getIndexOfElementOnNode a (createPumaBitmaskForElemArray (node + offset) arraySize elemSize) = i := by
  obtain ⟨within, start⟩ := elementArray_eq (node + offset) small positive fits
  obtain ⟨j, bound, same, less⟩ := byte.distance
  rw [elemArrayBytes] at within
  have size : (createPumaBitmaskForElemArray (node + offset) arraySize elemSize).elementSize = elemSize := rfl
  rw [size] at bound same less
  refine ⟨getPumaBitmaskArraySize (createPumaBitmaskForElemArray (node + offset) arraySize elemSize).capacity.toNat +
    (i.toNat * elemSize.toNat + j), ?_, by omega, by omega, ?_⟩
  · simp only [same, start, BitVec.ofNat_add, BitVec.ofNat_toNat, BitVec.setWidth_eq]
    ring
  · rw [getIndexOfElementOnNode, size, same, add_sub_cancel_left]
    refine BitVec.eq_of_toNat_eq ?_
    rw [BitVec.toNat_udiv, BitVec.toNat_ofNat, Nat.mod_eq_of_lt (by omega), Nat.mul_comm, Nat.mul_add_div positive,
      Nat.div_eq_of_lt bound, Nat.add_zero]

/-- In a block whose size is a power of two and whose address is a multiple of it, the words of the mask and the
element slots lie inside the block without touching each other, and every byte of a slot leads back to its node
and its slot. -/
theorem layout_roundTrip (power : blockSize.toNat = 2 ^ k) (small : blockSize.toNat < 2 ^ 57)
    (aligned : blockSize.toNat ∣ node.toNat) (inside : offset.toNat + arraySize.toNat ≤ blockSize.toNat)
    (positive : 1 ≤ elemSize.toNat) (fits : elemSize.toNat ≤ arraySize.toNat) :
    let layout := createPumaBitmaskForElemArray (node + offset) arraySize elemSize
    (∀ a, MaskByte layout a → AlignedBlock.Inside blockSize node a) ∧
    (∀ i a, SlotByte layout i a → AlignedBlock.Inside blockSize node a ∧ ¬ MaskByte layout a) ∧
    (∀ i j a, SlotByte layout i a → SlotByte layout j a → i = j) ∧
    (∀ i a, SlotByte layout i a → getNodeForElement blockSize a = node ∧ getIndexOfElementOnNode a layout = i) ∧
    ∀ memory i, memory node = layout → i < layout.capacity →
      getIndexOfElement blockSize memory (getElement layout i) = i := by
  intro layout
  have room : getPumaBitmaskArraySize layout.capacity.toNat ≤ arraySize.toNat := by
    obtain ⟨within, _⟩ := elementArray_eq (node + offset) (by omega : arraySize.toNat < 2 ^ 57) positive fits
    exact (Nat.le_add_left _ _).trans within
  have slot {i a : BitVec 64} (byte : SlotByte layout i a) : ∃ t, a = node + BitVec.ofNat 64 (offset.toNat + t) ∧
      t < arraySize.toNat ∧ getPumaBitmaskArraySize layout.capacity.toNat ≤ t ∧ getIndexOfElementOnNode a layout = i :=
    byte.inArray (by omega) positive fits
  have mask {a : BitVec 64} (byte : MaskByte layout a) : ∃ t, a = node + BitVec.ofNat 64 (offset.toNat + t) ∧
      t < getPumaBitmaskArraySize layout.capacity.toNat := by
    obtain ⟨t, bound, rfl⟩ := byte
    refine ⟨t, ?_, bound⟩
    rw [BitVec.ofNat_add, BitVec.ofNat_toNat, BitVec.setWidth_eq, ← add_assoc]
    rfl
  have back {i a : BitVec 64} (byte : SlotByte layout i a) :
      getNodeForElement blockSize a = node ∧ getIndexOfElementOnNode a layout = i := by
    obtain ⟨t, same, bound, _, index⟩ := slot byte
    exact ⟨AlignedBlock.roundDown_eq power aligned ⟨_, by omega, same⟩, index⟩
  refine ⟨fun a byte => ?_, fun i a byte => ⟨?_, fun inMask => ?_⟩, fun i j a first second => ?_, fun i a => back,
    fun memory i there below => ?_⟩
  · obtain ⟨t, same, bound⟩ := mask byte
    exact ⟨_, by omega, same⟩
  · obtain ⟨t, same, bound, _⟩ := slot byte
    exact ⟨_, by omega, same⟩
  · obtain ⟨t, same, bound, behind, _⟩ := slot byte
    obtain ⟨t', same', before⟩ := mask inMask
    have equal := congrArg BitVec.toNat (same.symm.trans same')
    rw [AlignedBlock.toNat_add power aligned (by omega), AlignedBlock.toNat_add power aligned (by omega)] at equal
    omega
  · exact (back first).2.symm.trans (back second).2
  · have byte : SlotByte layout i (getElement layout i) := ⟨below, 0, positive, by simp⟩
    obtain ⟨nodeBack, index⟩ := back byte
    rw [getIndexOfElement, nodeBack, there, index]

/-- The second block of 8192 bytes, with elements of twelve bytes behind the node's 152. -/
theorem secondBlock_roundTrip :
    getIndexOfElement 8192 (fun _ => createPumaBitmaskForElemArray (8192 + 152) 8040 12)
      (getElement (createPumaBitmaskForElemArray (8192 + 152) 8040 12) 600) = 600 :=
  (@layout_roundTrip 8040 12 13 8192 8192 152 (by decide) (by decide) (by decide) (by decide) (by decide)
    (by decide)).2.2.2.2 _ 600 rfl (by decide)

end Block

end Layout

end Machine

end Puma
