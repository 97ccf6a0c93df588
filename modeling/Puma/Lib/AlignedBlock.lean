import Mathlib.Data.Nat.Bitwise
import Mathlib.Data.BitVec

namespace AlignedBlock

variable {w k : Nat} {blockSize base : BitVec w}

/-- The bytes of a block. -/
def Inside (blockSize base a : BitVec w) : Prop := ∃ t, t < blockSize.toNat ∧ a = base + BitVec.ofNat w t

/-- Clearing the low bits of an address rounds it down to a multiple of the block size. -/
theorem toNat_roundDown (power : blockSize.toNat = 2 ^ k) (a : BitVec w) :
    (a &&& ~~~(blockSize - 1)).toNat = a.toNat / 2 ^ k * 2 ^ k := by
  have width : k < w := by
    have bound := blockSize.isLt
    rw [power] at bound
    exact (Nat.pow_lt_pow_iff_right (by decide)).mp bound
  have low : (blockSize - 1).toNat = 2 ^ k - 1 := by
    have oneStep : (1 : BitVec w).toNat = 1 := by
      have : 1 < 2 ^ w := Nat.one_lt_two_pow (by omega)
      simp [BitVec.toNat_ofNat, Nat.mod_eq_of_lt this]
    have positive := Nat.two_pow_pos k
    rw [BitVec.toNat_sub_of_le (by rw [BitVec.le_def, oneStep]; omega), power, oneStep]
  refine Nat.eq_of_testBit_eq fun i => ?_
  rw [BitVec.toNat_and, Nat.testBit_and, BitVec.testBit_toNat, BitVec.testBit_toNat, BitVec.getLsbD_not,
    ← BitVec.testBit_toNat (x := blockSize - 1), low, Nat.testBit_two_pow_sub_one, Nat.testBit_mul_two_pow,
    Nat.testBit_div_two_pow, BitVec.testBit_toNat]
  by_cases high : k ≤ i
  · have same : i - k + k = i := by omega
    by_cases inside : i < w
    · simp [high, inside, same]
    · simp [high, inside, same, BitVec.getLsbD_of_ge a i (by omega)]
  · have below : i < k := by omega
    simp [high, below]

/-- An aligned block does not wrap around. -/
theorem end_le (power : blockSize.toNat = 2 ^ k) (aligned : blockSize.toNat ∣ base.toNat) :
    base.toNat + blockSize.toNat ≤ 2 ^ w := by
  have bound := base.isLt
  have width := blockSize.isLt
  rw [power] at aligned width ⊢
  obtain ⟨m, same⟩ := aligned
  have split : 2 ^ w = 2 ^ k * 2 ^ (w - k) := by
    rw [← Nat.pow_add, Nat.add_sub_cancel' ((Nat.pow_lt_pow_iff_right (by decide)).mp width).le]
  rw [same, split] at bound
  have below : m < 2 ^ (w - k) := Nat.lt_of_mul_lt_mul_left bound
  rw [same, split, ← Nat.mul_succ]
  exact Nat.mul_le_mul_left _ below

theorem toNat_add (power : blockSize.toNat = 2 ^ k) (aligned : blockSize.toNat ∣ base.toNat) {t : Nat}
    (inside : t < blockSize.toNat) : (base + BitVec.ofNat w t).toNat = base.toNat + t := by
  have room := end_le power aligned
  rw [BitVec.toNat_add, BitVec.toNat_ofNat, Nat.add_mod_mod, Nat.mod_eq_of_lt (by omega)]

/-- Every address inside an aligned block leads back to the block. -/
theorem roundDown_eq (power : blockSize.toNat = 2 ^ k) (aligned : blockSize.toNat ∣ base.toNat) {a : BitVec w}
    (inside : Inside blockSize base a) : a &&& ~~~(blockSize - 1) = base := by
  obtain ⟨t, bound, rfl⟩ := inside
  refine BitVec.eq_of_toNat_eq ?_
  rw [toNat_roundDown power, toNat_add power aligned bound]
  rw [power] at aligned bound
  obtain ⟨m, same⟩ := aligned
  rw [same, Nat.mul_add_div (Nat.two_pow_pos k), Nat.div_eq_of_lt bound, Nat.add_zero, Nat.mul_comm]

section Beside

variable {size p q x y : Nat}

/-- Blocks of one size at multiples of it overlap only if they are the same. -/
theorem base_eq (alignedP : size ∣ p) (alignedQ : size ∣ q) (inP : x < size) (inQ : y < size) (same : p + x = q + y) :
    p = q ∧ x = y := by
  obtain ⟨i, rfl⟩ := alignedP
  obtain ⟨j, rfl⟩ := alignedQ
  have first : (size * i + x) / size = i := by rw [Nat.mul_add_div (by omega), Nat.div_eq_of_lt inP, Nat.add_zero]
  have second : (size * j + y) / size = j := by rw [Nat.mul_add_div (by omega), Nat.div_eq_of_lt inQ, Nat.add_zero]
  have blocks : i = j := by rw [← first, same, second]
  subst blocks
  exact ⟨rfl, Nat.add_left_cancel same⟩

/-- Every byte of a block lies in front of every byte of a later one. -/
theorem lt_of_base_lt (alignedP : size ∣ p) (alignedQ : size ∣ q) (inP : x < size) (before : p < q) : p + x < q + y := by
  obtain ⟨i, rfl⟩ := alignedP
  obtain ⟨j, rfl⟩ := alignedQ
  have next : size * (i + 1) ≤ size * j := Nat.mul_le_mul_left size (Nat.lt_of_mul_lt_mul_left before)
  rw [Nat.mul_succ] at next
  omega

end Beside

end AlignedBlock
