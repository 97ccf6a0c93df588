import Mathlib.Algebra.Order.Ring.Int

namespace Puma

/-- The conversion of a `size_t` or an `unsigned int` to an `int`. -/
def intOfSize (n : Nat) : Int := (BitVec.ofNat 32 n).toInt

theorem intOfSize_eq {n : Nat} (small : n < 2 ^ 31) : intOfSize n = n := by
  rw [intOfSize, BitVec.toInt_eq_toNat_of_lt] <;> simp <;> omega

/-- The upper half of the `unsigned int` comes out negative. -/
theorem intOfSize_neg {n : Nat} (large : 2 ^ 31 ≤ n) (word : n < 2 ^ 32) : intOfSize n < 0 := by
  rw [intOfSize, BitVec.toInt_eq_toNat_cond, BitVec.toNat_ofNat, Nat.mod_eq_of_lt word, if_neg (by omega)]
  omega

end Puma
