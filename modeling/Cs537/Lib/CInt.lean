import Mathlib.Algebra.Group.Int.Defs
import Mathlib.Algebra.Group.Nat.Defs

/-!
# C `int` arithmetic that does not overflow

`Int32` wraps. Almost every computation of interest stays in range, and for those
the value is the mathematical one; these are the lemmas that say so, phrased over
`toInt` so that `omega` can finish.
-/

namespace Cs537.Lib

theorem toInt_add_of_range {x y : Int32} (h1 : -2 ^ 31 ≤ x.toInt + y.toInt)
    (h2 : x.toInt + y.toInt < 2 ^ 31) : (x + y).toInt = x.toInt + y.toInt := by
  rw [Int32.toInt_add]
  exact Int.bmod_eq_of_le (by omega) (by omega)

/-- A sum that is too large by one bit. -/
theorem toInt_add_of_wrap {x y : Int32} (h : 2 ^ 31 ≤ x.toInt + y.toInt) :
    (x + y).toInt = x.toInt + y.toInt - 2 ^ 32 := by
  have hx := x.toInt_lt
  have hy := y.toInt_lt
  rw [Int32.toInt_add, Int.bmod_def]
  omega

theorem toInt_sub_of_range {x y : Int32} (h1 : -2 ^ 31 ≤ x.toInt - y.toInt)
    (h2 : x.toInt - y.toInt < 2 ^ 31) : (x - y).toInt = x.toInt - y.toInt := by
  rw [Int32.toInt_sub]
  exact Int.bmod_eq_of_le (by omega) (by omega)

theorem toInt_mul_of_range {x y : Int32} {a b : Nat} (hx : x.toInt = a) (hy : y.toInt = b)
    (h : a * b < 2 ^ 31) : (x * y).toInt = (a * b : Nat) := by
  rw [Int32.toInt_mul, hx, hy, ← Int.natCast_mul]
  exact Int.bmod_eq_of_le (by omega) (by omega)

theorem toInt_ofNat_of_range {n : Nat} (h : n < 2 ^ 31) : (Int32.ofNat n).toInt = n :=
  Int32.toInt_ofNat_of_lt h

/-- What a number too large for an `int` is truncated to. -/
theorem toInt_ofNat_eq_iff {x n : Nat} (hn : n < 2 ^ 31) :
    (Int32.ofNat x).toInt = n ↔ x % 2 ^ 32 = n := by
  have hsize : (x : Int).bmod Int32.size = (x : Int).bmod (2 ^ 32) := rfl
  rw [Int32.toInt_ofNat', hsize, Int.bmod_def]
  omega

/-- A difference of unsigned numbers, taken for an `int`. -/
theorem toInt_toInt32_sub (x y : UInt32) :
    (x - y).toInt32.toInt = ((x.toNat : Int) - y.toNat).bmod (2 ^ 32) := by
  have hbits : (x - y).toInt32.toInt = (x.toBitVec - y.toBitVec).toInt := rfl
  rw [hbits, BitVec.toInt_sub, BitVec.toInt_eq_toNat_bmod, BitVec.toInt_eq_toNat_bmod,
    Int.bmod_sub_bmod, Int.sub_bmod_bmod]
  rfl

theorem le_iff_of_toInt {x y : Int32} {a b : Nat} (hx : x.toInt = a) (hy : y.toInt = b) :
    x ≤ y ↔ a ≤ b := by
  rw [Int32.le_iff_toInt_le, hx, hy]; omega

theorem lt_iff_of_toInt {x y : Int32} {a b : Nat} (hx : x.toInt = a) (hy : y.toInt = b) :
    x < y ↔ a < b := by
  rw [Int32.lt_iff_toInt_lt, hx, hy]; omega

/-! ## Shifting and masking -/

theorem toInt_shiftRight_four (x : Int32) : (x >>> 4).toInt = x.toInt / 16 := by
  have hfour : ((4 : Int32).toBitVec.smod 32).toNat = 4 := by decide
  show (BitVec.sshiftRight' x.toBitVec ((4 : Int32).toBitVec.smod 32)).toInt = x.toInt / 16
  rw [BitVec.toInt_sshiftRight', hfour, Int.shiftRight_eq_div_pow, Int32.toInt_toBitVec]
  rfl

theorem toInt_and_fifteen {x : Int32} (h : 0 ≤ x.toInt) : (x &&& 0xF).toInt = x.toInt % 16 := by
  have hand : (x &&& 0xF).toBitVec.toNat = x.toBitVec.toNat % 16 := by
    rw [Int32.toBitVec_and, BitVec.toNat_and]
    exact Nat.and_two_pow_sub_one_eq_mod _ 4
  have hx := BitVec.toInt_eq_toNat_cond x.toBitVec
  have hxa := BitVec.toInt_eq_toNat_cond (x &&& 0xF).toBitVec
  have hlt := x.toBitVec.isLt
  rw [Int32.toInt_toBitVec] at hx hxa
  rw [hand] at hxa
  split at hx <;> split at hxa <;> omega

end Cs537.Lib
