import Mathlib.Data.Nat.Bitwise
import Mathlib.Data.Nat.Size
import Mathlib.Tactic.Common

-- The highest bit of a word, spread over all bits below it by shifts of doubling length.
namespace Smear

variable {w m : Nat} {x y : BitVec w}

-- Each bit of `y` says if `x` has one of the `m` bits from there on.
def Spread (m : Nat) (x y : BitVec w) : Prop :=
  ∀ i, y.getLsbD i = true ↔ ∃ j < m, x.getLsbD (i + j) = true

theorem spread_one (x : BitVec w) : Spread 1 x x := by
  intro i
  constructor
  · intro h
    exact ⟨0, Nat.one_pos, h⟩
  · rintro ⟨j, hj, h⟩
    obtain rfl : j = 0 := by omega
    exact h

-- A step doubles the reach.
theorem Spread.step (hs : Spread m x y) : Spread (2 * m) x (y ||| y >>> m) := by
  intro i
  rw [BitVec.getLsbD_or, BitVec.getLsbD_ushiftRight, Bool.or_eq_true, hs i, hs (m + i)]
  constructor
  · rintro (⟨j, hj, h⟩ | ⟨j, hj, h⟩)
    · exact ⟨j, by omega, h⟩
    · exact ⟨m + j, by omega, by rwa [← Nat.add_assoc, Nat.add_comm i m]⟩
  · rintro ⟨j, hj, h⟩
    by_cases hlt : j < m
    · exact Or.inl ⟨j, hlt, h⟩
    · refine Or.inr ⟨j - m, by omega, ?_⟩
      rwa [show m + i + (j - m) = i + j by omega]

-- When the reach is the whole word, the result has all bits up to the highest one.
theorem Spread.toNat_eq (hs : Spread w x y) : y.toNat = 2 ^ x.toNat.size - 1 := by
  apply Nat.eq_of_testBit_eq
  intro i
  rw [Nat.testBit_two_pow_sub_one, BitVec.testBit_toNat, Bool.eq_iff_iff, hs i, decide_eq_true_iff,
    Nat.lt_size]
  constructor
  · rintro ⟨j, -, h⟩
    rw [← BitVec.testBit_toNat] at h
    exact Nat.le_trans (Nat.pow_le_pow_right Nat.two_pos (Nat.le_add_right i j))
      (Nat.ge_two_pow_of_testBit h)
  · intro h
    obtain ⟨k, hk, hbit⟩ := Nat.exists_ge_and_testBit_of_ge_two_pow h
    rw [BitVec.testBit_toNat] at hbit
    have hkw := BitVec.lt_of_getLsbD hbit
    exact ⟨k - i, by omega, by rwa [Nat.add_sub_cancel' hk]⟩

end Smear
