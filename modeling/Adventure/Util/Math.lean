import Adventure.Library.Smear
import Mathlib.Data.Nat.Log

namespace Adventure

open Smear

def nextPow2 (n : BitVec 64) : BitVec 64 :=
  let n := n - 1#64
  let n := n ||| n >>> 1
  let n := n ||| n >>> 2
  let n := n ||| n >>> 4
  let n := n ||| n >>> 8
  let n := n ||| n >>> 16
  let n := n ||| n >>> 32
  n + 1#64

-- __builtin_clzl has no result for 0.
def log2 (n : BitVec 64) : Nat := 64 - n.clz.toNat - 1

-- The shifts by 1, 2, 4 up to 32 reach over the whole word.
theorem nextPow2_eq (n : BitVec 64) : nextPow2 n = BitVec.ofNat 64 (2 ^ (n - 1#64).toNat.size) := by
  obtain ⟨y, hy, heq⟩ : ∃ y : BitVec 64, y.toNat = 2 ^ (n - 1#64).toNat.size - 1 ∧
      nextPow2 n = y + 1#64 :=
    ⟨_, (spread_one (n - 1#64)).step.step.step.step.step.step.toNat_eq, rfl⟩
  have hpos := Nat.two_pow_pos (n - 1#64).toNat.size
  apply BitVec.eq_of_toNat_eq
  rw [heq, BitVec.toNat_add, hy, BitVec.toNat_ofNat, BitVec.toNat_ofNat, Nat.mod_eq_of_lt (by decide : 1 < 2 ^ 64),
    Nat.sub_add_cancel hpos]

theorem size_pred {n : Nat} (hn : 0 < n) : (n - 1).size = Nat.clog 2 n := by
  apply eq_of_forall_ge_iff
  intro k
  rw [Nat.size_le, Nat.clog_le_iff_le_pow (by decide)]
  omega

-- The position of the highest bit.
theorem log2_eq {n : BitVec 64} (hn : n ≠ 0#64) : log2 n = Nat.log 2 n.toNat := by
  have hle := BitVec.two_pow_sub_clz_le_toNat_of_ne_zero (by decide) hn
  have hlt := BitVec.toNat_lt_two_pow_sub_clz (x := n)
  have hclz : n.clz.toNat < 64 := BitVec.lt_def.mp (BitVec.clz_lt_iff_ne_zero.mpr hn)
  symm
  apply Nat.log_eq_of_pow_le_of_lt_pow
  · rwa [log2, Nat.sub_right_comm]
  · rwa [log2, Nat.sub_add_cancel (by omega)]

-- The number one below does not wrap around.
theorem toNat_pred {n : BitVec 64} (hn : n ≠ 0#64) : (n - 1#64).toNat = n.toNat - 1 ∧ 0 < n.toNat := by
  have hpos : 0 < n.toNat := Nat.pos_of_ne_zero fun h => hn (BitVec.eq_of_toNat_eq h)
  refine ⟨?_, hpos⟩
  rw [BitVec.toNat_sub_of_le (by rw [BitVec.le_def, BitVec.toNat_ofNat]; omega), BitVec.toNat_ofNat]

-- next_pow_2 rounds up to the least power of two that is not below, whose logarithm log2 gives; there is
-- none for 0 and for more than 2^63, and then the result is 0.
theorem nextPow2_least (n : BitVec 64) :
    (n ≠ 0#64 ∧ n.toNat ≤ 2 ^ 63 → (nextPow2 n).toNat = 2 ^ Nat.clog 2 n.toNat ∧
      log2 (nextPow2 n) = Nat.clog 2 n.toNat) ∧
    (n = 0#64 ∨ 2 ^ 63 < n.toNat → nextPow2 n = 0#64) := by
  constructor
  · rintro ⟨hn, hle⟩
    obtain ⟨hpred, hpos⟩ := toNat_pred hn
    have hclog : Nat.clog 2 n.toNat ≤ 63 := Nat.clog_le_of_le_pow hle
    have hlt : 2 ^ Nat.clog 2 n.toNat < 2 ^ 64 := Nat.pow_lt_pow_right (by decide) (by omega)
    have htoNat : (nextPow2 n).toNat = 2 ^ Nat.clog 2 n.toNat := by
      rw [nextPow2_eq, hpred, size_pred hpos, BitVec.toNat_ofNat, Nat.mod_eq_of_lt hlt]
    have hne : nextPow2 n ≠ 0#64 := by
      intro hzero
      have hpow := Nat.two_pow_pos (Nat.clog 2 n.toNat)
      rw [← htoNat, hzero] at hpow
      cases hpow
    exact ⟨htoNat, by rw [log2_eq hne, htoNat, Nat.log_pow (by decide)]⟩
  · rintro (rfl | hlt)
    · decide
    · have hn : n ≠ 0#64 := by
        rintro rfl
        cases hlt
      obtain ⟨hpred, hpos⟩ := toNat_pred hn
      have hsize : Nat.clog 2 n.toNat = 64 := by
        apply Nat.le_antisymm
        · exact Nat.clog_le_of_le_pow n.isLt.le
        · exact (Nat.lt_clog_iff_pow_lt (by decide)).mpr hlt
      rw [nextPow2_eq, hpred, size_pred hpos, hsize]
      rfl

end Adventure
