import Mathlib.Tactic.Ring

/-!
# Bytes of machine words

Little-endian byte strings of machine words, and rounding down of addresses.
-/

namespace Vahi.Lib

def neBytes {w : ℕ} (n : ℕ) (v : BitVec w) : List (BitVec 8) :=
  (List.range n).map fun i => (v >>> (8 * i)).setWidth 8

@[simp] theorem length_neBytes {w : ℕ} (n : ℕ) (v : BitVec w) : (neBytes n v).length = n := by
  simp [neBytes]

/-- Clearing the low `k` bits rounds down to a multiple of `2 ^ k`. -/
theorem toNat_and_not_low {k : ℕ} {m : BitVec 64}
    (hm : ∀ i < 64, (~~~ m).getLsbD i = decide (k ≤ i)) (x : BitVec 64) :
    (x &&& ~~~ m).toNat = x.toNat / 2 ^ k * 2 ^ k := by
  have hmask : x &&& ~~~ m = (x >>> k) <<< k := by
    apply BitVec.eq_of_getLsbD_eq
    intro i hi
    rw [BitVec.getLsbD_and, hm i hi, BitVec.getLsbD_shiftLeft, BitVec.getLsbD_ushiftRight]
    by_cases hk : k ≤ i
    · simp [hk, hi, Nat.add_sub_cancel' hk]
    · simp [hk]
  have hle : x.toNat / 2 ^ k * 2 ^ k ≤ x.toNat := Nat.div_mul_le_self _ _
  rw [hmask, BitVec.toNat_shiftLeft, BitVec.toNat_ushiftRight, Nat.shiftLeft_eq,
    Nat.shiftRight_eq_div_pow, Nat.mod_eq_of_lt (by omega)]

theorem toNat_and_not_15 (x : BitVec 64) :
    (x &&& ~~~(0xF : BitVec 64)).toNat = x.toNat / 16 * 16 :=
  toNat_and_not_low (k := 4) (by decide) x

/-- Rounding down to a page. -/
theorem toNat_and_not_4095 (x : BitVec 64) :
    (x &&& ~~~(4095 : BitVec 64)).toNat = x.toNat / 4096 * 4096 :=
  toNat_and_not_low (k := 12) (by decide) x

end Vahi.Lib
