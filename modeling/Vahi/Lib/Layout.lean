import Mathlib.Tactic.Ring

/-!
# Layout of data in memory

The value of a string of bytes, lowest first, and the bytes of a number. Bytes are given by a
function of their position.
-/

namespace Vahi.Lib

def byteOf (v i : ℕ) : BitVec 8 := BitVec.ofNat 8 (v / 256 ^ i)

def ofBytes (f : ℕ → BitVec 8) : ℕ → ℕ
  | 0 => 0
  | n + 1 => (f 0).toNat + 256 * ofBytes (fun i => f (i + 1)) n

theorem ofBytes_congr {f g : ℕ → BitVec 8} {n : ℕ} (h : ∀ i < n, f i = g i) :
    ofBytes f n = ofBytes g n := by
  induction n generalizing f g with
  | zero => rfl
  | succ n ih =>
    rw [ofBytes, ofBytes, h 0 (Nat.zero_lt_succ n), ih fun i hi => h (i + 1) (Nat.succ_lt_succ hi)]

theorem ofBytes_lt (f : ℕ → BitVec 8) (n : ℕ) : ofBytes f n < 256 ^ n := by
  induction n generalizing f with
  | zero => exact Nat.one_pos
  | succ n ih =>
    have hrest := ih fun i => f (i + 1)
    rw [ofBytes, Nat.pow_succ]
    omega

theorem ofBytes_byteOf (v n : ℕ) : ofBytes (byteOf v) n = v % 256 ^ n := by
  induction n generalizing v with
  | zero =>
    rw [Nat.pow_zero, Nat.mod_one]
    rfl
  | succ n ih =>
    have hshift : (fun i => byteOf v (i + 1)) = byteOf (v / 256) := by
      funext i
      rw [byteOf, byteOf, Nat.div_div_eq_div_mul, Nat.pow_succ, Nat.mul_comm]
    have hfirst : (byteOf v 0).toNat = v % 256 := by
      rw [byteOf, Nat.pow_zero, Nat.div_one, BitVec.toNat_ofNat]
    rw [ofBytes, hshift, ih, hfirst, Nat.pow_succ, Nat.mul_comm (256 ^ n), Nat.mod_mul]

/-! ## Overwriting -/

section Overwrite

variable {σ α β : Type*} {set : σ → ℕ → α → σ}

def setAll (set : σ → ℕ → α → σ) : σ → ℕ → List α → σ
  | s, _, [] => s
  | s, i, x :: xs => setAll set (set s i x) (i + 1) xs

theorem get_setAll {get : σ → ℕ → α} {bound : ℕ}
    (hset : ∀ s i a j, i < bound → get (set s i a) j = if j = i then a else get s j) (s : σ)
    {i : ℕ} {xs : List α} (h : i + xs.length ≤ bound) (j : ℕ) :
    get (setAll set s i xs) j = if i ≤ j then xs.getD (j - i) (get s j) else get s j := by
  induction xs generalizing s i with
  | nil => rw [setAll, List.getD_nil, ite_self]
  | cons x xs ih =>
    rw [List.length_cons] at h
    rw [setAll, ih _ (by omega), hset s i x j (by omega)]
    rcases Nat.lt_trichotomy i j with hlt | rfl | hgt
    · have hidx : j - i = (j - (i + 1)) + 1 := by omega
      rw [if_pos (Nat.succ_le_of_lt hlt), if_pos (Nat.le_of_lt hlt), if_neg (Nat.ne_of_gt hlt), hidx,
        List.getD_cons_succ]
    · rw [if_neg (Nat.not_succ_le_self i), if_pos rfl, if_pos (Nat.le_refl i), Nat.sub_self,
        List.getD_cons_zero]
    · rw [if_neg (by omega), if_neg (Nat.ne_of_lt hgt), if_neg (by omega)]

/-- What setting one position leaves alone, overwriting leaves alone. -/
theorem setAll_eq {f : σ → β} (hset : ∀ s i a, f (set s i a) = f s) (s : σ)
    (i : ℕ) (xs : List α) : f (setAll set s i xs) = f s := by
  induction xs generalizing s i with
  | nil => rfl
  | cons x xs ih => rw [setAll, ih, hset]

end Overwrite

end Vahi.Lib
