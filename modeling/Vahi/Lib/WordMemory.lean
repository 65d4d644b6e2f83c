import Mathlib.Tactic.Common

/-!
# Words in a byte-addressed memory

Reading and writing 64-bit words, lowest byte first, at any address.
-/

namespace Vahi.Lib

abbrev ByteMemory := BitVec 64 → BitVec 8

def InWord (a x : BitVec 64) : Prop := (x - a).toNat < 8

instance (a x : BitVec 64) : Decidable (InWord a x) := inferInstanceAs (Decidable (_ < _))

def loadBytes (m : ByteMemory) (a : BitVec 64) : ℕ → BitVec 64
  | 0 => 0
  | n + 1 => loadBytes m a n ||| ((m (a + BitVec.ofNat 64 n)).setWidth 64 <<< (8 * n))

def load64 (m : ByteMemory) (a : BitVec 64) : BitVec 64 := loadBytes m a 8

def store64 (m : ByteMemory) (a v : BitVec 64) : ByteMemory := fun x =>
  if InWord a x then (v >>> (8 * (x - a).toNat)).setWidth 8 else m x

variable {a : BitVec 64} {i : ℕ} (m : ByteMemory)

theorem store64_of_not_inWord {x : BitVec 64} (h : ¬InWord a x) (m : ByteMemory) (v : BitVec 64) :
    store64 m a v x = m x := if_neg h

theorem getLsbD_loadBytes (a : BitVec 64) (hi : i < 64) (n : ℕ) : (loadBytes m a n).getLsbD i =
      (decide (i < 8 * n) && (m (a + BitVec.ofNat 64 (i / 8))).getLsbD (i % 8)) := by
  induction n with
  | zero => simp [loadBytes]
  | succ n ih =>
    rw [loadBytes, BitVec.getLsbD_or, ih, BitVec.getLsbD_shiftLeft, BitVec.getLsbD_setWidth]
    by_cases hlow : i < 8 * n
    · have hnext : i < 8 * (n + 1) := by omega
      simp [hlow, hnext]
    by_cases hbyte : i < 8 * (n + 1)
    · -- the bit is one of byte `n`
      have hdiv : i / 8 = n := by omega
      have hmod : i % 8 = i - 8 * n := by omega
      have hlt : i - 8 * n < 64 := by omega
      simp [hlow, hbyte, hi, hlt, hdiv, hmod]
    · have hout : 8 ≤ i - 8 * n := by omega
      simp [hlow, hbyte, BitVec.getLsbD_of_ge _ _ hout]

theorem getLsbD_load64 (a : BitVec 64) (hi : i < 64) :
    (load64 m a).getLsbD i = (m (a + BitVec.ofNat 64 (i / 8))).getLsbD (i % 8) := by
  rw [load64, getLsbD_loadBytes m a hi]
  have hlt : i < 8 * 8 := hi
  simp [hlt]

/-- Where the byte with a given bit of a word is. -/
theorem toNat_byte_sub (a : BitVec 64) (hi : i < 64) :
    (a + BitVec.ofNat 64 (i / 8) - a).toNat = i / 8 := by
  rw [BitVec.add_comm, BitVec.add_sub_cancel, BitVec.toNat_ofNat]
  omega

theorem inWord_byte (a : BitVec 64) (hi : i < 64) : InWord a (a + BitVec.ofNat 64 (i / 8)) := by
  show (a + BitVec.ofNat 64 (i / 8) - a).toNat < 8
  rw [toNat_byte_sub a hi]
  omega

theorem load64_congr {m m' : ByteMemory}
    (h : ∀ x, InWord a x → m x = m' x) : load64 m a = load64 m' a := by
  apply BitVec.eq_of_getLsbD_eq
  intro i hi
  rw [getLsbD_load64 m a hi, getLsbD_load64 m' a hi, h _ (inWord_byte a hi)]

theorem load64_store64_of_disjoint {b : BitVec 64} (h : ∀ x, InWord a x → ¬InWord b x)
    (m : ByteMemory) (v : BitVec 64) : load64 (store64 m b v) a = load64 m a :=
  load64_congr fun x hx => store64_of_not_inWord (h x hx) m v

theorem load64_store64_self (a v : BitVec 64) : load64 (store64 m a v) a = v := by
  apply BitVec.eq_of_getLsbD_eq
  intro i hi
  rw [getLsbD_load64 _ a hi, store64, if_pos (inWord_byte a hi), toNat_byte_sub a hi,
    BitVec.getLsbD_setWidth, BitVec.getLsbD_ushiftRight, Nat.div_add_mod]
  have hlt : i % 8 < 8 := Nat.mod_lt _ (by decide)
  simp [hlt]

end Vahi.Lib
