import Mathlib.Data.Nat.Find
import Mathlib.Tactic.Ring
import Vahi.Lib.KnownBits
import Vahi.Lib.Worklist

/-!
# Tristate numbers

`Tnum` (`kernel/src/ebpf/tnum.rs`): a word of which the bits in `mask` are unknown. The operations
`and`, `sub`, `neg` and `ashr` do not over-approximate; their rules say when they do.
-/

namespace Vahi.Ebpf

open Vahi.Lib BitVec
open AgreeOff (bit subset_lo subset_hi)

/-- A bit in both `value` and `mask` does not occur in a valid one. -/
structure Tnum where
  value : BitVec 64
  mask : BitVec 64
  deriving DecidableEq

namespace Tnum

def exact (v : BitVec 64) : Tnum := ⟨v, 0#64⟩

def any : Tnum := ⟨0#64, BitVec.allOnes 64⟩

variable (a b : Tnum)

/-- Carries out of unknown bits make the bits they can reach unknown. -/
def add : Tnum :=
  let sm := a.mask + b.mask
  let sv := a.value + b.value
  let sigma := sm + sv
  let chi := sigma ^^^ sv
  let mu := a.mask ||| b.mask ||| chi
  ⟨sv &&& ~~~mu, mu⟩

def sub : Tnum :=
  let sv := a.value - b.value
  let sn := a.value + ~~~b.value
  let mu := a.mask ||| b.mask ||| (sv ^^^ sn)
  ⟨sv &&& ~~~mu, mu⟩

def mul : Tnum :=
  if a.mask = 0#64 ∧ b.mask = 0#64 then exact (a.value * b.value) else any

def and : Tnum :=
  ⟨a.value &&& b.value, (a.mask &&& ~~~b.value) ||| (b.mask &&& ~~~a.value) ||| (a.mask &&& b.mask)⟩

def or : Tnum :=
  ⟨(a.value ||| b.value) &&& ~~~(a.mask ||| b.mask), a.mask ||| b.mask⟩

def xor : Tnum :=
  ⟨(a.value ^^^ b.value) &&& ~~~(a.mask ||| b.mask), a.mask ||| b.mask⟩

def shl : Tnum :=
  if b.mask ≠ 0#64 then any
  else if b.value.toNat ≥ 64 then any
  else ⟨a.value <<< b.value.toNat, a.mask <<< b.value.toNat⟩

def lshr : Tnum :=
  if b.mask ≠ 0#64 then any
  else if b.value.toNat ≥ 64 then any
  else ⟨a.value >>> b.value.toNat, a.mask >>> b.value.toNat⟩

/-- The shift amount is taken modulo the width, as overflowing shifts do. -/
def ashr : Tnum :=
  if b.mask ≠ 0#64 then any
  else ⟨a.value.sshiftRight (b.value.toNat % 64), BitVec.allOnes 64⟩

def neg : Tnum := ⟨~~~a.value + 1#64, a.mask⟩

def min : BitVec 64 := a.value

def max : BitVec 64 := a.value ||| a.mask

def couldBeZero : Bool := a.value &&& ~~~a.mask == 0#64

/-- Bits on which the values differ become unknown. -/
def merge : Tnum :=
  ⟨a.value &&& b.value, a.mask ||| b.mask ||| (a.value ^^^ b.value)⟩

/-- A bit is unknown if it is in both; of known bits that differ the set one is taken. -/
def intersect : Tnum :=
  let nv := a.value ||| b.value
  let nm := a.mask &&& b.mask
  ⟨nv &&& ~~~nm, nm⟩

def Contains (t : Tnum) (x : BitVec 64) : Prop := AgreeOff t.mask x t.value

instance (t : Tnum) (x : BitVec 64) : Decidable (t.Contains x) :=
  inferInstanceAs (Decidable (_ = _))

def Valid (t : Tnum) : Prop := t.value &&& t.mask = 0#64

instance (t : Tnum) : Decidable t.Valid := inferInstanceAs (Decidable (_ = _))

/-! ### Validity -/

section Validity

variable {a b : Tnum}

theorem valid_iff {t : Tnum} :
    t.Valid ↔ ∀ i < 64, t.value.getLsbD i = true → t.mask.getLsbD i = false := by
  constructor
  · intro h i _ hv
    have hbit := congrArg (·.getLsbD i) h
    simpa [hv] using hbit
  · intro h
    apply eq_of_getLsbD_eq
    intro i hi
    rw [getLsbD_and]
    cases hv : t.value.getLsbD i with
    | false => simp
    | true => simp [h i hi hv]

theorem valid_exact (v : BitVec 64) : (exact v).Valid := by simp [exact, Valid]

theorem valid_any : any.Valid := by simp [any, Valid]

/-- A value cleared under the mask. -/
theorem valid_cleared (v m : BitVec 64) : (⟨v &&& ~~~m, m⟩ : Tnum).Valid := by
  simp [Valid, BitVec.and_assoc]

theorem valid_add : (a.add b).Valid := valid_cleared _ _

theorem valid_sub : (a.sub b).Valid := valid_cleared _ _

theorem valid_or : (a.or b).Valid := valid_cleared _ _

theorem valid_xor : (a.xor b).Valid := valid_cleared _ _

theorem valid_intersect : (a.intersect b).Valid := valid_cleared _ _

theorem valid_mul : (a.mul b).Valid := by
  rw [mul]
  split
  · exact valid_exact _
  · exact valid_any

theorem valid_and (ha : a.Valid) (hb : b.Valid) : (a.and b).Valid := by
  rw [valid_iff] at ha hb ⊢
  intro i hi hv
  simp only [Tnum.and, getLsbD_and, Bool.and_eq_true] at hv
  simp only [Tnum.and, getLsbD_or, getLsbD_and, ha i hi hv.1, hb i hi hv.2,
    Bool.false_and, Bool.or_false]

theorem valid_merge (ha : a.Valid) (hb : b.Valid) : (a.merge b).Valid := by
  rw [valid_iff] at ha hb ⊢
  intro i hi hv
  simp only [merge, getLsbD_and, Bool.and_eq_true] at hv
  simp only [merge, getLsbD_or, getLsbD_xor, ha i hi hv.1, hb i hi hv.2, hv.1,
    hv.2, Bool.or_false, bne_self_eq_false]

theorem valid_shl (ha : a.Valid) : (a.shl b).Valid := by
  rw [shl]
  split
  · exact valid_any
  split
  · exact valid_any
  rw [valid_iff] at ha ⊢
  intro i hi hv
  simp only [getLsbD_shiftLeft, Bool.and_eq_true] at hv ⊢
  rw [ha _ (by omega) hv.2, Bool.and_false]

theorem valid_lshr (ha : a.Valid) : (a.lshr b).Valid := by
  rw [lshr]
  split
  · exact valid_any
  split
  · exact valid_any
  rw [valid_iff] at ha ⊢
  intro i hi hv
  simp only [getLsbD_ushiftRight] at hv ⊢
  by_cases hlt : b.value.toNat + i < 64
  · exact ha _ hlt hv
  · exact getLsbD_of_ge _ _ (by omega)

end Validity

/-! ### Containment -/

section Containment

variable {a b : Tnum} {x y : BitVec 64}

theorem contains_any (x : BitVec 64) : any.Contains x := agreeOff_allOnes _ _

theorem contains_exact {v : BitVec 64} : (exact v).Contains x ↔ x = v := agreeOff_zero

theorem Contains.add (hx : a.Contains x) (hy : b.Contains y) (ha : a.Valid) (hb : b.Valid) :
    (a.add b).Contains (x + y) :=
  agreeOff_and_not.2 (AgreeOff.add hx hy ha hb)

theorem Contains.or (hx : a.Contains x) (hy : b.Contains y) : (a.or b).Contains (x ||| y) :=
  agreeOff_and_not.2 (AgreeOff.or hx hy)

theorem Contains.xor (hx : a.Contains x) (hy : b.Contains y) : (a.xor b).Contains (x ^^^ y) :=
  agreeOff_and_not.2 (AgreeOff.xor hx hy)

theorem Contains.mul (hx : a.Contains x) (hy : b.Contains y) : (a.mul b).Contains (x * y) := by
  rw [Tnum.mul]
  split
  · rename_i hmask
    rw [Contains, hmask.1, agreeOff_zero] at hx
    rw [Contains, hmask.2, agreeOff_zero] at hy
    rw [hx, hy]
    exact contains_exact.2 rfl
  · exact contains_any _

theorem Contains.eq_value (hy : b.Contains y) (hmask : b.mask = 0#64) : y = b.value := by
  rwa [Contains, hmask, agreeOff_zero] at hy

/-- An exact shift amount below the width is the amount the interpreter uses. -/
theorem shift_amount (hy : b.Contains y) (hmask : b.mask = 0#64) (hlt : b.value.toNat < 64) :
    (y.setWidth 32).toNat % 64 = b.value.toNat := by
  rw [hy.eq_value hmask, toNat_setWidth]
  omega

section

variable (hx : a.Contains x) {k : ℕ}

include hx

/-- Whatever the shift by `k` is meant to be: only an exact amount below the width is used. -/
theorem contains_shl (hk : b.mask = 0#64 → b.value.toNat < 64 → k = b.value.toNat) :
    (a.shl b).Contains (x <<< k) := by
  rw [Tnum.shl]
  split
  · exact contains_any _
  rename_i hmask
  split
  · exact contains_any _
  rename_i hlt
  rw [hk (not_not.1 hmask) (Nat.lt_of_not_le hlt)]
  exact AgreeOff.shiftLeft hx _

theorem contains_lshr (hk : b.mask = 0#64 → b.value.toNat < 64 → k = b.value.toNat) :
    (a.lshr b).Contains (x >>> k) := by
  rw [Tnum.lshr]
  split
  · exact contains_any _
  rename_i hmask
  split
  · exact contains_any _
  rename_i hlt
  rw [hk (not_not.1 hmask) (Nat.lt_of_not_le hlt)]
  exact AgreeOff.ushiftRight hx _

theorem Contains.shl (hy : b.Contains y) :
    (a.shl b).Contains (x <<< ((y.setWidth 32).toNat % 64)) :=
  contains_shl hx (shift_amount hy)

theorem Contains.lshr (hy : b.Contains y) :
    (a.lshr b).Contains (x >>> ((y.setWidth 32).toNat % 64)) :=
  contains_lshr hx (shift_amount hy)

omit hx in
/-- Every result of `ashr` has the full mask. -/
theorem contains_ashr (z : BitVec 64) : (a.ashr b).Contains z := by
  rw [ashr]
  split
  · exact contains_any _
  · exact agreeOff_allOnes _ _

/-- `and` claims to know a bit that is known to be set on one side only; that is
harmless when the operands have no set bit in common. -/
theorem Contains.and (hy : b.Contains y) (ha : a.Valid) (hb : b.Valid)
    (hxy : x &&& y = 0#64) : (a.and b).Contains (x &&& y) := by
  rw [Contains, agreeOff_iff]
  intro i hi hm
  have hbit : (x.getLsbD i && y.getLsbD i) = false := by
    have hz := congrArg (·.getLsbD i) hxy
    simpa only [getLsbD_and, getLsbD_zero] using hz
  simp only [Tnum.and, getLsbD_and, hbit]
  have hxi := bit hx hi
  have hyi := bit hy hi
  have hva := valid_iff.1 ha i hi
  have hvb := valid_iff.1 hb i hi
  cases h₁ : a.mask.getLsbD i <;> cases h₂ : b.mask.getLsbD i <;>
    cases h₃ : a.value.getLsbD i <;> cases h₄ : b.value.getLsbD i <;> simp_all

end

/-- A valid tnum that contains zero has value zero. -/
theorem value_of_contains_zero (h : b.Contains 0#64) (hb : b.Valid) : b.value = 0#64 := by
  apply eq_of_getLsbD_eq
  intro i hi
  cases hv : b.value.getLsbD i with
  | false => simp
  | true =>
    have hbit := bit h hi (valid_iff.1 hb i hi hv)
    rw [hv] at hbit
    simp at hbit

/-- `sub` does not track borrows; it is right when nothing is subtracted. -/
theorem Contains.sub_zero (hx : a.Contains x) (hy : b.Contains 0#64) (hb : b.Valid) :
    (a.sub b).Contains (x - 0#64) := by
  have hv := value_of_contains_zero hy hb
  have hagree : AgreeOff (a.mask ||| b.mask ||| (a.value - b.value ^^^ (a.value + ~~~b.value)))
      (x - 0#64) (a.value - b.value) := by
    rw [hv, BitVec.sub_zero, BitVec.sub_zero]
    refine AgreeOff.mono hx ?_
    intro i _ hm
    simp only [getLsbD_or, Bool.or_eq_false_iff] at hm
    exact hm.1.1
  exact agreeOff_and_not.2 hagree

theorem Contains.neg_zero (hx : a.Contains 0#64) (ha : a.Valid) : (a.neg).Contains (-0#64) := by
  have hv := value_of_contains_zero hx ha
  have hneg : a.neg = ⟨0#64, a.mask⟩ := by
    rw [neg, hv]
    rfl
  rw [hneg, BitVec.neg_zero]
  rw [Contains, hv] at hx
  exact hx

theorem Contains.merge_right (hy : b.Contains y) (a : Tnum) : (a.merge b).Contains y := by
  rw [Contains, agreeOff_iff]
  intro i hi hm
  simp only [merge, getLsbD_or, getLsbD_xor, Bool.or_eq_false_iff] at hm
  have hyi := bit hy hi hm.1.2
  rw [hyi, merge, getLsbD_and]
  cases h₁ : a.value.getLsbD i <;> cases h₂ : b.value.getLsbD i <;> simp_all

theorem merge_comm (a b : Tnum) : a.merge b = b.merge a := by
  rw [merge, merge, BitVec.and_comm, BitVec.xor_comm, or_comm a.mask]

theorem Contains.merge_left (hx : a.Contains x) (b : Tnum) : (a.merge b).Contains x := by
  rw [merge_comm]
  exact hx.merge_right b

theorem Contains.intersect (hx : a.Contains x) (hy : b.Contains x) (ha : a.Valid)
    (hb : b.Valid) : (a.intersect b).Contains x := by
  suffices hagree : AgreeOff (a.mask &&& b.mask) x (a.value ||| b.value) from
    agreeOff_and_not.2 hagree
  rw [agreeOff_iff]
  intro i hi hm
  have hxi := bit hx hi
  have hyi := bit hy hi
  have hva := valid_iff.1 ha i hi
  have hvb := valid_iff.1 hb i hi
  cases h₁ : a.mask.getLsbD i <;> cases h₂ : b.mask.getLsbD i <;>
    cases h₃ : a.value.getLsbD i <;> cases h₄ : b.value.getLsbD i <;> simp_all

end Containment

/-- `r` is valid and contains every result of `f` on words of `a` and `b`. -/
def Covers (r a b : Tnum) (f : BitVec 64 → BitVec 64 → BitVec 64) : Prop :=
  r.Valid ∧ ∀ x y, a.Contains x → b.Contains y → r.Contains (f x y)

/-- The arithmetic of known bits over-approximates the arithmetic of words. An unknown shift
amount, or one not below the width, gives `any`. -/
theorem operations_sound {a b : Tnum} (ha : a.Valid) (hb : b.Valid) :
    Covers (a.add b) a b (· + ·) ∧
    Covers (a.or b) a b (· ||| ·) ∧
    Covers (a.xor b) a b (· ^^^ ·) ∧
    Covers (a.mul b) a b (· * ·) ∧
    Covers (a.shl b) a b (fun x y => x <<< y.toNat) ∧
    Covers (a.lshr b) a b (fun x y => x >>> y.toNat) ∧
    (a.merge b).Valid ∧ (∀ x, a.Contains x ∨ b.Contains x → (a.merge b).Contains x) ∧
    (a.intersect b).Valid ∧
      ∀ x, a.Contains x → b.Contains x → (a.intersect b).Contains x := by
  have hamount {y : BitVec 64} (hy : b.Contains y) (hmask : b.mask = 0#64) :
      b.value.toNat < 64 → y.toNat = b.value.toNat :=
    fun _ => congrArg BitVec.toNat (hy.eq_value hmask)
  refine ⟨⟨valid_add, fun x y hx hy => hx.add hy ha hb⟩, ⟨valid_or, fun x y => Contains.or⟩,
    ⟨valid_xor, fun x y => Contains.xor⟩, ⟨valid_mul, fun x y => Contains.mul⟩,
    ⟨valid_shl ha, fun x y hx hy => contains_shl hx (hamount hy)⟩,
    ⟨valid_lshr ha, fun x y hx hy => contains_lshr hx (hamount hy)⟩,
    valid_merge ha hb, ?_, valid_intersect, fun x hx hy => hx.intersect hy ha hb⟩
  rintro x (hx | hx)
  · exact hx.merge_left b
  · exact hx.merge_right a

/-- A number from 4 to 7 and an even number below 4: their sum is known to be below 16. -/
theorem operations_sound_lowBits :
    (⟨4, 3⟩ : Tnum).Valid ∧ (⟨0, 2⟩ : Tnum).Valid ∧ (⟨4, 3⟩ : Tnum).add ⟨0, 2⟩ = ⟨0, 15⟩ ∧
    Covers ((⟨4, 3⟩ : Tnum).add ⟨0, 2⟩) ⟨4, 3⟩ ⟨0, 2⟩ (· + ·) :=
  ⟨by decide, by decide, by decide, (operations_sound (by decide) (by decide)).1⟩

section Extremes

variable {a b : Tnum}

theorem contains_min (a : Tnum) : a.Contains a.min := rfl

theorem contains_max (a : Tnum) : a.Contains a.max := by
  rw [Contains, agreeOff_iff]
  intro i _ hm
  rw [max, getLsbD_or, hm, Bool.or_false]

/-- The difference and the sum with the complement differ in bit `i` exactly if the words agree
below it: only then a carry into the lowest bit gets there. -/
theorem getLsbD_sub_xor_add_not (x y : BitVec 64) {i : ℕ} (hi : i < 64) :
    ((x - y) ^^^ (x + ~~~y)).getLsbD i = decide (x.toNat % 2 ^ i = y.toNat % 2 ^ i) := by
  have hnot : (~~~y).toNat % 2 ^ i = 2 ^ i - 1 - y.toNat % 2 ^ i := by
    rw [← toNat_setWidth, setWidth_not (by omega), toNat_not, toNat_setWidth]
  have hsub : x - y = x + ~~~y + setWidth 64 (ofBool true) := by
    rw [sub_eq_add_neg, neg_eq_not_add, ← BitVec.add_assoc]
    rfl
  have hadd : (x + ~~~y).getLsbD i = (x + ~~~y + setWidth 64 (ofBool false)).getLsbD i := by
    rw [show setWidth 64 (ofBool false) = 0#64 from rfl, BitVec.add_zero]
  have hx := Nat.mod_lt x.toNat (Nat.two_pow_pos i)
  have hy := Nat.mod_lt y.toNat (Nat.two_pow_pos i)
  have hxor (c d p q : Bool) : ((c ^^ (d ^^ p)) ^^ (c ^^ (d ^^ q))) = (p ^^ q) := by
    cases c <;> cases d <;> cases p <;> cases q <;> rfl
  rw [getLsbD_xor, hadd, hsub, getLsbD_add_add_bool hi, getLsbD_add_add_bool hi, hxor,
    carry, carry, hnot, Bool.toNat_true, Bool.toNat_false, Bool.eq_iff_iff, bne_iff_ne, ne_eq,
    decide_eq_decide, decide_eq_true_eq]
  omega

/-- `sub` takes a bit for known if it is known in both operands and their values differ below it.
Such a bit has to be the same in the smallest and the largest difference. -/
theorem covers_sub_iff (ha : a.Valid) (hb : b.Valid) : Covers (a.sub b) a b (· - ·) ↔
    ∀ i < 64, a.mask.getLsbD i = false → b.mask.getLsbD i = false →
      (a.min - b.max).getLsbD i ≠ (a.max - b.min).getLsbD i →
      a.value.toNat % 2 ^ i = b.value.toNat % 2 ^ i := by
  have hknown {i : ℕ} (hi : i < 64) : (a.sub b).mask.getLsbD i = false ↔
      (a.mask.getLsbD i = false ∧ b.mask.getLsbD i = false) ∧
        a.value.toNat % 2 ^ i ≠ b.value.toNat % 2 ^ i := by
    rw [sub, getLsbD_or, getLsbD_or, getLsbD_sub_xor_add_not _ _ hi, Bool.or_eq_false_iff,
      Bool.or_eq_false_iff, decide_eq_false_iff_not]
  constructor
  · rintro ⟨-, h⟩ i hi hma hmb hne
    by_contra hval
    have hm := (hknown hi).2 ⟨⟨hma, hmb⟩, hval⟩
    refine hne ((bit (h _ _ a.contains_min b.contains_max) hi hm).trans ?_)
    exact (bit (h _ _ a.contains_max b.contains_min) hi hm).symm
  · intro hcond
    refine ⟨valid_sub, ?_⟩
    intro x y hx hy
    suffices hagree : AgreeOff (a.sub b).mask (x - y) (a.value - b.value) from
      agreeOff_and_not.2 hagree
    refine (AgreeOff.sub hx hy ha hb).mono ?_
    intro i hi hm
    obtain ⟨⟨hma, hmb⟩, hval⟩ := (hknown hi).1 hm
    have hbit : (a.min - b.max).getLsbD i = (a.max - b.min).getLsbD i :=
      not_not.1 fun hne => hval (hcond i hi hma hmb hne)
    simp only [min, max] at hbit
    rw [getLsbD_or, getLsbD_or, getLsbD_xor, hma, hmb, hbit,
      Bool.xor_self, Bool.or_self, Bool.or_self]

theorem covers_neg_iff_max (ha : a.Valid) : Covers a.neg a a (fun x _ => -x) ↔
    a.neg.Valid ∧ a.neg.Contains (-a.max) := by
  constructor
  · rintro ⟨hv, h⟩
    exact ⟨hv, h _ _ a.contains_max a.contains_max⟩
  · rintro ⟨hv, hhi⟩
    refine ⟨hv, ?_⟩
    intro x _ hx _
    have hneg : ~~~a.value + 1#64 = 0#64 - a.value := by
      rw [← BitVec.neg_eq_not_add, BitVec.zero_sub]
    simp only [Contains, neg, hneg, ← BitVec.zero_sub] at hhi ⊢
    refine (AgreeOff.sub (agreeOff_zero.2 rfl) hx (BitVec.and_zero) ha).mono ?_
    intro i hi hm
    have hbit := bit hhi hi hm
    rw [max] at hbit
    rw [getLsbD_or, getLsbD_or, getLsbD_xor, hm, hbit, or_zero,
      getLsbD_zero, Bool.xor_self, Bool.or_self, Bool.or_self]

theorem neg_value (a : Tnum) : a.neg.value = -a.value := (neg_eq_not_add _).symm

/-- A bit of the opposite word is flipped above the lowest bit that is set. -/
theorem getLsbD_neg_of_lt {x : BitVec 64} {i : ℕ} (hi : i < 64) :
    (-x).getLsbD i = (x.getLsbD i ^^ decide (∃ j < i, x.getLsbD j = true)) := by
  rw [getLsbD_neg, decide_eq_true hi, Bool.true_and]

section Neg

variable (ha : a.Valid) (hmax : a.neg.Contains (-a.max)) {k : ℕ}

include ha hmax

/-- Below an unknown bit nothing is set, since `neg` would set that bit; and above it nothing is
set either, since the negation of the largest word would clear the lowest such bit. -/
theorem value_bit_of_neg (hvalid : a.neg.Valid) (hk : a.mask.getLsbD k = true) (j : ℕ) :
    a.value.getLsbD j = false := by
  have hk64 : k < 64 := lt_of_getLsbD hk
  have hclear {i : ℕ} (hv : a.value.getLsbD i = true) : a.mask.getLsbD i = false :=
    valid_iff.1 ha i (lt_of_getLsbD hv) hv
  induction j using Nat.strongRecOn with
  | ind j ih =>
    refine eq_false_of_ne_true fun hv => ?_
    have hj : j < 64 := lt_of_getLsbD hv
    have hm := hclear hv
    have hne : k ≠ j := fun h => Bool.false_ne_true (hm.symm.trans (h ▸ hk))
    have hkj : k < j := by
      refine Nat.lt_of_le_of_ne (Nat.le_of_not_lt fun hjk => ?_) hne
      have hneg : a.neg.value.getLsbD k = true := by
        rw [neg_value, getLsbD_neg_of_lt hk64, decide_eq_true ⟨j, hjk, hv⟩,
          eq_false_of_ne_true fun hvk => Bool.false_ne_true ((hclear hvk).symm.trans hk)]
        rfl
      exact Bool.false_ne_true ((valid_iff.1 hvalid k hk64 hneg).symm.trans hk)
    have hbits := bit hmax hj hm
    rw [neg_value, getLsbD_neg_of_lt hj, getLsbD_neg_of_lt hj, max, getLsbD_or, hv,
      decide_eq_true ⟨k, hkj, by rw [getLsbD_or, hk, Bool.or_true]⟩, decide_eq_false] at hbits
    · cases hbits
    · rintro ⟨l, hl, hvl⟩
      exact Bool.false_ne_true ((ih l hl).symm.trans hvl)

omit ha in
theorem mask_bit_of_neg (hval : a.value = 0#64) (hk : a.mask.getLsbD k = true) {i : ℕ}
    (hki : k ≤ i) (hi : i < 64) : a.mask.getLsbD i = true := by
  refine eq_true_of_ne_false fun hm => ?_
  have hlt : k < i :=
    Nat.lt_of_le_of_ne hki fun h => Bool.false_ne_true (hm.symm.trans (h ▸ hk))
  have hbits := bit hmax hi hm
  rw [neg_value, max, hval, BitVec.zero_or, BitVec.neg_zero, getLsbD_zero,
    getLsbD_neg_of_lt hi, hm, decide_eq_true ⟨k, hlt, hk⟩] at hbits
  cases hbits

end Neg

theorem covers_neg_iff (ha : a.Valid) : Covers a.neg a a (fun x _ => -x) ↔
    a.mask = 0#64 ∨ a.value = 0#64 ∧ ∃ k < 64, a.mask = allOnes 64 <<< k := by
  rw [covers_neg_iff_max ha]
  constructor
  · rintro ⟨hvalid, hmax⟩
    rw [or_iff_not_imp_left]
    intro hmask
    have hex : ∃ k, a.mask.getLsbD k = true := by
      by_contra hno
      refine hmask (eq_of_getLsbD_eq fun i _ => ?_)
      rw [getLsbD_zero]
      exact eq_false_of_ne_true fun hi => hno ⟨i, hi⟩
    have hk := Nat.find_spec hex
    have hval : a.value = 0#64 := eq_of_getLsbD_eq fun i _ =>
      (value_bit_of_neg ha hmax hvalid hk i).trans getLsbD_zero.symm
    refine ⟨hval, Nat.find hex, lt_of_getLsbD hk, eq_of_getLsbD_eq fun i hi => ?_⟩
    rw [getLsbD_shiftLeft, decide_eq_true hi, getLsbD_allOnes, Bool.true_and]
    by_cases hik : i < Nat.find hex
    · rw [decide_eq_true hik, Bool.not_true, Bool.false_and]
      exact eq_false_of_ne_true (Nat.find_min hex hik)
    · rw [decide_eq_false hik, decide_eq_true (by omega), Bool.not_false, Bool.true_and]
      exact mask_bit_of_neg hmax hval hk (Nat.le_of_not_lt hik) hi
  · rintro (hmask | ⟨hval, k, -, hmask⟩)
    · rw [Valid, Contains, neg_value, show a.neg.mask = 0#64 from hmask, agreeOff_zero, max, hmask,
        BitVec.or_zero]
      exact ⟨BitVec.and_zero, rfl⟩
    · rw [Valid, Contains, neg_value, max, hval, BitVec.neg_zero, BitVec.zero_and, BitVec.zero_or]
      refine ⟨rfl, agreeOff_iff.2 fun i hi hm => ?_⟩
      have hik : i < k := by
        by_contra hik
        rw [show a.neg.mask = _ from hmask, getLsbD_shiftLeft, getLsbD_allOnes,
          decide_eq_true hi, decide_eq_false hik, decide_eq_true (by omega)] at hm
        cases hm
      have hlow {j : ℕ} (hj : j < k) : a.mask.getLsbD j = false := by
        rw [hmask, getLsbD_shiftLeft, decide_eq_true hj, Bool.not_true, Bool.and_false,
          Bool.false_and]
      rw [getLsbD_neg_of_lt hi, hlow hik, getLsbD_zero, decide_eq_false, Bool.false_xor]
      rintro ⟨j, hj, hm⟩
      exact Bool.false_ne_true ((hlow (Nat.lt_trans hj hik)).symm.trans hm)

/-- One bit of `and` at the largest words: a bit unknown on one side is not set on the other. -/
theorem and_bit_apart : ∀ av am bv bm : Bool, (av = true → am = false) →
    (bv = true → bm = false) →
    ((am && !bv || bm && !av || am && bm) = false → ((av || am) && (bv || bm)) = (av && bv)) →
    (am && bv) = false ∧ (bm && av) = false := by
  decide

theorem and_bit_known : ∀ x y av am bv bm : Bool, (am = false → x = av) →
    (bm = false → y = bv) → (am && bv) = false → (bm && av) = false →
    (am && !bv || bm && !av || am && bm) = false → (x && y) = (av && bv) := by
  decide

theorem covers_and_iff (ha : a.Valid) (hb : b.Valid) : Covers (a.and b) a b (· &&& ·) ↔
    a.mask &&& b.value = 0#64 ∧ b.mask &&& a.value = 0#64 := by
  have hmask {i : ℕ} (hi : i < 64) : (a.and b).mask.getLsbD i =
      (a.mask.getLsbD i && !b.value.getLsbD i || b.mask.getLsbD i && !a.value.getLsbD i ||
        a.mask.getLsbD i && b.mask.getLsbD i) := by
    simp only [Tnum.and, getLsbD_or, getLsbD_and, getLsbD_not, hi, decide_true, Bool.true_and]
  constructor
  · rintro ⟨-, h⟩
    have hmax := h _ _ a.contains_max b.contains_max
    have hbits (i : ℕ) (hi : i < 64) := and_bit_apart _ _ _ _ (valid_iff.1 ha i hi)
      (valid_iff.1 hb i hi) fun hm => by
        have hbit := bit hmax hi ((hmask hi).trans hm)
        simpa only [max, Tnum.and, getLsbD_or, getLsbD_and] using hbit
    constructor
    · refine eq_of_getLsbD_eq fun i hi => ?_
      rw [getLsbD_and, getLsbD_zero]
      exact (hbits i hi).1
    · refine eq_of_getLsbD_eq fun i hi => ?_
      rw [getLsbD_and, getLsbD_zero]
      exact (hbits i hi).2
  · rintro ⟨hab, hba⟩
    refine ⟨valid_and ha hb, ?_⟩
    intro x y hx hy
    rw [Contains, agreeOff_iff]
    intro i hi hm
    have habi := congrArg (·.getLsbD i) hab
    have hbai := congrArg (·.getLsbD i) hba
    simp only [Tnum.and, getLsbD_and, getLsbD_zero] at habi hbai ⊢
    exact and_bit_known _ _ _ _ _ _ (bit hx hi) (bit hy hi) habi hbai ((hmask hi).symm.trans hm)

theorem sshiftRight_eq_zero_iff (x : BitVec 64) {n : ℕ} (hn : n < 64) :
    x.sshiftRight n = 0#64 ↔ x.toNat < 2 ^ n := by
  have hpow : 2 ^ n ≤ 2 ^ 63 := Nat.pow_le_pow_right (by decide) (by omega)
  cases hmsb : x.msb with
  | false =>
    rw [sshiftRight_eq_of_msb_false hmsb, ← toNat_inj, toNat_ushiftRight,
      Nat.shiftRight_eq_div_pow, toNat_zero, Nat.div_eq_zero_iff_lt (Nat.two_pow_pos n)]
  | true =>
    refine iff_of_false (fun h => ?_) ?_
    · rw [← msb_sshiftRight (n := n), h] at hmsb
      exact absurd hmsb (by decide)
    · rw [msb_eq_decide, decide_eq_true_iff] at hmsb
      omega

theorem covers_ashr_iff : Covers (a.ashr b) a b (fun x y => x.sshiftRight y.toNat) ↔
    b.mask ≠ 0#64 ∨ a.value.toNat < 2 ^ (b.value.toNat % 64) := by
  have hvalid : (a.ashr b).Valid ↔
      b.mask ≠ 0#64 ∨ a.value.toNat < 2 ^ (b.value.toNat % 64) := by
    rw [ashr]
    split
    · exact iff_of_true valid_any (Or.inl ‹_›)
    · rw [Valid, and_allOnes, or_iff_right ‹_›,
        sshiftRight_eq_zero_iff _ (Nat.mod_lt _ (by decide))]
  rw [← hvalid]
  exact ⟨fun h => h.1, fun h => ⟨h, fun x y _ _ => contains_ashr _⟩⟩

/-- For valid operands: `and` over-approximates exactly if no bit unknown in one is set in the
other; `sub` exactly if a bit known in both, in which the smallest and the largest difference are
not the same, has equal values below it; `neg` exactly if the operand is a constant, or 0 with
all bits from some bit on unknown; `ashr` exactly if the amount is not known or shifts out all
bits of the value. -/
theorem sound_iff_masks (ha : a.Valid) (hb : b.Valid) :
    (Covers (a.and b) a b (· &&& ·) ↔
      a.mask &&& b.value = 0#64 ∧ b.mask &&& a.value = 0#64) ∧
    (Covers (a.sub b) a b (· - ·) ↔
      ∀ i < 64, a.mask.getLsbD i = false → b.mask.getLsbD i = false →
        (a.min - b.max).getLsbD i ≠ (a.max - b.min).getLsbD i →
        a.value.toNat % 2 ^ i = b.value.toNat % 2 ^ i) ∧
    (Covers a.neg a a (fun x _ => -x) ↔
      a.mask = 0#64 ∨ a.value = 0#64 ∧ ∃ k < 64, a.mask = allOnes 64 <<< k) ∧
    (Covers (a.ashr b) a b (fun x y => x.sshiftRight y.toNat) ↔
      b.mask ≠ 0#64 ∨ a.value.toNat < 2 ^ (b.value.toNat % 64)) :=
  ⟨covers_and_iff ha hb, covers_sub_iff ha hb, covers_neg_iff ha, covers_ashr_iff⟩

theorem sound_iff_masks_belowFour :
    (⟨0, 3⟩ : Tnum).Valid ∧ (exact 4).Valid ∧
    Covers ((⟨0, 3⟩ : Tnum).and (exact 4)) ⟨0, 3⟩ (exact 4) (· &&& ·) ∧
    Covers ((⟨0, 3⟩ : Tnum).sub (exact 4)) ⟨0, 3⟩ (exact 4) (· - ·) ∧
    ¬ Covers (⟨0, 3⟩ : Tnum).neg ⟨0, 3⟩ ⟨0, 3⟩ (fun x _ => -x) := by
  have h := sound_iff_masks (a := ⟨0, 3⟩) (b := exact 4) (by decide) (by decide)
  refine ⟨by decide, by decide, h.1.2 (by decide), h.2.1.2 (by decide), ?_⟩
  rw [h.2.2.1]
  decide

/-- `and` loses a bit known to be set on one side, `sub` and `neg` lose borrows, and `ashr`
is not valid. -/
theorem operations_unsound :
    (⟨0, 1⟩ : Tnum).Valid ∧ (⟨0, 2⟩ : Tnum).Valid ∧ (exact 1).Valid ∧
    (⟨0, 1⟩ : Tnum).Contains 1 ∧ (⟨0, 2⟩ : Tnum).Contains 2 ∧ (exact 1).Contains 1 ∧
    ¬ ((⟨0, 1⟩ : Tnum).and (exact 1)).Contains (1 &&& 1) ∧
    ¬ ((exact 1).sub ⟨0, 2⟩).Contains (1 - 2) ∧
    ¬ (⟨0, 1⟩ : Tnum).neg.Contains (-1) ∧
    ¬ ((exact 1).ashr (exact 0)).Valid := by
  decide

end Extremes

/-- One bit of a mask: what `b` adds to `a` it adds to no join of `a` either. -/
theorem merge_mask_bit : ∀ av bv cv am bm cm : Bool, (av && bv) = av →
    (am || bm || (av ^^ bv)) = am →
    (am || cm || (av ^^ cv) || bm || ((av && cv) ^^ bv)) = (am || cm || (av ^^ cv)) := by
  decide

/-- `merge` is a join for the worklist iteration, also on invalid tnums. -/
theorem merge_laws : JoinLaws merge where
  self := by
    intro a
    simp [merge]
  absorbed := by
    intro a b
    simp only [merge, Tnum.mk.injEq]
    constructor
    · rw [BitVec.and_assoc, BitVec.and_self]
    · apply eq_of_getLsbD_eq
      intro i _
      simp only [getLsbD_or, getLsbD_xor, getLsbD_and]
      cases a.mask.getLsbD i <;> cases b.mask.getLsbD i <;> cases a.value.getLsbD i <;>
        cases b.value.getLsbD i <;> rfl
  keeps := by
    intro a b c h
    have hv : a.value &&& b.value = a.value := congrArg Tnum.value h
    have hm : a.mask ||| b.mask ||| (a.value ^^^ b.value) = a.mask := congrArg Tnum.mask h
    simp only [merge, Tnum.mk.injEq]
    constructor
    · apply eq_of_getLsbD_eq
      intro i _
      have hvi := congrArg (·.getLsbD i) hv
      simp only [getLsbD_and] at hvi ⊢
      cases h₁ : a.value.getLsbD i <;> cases h₂ : b.value.getLsbD i <;> simp_all
    · apply eq_of_getLsbD_eq
      intro i _
      have hvi := congrArg (·.getLsbD i) hv
      have hmi := congrArg (·.getLsbD i) hm
      simp only [getLsbD_or, getLsbD_xor, getLsbD_and] at hvi hmi ⊢
      exact merge_mask_bit _ _ _ _ _ _ hvi hmi

end Tnum

end Vahi.Ebpf
