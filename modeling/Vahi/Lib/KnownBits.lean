import Mathlib.Tactic.Common

/-!
# Words known up to a mask

`AgreeOff m x v`: the words `x` and `v` agree outside the mask `m`. The bits that a carry can change
are those in which the smallest and the largest possible sum differ.
-/

namespace Vahi.Lib

open BitVec

variable {w : ℕ}

def AgreeOff (m x v : BitVec w) : Prop :=
  x &&& ~~~m = v &&& ~~~m

variable {m x v : BitVec w}

theorem agreeOff_iff :
    AgreeOff m x v ↔ ∀ i < w, m.getLsbD i = false → x.getLsbD i = v.getLsbD i := by
  constructor
  · intro h i hi hm
    have hbit := congrArg (·.getLsbD i) h
    simpa only [getLsbD_and, getLsbD_not, hi, hm, decide_true, Bool.not_false,
      Bool.and_true] using hbit
  · intro h
    apply eq_of_getLsbD_eq
    intro i hi
    rw [getLsbD_and, getLsbD_and, getLsbD_not]
    cases hm : m.getLsbD i with
    | true => simp
    | false => rw [h i hi hm]

theorem AgreeOff.bit (h : AgreeOff m x v) {i : ℕ} (hi : i < w)
    (hm : m.getLsbD i = false) : x.getLsbD i = v.getLsbD i :=
  agreeOff_iff.1 h i hi hm

theorem agreeOff_zero : AgreeOff 0#w x v ↔ x = v := by
  simp [AgreeOff]

theorem agreeOff_allOnes (x v : BitVec w) : AgreeOff (BitVec.allOnes w) x v := by
  simp [AgreeOff]

/-- Bits of the value that lie under the mask do not matter. -/
theorem agreeOff_and_not : AgreeOff m x (v &&& ~~~m) ↔ AgreeOff m x v := by
  simp [AgreeOff, BitVec.and_assoc]

theorem AgreeOff.mono {m' : BitVec w} (h : AgreeOff m x v)
    (hm : ∀ i < w, m'.getLsbD i = false → m.getLsbD i = false) : AgreeOff m' x v :=
  agreeOff_iff.2 fun i hi hm' => h.bit hi (hm i hi hm')

section Bitwise

variable {m n x y v u : BitVec w}

variable (hx : AgreeOff m x v)

include hx

theorem AgreeOff.or (hy : AgreeOff n y u) :
    AgreeOff (m ||| n) (x ||| y) (v ||| u) := by
  rw [agreeOff_iff]
  intro i hi hm
  rw [getLsbD_or, Bool.or_eq_false_iff] at hm
  rw [getLsbD_or, getLsbD_or, hx.bit hi hm.1, hy.bit hi hm.2]

theorem AgreeOff.xor (hy : AgreeOff n y u) :
    AgreeOff (m ||| n) (x ^^^ y) (v ^^^ u) := by
  rw [agreeOff_iff]
  intro i hi hm
  rw [getLsbD_or, Bool.or_eq_false_iff] at hm
  rw [getLsbD_xor, getLsbD_xor, hx.bit hi hm.1, hy.bit hi hm.2]

theorem AgreeOff.shiftLeft (k : ℕ) :
    AgreeOff (m <<< k) (x <<< k) (v <<< k) := by
  rw [agreeOff_iff]
  intro i hi hm
  rw [getLsbD_shiftLeft] at hm ⊢
  rw [getLsbD_shiftLeft]
  by_cases hik : i < k
  · simp [hik]
  · have hm' : m.getLsbD (i - k) = false := by simpa [hi, hik] using hm
    rw [hx.bit (by omega) hm']

theorem AgreeOff.ushiftRight (k : ℕ) :
    AgreeOff (m >>> k) (x >>> k) (v >>> k) := by
  rw [agreeOff_iff]
  intro i hi hm
  rw [getLsbD_ushiftRight] at hm ⊢
  rw [getLsbD_ushiftRight]
  by_cases hik : k + i < w
  · exact hx.bit hik hm
  · rw [getLsbD_of_ge _ _ (by omega), getLsbD_of_ge _ _ (by omega)]

end Bitwise

section Add

def BitSubset (x y : BitVec w) : Prop :=
  ∀ i < w, x.getLsbD i = true → y.getLsbD i = true

variable {x y m v n u : BitVec w}

theorem carry_of_subset {x' y' : BitVec w} (hx : BitSubset x x') (hy : BitSubset y y') :
    ∀ i ≤ w, BitVec.carry i x y false = true → BitVec.carry i x' y' false = true := by
  intro i
  induction i with
  | zero => intro _ h; simp at h
  | succ i ih =>
    intro hi
    have hxi := hx i (by omega)
    have hyi := hy i (by omega)
    have hci := ih (by omega)
    rw [carry_succ, carry_succ]
    cases hxb : x.getLsbD i <;> cases hyb : y.getLsbD i <;>
      cases hcb : BitVec.carry i x y false <;> simp_all [Bool.atLeastTwo]

/-- A value disjoint from its mask is the smallest word that agrees with it, and
`value + mask` the largest; both bounds hold bit by bit. -/
theorem AgreeOff.subset_lo (h : AgreeOff m x v) (hv : v &&& m = 0#w) : BitSubset v x := by
  intro i hi hbit
  have hm : m.getLsbD i = false := by
    have hz := congrArg (·.getLsbD i) hv
    simpa [hbit] using hz
  rw [h.bit hi hm]
  exact hbit

theorem AgreeOff.subset_hi (h : AgreeOff m x v) : BitSubset x (v ||| m) := by
  intro i hi hbit
  rw [getLsbD_or]
  cases hm : m.getLsbD i with
  | true => simp
  | false => rw [← h.bit hi hm, hbit, Bool.true_or]

/-- The sum of two words known up to masks: a bit outside both masks is known
when the smallest and the largest sum agree in it. -/
theorem AgreeOff.add (hx : AgreeOff m x v) (hy : AgreeOff n y u)
    (hv : v &&& m = 0#w) (hu : u &&& n = 0#w) :
    AgreeOff (m ||| n ||| ((m + n + (v + u)) ^^^ (v + u))) (x + y) (v + u) := by
  rw [agreeOff_iff]
  intro i hi hm
  simp only [getLsbD_or, getLsbD_xor, Bool.or_eq_false_iff] at hm
  obtain ⟨⟨hmi, hni⟩, hchi⟩ := hm
  have hsum : m + n + (v + u) = (v ||| m) + (u ||| n) := by
    rw [← add_eq_or_of_and_eq_zero v m hv, ← add_eq_or_of_and_eq_zero u n hu]
    ac_rfl
  -- outside the masks both extreme sums have the same operand bits, so equal
  -- result bits mean equal carries
  have hcarry : BitVec.carry i (v ||| m) (u ||| n) false = BitVec.carry i v u false := by
    rw [hsum, getLsbD_add hi, getLsbD_add hi, getLsbD_or,
      getLsbD_or, hmi, hni] at hchi
    cases h₁ : v.getLsbD i <;> cases h₂ : u.getLsbD i <;>
      cases h₃ : BitVec.carry i (v ||| m) (u ||| n) false <;>
      cases h₄ : BitVec.carry i v u false <;> simp_all
  have hlo := carry_of_subset (hx.subset_lo hv) (hy.subset_lo hu) i (Nat.le_of_lt hi)
  have hhi := carry_of_subset hx.subset_hi hy.subset_hi i (Nat.le_of_lt hi)
  have hxy : BitVec.carry i x y false = BitVec.carry i v u false := by
    cases h₁ : BitVec.carry i x y false <;> cases h₂ : BitVec.carry i v u false <;> simp_all
  rw [getLsbD_add hi, getLsbD_add hi, hx.bit hi hmi, hy.bit hi hni, hxy]

theorem AgreeOff.not (h : AgreeOff m x v) : AgreeOff m (~~~x) (~~~(v ||| m)) := by
  rw [agreeOff_iff]
  intro i hi hm
  rw [getLsbD_not, getLsbD_not, getLsbD_or, h.bit hi hm, hm, Bool.or_false]

/-- The difference of two words known up to masks, as the complement of a sum. -/
theorem AgreeOff.sub (hx : AgreeOff m x v) (hy : AgreeOff n y u)
    (hv : v &&& m = 0#w) (hu : u &&& n = 0#w) :
    AgreeOff (m ||| n ||| ((v - (u ||| n)) ^^^ ((v ||| m) - u))) (x - y) (v - u) := by
  have hlo : ~~~(v ||| m) + u = ~~~((v ||| m) - u) := not_sub_eq_not_add.symm
  have hhi : m + n + (~~~(v ||| m) + u) = ~~~(v - (u ||| n)) := by
    rw [not_sub_eq_not_add, ← add_eq_or_of_and_eq_zero v m hv,
      ← add_eq_or_of_and_eq_zero u n hu, not_eq_neg_add, not_eq_neg_add]
    grind
  have hdisj : ~~~(v ||| m) &&& m = 0#w := by
    apply eq_of_getLsbD_eq
    intro i hi
    cases hm : m.getLsbD i <;> simp [hm]
  have hsum {x y : BitVec w} (hx : AgreeOff m x v) (hy : AgreeOff n y u) :
      AgreeOff (m ||| n ||| ((v - (u ||| n)) ^^^ ((v ||| m) - u))) (~~~(x - y))
        (~~~((v ||| m) - u)) := by
    have h := hx.not.add hy hdisj hu
    rwa [hhi, hlo, ← not_sub_eq_not_add, ← not_xor_left, not_xor_right,
      BitVec.not_not] at h
  have h₁ := hsum hx hy
  have h₂ := hsum (rfl : AgreeOff m v v) (rfl : AgreeOff n u u)
  rw [agreeOff_iff] at h₁ h₂ ⊢
  intro i hi hm
  have hbit := (h₁ i hi hm).trans (h₂ i hi hm).symm
  simpa [getLsbD_not, hi] using hbit

end Add

end Vahi.Lib
