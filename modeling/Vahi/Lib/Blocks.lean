import Mathlib.Data.List.Basic
import Mathlib.Data.List.Count
import Mathlib.Data.Nat.Bitwise
import Mathlib.Tactic.Ring

/-!
# Power-of-two blocks

A block of order `k` is an interval of `2 ^ (s + k)` bytes. A list of blocks partitions a set if its
`coverage` is the set's indicator. Disjoint blocks of which none could be merged with its buddy are
determined by the bytes they cover.
-/

namespace Vahi.Lib

/-- A block of `2 ^ (s + order)` bytes starting at `base`. -/
structure Block where
  base : ℕ
  order : ℕ
  deriving DecidableEq

namespace Block

def size (s : ℕ) (b : Block) : ℕ := 2 ^ (s + b.order)

def Covers (s : ℕ) (b : Block) (x : ℕ) : Prop :=
  b.base ≤ x ∧ x < b.base + b.size s

instance (s : ℕ) (b : Block) (x : ℕ) : Decidable (b.Covers s x) :=
  inferInstanceAs (Decidable (_ ∧ _))

def Aligned (s : ℕ) (b : Block) : Prop :=
  b.size s ∣ b.base

instance (s : ℕ) (b : Block) : Decidable (b.Aligned s) :=
  inferInstanceAs (Decidable (_ ∣ _))

def Disjoint (s : ℕ) (b c : Block) : Prop :=
  ∀ x, ¬ (b.Covers s x ∧ c.Covers s x)

instance (s : ℕ) : Std.Symm (Disjoint s) := ⟨fun _ _ h x hx => h x hx.symm⟩

variable (s a k : ℕ)

theorem size_pos (b : Block) : 0 < b.size s := Nat.two_pow_pos _

theorem covers_base (b : Block) : b.Covers s b.base :=
  ⟨le_rfl, Nat.lt_add_of_pos_right (b.size_pos s)⟩

theorem size_succ : (⟨a, k + 1⟩ : Block).size s = 2 * 2 ^ (s + k) := by
  simp only [size]
  rw [← Nat.add_assoc, Nat.pow_succ, Nat.mul_comm]

theorem aligned_succ {s a k : ℕ} : (⟨a, k + 1⟩ : Block).Aligned s ↔ 2 * 2 ^ (s + k) ∣ a := by
  rw [Aligned, size_succ]

theorem Aligned.lower {s a k : ℕ} (h : (⟨a, k + 1⟩ : Block).Aligned s) :
    (⟨a, k⟩ : Block).Aligned s :=
  Dvd.dvd.trans (Dvd.intro_left 2 rfl) (aligned_succ.1 h)

theorem Aligned.upper {s a k : ℕ} (h : (⟨a, k + 1⟩ : Block).Aligned s) :
    (⟨a + 2 ^ (s + k), k⟩ : Block).Aligned s :=
  (Nat.dvd_add_right h.lower).2 dvd_rfl

/-- A byte lies in a block exactly when it lies in one of its halves. -/
theorem covers_succ (x : ℕ) : (⟨a, k + 1⟩ : Block).Covers s x ↔
      (⟨a, k⟩ : Block).Covers s x ∨ (⟨a + 2 ^ (s + k), k⟩ : Block).Covers s x := by
  simp only [Covers, size_succ]
  simp only [size]
  omega

/-- The two halves of a block have no byte in common. -/
theorem halves_disjoint : Disjoint s ⟨a, k⟩ ⟨a + 2 ^ (s + k), k⟩ := by
  rintro x ⟨hlo, hhi⟩
  simp only [Covers, size] at hlo hhi
  omega

end Block

def coverage (s : ℕ) (l : List Block) (x : ℕ) : ℕ :=
  l.countP (fun b => b.Covers s x)

section Coverage

variable {s : ℕ} {l : List Block}

theorem coverage_cons (b : Block) (l : List Block) (x : ℕ) :
    coverage s (b :: l) x = coverage s l x + if b.Covers s x then 1 else 0 := by
  simp [coverage, List.countP_cons]

theorem coverage_append (l₁ l₂ : List Block) (x : ℕ) :
    coverage s (l₁ ++ l₂) x = coverage s l₁ x + coverage s l₂ x := by
  simp [coverage]

theorem coverage_perm {l₁ l₂ : List Block} (h : l₁.Perm l₂) (x : ℕ) :
    coverage s l₁ x = coverage s l₂ x :=
  h.countP_eq _

theorem coverage_pos {x : ℕ} :
    0 < coverage s l x ↔ ∃ b ∈ l, b.Covers s x := by
  simp [coverage, List.countP_pos_iff]

/-- A block covers exactly what its two halves cover. -/
theorem coverage_split (a k x : ℕ) (l : List Block) :
    coverage s (⟨a, k + 1⟩ :: l) x =
      coverage s (⟨a + 2 ^ (s + k), k⟩ :: ⟨a, k⟩ :: l) x := by
  simp only [coverage_cons, Block.covers_succ]
  by_cases hlo : (⟨a, k⟩ : Block).Covers s x
  · have hhi : ¬ (⟨a + 2 ^ (s + k), k⟩ : Block).Covers s x :=
      fun h => Block.halves_disjoint s a k x ⟨hlo, h⟩
    simp [hlo, hhi]
  · simp [hlo]

/-- Blocks that cover every byte at most once are pairwise disjoint. -/
theorem pairwise_disjoint_of_coverage_le_one
    (h : ∀ x, coverage s l x ≤ 1) : l.Pairwise (Block.Disjoint s) := by
  induction l with
  | nil => exact List.Pairwise.nil
  | cons b l ih =>
    rw [List.pairwise_cons]
    refine ⟨?_, ih fun x => ?_⟩
    · rintro c hc x ⟨hb, hcx⟩
      have hpos : 0 < coverage s l x := coverage_pos.2 ⟨c, hc, hcx⟩
      have hx := h x
      rw [coverage_cons, if_pos hb] at hx
      omega
    · have hx := h x
      rw [coverage_cons] at hx
      omega

end Coverage

section Buddy

variable {s : ℕ}

/-- The block's neighbour of the same size: the address differs in the size bit. -/
def buddyOf (s : ℕ) (b : Block) : Block :=
  ⟨b.base ^^^ b.size s, b.order⟩

/-- The buddy of an aligned block is the other half of the block one order up. -/
theorem buddyOf_base {b : Block} (h : b.Aligned s) :
    (2 * b.size s ∣ b.base ∧ (buddyOf s b).base = b.base + b.size s) ∨
      (2 * b.size s ∣ (buddyOf s b).base ∧ (buddyOf s b).base + b.size s = b.base) := by
  obtain ⟨q, hq⟩ := h
  have hxor : b.base ^^^ b.size s = (q ^^^ 1) * b.size s := by
    have hs : b.size s = 1 <<< (s + b.order) := by rw [Nat.one_shiftLeft]; rfl
    have hb : b.base = q <<< (s + b.order) := by
      rw [hq, Nat.shiftLeft_eq, Nat.mul_comm]; rfl
    rw [hb, hs, ← Nat.shiftLeft_xor_distrib, Nat.shiftLeft_eq, Nat.one_shiftLeft]
  rcases Nat.even_or_odd' q with ⟨r, rfl | rfl⟩
  · left
    have hone : 2 * r ^^^ 1 = 2 * r + 1 := by
      rw [Nat.xor_one_of_even (by simp)]
    refine ⟨⟨r, ?_⟩, ?_⟩
    · rw [hq]
      ring
    · rw [buddyOf, hxor, hone, hq]
      ring
  · right
    have hone : (2 * r + 1) ^^^ 1 = 2 * r := by
      rw [Nat.xor_one_of_odd (by simp)]
      omega
    refine ⟨⟨r, ?_⟩, ?_⟩
    · rw [buddyOf, hxor, hone]
      ring
    · rw [buddyOf, hxor, hone, hq]
      ring

end Buddy

section Packed

variable {s m : ℕ} {F G : Set Block} {b c : Block} {x y : ℕ}

/-- Disjoint aligned blocks of order at most `m`, none below it with its buddy. -/
structure Packed (s m : ℕ) (F : Set Block) : Prop where
  wf : ∀ b ∈ F, b.order ≤ m ∧ b.Aligned s
  disjoint : ∀ b ∈ F, ∀ c ∈ F, ∀ x, b.Covers s x → c.Covers s x → b = c
  noBuddies : ∀ b ∈ F, b.order < m → buddyOf s b ∉ F

theorem Block.Aligned.covers_iff (h : b.Aligned s) :
    b.Covers s x ↔ x / b.size s = b.base / b.size s := by
  obtain ⟨q, hq⟩ := h
  have hpos := b.size_pos s
  rw [Covers, hq, Nat.mul_div_cancel_left q hpos, Nat.div_eq_iff hpos, Nat.mul_comm q]
  omega

/-- Of two aligned blocks that share a byte, the smaller one lies inside the larger one. -/
theorem Block.Aligned.covers_of_le (hb : b.Aligned s) (hc : c.Aligned s)
    (hle : b.order ≤ c.order) (hbx : b.Covers s x) (hcx : c.Covers s x) (hby : b.Covers s y) :
    c.Covers s y := by
  have hsize : c.size s = b.size s * 2 ^ (c.order - b.order) := by
    rw [size, size, ← Nat.pow_add]
    congr 1
    omega
  rw [hb.covers_iff] at hbx hby
  rw [hc.covers_iff, hsize, ← Nat.div_div_eq_div_mul] at hcx ⊢
  rw [hby, ← hbx, hcx]

theorem Block.Aligned.eq_of_order_eq (hb : b.Aligned s) (hc : c.Aligned s)
    (horder : b.order = c.order) (hbx : b.Covers s x) (hcx : c.Covers s x) : b = c := by
  have h₁ := hb.covers_of_le hc horder.le hbx hcx (b.covers_base s)
  have h₂ := hc.covers_of_le hb horder.ge hcx hbx (c.covers_base s)
  have hbase : b.base = c.base := Nat.le_antisymm h₂.1 h₁.1
  cases b
  cases c
  cases horder
  cases hbase
  rfl

/-- The lower half of an aligned block has the upper half as its buddy. -/
theorem buddyOf_lower {a k : ℕ} (h : (⟨a, k + 1⟩ : Block).Aligned s) :
    buddyOf s ⟨a, k⟩ = ⟨a + 2 ^ (s + k), k⟩ := by
  have hpos := Nat.two_pow_pos (s + k)
  obtain ⟨-, hup⟩ | ⟨hdvd, hdown⟩ := buddyOf_base h.lower
  · exact congrArg (Block.mk · k) hup
  -- the buddy would be below, and half a block away from a multiple of the block's size
  have hsize : (⟨a, k⟩ : Block).size s = 2 ^ (s + k) := rfl
  rw [hsize] at hdvd hdown
  obtain ⟨q, hq⟩ := Block.aligned_succ.1 h
  obtain ⟨r, hr⟩ := hdvd
  rw [hr, hq, Nat.mul_comm 2, Nat.mul_assoc, Nat.mul_assoc] at hdown
  have hfactor : 2 ^ (s + k) * (2 * r + 1) = 2 ^ (s + k) * (2 * q) := hdown
  have := Nat.eq_of_mul_eq_mul_left hpos hfactor
  omega

namespace Packed

/-- A block that a packed family covers is inside one of its blocks. -/
theorem exists_of_covered (hF : Packed s m F) (hal : b.Aligned s) (hm : b.order ≤ m)
    (hsub : ∀ x, b.Covers s x → ∃ c ∈ F, c.Covers s x) :
    ∃ c ∈ F, b.order ≤ c.order ∧ c.Covers s b.base := by
  obtain ⟨a, k⟩ := b
  induction k generalizing a with
  | zero =>
    obtain ⟨c, hc, hcov⟩ := hsub a (Block.covers_base s _)
    exact ⟨c, hc, Nat.zero_le _, hcov⟩
  | succ k ih =>
    have hwhole := Block.covers_succ s a k
    obtain ⟨c₁, hc₁, hord₁, hcov₁⟩ := ih a hal.lower (Nat.le_of_succ_le hm)
      fun x hx => hsub x ((hwhole x).2 (.inl hx))
    obtain ⟨c₂, hc₂, hord₂, hcov₂⟩ := ih (a + 2 ^ (s + k)) hal.upper (Nat.le_of_succ_le hm)
      fun x hx => hsub x ((hwhole x).2 (.inr hx))
    obtain hlt₁ | heq₁ := Nat.lt_or_eq_of_le hord₁
    · exact ⟨c₁, hc₁, hlt₁, hcov₁⟩
    obtain hlt₂ | heq₂ := Nat.lt_or_eq_of_le hord₂
    · have hmid : (⟨a, k + 1⟩ : Block).Covers s (a + 2 ^ (s + k)) :=
        (hwhole _).2 (.inr (Block.covers_base s _))
      exact ⟨c₂, hc₂, hlt₂, hal.covers_of_le (hF.wf c₂ hc₂).2 hlt₂ hmid hcov₂
        (Block.covers_base s _)⟩
    · -- both halves are blocks of the family, and buddies
      have hlower : ⟨a, k⟩ = c₁ :=
        hal.lower.eq_of_order_eq (hF.wf c₁ hc₁).2 heq₁ (Block.covers_base s _) hcov₁
      have hupper : ⟨a + 2 ^ (s + k), k⟩ = c₂ :=
        hal.upper.eq_of_order_eq (hF.wf c₂ hc₂).2 heq₂ (Block.covers_base s _) hcov₂
      refine absurd ?_ (hF.noBuddies c₁ hc₁ (heq₁ ▸ hm))
      rw [← hlower, buddyOf_lower hal, hupper]
      exact hc₂

theorem subset_of_covers (hF : Packed s m F) (hG : Packed s m G)
    (h : ∀ x, (∃ b ∈ F, b.Covers s x) ↔ ∃ b ∈ G, b.Covers s x) : F ⊆ G := by
  intro b hb
  obtain ⟨hm, hal⟩ := hF.wf b hb
  obtain ⟨c, hc, hbc, hcov⟩ := hG.exists_of_covered hal hm fun x hx => (h x).1 ⟨b, hb, hx⟩
  obtain ⟨hcm, hcal⟩ := hG.wf c hc
  obtain ⟨d, hd, hcd, hdcov⟩ := hF.exists_of_covered hcal hcm fun x hx => (h x).2 ⟨c, hc, hx⟩
  -- `b` is inside `c`, which is inside a block of `F`, so inside `b`
  have hdb : d.Covers s b.base :=
    hcal.covers_of_le (hF.wf d hd).2 hcd (c.covers_base s) hdcov hcov
  obtain rfl := hF.disjoint b hb d hd _ (b.covers_base s) hdb
  rwa [hal.eq_of_order_eq hcal (Nat.le_antisymm hbc hcd) (b.covers_base s) hcov]

theorem eq_of_covers (hF : Packed s m F) (hG : Packed s m G)
    (h : ∀ x, (∃ b ∈ F, b.Covers s x) ↔ ∃ b ∈ G, b.Covers s x) : F = G :=
  Set.Subset.antisymm (hF.subset_of_covers hG h) (hG.subset_of_covers hF fun x => (h x).symm)

end Packed

end Packed

end Vahi.Lib
