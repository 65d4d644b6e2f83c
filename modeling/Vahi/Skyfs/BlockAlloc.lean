import Vahi.Skyfs.Block

/-!
# Block allocation of SkyFS

`allocate_block_inner` and `free_block` (`crates/vfs/src/skyfs/block_alloc.rs`): a scan of the
bitmap for the first clear bit. Bits of blocks behind the end of the device are set on the way.
-/

namespace Vahi.Skyfs

structure Superblock where
  totalBlocks : BitVec 64
  bitmapStart : ℕ
  bitmapBlocks : ℕ
  deriving DecidableEq

def BITS_PER_BLOCK : ℕ := 32768

namespace Block

def testBit (b : Block) (p : ℕ) : Bool := (b.byte (p / 8)).getLsbD (p % 8)

def setBit (b : Block) (p : ℕ) : Block := fun i =>
  if i.val = p / 8 then b i ||| 1#8 <<< (p % 8) else b i

def clearBit (b : Block) (p : ℕ) : Block := fun i =>
  if i.val = p / 8 then b i &&& ~~~(1#8 <<< (p % 8)) else b i

variable {p q : ℕ}

theorem getLsbD_bitMask (hsame : q / 8 = p / 8) :
    (1#8 <<< (p % 8)).getLsbD (q % 8) = decide (q = p) := by
  have hiff : q = p ↔ p % 8 = q % 8 := by omega
  change (BitVec.twoPow 8 (p % 8)).getLsbD (q % 8) = _
  rw [BitVec.getLsbD_twoPow, decide_eq_decide.2 hiff,
    decide_eq_true (Nat.mod_lt p (by decide)), Bool.true_and]

theorem byte_div_lt (hq : q < BITS_PER_BLOCK) : q / 8 < BLOCK_SIZE := by
  rw [BITS_PER_BLOCK] at hq
  rw [BLOCK_SIZE]
  omega

theorem testBit_setBit (b : Block) (hq : q < BITS_PER_BLOCK) :
    (b.setBit p).testBit q = (decide (q = p) || b.testBit q) := by
  simp only [testBit, byte, byte_div_lt hq, dif_pos, setBit]
  by_cases hsame : q / 8 = p / 8
  · rw [if_pos hsame, BitVec.getLsbD_or, getLsbD_bitMask hsame, Bool.or_comm]
  · have hqp : q ≠ p := fun h => hsame (h ▸ rfl)
    rw [if_neg hsame, decide_eq_false hqp, Bool.false_or]

theorem testBit_clearBit (b : Block) (hq : q < BITS_PER_BLOCK) :
    (b.clearBit p).testBit q = (!decide (q = p) && b.testBit q) := by
  have hlt : q % 8 < 8 := Nat.mod_lt _ (by decide)
  simp only [testBit, byte, byte_div_lt hq, dif_pos, clearBit]
  by_cases hsame : q / 8 = p / 8
  · rw [if_pos hsame, BitVec.getLsbD_and, BitVec.getLsbD_not, getLsbD_bitMask hsame, Bool.and_comm,
      decide_eq_true hlt, Bool.true_and]
  · have hqp : q ≠ p := fun h => hsame (h ▸ rfl)
    rw [if_neg hsame, decide_eq_false hqp, Bool.not_false, Bool.true_and]

theorem ext_testBit {b b' : Block} (h : ∀ q < BITS_PER_BLOCK, b.testBit q = b'.testBit q) :
    b = b' := by
  funext i
  refine BitVec.eq_of_getLsbD_eq fun k hk => ?_
  have hi := i.isLt
  have hq := h (i * 8 + k) (by rw [BITS_PER_BLOCK]; have : i.val < 4096 := hi; omega)
  have hdiv : (i.val * 8 + k) / 8 = i := by omega
  have hmod : (i.val * 8 + k) % 8 = k := by omega
  rw [testBit, testBit, hdiv, hmod, byte, byte, dif_pos hi, dif_pos hi] at hq
  exact hq

end Block

section Allocate

variable (sb : Superblock)

/-- The scan of block `b` of the bitmap, from bit `p` on over `n` bits. -/
def allocateInBlock (b : ℕ) : ℕ → ℕ → Block → Device → Option ℕ × Device
  | _, 0, _, d => (none, d)
  | p, n + 1, buf, d =>
    if buf.testBit p then allocateInBlock b (p + 1) n buf d
    else
      let buf := buf.setBit p
      let d := d.write (sb.bitmapStart + b) buf
      let block := b * BITS_PER_BLOCK + p
      if block < sb.totalBlocks.toNat then (some block, d)
      else allocateInBlock b (p + 1) n buf d

def allocateFrom : ℕ → ℕ → Device → Option ℕ × Device
  | _, 0, d => (none, d)
  | b, n + 1, d =>
    match allocateInBlock sb b 0 BITS_PER_BLOCK (d (sb.bitmapStart + b)) d with
    | (some block, d) => (some block, d)
    | (none, d) => allocateFrom (b + 1) n d

/-- The first clear bit of the bitmap, which is set on the device. -/
def allocateBlockInner (d : Device) : Option ℕ × Device := allocateFrom sb 0 sb.bitmapBlocks d

end Allocate

/-- The bit is cleared whatever it was. -/
def freeBlock (sb : Superblock) (block : ℕ) (d : Device) : Device :=
  let bitmapBlock := sb.bitmapStart + block / BITS_PER_BLOCK
  d.write bitmapBlock ((d bitmapBlock).clearBit (block % BITS_PER_BLOCK))

def Used (sb : Superblock) (d : Device) (q : ℕ) : Prop :=
  (d (sb.bitmapStart + q / BITS_PER_BLOCK)).testBit (q % BITS_PER_BLOCK) = true

/-! ## What allocation does -/

/-- What a scan that may write blocks `lo` to `hi - 1` of the bitmap does to the device. -/
structure Allocates (sb : Superblock) (lo hi : ℕ) (d d' : Device) (r : Option ℕ) : Prop where
  kept : ∀ block, block < sb.bitmapStart + lo ∨ sb.bitmapStart + hi ≤ block → d' block = d block
  grows : ∀ q, Used sb d q → Used sb d' q
  fresh : ∀ block, r = some block →
    block < sb.totalBlocks.toNat ∧ ¬ Used sb d block ∧ Used sb d' block

variable {d : Device} {p : ℕ} (sb : Superblock) {block : ℕ}

/-! ## The bitmap as one sequence of bits -/

/-- The bitmap with the bit of `block` set. -/
def markBlock (sb : Superblock) (block : ℕ) (d : Device) : Device :=
  let bitmapBlock := sb.bitmapStart + block / BITS_PER_BLOCK
  d.write bitmapBlock ((d bitmapBlock).setBit (block % BITS_PER_BLOCK))

/-- Changing one bit of the bitmap. -/
theorem used_write {sb : Superblock} {block q : ℕ} {buf : Block} {v : Bool}
    (hbuf : ∀ k < BITS_PER_BLOCK, buf.testBit k =
      if k = block % BITS_PER_BLOCK then v
      else (d (sb.bitmapStart + block / BITS_PER_BLOCK)).testBit k) :
    Used sb (d.write (sb.bitmapStart + block / BITS_PER_BLOCK) buf) q ↔
      if q = block then v = true else Used sb d q := by
  by_cases hb : q / BITS_PER_BLOCK = block / BITS_PER_BLOCK
  · have hiff : q % BITS_PER_BLOCK = block % BITS_PER_BLOCK ↔ q = block := by
      refine ⟨fun hmod => ?_, fun h => h ▸ rfl⟩
      rw [← Nat.div_add_mod q BITS_PER_BLOCK, hb, hmod, Nat.div_add_mod]
    rw [Used, Used, hb, Device.write_self, hbuf _ (Nat.mod_lt _ (by decide))]
    simp only [hiff]
    split <;> rfl
  · rw [Used, Used, Device.write_of_ne _ (fun h => hb (Nat.add_left_cancel h)),
      if_neg (mt (congrArg (· / BITS_PER_BLOCK)) hb)]

theorem used_markBlock {sb : Superblock} {block q : ℕ} :
    Used sb (markBlock sb block d) q ↔ q = block ∨ Used sb d q := by
  rw [markBlock, used_write (v := true) fun k hk => ?_]
  · by_cases hq : q = block <;> simp [hq]
  · rw [Block.testBit_setBit _ hk]
    by_cases hkp : k = block % BITS_PER_BLOCK <;> simp [hkp]

theorem used_freeBlock {sb : Superblock} {block q : ℕ} :
    Used sb (freeBlock sb block d) q ↔ q ≠ block ∧ Used sb d q := by
  rw [freeBlock, used_write (v := false) fun k hk => ?_]
  · by_cases hq : q = block <;> simp [hq]
  · rw [Block.testBit_clearBit _ hk]
    by_cases hkp : k = block % BITS_PER_BLOCK <;> simp [hkp]

theorem freeBlock_markBlock {sb : Superblock} (h : ¬ Used sb d block) :
    freeBlock sb block (markBlock sb block d) = d := by
  have hbuf : ((d (sb.bitmapStart + block / BITS_PER_BLOCK)).setBit
      (block % BITS_PER_BLOCK)).clearBit (block % BITS_PER_BLOCK) =
      d (sb.bitmapStart + block / BITS_PER_BLOCK) := by
    refine Block.ext_testBit fun q hq => ?_
    rw [Block.testBit_clearBit _ hq, Block.testBit_setBit _ hq]
    by_cases hqp : q = block % BITS_PER_BLOCK
    · rw [hqp, decide_eq_true rfl, Bool.not_true, Bool.false_and]
      exact (Bool.eq_false_iff.2 h).symm
    · rw [decide_eq_false hqp, Bool.not_false, Bool.true_and, Bool.false_or]
  rw [freeBlock, markBlock, Device.write_self, hbuf, Device.write, Device.write,
    Function.update_idem, Function.update_eq_self]

instance (sb : Superblock) (d : Device) (q : ℕ) : Decidable (Used sb d q) :=
  inferInstanceAs (Decidable (_ = true))

/-- The scan of `n` bits from `q` on. -/
def scan : ℕ → ℕ → Device → Option ℕ × Device
  | _, 0, d => (none, d)
  | q, n + 1, d =>
    if Used sb d q then scan (q + 1) n d
    else if q < sb.totalBlocks.toNat then (some q, markBlock sb q d)
    else scan (q + 1) n (markBlock sb q d)

theorem allocateInBlock_eq_scan (b : ℕ) {n : ℕ} (hn : p + n ≤ BITS_PER_BLOCK) (d : Device) :
    allocateInBlock sb b p n (d (sb.bitmapStart + b)) d = scan sb (b * BITS_PER_BLOCK + p) n d := by
  induction n generalizing p d with
  | zero => rfl
  | succ n ih =>
    have hdiv : (b * BITS_PER_BLOCK + p) / BITS_PER_BLOCK = b ∧
        (b * BITS_PER_BLOCK + p) % BITS_PER_BLOCK = p := by
      rw [BITS_PER_BLOCK] at hn ⊢
      omega
    have hrest := ih (p := p + 1) (by omega)
      (d.write (sb.bitmapStart + b) ((d (sb.bitmapStart + b)).setBit p))
    rw [Device.write_self] at hrest
    simp only [allocateInBlock, scan, Used, markBlock, hdiv, hrest, ih (p := p + 1) (by omega) d,
      Nat.add_assoc]

theorem scan_add (q m n : ℕ) (d : Device) :
    scan sb q (m + n) d =
      match scan sb q m d with
      | (some block, d') => (some block, d')
      | (none, d') => scan sb (q + m) n d' := by
  induction m generalizing q d with
  | zero => rw [Nat.zero_add]; rfl
  | succ m ih =>
    rw [Nat.succ_add, scan, scan, show q + (m + 1) = q + 1 + m by omega]
    split
    · exact ih (q + 1) d
    · split
      · rfl
      · exact ih (q + 1) (markBlock sb q d)

theorem allocateFrom_eq_scan (b n : ℕ) (d : Device) :
    allocateFrom sb b n d = scan sb (b * BITS_PER_BLOCK) (n * BITS_PER_BLOCK) d := by
  induction n generalizing b d with
  | zero =>
    rw [Nat.zero_mul]
    rfl
  | succ n ih =>
    rw [allocateFrom, allocateInBlock_eq_scan sb b (Nat.le_of_eq (Nat.zero_add _)), Nat.succ_mul,
      Nat.add_comm (n * _), scan_add, Nat.add_zero, ← Nat.succ_mul]
    rcases scan sb (b * BITS_PER_BLOCK) BITS_PER_BLOCK d with ⟨_ | block, d'⟩
    · exact ih (b + 1) d'
    · rfl

/-- The outcome of a scan of the bits `lo` to `hi - 1`. Only a scan past the last block of the
device changes a bit that it does not return. -/
structure FirstFit (sb : Superblock) (lo hi : ℕ) (d d' : Device) (r : Option ℕ) : Prop where
  kept : ∀ k, (∀ q, lo ≤ q → q < hi → k ≠ sb.bitmapStart + q / BITS_PER_BLOCK) → d' k = d k
  grows : ∀ q, Used sb d q → Used sb d' q
  found : ∀ block, r = some block → lo ≤ block ∧ block < sb.totalBlocks.toNat ∧
    ¬ Used sb d block ∧ (∀ q, lo ≤ q → q < block → Used sb d q) ∧ d' = markBlock sb block d
  full : r = none → ∀ q, lo ≤ q → q < hi → q < sb.totalBlocks.toNat → Used sb d q

theorem scan_firstFit (q n : ℕ) (d : Device) :
    FirstFit sb q (q + n) d (scan sb q n d).2 (scan sb q n d).1 := by
  induction n generalizing q d with
  | zero => exact ⟨fun _ _ => rfl, fun _ h => h, fun _ h => (by cases h), fun _ _ _ _ => by omega⟩
  | succ n ih =>
    have hmark : ∀ k, (∀ j, q ≤ j → j < q + (n + 1) → k ≠ sb.bitmapStart + j / BITS_PER_BLOCK) →
        markBlock sb q d k = d k :=
      fun k hk => Device.write_of_ne _ (hk q (Nat.le_refl q) (by omega)) _
    rw [scan]
    split
    · rename_i hused
      have hrest := ih (q + 1) d
      have hused' : ∀ j, q ≤ j → (q + 1 ≤ j → Used sb d j) → Used sb d j := fun j hj h => by
        obtain rfl | hlt := Nat.eq_or_lt_of_le hj
        · exact hused
        · exact h hlt
      refine ⟨fun k hk => hrest.kept k fun j hj hj' => hk j (by omega) (by omega), hrest.grows,
        fun block h => ?_, fun h j hj hj' hlt => hused' j hj fun hj => ?_⟩
      · obtain ⟨hlo, hlt, hclear, hbelow, hd'⟩ := hrest.found block h
        exact ⟨by omega, hlt, hclear, fun j hj hjb => hused' j hj fun hj => hbelow j hj hjb, hd'⟩
      · exact hrest.full h j hj (by omega) hlt
    · rename_i hclear
      split
      · rename_i hlt
        refine ⟨hmark, fun j hj => used_markBlock.2 (.inr hj), ?_, fun h => by cases h⟩
        rintro block ⟨⟩
        exact ⟨Nat.le_refl q, hlt, hclear, fun j hj hjq => by omega, rfl⟩
      · -- the bit belongs to no block of the device, and the scan goes on without success
        have hrest := ih (q + 1) (markBlock sb q d)
        refine ⟨fun k hk => ?_, fun j hj => hrest.grows j (used_markBlock.2 (.inr hj)),
          fun block h => ?_, fun _ j _ _ _ => by omega⟩
        · rw [hrest.kept k fun j hj hj' => hk j (by omega) (by omega), hmark k hk]
        · obtain ⟨hlo, hlt, -⟩ := hrest.found block h
          omega

theorem allocateBlockInner_firstFit (d : Device) :
    FirstFit sb 0 (sb.bitmapBlocks * BITS_PER_BLOCK) d (allocateBlockInner sb d).2
      (allocateBlockInner sb d).1 := by
  have h := scan_firstFit sb 0 (sb.bitmapBlocks * BITS_PER_BLOCK) d
  rw [allocateBlockInner, allocateFrom_eq_scan, Nat.zero_mul]
  rwa [Nat.zero_add] at h

theorem allocateBlockInner_spec (d : Device) :
    Allocates sb 0 sb.bitmapBlocks d (allocateBlockInner sb d).2 (allocateBlockInner sb d).1 := by
  have h := allocateBlockInner_firstFit sb d
  refine ⟨fun k hk => h.kept k fun q _ hq => ?_, h.grows, fun block hr => ?_⟩
  · have hdiv : q / BITS_PER_BLOCK < sb.bitmapBlocks := Nat.div_lt_of_lt_mul (by rwa [Nat.mul_comm])
    generalize q / BITS_PER_BLOCK = b at hdiv
    omega
  · obtain ⟨-, hlt, hclear, -, hd'⟩ := h.found block hr
    exact ⟨hlt, hclear, hd' ▸ used_markBlock.2 (.inl rfl)⟩

variable {sb}

inductive BlockOp where
  | allocate
  | free (block : ℕ)
  deriving DecidableEq

def BlockOp.apply (sb : Superblock) (d : Device) : BlockOp → Device
  | .allocate => (allocateBlockInner sb d).2
  | .free block => freeBlock sb block d

/-- A block stays in use until it is freed. -/
theorem used_run {ops : List BlockOp} (hops : .free block ∉ ops)
    (h : Used sb d block) : Used sb (ops.foldl (BlockOp.apply sb) d) block := by
  induction ops generalizing d with
  | nil => exact h
  | cons op ops ih =>
    obtain ⟨hop, hops⟩ := not_or.1 (mt List.mem_cons.2 hops)
    refine ih hops ?_
    cases op with
    | allocate => exact (allocateBlockInner_spec sb d).grows block h
    | free other => exact used_freeBlock.2 ⟨fun heq => hop (heq ▸ rfl), h⟩

/-- For every superblock whose bitmap covers the device and every content of the bitmap: a block
that is allocated is the lowest one that is not in use, only its bit changes, it is not allocated
again in any run that does not free it, and freeing it restores the device; without such a block
all are in use. Blocks outside of the bitmap are not written. -/
theorem allocateBlockInner_lowest {sb : Superblock}
    (hcover : sb.totalBlocks.toNat ≤ sb.bitmapBlocks * BITS_PER_BLOCK) (d : Device) :
    (∀ block d', allocateBlockInner sb d = (some block, d') →
      block < sb.totalBlocks.toNat ∧ ¬ Used sb d block ∧ (∀ q < block, Used sb d q) ∧
      (∀ q, Used sb d' q ↔ q = block ∨ Used sb d q) ∧ freeBlock sb block d' = d ∧
      ∀ ops : List BlockOp, .free block ∉ ops →
        (allocateBlockInner sb (ops.foldl (BlockOp.apply sb) d')).1 ≠ some block) ∧
    ((allocateBlockInner sb d).1 = none → ∀ q < sb.totalBlocks.toNat, Used sb d q) ∧
    (∀ k, k < sb.bitmapStart ∨ sb.bitmapStart + sb.bitmapBlocks ≤ k →
      (allocateBlockInner sb d).2 k = d k ∧
      ∀ block < sb.totalBlocks.toNat, freeBlock sb block d k = d k) := by
  have hfit := allocateBlockInner_firstFit sb d
  refine ⟨fun block d' h => ?_, fun h q hq => ?_, fun k hk => ⟨?_, fun block hblock => ?_⟩⟩
  · rw [h] at hfit
    obtain ⟨-, hlt, hclear, hbelow, rfl⟩ := hfit.found block rfl
    refine ⟨hlt, hclear, fun q => hbelow q (Nat.zero_le q), fun q => used_markBlock,
      freeBlock_markBlock hclear, fun ops hops hagain => ?_⟩
    exact ((allocateBlockInner_spec sb _).fresh block hagain).2.1
      (used_run hops (used_markBlock.2 (.inl rfl)))
  · exact hfit.full h q (Nat.zero_le q) (by omega) hq
  · exact (allocateBlockInner_spec sb d).kept k hk
  · refine Device.write_of_ne _ ?_ _
    have hdiv : block / BITS_PER_BLOCK < sb.bitmapBlocks := Nat.div_lt_of_lt_mul (by
      rw [Nat.mul_comm]
      omega)
    generalize block / BITS_PER_BLOCK = b at hdiv
    omega

def smallSuperblock : Superblock := ⟨16, 1, 1⟩

/-- Blocks 0, 1 and 3 are in use. -/
def smallDevice : Device := fun b => if b = 1 then Block.ofSlice [0b1011] else Block.zero

theorem allocateBlockInner_lowest_small :
    ∃ d', allocateBlockInner smallSuperblock smallDevice = (some 2, d') ∧
      freeBlock smallSuperblock 2 d' = smallDevice :=
  ⟨_, rfl, ((allocateBlockInner_lowest (by decide) smallDevice).1 2 _ rfl).2.2.2.2.1⟩

end Vahi.Skyfs
