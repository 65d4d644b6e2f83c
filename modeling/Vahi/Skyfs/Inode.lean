import Vahi.Skyfs.BlockAlloc
import Vahi.Skyfs.Journal

/-!
# Inodes of SkyFS

Inodes on the device (`crates/vfs/src/skyfs/mod.rs` and `inode.rs`). `SkyfsInode` has 318 bytes, but
its slot 256. Writing one changes its slot and the journal. A function returns nothing if the code
returns an error or does not return; what it did to the device before that is not kept.
-/

namespace Vahi.Skyfs

open List
open Device (write_of_ne write_self)

def INODE_SIZE : ℕ := 256

/-- The bytes of a packed inode, and of what a read of it picks up behind. -/
abbrev SkyfsInode := ℕ → BitVec 8

/-- What is stored of the inodes is the same. -/
def Agree (n n' : SkyfsInode) : Prop := ∀ i < INODE_SIZE, n i = n' i

theorem Agree.refl (n : SkyfsInode) : Agree n n := fun _ _ => rfl

/-- All 318 bytes are the same. -/
def Same (n n' : SkyfsInode) : Prop := ∀ i < 318, n i = n' i

/-- What the code reads, but nothing in it determines. -/
structure Env where
  /-- What lies behind a buffer of one block. -/
  behind : ℕ → BitVec 8
  /-- What `core::str::from_utf8` accepts. -/
  utf8 : List (BitVec 8) → Bool

/-- The mounted file system with its device. -/
structure SkyFs where
  dev : Device
  blocks : ℕ
  sb : Superblock
  inodeStart : ℕ
  inodeCount : ℕ
  journal : Journal

/-! ### Blocks -/

/-- The block that the number of its first sector, which wraps, gives. -/
def deviceBlock (block : ℕ) : ℕ := block % 2 ^ 61

def writeAt (blocks : ℕ) (d : Device) (block : ℕ) (data : Block) : Option Device :=
  if deviceBlock block < blocks then some (d.write (deviceBlock block) data) else none

namespace SkyFs

def readBlock (fs : SkyFs) (block : ℕ) : Option Block :=
  if deviceBlock block < fs.blocks then some (fs.dev (deviceBlock block)) else none

def writeBlock (fs : SkyFs) (block : ℕ) (data : Block) : Option SkyFs :=
  (writeAt fs.blocks fs.dev block data).map fun dev => { fs with dev }

end SkyFs

/-! ### Inodes -/

/-- The block with the slot `offset` overwritten by the stored part of an inode. -/
def Block.setSlot (b : Block) (offset : ℕ) (n : SkyfsInode) : Block := fun i =>
  if offset ≤ i ∧ i < offset + INODE_SIZE then n (i - offset) else b i

def Block.inode (env : Env) (b : Block) (offset : ℕ) : SkyfsInode := fun i =>
  if offset + i < BLOCK_SIZE then b.byte (offset + i) else env.behind (offset + i - BLOCK_SIZE)

namespace SkyFs

variable (fs : SkyFs)

def inodeBlock (ino : ℕ) : ℕ :=
  (fs.inodeStart + ino * INODE_SIZE % 2 ^ 64 / BLOCK_SIZE) % 2 ^ 64

def inodeOffset (ino : ℕ) : ℕ := ino * INODE_SIZE % 2 ^ 64 % BLOCK_SIZE

/-- The structure is longer than its slot and is read past it. -/
def readInodeInner (env : Env) (fs : SkyFs) (ino : ℕ) : Option SkyfsInode := do
  let buf ← fs.readBlock (fs.inodeBlock ino)
  return buf.inode env (inodeOffset ino)

/-- The new block is journaled, then written in place, then committed. -/
def writeInodeInner (ino : ℕ) (n : SkyfsInode) : Option SkyFs := do
  let old ← fs.readBlock (fs.inodeBlock ino)
  let buf := old.setSlot (inodeOffset ino) n
  let (hdr, journal, header) := fs.journal.beginTransaction
  let fs ← { fs with journal }.writeBlock hdr header
  let (journal, data, header) ← fs.journal.journalData fs.dev hdr (fs.inodeBlock ino) (List.ofFn buf)
  let fs ← { fs with journal }.writeBlock data.1 data.2
  let fs ← fs.writeBlock header.1 header.2
  let fs ← fs.writeBlock (fs.inodeBlock ino) buf
  fs.writeBlock hdr (Journal.commitTransaction (fs.dev (deviceBlock hdr)))

end SkyFs

variable {fs fs' : SkyFs} {dataStart : ℕ} {n : SkyfsInode} {env : Env}

/-! ### Where things are -/

/-- Journal, bitmap and inodes are where `format` puts them, before the data, and the device is not
too large for the numbers of its sectors. -/
structure Layout (fs : SkyFs) (dataStart : ℕ) : Prop where
  journalStart : fs.journal.startBlock = 1
  journalBlocks : fs.journal.numBlocks = 64
  bitmapStart : fs.sb.bitmapStart = 65
  bitmapBlocks : fs.blocks ≤ fs.sb.bitmapBlocks * BITS_PER_BLOCK
  inodeStart : fs.inodeStart = 65 + fs.sb.bitmapBlocks
  inodeCount : fs.inodeCount ≤ 65536
  inodeBlocks : fs.inodeStart + (fs.inodeCount + 15) / 16 ≤ dataStart
  dataStart_le : dataStart ≤ fs.blocks
  total : fs.sb.totalBlocks.toNat = fs.blocks
  small : fs.blocks < 2 ^ 61

def SkyFs.withDev (fs : SkyFs) (dev : Device) : SkyFs := { fs with dev }

open SkyFs

theorem Layout.withDev (h : Layout fs dataStart) (dev : Device) :
    Layout (fs.withDev dev) dataStart := by
  cases h
  constructor <;> assumption

section Blocks

variable (h : Layout fs dataStart) {b : ℕ}

include h

theorem Layout.deviceBlock (hb : b < fs.blocks) : deviceBlock b = b :=
  Nat.mod_eq_of_lt (hb.trans h.small)

theorem Layout.readBlock (hb : b < fs.blocks) : fs.readBlock b = some (fs.dev b) := by
  rw [SkyFs.readBlock, h.deviceBlock hb, if_pos hb]

theorem Layout.writeBlock (hb : b < fs.blocks) (data : Block) :
    fs.writeBlock b data = some (fs.withDev (fs.dev.write b data)) := by
  rw [SkyFs.writeBlock, writeAt, h.deviceBlock hb, if_pos hb]
  rfl

end Blocks

/-! ### Inodes on the device -/

def SkyFs.inodeAt (env : Env) (fs : SkyFs) (ino : ℕ) : SkyfsInode :=
  (fs.dev (fs.inodeStart + ino / 16)).inode env (ino % 16 * INODE_SIZE)

/-- What is read after a slot was written: in the slot, the first bytes of the inode. -/
theorem inode_setSlot (env : Env) (b : Block) {slot : ℕ} (slot' : ℕ) (n : SkyfsInode) (h : slot < 16)
    (i : ℕ) : (b.setSlot (slot * INODE_SIZE) n).inode env (slot' * INODE_SIZE) i =
      if slot * INODE_SIZE ≤ slot' * INODE_SIZE + i ∧
          slot' * INODE_SIZE + i < slot * INODE_SIZE + INODE_SIZE then
        n (slot' * INODE_SIZE + i - slot * INODE_SIZE)
      else b.inode env (slot' * INODE_SIZE) i := by
  rw [Block.inode, Block.inode]
  by_cases hlt : slot' * INODE_SIZE + i < BLOCK_SIZE
  · rw [if_pos hlt, if_pos hlt, Block.byte, Block.byte, dif_pos hlt, dif_pos hlt]
    rfl
  · rw [if_neg hlt, if_neg hlt, if_neg]
    rw [INODE_SIZE, BLOCK_SIZE] at *
    omega

theorem agree_setSlot_self (env : Env) (b : Block) (slot : ℕ) (n : SkyfsInode) (h : slot < 16) :
    Agree n ((b.setSlot (slot * INODE_SIZE) n).inode env (slot * INODE_SIZE)) := by
  intro i hi
  rw [inode_setSlot env b slot n h, if_pos (by omega), Nat.add_sub_cancel_left]

theorem agree_setSlot_of_ne (env : Env) (b : Block) {slot slot' : ℕ} (n : SkyfsInode)
    (hne : slot' ≠ slot) (h : slot < 16) :
    Agree (b.inode env (slot' * INODE_SIZE))
      ((b.setSlot (slot * INODE_SIZE) n).inode env (slot' * INODE_SIZE)) := by
  intro i hi
  rw [inode_setSlot env b slot' n h, if_neg]
  rw [INODE_SIZE] at *
  omega

section Inodes

variable {ino : ℕ}

structure Rewrites (env : Env) (fs fs' : SkyFs) (ino : ℕ) (n : SkyfsInode) : Prop where
  kept : ∀ b, 65 ≤ b → b ≠ fs.inodeStart + ino / 16 → fs'.dev b = fs.dev b
  self : Agree n (fs'.inodeAt env ino)
  other : ∀ ino' ≠ ino, Agree (fs.inodeAt env ino') (fs'.inodeAt env ino')

theorem exists_bind {α β : Type*} {x : Option α} {a : α} {f : α → Option β} {P : β → Prop}
    (hx : x = some a) (h : ∃ b, f a = some b ∧ P b) : ∃ b, x.bind f = some b ∧ P b := by
  rw [hx]
  exact h

/-- What follows a slot is not written with it. -/
theorem same_setSlot_self (env : Env) (b : Block) {slot : ℕ} (n : SkyfsInode) (h : slot < 16) :
    Same n ((b.setSlot (slot * INODE_SIZE) n).inode env (slot * INODE_SIZE)) ↔
      ∀ i < 318, INODE_SIZE ≤ i → n i = b.inode env (slot * INODE_SIZE) i := by
  refine forall₂_congr fun i _ => ?_
  rw [inode_setSlot env b slot n h]
  by_cases hlt : i < INODE_SIZE
  · rw [if_pos (by omega), Nat.add_sub_cancel_left]
    exact iff_of_true rfl fun hle => by omega
  · rw [if_neg (by omega)]
    exact ⟨fun heq _ => heq, fun heq => heq (Nat.le_of_not_lt hlt)⟩

/-- A read of a slot ends in the next one. -/
theorem same_setSlot_of_ne (env : Env) (b : Block) {slot slot' : ℕ} (n : SkyfsInode)
    (hne : slot' ≠ slot) (h : slot < 16) : Same (b.inode env (slot' * INODE_SIZE))
      ((b.setSlot (slot * INODE_SIZE) n).inode env (slot' * INODE_SIZE)) ↔ (slot' + 1 = slot →
        ∀ i < 318, INODE_SIZE ≤ i → b.inode env (slot' * INODE_SIZE) i = n (i - INODE_SIZE)) := by
  have hread := inode_setSlot env b slot' n h
  constructor
  · rintro hsame rfl i hi hle
    rw [hsame i hi, hread, if_pos (by rw [INODE_SIZE] at *; omega), Nat.succ_mul, Nat.add_sub_add_left]
  · intro hnext i hi
    rw [hread]
    split
    · obtain rfl : slot' + 1 = slot := by rw [INODE_SIZE] at *; omega
      rw [hnext rfl i hi (by rw [INODE_SIZE] at *; omega), Nat.succ_mul, Nat.add_sub_add_left]
    · rfl

variable (hlay : Layout fs dataStart)

include hlay

/-- The inode block with another slot, and anything in the journal. -/
theorem rewrites_of_setSlot (hstart : fs'.inodeStart = fs.inodeStart)
    (hkept : ∀ b, 65 ≤ b → b ≠ fs.inodeStart + ino / 16 → fs'.dev b = fs.dev b)
    (hslot : fs'.dev (fs.inodeStart + ino / 16) =
      (fs.dev (fs.inodeStart + ino / 16)).setSlot (ino % 16 * INODE_SIZE) n) :
    Rewrites env fs fs' ino n := by
  have hinode := hlay.inodeStart
  refine ⟨hkept, ?_, fun ino' hne => ?_⟩
  · rw [inodeAt, hstart, hslot]
    exact agree_setSlot_self env _ _ n (Nat.mod_lt _ (by decide))
  · rw [inodeAt, inodeAt, hstart]
    by_cases hblock : ino' / 16 = ino / 16
    · rw [hblock, hslot]
      exact agree_setSlot_of_ne env _ n (by omega) (Nat.mod_lt _ (by decide))
    · rw [hkept _ (by omega) (by omega)]
      exact Agree.refl _

theorem Layout.withJournal {journal : Journal} (hstart : journal.startBlock = 1) (hblocks : journal.numBlocks = 64) :
    Layout { fs with journal } dataStart := by
  cases hlay
  constructor <;> assumption

/-- The header of a transaction has a block behind it in the journal. -/
theorem Layout.beginTransaction : ∃ free ≤ 62, ∃ journal header,
    fs.journal.beginTransaction = (1 + free, journal, header) ∧ journal.startBlock = 1 ∧
      journal.numBlocks = 64 ∧ journal.nextFree = free + 1 := by
  have hstart := hlay.journalStart
  have hblocks := hlay.journalBlocks
  refine ⟨if fs.journal.numBlocks ≤ fs.journal.nextFree + 1 then 1 else fs.journal.nextFree,
    ?_, fs.journal.beginTransaction.2.1, fs.journal.beginTransaction.2.2, ?_, hstart, hblocks, rfl⟩
  · split <;> omega
  · rw [Journal.beginTransaction, hstart]

variable (hino : ino < fs.inodeCount)

include hino

theorem Layout.inode_lt : fs.inodeStart + ino / 16 < dataStart := by
  have := hlay.inodeBlocks
  omega

theorem Layout.inodeBlock : fs.inodeBlock ino = fs.inodeStart + ino / 16 ∧
      inodeOffset ino = ino % 16 * INODE_SIZE := by
  have hlt := hlay.inode_lt hino
  have hle := hlay.dataStart_le
  have hsmall := hlay.small
  have hcount := hlay.inodeCount
  rw [SkyFs.inodeBlock, SkyFs.inodeOffset, INODE_SIZE, BLOCK_SIZE]
  omega

theorem Layout.readInodeInner :
    fs.readInodeInner env ino = some (fs.inodeAt env ino) := by
  have hlt := hlay.inode_lt hino
  have hle := hlay.dataStart_le
  rw [SkyFs.readInodeInner, (hlay.inodeBlock hino).1, (hlay.inodeBlock hino).2,
    hlay.readBlock (by omega)]
  rfl

/-- The journal always has room for one inode. -/
theorem exists_setSlot (n : SkyfsInode) :
    ∃ fs', fs.writeInodeInner ino n = some fs' ∧ Layout fs' dataStart ∧
      fs' = { fs.withDev fs'.dev with journal := fs'.journal } ∧
      (∀ b, 65 ≤ b → b ≠ fs.inodeStart + ino / 16 → fs'.dev b = fs.dev b) ∧
      fs'.dev (fs.inodeStart + ino / 16) =
        (fs.dev (fs.inodeStart + ino / 16)).setSlot (ino % 16 * INODE_SIZE) n := by
  have hlt := hlay.inode_lt hino
  have hle := hlay.dataStart_le
  have hinode := hlay.inodeStart
  obtain ⟨hblock, hoffset⟩ := hlay.inodeBlock hino
  obtain ⟨free, hfree, journal, header, hbegin, hstart, hnum, hnext⟩ := hlay.beginTransaction
  have hlay₁ : Layout { fs with journal } dataStart := hlay.withJournal hstart hnum
  have hlay₂ : Layout { fs with journal := { journal with nextFree := journal.nextFree + 1 } }
    dataStart := hlay.withJournal hstart hnum
  have hroom : ¬ journal.numBlocks ≤ journal.nextFree := by omega
  have hnextBlock : journal.startBlock + journal.nextFree < fs.blocks := by omega
  have hhdr : 1 + free < fs.blocks := by omega
  have hslot : fs.inodeBlock ino < fs.blocks := by omega
  rw [writeInodeInner, hbegin]
  refine exists_bind (hlay.readBlock hslot) ?_
  refine exists_bind (hlay₁.writeBlock hhdr header) ?_
  refine exists_bind (if_neg hroom) ?_
  refine exists_bind ((hlay₂.withDev _).writeBlock hnextBlock _) ?_
  refine exists_bind ((hlay₂.withDev _).writeBlock hhdr _) ?_
  refine exists_bind ((hlay₂.withDev _).writeBlock hslot _) ?_
  refine ⟨_, (hlay₂.withDev _).writeBlock hhdr _, hlay₂.withDev _, rfl, ?_, ?_⟩
  · intro b hb hne
    change Device.write (Device.write (Device.write (Device.write (Device.write fs.dev (1 + free) _)
      (journal.startBlock + journal.nextFree) _) (1 + free) _) (fs.inodeBlock ino) _) (1 + free) _ b = _
    rw [write_of_ne _ (by omega), write_of_ne _ (by omega),
      write_of_ne _ (by omega), write_of_ne _ (by omega),
      write_of_ne _ (by omega)]
  · change Device.write (Device.write _ (fs.inodeBlock ino) _) (1 + free) _ _ = _
    rw [write_of_ne _ (by omega), hblock, write_self, hoffset]

end Inodes

/-- An inode has 318 bytes, its slot 256. For every inode and number the write succeeds and what is
stored of an inode is read back, that of all others as before. All of the inode is read back exactly
if its last 62 bytes are what follows the slot; another one is read as before exactly if it is not in
the slot before, or the first 62 bytes of that slot do not change. -/
theorem writeInodeInner_roundTrip {ino : ℕ} (env : Env) (hlay : Layout fs dataStart)
    (hino : ino < fs.inodeCount) (n : SkyfsInode) : ∃ fs', fs.writeInodeInner ino n = some fs' ∧
      (∃ n', fs'.readInodeInner env ino = some n' ∧ Agree n n' ∧
        (Same n n' ↔ ∀ i < 318, INODE_SIZE ≤ i → n i = fs.inodeAt env ino i)) ∧
      ∀ ino' < fs.inodeCount, ino' ≠ ino → ∃ n₀ n₁, fs.readInodeInner env ino' = some n₀ ∧
        fs'.readInodeInner env ino' = some n₁ ∧ Agree n₀ n₁ ∧ (Same n₀ n₁ ↔
          (ino' + 1 = ino → ino % 16 ≠ 0 → ∀ i < 318, INODE_SIZE ≤ i → n₀ i = n (i - INODE_SIZE))) := by
  obtain ⟨fs', hwrite, hlay', heq, hkept, hslot⟩ := exists_setSlot hlay hino n
  have hstart : fs'.inodeStart = fs.inodeStart := heq ▸ rfl
  have hcount : fs'.inodeCount = fs.inodeCount := heq ▸ rfl
  have hlt : ino % 16 < 16 := Nat.mod_lt _ (by decide)
  have hrewrites : Rewrites env fs fs' ino n := rewrites_of_setSlot hlay hstart hkept hslot
  refine ⟨fs', hwrite, ⟨_, hlay'.readInodeInner (hcount ▸ hino), hrewrites.self, ?_⟩,
    fun ino' hino' hne => ⟨_, _, hlay.readInodeInner hino', hlay'.readInodeInner (hcount ▸ hino'),
      hrewrites.other ino' hne, ?_⟩⟩
  · rw [inodeAt, inodeAt, hstart, hslot]
    exact same_setSlot_self env _ n hlt
  · rw [inodeAt, inodeAt, hstart]
    by_cases hblock : ino' / 16 = ino / 16
    · have hnext : ino' % 16 + 1 = ino % 16 ↔ ino' + 1 = ino ∧ ino % 16 ≠ 0 := by omega
      rw [hblock, hslot, same_setSlot_of_ne env _ n (by omega) hlt, hnext, and_imp]
    · have hinode := hlay.inodeStart
      rw [hkept _ (by omega) (by omega)]
      exact iff_of_true (fun _ _ => rfl) fun _ _ => by omega

/-! ### A small device -/

def smallEnv : Env := ⟨fun _ => 0, fun _ => true⟩

def blank : Device := fun _ => Block.zero

def blankFs : SkyFs := ⟨blank, 128, ⟨128, 65, 1⟩, 66, 32, ⟨1, 64, 0, 1⟩⟩

theorem layout_blankFs : Layout blankFs 68 := by
  constructor <;> decide

/-- An inode of as many bytes as its slot has. -/
def shortInode : SkyfsInode := fun i => if i < INODE_SIZE then BitVec.ofNat 8 (i + 1) else 0

theorem writeInodeInner_roundTrip_short : ∃ fs' n',
    blankFs.writeInodeInner 2 shortInode = some fs' ∧
      fs'.readInodeInner smallEnv 2 = some n' ∧ Same shortInode n' := by
  obtain ⟨fs', hwrite, ⟨n', hread, -, hsame⟩, -⟩ :=
    writeInodeInner_roundTrip smallEnv layout_blankFs (show 2 < 32 by decide) shortInode
  refine ⟨fs', n', hwrite, hread, hsame.mpr fun i _ hi => ?_⟩
  rw [shortInode, if_neg (Nat.not_lt.mpr hi), inodeAt, Block.inode, Block.byte]
  split_ifs <;> rfl

/-- Inode 2 loses its byte 256, and inode 1 reads the first byte of inode 2 there. -/
theorem writeInodeInner_ones : (blankFs.writeInodeInner 2 fun _ => 1).map (fun fs' =>
    ((fs'.readInodeInner smallEnv 2).map (· 256), (blankFs.readInodeInner smallEnv 1).map (· 256),
      (fs'.readInodeInner smallEnv 1).map (· 256))) = some (some 0, some 0, some 1) := by
  obtain ⟨fs', hwrite, hlay, heq, -, hslot⟩ :=
    exists_setSlot layout_blankFs (show 2 < 32 by decide) fun _ => 1
  have hcount : fs'.inodeCount = 32 := heq ▸ rfl
  have hstart : fs'.inodeStart = 66 := heq ▸ rfl
  change fs'.dev 66 = _ at hslot
  rw [hwrite, Option.map_some, hlay.readInodeInner (show 2 < _ by omega),
    hlay.readInodeInner (show 1 < _ by omega), inodeAt, inodeAt, hstart, hslot]
  decide

end Vahi.Skyfs
