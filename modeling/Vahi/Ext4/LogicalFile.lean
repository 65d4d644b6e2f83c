import Mathlib.Data.BitVec
import Vahi.Ext4.Reader
import Vahi.Lib.Extents

/-!
# Logical files of an ext4 image

What a file on an ext4 image is, and when `read` returns it. The reader does not look at where an
extent lies in the file, reads extents that are not written, and drops those of 32768 blocks.
-/

namespace Vahi.Ext4

open Vahi.Lib Vahi.Lib.Extents Vahi.Vfs List

/-! ### The image -/

/-- What an entry means: lengths above 32768 mark an extent as not written. -/
def RawExtent.extent (e : RawExtent) : Extent where
  block := e.eeBlock
  len := if e.eeLen ≤ 32768 then e.eeLen else e.eeLen - 32768
  start := e.eeStart
  written := e.eeLen ≤ 32768

open RawExtent

def fileSize (raw : List (BitVec 8)) : ℕ := leAt raw 108 4 * 2 ^ 32 + leAt raw 4 4

namespace Ext4FileSystem

variable (fs : Ext4FileSystem)

def OnDevice (block : ℕ) : Prop := (block + 1) * fs.blockSize ≤ fs.device.sectors * 512

instance (block : ℕ) : Decidable (fs.OnDevice block) := inferInstanceAs (Decidable (_ ≤ _))

structure NodeOk (depth : ℕ) (data : List (BitVec 8)) : Prop where
  magic : (extentHeader data).ehMagic = EXT4_EXTENT_MAGIC
  depth : (extentHeader data).ehDepth = depth
  entries : 12 + 12 * (extentHeader data).ehEntries ≤ data.length

def ExtentTree : ℕ → List (BitVec 8) → List RawExtent → Prop
  | 0, data, extents => NodeOk 0 data ∧ extents = leafEntries data
  | depth + 1, data, extents => NodeOk (depth + 1) data ∧
      ∃ leaves, extents = leaves.flatten ∧
        List.Forall₂ (fun child extents => fs.OnDevice child ∧
          ExtentTree depth (fs.device.slice (child * fs.blockSize) fs.blockSize) extents)
          (indexEntries data) leaves

def groupDescAddr (group : ℕ) : ℕ := fs.gdtBlock * fs.blockSize + group * fs.descSize

def inodeTable (group : ℕ) : ℕ :=
  fs.device.number (fs.groupDescAddr group + 8) 4 +
    if 64 ≤ fs.descSize then fs.device.number (fs.groupDescAddr group + 40) 4 * 2 ^ 32 else 0

def inodeAddr (inodeNum : ℕ) : ℕ :=
  fs.inodeTable ((inodeNum - 1) / fs.inodesPerGroup) * fs.blockSize +
    (inodeNum - 1) % fs.inodesPerGroup * fs.inodeSize

/-- The sizes of a mounted file system: powers of two, and descriptors of 32 or 64 bytes or more
in each block of their table. -/
structure Mounted : Prop where
  blockSize : ∃ k, fs.blockSize = 1024 * 2 ^ k
  inodeSize : ∃ k, fs.inodeSize = 128 * 2 ^ k
  descSize : ∃ k, fs.descSize = 32 * 2 ^ k
  descFits : fs.descSize ≤ fs.blockSize
  inodesPerGroup : 0 < fs.inodesPerGroup

/-- A regular file with its inode and the entries of its extent tree. The size is a file offset,
and the extents are in order, do not overlap and lie on the device. -/
structure RegularFile (inodeNum : ℕ) (raw : List (BitVec 8)) (extents : List RawExtent) : Prop where
  pos : 0 < inodeNum
  groupDesc : fs.OnDevice (fs.gdtBlock + (inodeNum - 1) / fs.inodesPerGroup / fs.gdtEntryCount)
  inode : fs.inodeAddr inodeNum + fs.inodeSize ≤ fs.device.sectors * 512
  bytes : raw = fs.device.slice (fs.inodeAddr inodeNum) fs.inodeSize
  regular : inodeMode raw &&& 0xF000 = 0x8000
  size : fileSize raw < 2 ^ 63
  hasExtents : inodeFlags raw &&& EXT4_INODE_FLAG_EXTENTS ≠ 0
  tree : fs.ExtentTree (extentHeader ((raw.drop 40).take 60)).ehDepth ((raw.drop 40).take 60) extents
  nonempty : ∀ e ∈ extents, 0 < e.extent.len
  sorted : (extents.map extent).Pairwise fun e e' => e.block + e.len ≤ e'.block
  onDevice : ∀ e ∈ extents, ∀ i < e.extent.len, fs.OnDevice (e.extent.start + i)

/-- What a read of a file should return. -/
def logicalFile (raw : List (BitVec 8)) (extents : List RawExtent) (maxLen : ℕ) :
    List (BitVec 8) :=
  contents fs.blockSize fs.device.byte (extents.map extent) (min (fileSize raw) maxLen)

/-- The blocks that the reader goes through. -/
def blocksRead (extents : List RawExtent) : List ℕ :=
  (extents.filterMap collect).flatMap fun e => List.range' e.1 e.2.2

/-- The bytes that the reader puts together, on a device with the given data. -/
def gathered (device : ℕ → BitVec 8) (raw : List (BitVec 8)) (extents : List RawExtent) :
    List (BitVec 8) :=
  ((blocksRead extents).flatMap (blockBytes fs.blockSize device)).take (fs.inodeSizeOf raw)

/-- The inode can be read, the size that is found in it and the blocks give the length asked for,
and up to there each block is the one that a written extent has at its place. -/
structure PlainFile (raw : List (BitVec 8)) (extents : List RawExtent) (maxLen : ℕ) : Prop where
  inodeSize : fs.inodeSize ≤ 512
  vector : fs.inodeSizeOf raw < 2 ^ 63
  length : min (fs.inodeSizeOf raw) ((blocksRead extents).length * fs.blockSize) =
    min (fileSize raw) maxLen
  blocks : ∀ k, k * fs.blockSize < min (fileSize raw) maxLen →
    ∃ p, (blocksRead extents)[k]? = some p ∧ physicalBlock (extents.map extent) k = some p

/-! ### Sectors and blocks -/

variable {fs}

variable {len block depth size : ℕ} {data : List (BitVec 8)} {extents : List RawExtent}

theorem readSector_eq {sector : ℕ} (h : sector + len / 512 ≤ fs.device.sectors) :
    fs.readSector sector len = .ok (fs.device.slice (sector * 512) len) := by
  have hread : fs.device.readSector sector len = some (fs.device.slice (sector * 512) len) := if_pos h
  rw [readSector, hread]

theorem blockToSector_mul (hsize : 512 ∣ fs.blockSize) (block : ℕ) :
    fs.blockToSector block * 512 = block * fs.blockSize := by
  exact Nat.div_mul_cancel (Dvd.dvd.mul_left hsize block)

theorem Mounted.dvd_blockSize (h : fs.Mounted) : 512 ∣ fs.blockSize := by
  obtain ⟨k, hk⟩ := h.blockSize
  rw [hk]
  exact Dvd.dvd.mul_right (by decide) _

section

variable (hsize : 512 ∣ fs.blockSize)

include hsize

/-- A whole block in one buffer. -/
theorem readSector_block (hblock : fs.OnDevice block) :
    fs.readSector (fs.blockToSector block) fs.blockSize =
      .ok (fs.device.slice (block * fs.blockSize) fs.blockSize) := by
  have hmul := blockToSector_mul hsize block
  rw [OnDevice, Nat.succ_mul] at hblock
  rw [readSector_eq (by omega), hmul]

/-- The same block, sector by sector. -/
theorem readBlock_eq (hblock : fs.OnDevice block) :
    fs.readBlock block = .ok (blockBytes fs.blockSize fs.device.byte block) := by
  have hmul := blockToSector_mul hsize block
  have hdiv := Nat.div_mul_cancel hsize
  rw [OnDevice, Nat.succ_mul] at hblock
  -- after `n` sectors the buffer has the first `n * 512` bytes
  have hsectors : ∀ n ≤ fs.blockSize / 512,
      (List.range n).foldlM (fun buf i => do
        let sectorBuf ← fs.readSector (fs.blockToSector block + i) 512
        return buf ++ sectorBuf) [] =
        (.ok (fs.device.slice (block * fs.blockSize) (n * 512)) : Except Failure _) := by
    intro n hn
    induction n with
    | zero => rw [Nat.zero_mul]; rfl
    | succ n ih =>
      rw [range_succ, foldlM_append, ih (by omega)]
      have hsector : fs.readSector (fs.blockToSector block + n) 512 =
          .ok (fs.device.slice (block * fs.blockSize + n * 512) 512) := by
        rw [readSector_eq (by omega), Nat.add_mul, hmul]
      rw [ok_bind, foldlM_cons, hsector]
      change Except.ok (_ ++ _) = _
      rw [Disk.slice_append, ← Nat.succ_mul]
  rw [readBlock, hsectors _ (Nat.le_refl _), hdiv]
  rfl

/-! ### The walk -/

omit hsize in
theorem visitNode_of_ok (hnode : NodeOk depth data)
    (visit : List (BitVec 8) → List PhysExtent → Except Failure (List PhysExtent))
    (out : List PhysExtent) :
    fs.visitNode visit data out =
      if depth = 0 then .ok (out ++ (leafEntries data).filterMap collect)
      else (indexEntries data).foldlM (fun out child => do
        let childBuf ← fs.readSector (fs.blockToSector child) fs.blockSize
        visit childBuf out) out := by
  have hentries := hnode.entries
  rw [visitNode, if_neg (not_not_intro hnode.magic), if_neg (by omega), hnode.depth]

/-- The walk collects the leaves. -/
theorem walkExtentTree_eq (htree : fs.ExtentTree depth data extents) (out : List PhysExtent) :
    fs.walkExtentTree depth data out = .ok (out ++ extents.filterMap collect) := by
  induction depth generalizing data extents out with
  | zero =>
    obtain ⟨hnode, rfl⟩ := htree
    rw [walkExtentTree, visitNode_of_ok hnode]
    exact if_pos rfl
  | succ depth ih =>
    obtain ⟨hnode, leaves, rfl, hleaves⟩ := htree
    rw [walkExtentTree, visitNode_of_ok hnode, if_neg (Nat.succ_ne_zero depth)]
    generalize indexEntries data = children at hleaves
    induction hleaves generalizing out with
    | nil => exact congrArg Except.ok (append_nil out).symm
    | cons hchild hrest ihrest =>
      next child extents children leaves =>
      rw [foldlM_cons, readSector_block hsize hchild.1]
      change (do
        let out ← fs.walkExtentTree depth _ out
        List.foldlM _ out children) = _
      rw [ih hchild.2, flatten_cons, filterMap_append, ← append_assoc]
      exact ihrest _

omit hsize in
theorem ExtentTree.magic
    (h : fs.ExtentTree depth data extents) : (extentHeader data).ehMagic = EXT4_EXTENT_MAGIC := by
  cases depth with
  | zero => exact h.1.magic
  | succ depth => exact h.1.magic

/-! ### The contents -/

omit hsize in
/-- A loop stops when it has enough bytes. -/
theorem stop_when_full (xs rest : List (BitVec 8)) {next : Except Failure (List (BitVec 8))}
    (hnext : next = .ok ((xs.take size ++ rest).take size)) :
    (if size ≤ (xs.take size).length then pure (xs.take size) else next) =
      .ok ((xs ++ rest).take size) := by
  split
  · next hfull =>
    rw [length_take] at hfull
    rw [take_append_of_le_length (by omega)]
    rfl
  · next hfull =>
    have hall : xs.take size = xs := by
      rw [length_take] at hfull
      exact take_of_length_le (by omega)
    rw [hnext, hall]

theorem readBlocks_eq {phys : ℕ}
    (hdata : data.length ≤ size) (hblocks : ∀ i < len, fs.OnDevice (phys + i)) :
    fs.readBlocks size len phys data =
      .ok ((data ++ (List.range' phys len).flatMap (blockBytes fs.blockSize fs.device.byte)).take
        size) := by
  induction len generalizing phys data with
  | zero =>
    rw [readBlocks, range'_zero, flatMap_nil, append_nil, take_of_length_le hdata]
  | succ len ih =>
    have hblock : fs.readBlock phys = .ok (blockBytes fs.blockSize fs.device.byte phys) :=
      readBlock_eq hsize (hblocks 0 (Nat.zero_lt_succ len))
    have hcopied : data ++ (blockBytes fs.blockSize fs.device.byte phys).take
        (min (size - data.length) fs.blockSize) =
        (data ++ blockBytes fs.blockSize fs.device.byte phys).take size := by
      rw [take_append, take_of_length_le hdata, append_cancel_left_eq,
        take_eq_take_iff, length_blockBytes]
      omega
    rw [readBlocks, hblock]
    change (if size ≤ (data ++ _).length then _ else _) = _
    rw [hcopied, range'_succ, flatMap_cons, ← append_assoc]
    refine stop_when_full _ _ (ih (length_take_le _ _) fun i hi => ?_)
    rw [Nat.add_assoc, Nat.add_comm 1 i]
    exact hblocks (i + 1) (Nat.succ_lt_succ hi)

theorem readExtents_eq {extents : List PhysExtent} (hdata : data.length ≤ size)
    (hblocks : ∀ e ∈ extents, ∀ i < e.2.2, fs.OnDevice (e.1 + i)) :
    fs.readExtents size extents data =
      .ok ((data ++ (extents.flatMap fun e => List.range' e.1 e.2.2).flatMap
        (blockBytes fs.blockSize fs.device.byte)).take size) := by
  induction extents generalizing data with
  | nil =>
    rw [readExtents, flatMap_nil, flatMap_nil, append_nil, take_of_length_le hdata]
  | cons e extents ih =>
    rw [readExtents, readBlocks_eq hsize hdata (hblocks _ mem_cons_self)]
    rw [flatMap_cons, flatMap_append, ← append_assoc]
    exact stop_when_full _ _
      (ih (length_take_le _ _) fun e he => hblocks e (mem_cons_of_mem _ he))

end

/-- Not more is collected of an extent than it has. -/
theorem collect_le {e : RawExtent} {x : PhysExtent} (h : e.collect = some x) :
    x.1 = e.extent.start ∧ x.2.2 ≤ e.extent.len := by
  rw [RawExtent.collect, Nat.and_two_pow_sub_one_eq_mod e.eeLen 15] at h
  split at h
  · cases h
  · cases h
    refine ⟨rfl, ?_⟩
    change e.eeLen % 2 ^ 15 ≤ if e.eeLen ≤ 32768 then e.eeLen else e.eeLen - 32768
    split <;> omega

/-! ### Inodes -/

variable (h : fs.Mounted)

include h

theorem Mounted.dvd_descSize : fs.descSize ∣ fs.blockSize := by
  obtain ⟨j, hj⟩ := h.blockSize
  obtain ⟨k, hk⟩ := h.descSize
  have hle := h.descFits
  rw [hj, hk] at hle ⊢
  rw [show 32 * 2 ^ k = 2 ^ (k + 5) by ring, show 1024 * 2 ^ j = 2 ^ (j + 10) by ring] at hle ⊢
  exact Nat.pow_dvd_pow 2 ((Nat.pow_le_pow_iff_right (by decide)).mp hle)

/-- A descriptor lies in its block of the table. -/
theorem groupDesc_block (group : ℕ) :
    (fs.gdtBlock + group / fs.gdtEntryCount) * fs.blockSize +
        group % fs.gdtEntryCount * fs.descSize = fs.groupDescAddr group ∧
      group % fs.gdtEntryCount * fs.descSize + fs.descSize ≤ fs.blockSize := by
  obtain ⟨k, hk⟩ := h.descSize
  have hpos : 0 < fs.descSize := by
    rw [hk]
    exact Nat.mul_pos (by decide) (Nat.two_pow_pos k)
  have hcount : fs.gdtEntryCount = fs.blockSize / fs.descSize :=
    max_eq_left (Nat.div_pos h.descFits hpos)
  have hmul : fs.gdtEntryCount * fs.descSize = fs.blockSize := by
    rw [hcount, Nat.div_mul_cancel h.dvd_descSize]
  have hmod : group % fs.gdtEntryCount < fs.gdtEntryCount := by
    rw [hcount]
    exact Nat.mod_lt _ (Nat.div_pos h.descFits hpos)
  constructor
  · calc (fs.gdtBlock + group / fs.gdtEntryCount) * fs.blockSize +
          group % fs.gdtEntryCount * fs.descSize
        = fs.gdtBlock * fs.blockSize +
            (fs.gdtEntryCount * (group / fs.gdtEntryCount) + group % fs.gdtEntryCount) *
              fs.descSize := by
          rw [← hmul]
          ring
      _ = fs.groupDescAddr group := by rw [Nat.div_add_mod, groupDescAddr]
  · calc group % fs.gdtEntryCount * fs.descSize + fs.descSize
        = (group % fs.gdtEntryCount + 1) * fs.descSize := (Nat.succ_mul _ _).symm
      _ ≤ fs.gdtEntryCount * fs.descSize := Nat.mul_le_mul_right _ hmod
      _ = fs.blockSize := hmul

theorem readGroupDesc_table {group : ℕ}
    (hdevice : fs.OnDevice (fs.gdtBlock + group / fs.gdtEntryCount)) :
    ∃ blockBitmap inodeBitmap,
      fs.readGroupDesc group = .ok (blockBitmap, inodeBitmap, fs.inodeTable group) := by
  obtain ⟨haddr, hfits⟩ := groupDesc_block h group
  obtain ⟨k, hk⟩ := h.descSize
  have hpow := Nat.two_pow_pos k
  have hfield : ∀ offset, offset + 4 ≤ fs.descSize →
      leAt (fs.device.slice ((fs.gdtBlock + group / fs.gdtEntryCount) * fs.blockSize) fs.blockSize)
        (group % fs.gdtEntryCount * fs.descSize + offset) 4 =
        fs.device.number (fs.groupDescAddr group + offset) 4 := by
    intro offset hoffset
    rw [leAt_slice _ (by omega), ← Nat.add_assoc, haddr]
  rw [readGroupDesc, readSector_block h.dvd_blockSize hdevice, ok_bind, inodeTable]
  dsimp only
  split
  · next hlarge =>
    rw [hfield 8 (by omega), hfield 40 (by omega)]
    exact ⟨_, _, rfl⟩
  · rw [hfield 8 (by omega), Nat.add_zero]
    exact ⟨_, _, rfl⟩

/-- A small inode lies in one sector. -/
theorem inode_in_sector (hsmall : fs.inodeSize ≤ 512) (inodeNum : ℕ) :
    fs.inodeAddr inodeNum % 512 + fs.inodeSize ≤ 512 := by
  obtain ⟨m, hm⟩ := h.dvd_blockSize
  obtain ⟨k, hk⟩ := h.inodeSize
  have hk' : k < 3 := by
    by_contra hge
    have := Nat.pow_le_pow_right (n := 2) (by decide) (Nat.le_of_not_lt hge)
    omega
  have haddr : fs.inodeAddr inodeNum =
      512 * (m * fs.inodeTable ((inodeNum - 1) / fs.inodesPerGroup)) +
        (inodeNum - 1) % fs.inodesPerGroup * fs.inodeSize := by
    rw [inodeAddr, hm]
    ring
  rw [haddr, Nat.mul_add_mod]
  generalize (inodeNum - 1) % fs.inodesPerGroup = index
  obtain rfl | rfl | rfl : k = 0 ∨ k = 1 ∨ k = 2 := by omega
  all_goals
    rw [hk]
    omega

theorem readInodeRaw_eq (hsmall : fs.inodeSize ≤ 512) {inodeNum : ℕ} {raw : List (BitVec 8)}
    (hfile : fs.RegularFile inodeNum raw extents) : fs.readInodeRaw inodeNum = .ok raw := by
  have hpos := hfile.pos
  have hgroups := h.inodesPerGroup
  have hinode := hfile.inode
  have hsector := inode_in_sector h hsmall inodeNum
  obtain ⟨blockBitmap, inodeBitmap, hdesc⟩ := readGroupDesc_table h hfile.groupDesc
  have hread : fs.readSector (fs.inodeAddr inodeNum / 512) 512 =
      .ok (fs.device.slice (fs.inodeAddr inodeNum / 512 * 512) 512) := by
    obtain ⟨k, hk⟩ := h.inodeSize
    have hpow := Nat.two_pow_pos k
    exact readSector_eq (by omega)
  rw [readInodeRaw, if_neg (by omega), hdesc, ok_bind]
  change (do
    let sectorBuf ← fs.readSector (fs.inodeAddr inodeNum / 512) 512
    if 512 < fs.inodeAddr inodeNum % 512 + fs.inodeSize then .error .panic
    else return (sectorBuf.drop (fs.inodeAddr inodeNum % 512)).take fs.inodeSize) = _
  rw [hread, ok_bind, if_neg (by omega), Disk.slice_drop_take _ _ hsector, Nat.mul_comm,
    Nat.div_add_mod, hfile.bytes]
  rfl

end Ext4FileSystem

open Ext4FileSystem

/-- An inode of more than a sector is not read. -/
theorem readInodeRaw_ne_ok {fs : Ext4FileSystem} (hlarge : 512 < fs.inodeSize) (inodeNum : ℕ)
    (data : List (BitVec 8)) : fs.readInodeRaw inodeNum ≠ .ok data := by
  rw [readInodeRaw]
  split
  · rintro ⟨⟩
  cases fs.readGroupDesc ((inodeNum - 1) / fs.inodesPerGroup) with
  | error e => rintro ⟨⟩
  | ok desc =>
    rw [ok_bind]
    dsimp only
    cases fs.readSector _ 512 with
    | error e => rintro ⟨⟩
    | ok sectorBuf =>
      rw [ok_bind, if_pos (by omega)]
      rintro ⟨⟩

section

variable {fs : Ext4FileSystem} {inodeNum : ℕ} {raw : List (BitVec 8)} {extents : List RawExtent}
  (hfs : fs.Mounted) (hfile : fs.RegularFile inodeNum raw extents) (maxLen : ℕ)

include hfs hfile

theorem read_eq : fs.read raw maxLen =
    if 2 ^ 63 ≤ fs.inodeSizeOf raw then .error .panic
    else .ok (fs.gathered fs.device.byte raw extents) := by
  have hsize := hfs.dvd_blockSize
  have hdir : inodeIsDir raw = false := by
    rw [inodeIsDir, hfile.regular]
    rfl
  have hcollect : fs.collectExtents raw = .ok (extents.filterMap collect) := by
    have hwalk := walkExtentTree_eq hsize hfile.tree []
    rw [nil_append] at hwalk
    rw [collectExtents, if_neg (not_not_intro (ExtentTree.magic hfile.tree)), hwalk]
  have hblocks : ∀ e ∈ extents.filterMap collect, ∀ i < e.2.2, fs.OnDevice (e.1 + i) := by
    intro x hx i hi
    obtain ⟨e, he, hcollect⟩ := mem_filterMap.mp hx
    obtain ⟨hstart, hlen⟩ := collect_le hcollect
    rw [hstart]
    exact hfile.onDevice e he i (Nat.lt_of_lt_of_le hi hlen)
  have hempty : ([] : List (BitVec 8)).length ≤ fs.inodeSizeOf raw := Nat.zero_le _
  rw [Ext4FileSystem.read, hdir, if_neg Bool.false_ne_true, if_neg hfile.hasExtents, hcollect,
    ok_bind, readExtents_eq hsize hempty hblocks, nil_append]
  rfl

theorem readFile_eq_ok_iff (data : List (BitVec 8)) : fs.readFile inodeNum maxLen = .ok data ↔
    fs.inodeSize ≤ 512 ∧ fs.inodeSizeOf raw < 2 ^ 63 ∧
      data = fs.gathered fs.device.byte raw extents := by
  rw [readFile]
  by_cases hsmall : fs.inodeSize ≤ 512
  · rw [readInodeRaw_eq hfs hsmall hfile, ok_bind]
    rw [read_eq hfs hfile maxLen]
    split
    · next hvector => exact iff_of_false (fun h => by cases h) fun h => Nat.not_le.mpr h.2.1 hvector
    · next hvector =>
      rw [Except.ok.injEq, eq_comm]
      exact ⟨fun h => ⟨hsmall, Nat.not_le.mp hvector, h⟩, fun h => h.2.2⟩
  · refine iff_of_false (fun h => ?_) fun h => hsmall h.1
    cases hraw : fs.readInodeRaw inodeNum with
    | error e =>
      rw [hraw] at h
      cases h
    | ok raw' => exact readInodeRaw_ne_ok (Nat.not_le.mp hsmall) inodeNum raw' hraw

end

/-! ### A file of one byte -/

/-- An image with one inode: a regular file of one byte whose only extent has the given first block
and length, and is at block 5 of the device. That block begins with a 7. -/
def oneByteImage (eeBlock eeLen : ℕ) : Ext4FileSystem where
  device :=
    { sectors := 12
      byte := fun addr => ([(2056, 3), (3072, 0xA4), (3073, 0x81), (3076, 1), (3106, 0x08),
        (3112, 0x0A), (3113, 0xF3), (3114, 1), (3116, 4), (3124, byteOf eeBlock 0),
        (3128, byteOf eeLen 0), (3129, byteOf eeLen 1), (3132, 5), (5120, 7)].lookup addr).getD 0 }
  blockSize := 1024
  inodesPerGroup := 8
  inodeSize := 128
  descSize := 32

def oneByteInode (eeBlock eeLen : ℕ) : List (BitVec 8) :=
  (oneByteImage eeBlock eeLen).device.slice 3072 128

theorem mounted_oneByteImage (eeBlock eeLen : ℕ) : (oneByteImage eeBlock eeLen).Mounted where
  blockSize := ⟨0, rfl⟩
  inodeSize := ⟨0, rfl⟩
  descSize := ⟨0, rfl⟩
  descFits := show 32 ≤ 1024 by decide
  inodesPerGroup := show 0 < 8 by decide

/-- With the byte in the extent, in front of it, and in an extent that is not written. -/
theorem regularFile_oneByteImage {eeBlock eeLen : ℕ}
    (h : eeBlock = 0 ∧ eeLen = 1 ∨ eeBlock = 1 ∧ eeLen = 1 ∨ eeBlock = 0 ∧ eeLen = 32769) :
    (oneByteImage eeBlock eeLen).RegularFile 1 (oneByteInode eeBlock eeLen)
      [⟨eeBlock, eeLen, 5⟩] := by
  have hdepth : (extentHeader (((oneByteInode eeBlock eeLen).drop 40).take 60)).ehDepth = 0 := by
    obtain ⟨rfl, rfl⟩ | ⟨rfl, rfl⟩ | ⟨rfl, rfl⟩ := h
    all_goals decide +kernel
  have htree : (oneByteImage eeBlock eeLen).ExtentTree 0
      (((oneByteInode eeBlock eeLen).drop 40).take 60) [⟨eeBlock, eeLen, 5⟩] := by
    obtain ⟨rfl, rfl⟩ | ⟨rfl, rfl⟩ | ⟨rfl, rfl⟩ := h
    all_goals exact ⟨⟨by decide +kernel, hdepth, by decide +kernel⟩, by decide +kernel⟩
  obtain ⟨rfl, rfl⟩ | ⟨rfl, rfl⟩ | ⟨rfl, rfl⟩ := h
  all_goals
    refine ⟨by decide, ?_, ?_, ?_, ?_, ?_, ?_, htree, ?_, ?_, ?_⟩
    all_goals decide +kernel

theorem plainFile_oneByteImage :
    (oneByteImage 0 1).PlainFile (oneByteInode 0 1) [⟨0, 1, 5⟩] 100 := by
  refine ⟨by decide +kernel, by decide +kernel, by decide +kernel, fun k hk => ⟨5, ?_⟩⟩
  have hblock : (oneByteImage 0 1).blockSize = 1024 := rfl
  have hsize : min (fileSize (oneByteInode 0 1)) 100 = 1 := by decide +kernel
  rw [hblock, hsize] at hk
  obtain rfl : k = 0 := by omega
  decide +kernel

end Vahi.Ext4
