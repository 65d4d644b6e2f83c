import Vahi.Vfs.Disk

/-!
# The ext4 reader

`crates/vfs/src/ext4.rs` from a mounted file system on. Packed structures are read at their offsets.
-/

namespace Vahi.Ext4

open Vahi.Vfs

def EXT4_EXTENT_MAGIC : ℕ := 0xF30A

def EXT4_INODE_FLAG_EXTENTS : ℕ := 0x80000

/-- How a call does not return a value: with `Err(())`, by a panic, or by reading memory
behind a buffer. -/
inductive Failure where
  | err
  | panic
  | outOfBounds
  deriving DecidableEq

theorem ok_bind {α β : Type} (a : α) (f : α → Except Failure β) : (Except.ok a >>= f) = f a := rfl

structure Ext4FileSystem where
  device : Disk
  blockSize : ℕ
  inodesPerGroup : ℕ
  inodeSize : ℕ
  descSize : ℕ

/-- An extent as it is collected: device block, first block in the file, length. -/
abbrev PhysExtent := ℕ × ℕ × ℕ

namespace Ext4FileSystem

variable (fs : Ext4FileSystem)

def readSector (sector len : ℕ) : Except Failure (List (BitVec 8)) :=
  match fs.device.readSector sector len with
  | some data => .ok data
  | none => .error .err

def gdtBlock : ℕ := if fs.blockSize = 1024 then 2 else 1

def gdtEntryCount : ℕ := max (fs.blockSize / fs.descSize) 1

def blockToSector (block : ℕ) : ℕ := block * fs.blockSize / 512

/-- Descriptors of 64 bytes have upper halves of the block numbers. -/
def readGroupDesc (group : ℕ) : Except Failure (ℕ × ℕ × ℕ) := do
  let blockNum := fs.gdtBlock + group / fs.gdtEntryCount
  let buf ← fs.readSector (fs.blockToSector blockNum) fs.blockSize
  let entryOffset := group % fs.gdtEntryCount * fs.descSize
  if 64 ≤ fs.descSize then
    return (leAt buf entryOffset 4 + leAt buf (entryOffset + 32) 4 * 2 ^ 32,
      leAt buf (entryOffset + 4) 4 + leAt buf (entryOffset + 36) 4 * 2 ^ 32,
      leAt buf (entryOffset + 8) 4 + leAt buf (entryOffset + 40) 4 * 2 ^ 32)
  else return (leAt buf entryOffset 4, leAt buf (entryOffset + 4) 4, leAt buf (entryOffset + 8) 4)

/-- Into a buffer of the size of an inode. One sector is read, and an inode that does not lie in
it is behind the end of a slice. -/
def readInodeRaw (inodeNum : ℕ) : Except Failure (List (BitVec 8)) :=
  if inodeNum = 0 ∨ fs.inodesPerGroup = 0 then .error .panic
  else do
    let (_, _, inodeTable) ← fs.readGroupDesc ((inodeNum - 1) / fs.inodesPerGroup)
    let byteAddr :=
      inodeTable * fs.blockSize + (inodeNum - 1) % fs.inodesPerGroup * fs.inodeSize
    let sectorBuf ← fs.readSector (byteAddr / 512) 512
    if 512 < byteAddr % 512 + fs.inodeSize then .error .panic
    else return (sectorBuf.drop (byteAddr % 512)).take fs.inodeSize

/-! ### Fields of an inode -/

variable (raw : List (BitVec 8))

/-- `inode_size`: the high half is taken from offset 128. -/
def inodeSizeOf : ℕ :=
  if 256 ≤ fs.inodeSize then leAt raw 128 4 * 2 ^ 32 + leAt raw 4 4 else leAt raw 4 4

def inodeFlags : ℕ := leAt raw 32 4

def inodeMode : ℕ := leAt raw 0 2

def inodeIsDir : Bool := inodeMode raw &&& 0xF000 = 0x4000

end Ext4FileSystem

/-! ### Extent trees -/

structure ExtentHeader where
  ehMagic : ℕ
  ehEntries : ℕ
  ehDepth : ℕ
  deriving DecidableEq

variable (data : List (BitVec 8))

def extentHeader : ExtentHeader :=
  ⟨leAt data 0 2, leAt data 2 2, leAt data 6 2⟩

/-- `Extent`, with the two halves of its device block put together. -/
structure RawExtent where
  eeBlock : ℕ
  eeLen : ℕ
  eeStart : ℕ
  deriving DecidableEq

def leafEntries : List RawExtent :=
  (List.range (extentHeader data).ehEntries).map fun i =>
    let offset := 12 + 12 * i
    ⟨leAt data offset 4, leAt data (offset + 4) 2,
      leAt data (offset + 6) 2 * 2 ^ 32 + leAt data (offset + 8) 4⟩

def indexEntries : List ℕ :=
  (List.range (extentHeader data).ehEntries).map fun i =>
    let offset := 12 + 12 * i
    leAt data (offset + 8) 2 * 2 ^ 32 + leAt data (offset + 4) 4

def RawExtent.collect (e : RawExtent) : Option PhysExtent :=
  let len := e.eeLen &&& 0x7FFF
  if len = 0 then none else some (e.eeStart, e.eeBlock, len)

namespace Ext4FileSystem

variable (fs : Ext4FileSystem)

/-- A node with more entries than its data holds is an access behind the slice. -/
def visitNode (visit : List (BitVec 8) → List PhysExtent → Except Failure (List PhysExtent))
    (data : List (BitVec 8)) (out : List PhysExtent) : Except Failure (List PhysExtent) :=
  let header := extentHeader data
  if header.ehMagic ≠ EXT4_EXTENT_MAGIC then .error .err
  else if data.length < 12 + 12 * header.ehEntries then .error .outOfBounds
  else if header.ehDepth = 0 then .ok (out ++ (leafEntries data).filterMap RawExtent.collect)
  else
    (indexEntries data).foldlM (fun out child => do
      let childBuf ← fs.readSector (fs.blockToSector child) fs.blockSize
      visit childBuf out) out

/-- The depth that is passed down counts the levels; it overflows behind zero. -/
def walkExtentTree : ℕ → List (BitVec 8) → List PhysExtent → Except Failure (List PhysExtent)
  | 0 => fs.visitNode fun _ _ => .error .panic
  | depth + 1 => fs.visitNode (walkExtentTree depth)

/-- The root of the tree is in the inode itself. -/
def collectExtents (raw : List (BitVec 8)) : Except Failure (List PhysExtent) :=
  let iBlock := (raw.drop 40).take 60
  let header := extentHeader iBlock
  if header.ehMagic ≠ EXT4_EXTENT_MAGIC then .error .err
  else fs.walkExtentTree header.ehDepth iBlock []

/-! ### Reading -/

def readBlock (physBlock : ℕ) : Except Failure (List (BitVec 8)) :=
  (List.range (fs.blockSize / 512)).foldlM (fun buf i => do
    let sectorBuf ← fs.readSector (fs.blockToSector physBlock + i) 512
    return buf ++ sectorBuf) []

def readBlocks (fileSize : ℕ) : ℕ → ℕ → List (BitVec 8) → Except Failure (List (BitVec 8))
  | 0, _, data => .ok data
  | len + 1, phys, data => do
    let blockData ← fs.readBlock phys
    let data := data ++ blockData.take (min (fileSize - data.length) fs.blockSize)
    if fileSize ≤ data.length then return data else readBlocks fileSize len (phys + 1) data

/-- The loop over the extents; where an extent lies in the file is not looked at. -/
def readExtents (fileSize : ℕ) : List PhysExtent → List (BitVec 8) →
    Except Failure (List (BitVec 8))
  | [], data => .ok data
  | (phys, _, len) :: extents, data => do
    let data ← fs.readBlocks fileSize len phys data
    if fileSize ≤ data.length then return data else readExtents fileSize extents data

/-- `read` of a node; the length asked for is not used. A vector cannot have more than `isize::MAX`
bytes. -/
def read (raw : List (BitVec 8)) (_maxLen : ℕ) : Except Failure (List (BitVec 8)) :=
  if inodeIsDir raw then .error .err
  else if inodeFlags raw &&& EXT4_INODE_FLAG_EXTENTS = 0 then .error .err
  else do
    let extents ← fs.collectExtents raw
    if 2 ^ 63 ≤ fs.inodeSizeOf raw then .error .panic
    else fs.readExtents (fs.inodeSizeOf raw) extents []

def readFile (inodeNum maxLen : ℕ) : Except Failure (List (BitVec 8)) := do
  let raw ← fs.readInodeRaw inodeNum
  fs.read raw maxLen

end Ext4FileSystem

end Vahi.Ext4
