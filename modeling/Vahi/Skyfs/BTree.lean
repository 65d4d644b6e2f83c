import Vahi.Lib.Outcome
import Vahi.Skyfs.BlockAlloc

/-!
# The extent tree of SkyFS

`crates/vfs/src/skyfs/btree.rs`. A node takes one block. The median of a leaf that is split goes to
the parent with its extent; but a lookup takes extents from leaves only.
-/

namespace Vahi.Skyfs

open Vahi.Lib

structure Extent where
  startBlock : BitVec 64
  blockCount : BitVec 64
  deriving DecidableEq

abbrev Entry := BitVec 64 × Extent

def BTREE_ORDER : ℕ := 16

def KEY_MAX : ℕ := BTREE_ORDER - 1

def CHILD_MAX : ℕ := BTREE_ORDER

structure BTreeNode where
  isLeaf : BitVec 8
  numKeys : BitVec 16
  keys : Vector (BitVec 64) KEY_MAX
  values : Vector Extent KEY_MAX
  children : Vector (BitVec 64) CHILD_MAX
  deriving DecidableEq

namespace BTreeNode

def empty : BTreeNode where
  isLeaf := 0
  numKeys := 0
  keys := Vector.replicate KEY_MAX 0
  values := Vector.replicate KEY_MAX ⟨0, 0⟩
  children := Vector.replicate CHILD_MAX 0

variable (n : BTreeNode) (i : ℕ)

def key : BitVec 64 := n.keys[i]?.getD 0

def value : Extent := n.values[i]?.getD ⟨0, 0⟩

def child : BitVec 64 := n.children[i]?.getD 0

def entries : List Entry :=
  (List.range n.numKeys.toNat).map fun i => (n.key i, n.value i)

def setEntry (e : Entry) : BTreeNode :=
  { n with keys := n.keys.setIfInBounds i e.1, values := n.values.setIfInBounds i e.2 }

def setChild (c : BitVec 64) : BTreeNode :=
  { n with children := n.children.setIfInBounds i c }

def setEntries (es : List Entry) : BTreeNode := setAll setEntry n 0 es

def setChildren (cs : List (BitVec 64)) : BTreeNode := setAll setChild n 0 cs

/-! ## Nodes in blocks -/

def isLeafField : Field := ⟨0, 1⟩
def numKeysField : Field := ⟨1, 2⟩
def keyField : Field := ⟨3 + 8 * i, 8⟩
def startBlockField : Field := ⟨123 + 16 * i, 8⟩
def blockCountField : Field := ⟨131 + 16 * i, 8⟩
def childField : Field := ⟨363 + 8 * i, 8⟩

def ofBlock (b : Block) : BTreeNode where
  isLeaf := BitVec.ofNat 8 (b.get isLeafField)
  numKeys := BitVec.ofNat 16 (b.get numKeysField)
  keys := Vector.ofFn fun i => BitVec.ofNat 64 (b.get (keyField i))
  values := Vector.ofFn fun i =>
    ⟨BitVec.ofNat 64 (b.get (startBlockField i)), BitVec.ofNat 64 (b.get (blockCountField i))⟩
  children := Vector.ofFn fun i => BitVec.ofNat 64 (b.get (childField i))

def byteAt : BitVec 8 :=
  if i < 1 then byteOf n.isLeaf.toNat i
  else if i < 3 then byteOf n.numKeys.toNat (i - 1)
  else if i < 123 then byteOf (n.key ((i - 3) / 8)).toNat ((i - 3) % 8)
  else if i < 363 then
    let e := n.value ((i - 123) / 16)
    if (i - 123) % 16 < 8 then byteOf e.startBlock.toNat ((i - 123) % 16)
    else byteOf e.blockCount.toNat ((i - 123) % 16 - 8)
  else if i < 491 then byteOf (n.child ((i - 363) / 8)).toNat ((i - 363) % 8)
  else 0

/-- `write_node`; what follows the structure in the block is zero. -/
def toBlock : Block := fun i => n.byteAt i

variable {i : ℕ} (n : BTreeNode)

/-- A field of the block holds a number if the bytes there are those of the number. -/
theorem get_toBlock {f : Field} {v : ℕ} (hf : f.offset + f.size ≤ BLOCK_SIZE)
    (h : ∀ i < f.size, n.byteAt (f.offset + i) = byteOf v i) :
    n.toBlock.get f = v % 256 ^ f.size := by
  rw [← ofBytes_byteOf]
  apply ofBytes_congr
  intro i hi
  rw [Block.byte, dif_pos (by omega)]
  exact h i hi

theorem get_word {off : ℕ} (v : BitVec 64) (hoff : off + 8 ≤ BLOCK_SIZE)
    (h : ∀ j < 8, n.byteAt (off + j) = byteOf v.toNat j) : n.toBlock.get ⟨off, 8⟩ = v.toNat := by
  rw [get_toBlock n hoff h]
  exact Nat.mod_eq_of_lt v.isLt

theorem get_keyField (hi : i < KEY_MAX) : n.toBlock.get (keyField i) = (n.key i).toNat := by
  rw [KEY_MAX, BTREE_ORDER] at hi
  apply get_word n (n.key i) (by rw [BLOCK_SIZE]; omega)
  intro j hj
  have hidx : (3 + 8 * i + j - 3) / 8 = i := by omega
  have hbyte : (3 + 8 * i + j - 3) % 8 = j := by omega
  rw [byteAt, if_neg (by omega), if_neg (by omega), if_pos (by omega), hidx, hbyte]

theorem get_startBlockField (hi : i < KEY_MAX) :
    n.toBlock.get (startBlockField i) = (n.value i).startBlock.toNat := by
  rw [KEY_MAX, BTREE_ORDER] at hi
  apply get_word n (n.value i).startBlock (by rw [BLOCK_SIZE]; omega)
  intro j hj
  have hidx : (123 + 16 * i + j - 123) / 16 = i := by omega
  have hbyte : (123 + 16 * i + j - 123) % 16 = j := by omega
  rw [byteAt, if_neg (by omega), if_neg (by omega), if_neg (by omega), if_pos (by omega), hidx,
    hbyte, if_pos hj]

theorem get_blockCountField (hi : i < KEY_MAX) :
    n.toBlock.get (blockCountField i) = (n.value i).blockCount.toNat := by
  rw [KEY_MAX, BTREE_ORDER] at hi
  apply get_word n (n.value i).blockCount (by rw [BLOCK_SIZE]; omega)
  intro j hj
  have hidx : (131 + 16 * i + j - 123) / 16 = i := by omega
  have hbyte : (131 + 16 * i + j - 123) % 16 = 8 + j := by omega
  rw [byteAt, if_neg (by omega), if_neg (by omega), if_neg (by omega), if_pos (by omega), hidx,
    hbyte, if_neg (by omega), Nat.add_sub_cancel_left]

theorem get_childField (hi : i < CHILD_MAX) : n.toBlock.get (childField i) = (n.child i).toNat := by
  rw [CHILD_MAX, BTREE_ORDER] at hi
  apply get_word n (n.child i) (by rw [BLOCK_SIZE]; omega)
  intro j hj
  have hidx : (363 + 8 * i + j - 363) / 8 = i := by omega
  have hbyte : (363 + 8 * i + j - 363) % 8 = j := by omega
  rw [byteAt, if_neg (by omega), if_neg (by omega), if_neg (by omega), if_neg (by omega),
    if_pos (by omega), hidx, hbyte]

theorem get_isLeafField : n.toBlock.get isLeafField = n.isLeaf.toNat := by
  rw [get_toBlock n (v := n.isLeaf.toNat) (by decide)]
  · exact Nat.mod_eq_of_lt n.isLeaf.isLt
  · intro j hj
    change j < 1 at hj
    change n.byteAt (0 + j) = _
    rw [byteAt, if_pos (by omega), Nat.zero_add]

theorem get_numKeysField : n.toBlock.get numKeysField = n.numKeys.toNat := by
  rw [get_toBlock n (v := n.numKeys.toNat) (by decide)]
  · exact Nat.mod_eq_of_lt n.numKeys.isLt
  · intro j hj
    change j < 2 at hj
    change n.byteAt (1 + j) = _
    rw [byteAt, if_neg (by omega), if_pos (by omega), Nat.add_sub_cancel_left]

theorem ofBlock_toBlock : ofBlock n.toBlock = n := by
  rw [ofBlock, get_isLeafField, get_numKeysField, BTreeNode.mk.injEq]
  refine ⟨by simp, by simp, ?_, ?_, ?_⟩
  · apply Vector.ext
    intro i hi
    rw [Vector.getElem_ofFn, get_keyField _ hi]
    simp [key, hi]
  · apply Vector.ext
    intro i hi
    rw [Vector.getElem_ofFn, get_startBlockField _ hi, get_blockCountField _ hi]
    simp [value, hi]
  · apply Vector.ext
    intro i hi
    rw [Vector.getElem_ofFn, get_childField _ hi]
    simp [child, hi]

end BTreeNode

/-! ## Lookup -/

/-- What a leaf says about a logical block: the part of the extent from there on. -/
def Entry.lookup (e : Entry) (blockOffset : BitVec 64) : Option Extent :=
  if e.1 ≤ blockOffset ∧ blockOffset < e.1 + e.2.blockCount then
    some ⟨e.2.startBlock + (blockOffset - e.1), e.2.blockCount - (blockOffset - e.1)⟩
  else none

/-- The loop over the keys of an interior node from `idx` on, `n` of them. -/
def BTreeNode.childIndex (node : BTreeNode) (blockOffset : BitVec 64) : ℕ → ℕ → ℕ
  | idx, 0 => idx
  | idx, n + 1 =>
    if node.key idx ≤ blockOffset then node.childIndex blockOffset (idx + 1) n else idx

/-- Only leaves answer; an offset no entry of its leaf covers has no extent. -/
def lookupExtent (d : Device) (blockOffset : BitVec 64) : ℕ → BitVec 64 → Outcome (Option Extent)
  | 0, _ => .hang
  | fuel + 1, current =>
    let node := BTreeNode.ofBlock (d current.toNat)
    let nk := node.numKeys.toNat
    if KEY_MAX < nk then .ok none
    else if node.isLeaf ≠ 0 then .ok (node.entries.findSome? (·.lookup blockOffset))
    else lookupExtent d blockOffset fuel (node.child (node.childIndex blockOffset 0 nk))

/-! ## Insertion -/

namespace BTreeNode

def shiftEntries (key : BitVec 64) : ℕ → BTreeNode → ℕ × BTreeNode
  | 0, n => (0, n)
  | i + 1, n =>
    if key < n.key i then shiftEntries key i (n.setEntry (i + 1) (n.key i, n.value i)) else (i + 1, n)

def insertLeaf (n : BTreeNode) (e : Entry) : BTreeNode :=
  let (i, shifted) := n.shiftEntries e.1 n.numKeys.toNat
  { shifted.setEntry i e with numKeys := n.numKeys + 1 }

def gatherKeys (e : Entry) : Bool → List Entry → List Entry
  | inserted, [] => if inserted then [] else [e]
  | inserted, x :: xs =>
    if !inserted && decide (e.1 < x.1) then e :: x :: gatherKeys e true xs
    else x :: gatherKeys e inserted xs

def insertIndex (n : BTreeNode) (key : BitVec 64) : ℕ → ℕ
  | 0 => 0
  | i + 1 => if key < n.key i then n.insertIndex key i else i + 1

def shiftInterior (i : ℕ) : ℕ → BTreeNode → BTreeNode
  | 0, n => n
  | j + 1, n =>
    if i < j + 1 then
      shiftInterior i j ((n.setEntry (j + 1) (n.key j, n.value j)).setChild (j + 2) (n.child (j + 1)))
    else n

end BTreeNode

structure Promoted where
  entry : Entry
  newChild : BitVec 64
  deriving DecidableEq

namespace BTreeNode

variable (n : BTreeNode)

def insertInterior (i : ℕ) (p : Promoted) : BTreeNode :=
  let shifted := shiftInterior i n.numKeys.toNat n
  { (shifted.setEntry i p.entry).setChild (i + 1) p.newChild with numKeys := n.numKeys + 1 }

structure Gathered where
  allKeys : Vector Entry (KEY_MAX + 1)
  allChildren : Vector (BitVec 64) (KEY_MAX + 2)
  inserted : Bool
  ai : ℕ

/-- A key of the node with the child behind it, and before them what was promoted if this is
its place. -/
def placeKey (p : Promoted) (g : Gathered) (ci : ℕ) : Gathered :=
  let g :=
    if !g.inserted && decide (p.entry.1 < n.key ci) then
      { allKeys := g.allKeys.setIfInBounds g.ai p.entry
        allChildren := g.allChildren.setIfInBounds (g.ai + 1) p.newChild
        inserted := true
        ai := g.ai + 1 }
    else g
  { g with
    allKeys := g.allKeys.setIfInBounds g.ai (n.key ci, n.value ci)
    allChildren := g.allChildren.setIfInBounds (g.ai + 1) (n.child (ci + 1)) }

def placeLast (p : Promoted) (g : Gathered) : Gathered :=
  { g with
    allKeys := g.allKeys.setIfInBounds n.numKeys.toNat p.entry
    allChildren := g.allChildren.setIfInBounds (n.numKeys.toNat + 1) p.newChild
    inserted := true }

def gatherStep (i : ℕ) (p : Promoted) (g : Gathered) (ci : ℕ) : Gathered :=
  let nk := n.numKeys.toNat
  let g := { g with allChildren := g.allChildren.setIfInBounds g.ai (n.child ci) }
  let g := if ci < nk then n.placeKey p g ci else g
  let g := if ci = i ∧ g.inserted = false then n.placeLast p g else g
  { g with ai := if ci < nk ∨ (ci = nk ∧ g.inserted = true) then g.ai + 1 else g.ai }

def gather (i : ℕ) (p : Promoted) : Gathered :=
  (List.range (n.numKeys.toNat + 1)).foldl (n.gatherStep i p)
    ⟨Vector.replicate _ (0, ⟨0, 0⟩), Vector.replicate _ 0, false, 0⟩

def mid : ℕ := KEY_MAX / 2

def leftHalf (all : List Entry) (children : List (BitVec 64)) : BTreeNode :=
  { (n.setEntries (all.take mid)).setChildren (children.take (mid + 1)) with
    numKeys := BitVec.ofNat 16 mid }

def rightHalf (isLeaf : BitVec 8) (all : List Entry) (children : List (BitVec 64)) : BTreeNode :=
  { (empty.setEntries (all.drop (mid + 1))).setChildren (children.drop (mid + 1)) with
    isLeaf
    numKeys := BitVec.ofNat 16 (KEY_MAX - mid) }

end BTreeNode

section Insert

variable (sb : Superblock)

variable (d : Device)

def allocNodeBlock : Option (BitVec 64) × Device :=
  let (block, d) := allocateBlockInner sb d
  (block.map (BitVec.ofNat 64), d)

def writeNode (block : BitVec 64) (n : BTreeNode) : Device :=
  d.write block.toNat n.toBlock

/-- The left half is written before the block of the right half is asked for. -/
def splitNode (nodeBlock : BitVec 64) (n : BTreeNode) (isLeaf : BitVec 8)
    (all : List Entry) (children : List (BitVec 64)) : Except Unit (Option Promoted) × Device :=
  let d := writeNode d nodeBlock (n.leftHalf all children)
  match allocNodeBlock sb d with
  | (none, d) => (.error (), d)
  | (some newBlock, d) =>
    (.ok (some ⟨all.getD BTreeNode.mid (0, ⟨0, 0⟩), newBlock⟩),
      writeNode d newBlock (BTreeNode.rightHalf isLeaf all children))

def insertPromoted (nodeBlock : BitVec 64) (n : BTreeNode) (i : ℕ) (p : Promoted) :
    Except Unit (Option Promoted) × Device :=
  if n.numKeys.toNat < KEY_MAX then (.ok none, writeNode d nodeBlock (n.insertInterior i p))
  else
    let g := n.gather i p
    splitNode sb d nodeBlock n 0 g.allKeys.toList g.allChildren.toList

/-- A full node is split and its middle entry handed to the parent. -/
def insertNonFull (e : Entry) : ℕ → Device → BitVec 64 →
    Outcome (Except Unit (Option Promoted) × Device)
  | 0, _, _ => .hang
  | fuel + 1, d, nodeBlock =>
    let n := BTreeNode.ofBlock (d nodeBlock.toNat)
    let nk := n.numKeys.toNat
    if KEY_MAX < nk then .ok (.error (), d)
    else if n.isLeaf ≠ 0 then
      if nk < KEY_MAX then .ok (.ok none, writeNode d nodeBlock (n.insertLeaf e))
      else .ok (splitNode sb d nodeBlock n 1 (BTreeNode.gatherKeys e false n.entries) [])
    else
      let i := n.insertIndex e.1 nk
      match insertNonFull e fuel d (n.child i) with
      | .ok (.ok (some p), d) => .ok (insertPromoted sb d nodeBlock n i p)
      | result => result

/-- The root of a tree that had none, or the root above the halves of the old one. -/
def newRoot (n : BTreeNode) : Except Unit (BitVec 64) × Device :=
  match allocNodeBlock sb d with
  | (none, d) => (.error (), d)
  | (some block, d) => (.ok block, writeNode d block n)

/-- A split of the root makes a root above it. -/
def insertExtent (fuel : ℕ) (d : Device) (rootBlock : BitVec 64) (e : Entry) :
    Outcome (Except Unit (BitVec 64) × Device) :=
  if rootBlock = 0 then
    .ok (newRoot sb d { BTreeNode.empty.setEntry 0 e with isLeaf := 1, numKeys := 1 })
  else
    match insertNonFull sb e fuel d rootBlock with
    | .ok (.ok (some p), d) =>
      let root := (BTreeNode.empty.setEntry 0 p.entry).setChildren [rootBlock, p.newChild]
      .ok (newRoot sb d { root with numKeys := 1 })
    | .ok (.ok none, d) => .ok (.ok rootBlock, d)
    | .ok (.error (), d) => .ok (.error (), d)
    | .panic => .panic
    | .hang => .hang

end Insert

end Vahi.Skyfs
