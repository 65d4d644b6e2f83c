import Vahi.Lib.Outcome
import Vahi.Lib.Blocks
import Vahi.Lib.Chain

/-!
# The buddy frame allocator

`BuddyAllocator` (`crates/memory/src/buddy.rs`). A free list is threaded through the first word of
the free blocks, so the state is the array of list heads and the physical memory. `physAddrNew` is
`PhysAddr::new`, which panics above 52 bits.
-/

namespace Vahi.Memory

open Vahi.Lib

def maxOrder : ℕ := 11

def pageShift : ℕ := 12

def noNext : ℕ := 0xFFFF_FFFF_FFFF_FFFF

def physLimit : ℕ := 2 ^ 52

def physAddrNew (x : ℕ) : Outcome ℕ :=
  if x < physLimit then .ok x else .panic

abbrev PhysMem := ℕ → ℕ

structure BuddyAllocator where
  freeLists : ℕ → Option ℕ
  mem : PhysMem

/-- A list of distinct frames has at most `2^40` cells; one more step sees its end. -/
def walkBound : ℕ := 2 ^ 40 + 1

namespace BuddyAllocator

def new (mem : PhysMem) : BuddyAllocator := ⟨fun _ => none, mem⟩

/-- The link stored in a free block, before `PhysAddr::new` checks it. -/
def link (mem : PhysMem) (addr : ℕ) : Option ℕ :=
  if mem addr = noNext then none else some (mem addr)

variable (b : BuddyAllocator) (addr order : ℕ)

def readNextPtr : Outcome (Option ℕ) :=
  match link b.mem addr with
  | none => .ok none
  | some val => do
    let a ← physAddrNew val
    return some a

def writeNextPtr (next : Option ℕ) : BuddyAllocator :=
  { b with mem := Function.update b.mem addr (next.getD noNext) }

/-- `self.free_lists[order] = head`, an index panic above `MAX_ORDER`. -/
def setHead (head : Option ℕ) : Outcome BuddyAllocator :=
  if order ≤ maxOrder then
    .ok { b with freeLists := Function.update b.freeLists order head }
  else .panic

def getHead : Outcome (Option ℕ) :=
  if order ≤ maxOrder then .ok (b.freeLists order) else .panic

def addBlock : Outcome BuddyAllocator := do
  let next ← b.getHead order
  (b.writeNextPtr addr next).setHead order (some addr)

def removeLoop (addr order : ℕ) :
    ℕ → Option ℕ → Option ℕ → BuddyAllocator → Outcome (Bool × BuddyAllocator)
  | 0, _, _, _ => .hang
  | _ + 1, _, none, b => .ok (false, b)
  | n + 1, prev, some curr, b => do
    let next ← b.readNextPtr curr
    if curr = addr then
      match prev with
      | some p => .ok (true, b.writeNextPtr p next)
      | none => do
        let b' ← b.setHead order next
        return (true, b')
    else removeLoop addr order n (some curr) next b

/-- Takes a block out of its free list and says whether it was there. -/
def removeBlock : Outcome (Bool × BuddyAllocator) := do
  let head ← b.getHead order
  removeLoop addr order walkBound none head b

/-- `allocate_at_order`; the first argument is `MAX_ORDER + 1 - order`, so that
`0` is the guard `order > MAX_ORDER`. -/
def allocateFrom : ℕ → ℕ → BuddyAllocator → Outcome (Option ℕ × BuddyAllocator)
  | 0, _, b => .ok (none, b)
  | n + 1, order, b => do
    match ← b.getHead order with
    | some addr => do
      let next ← b.readNextPtr addr
      let b ← b.setHead order next
      return (some addr, b)
    | none => do
      -- Split from higher order
      match ← allocateFrom n (order + 1) b with
      | (none, b) => return (none, b)
      | (some addr, b) => do
        let buddyAddr ← physAddrNew (addr + 4096 * 2 ^ order)
        let b ← b.addBlock buddyAddr order
        return (some addr, b)

/-- The first order with a free block is split down to the one asked for. -/
def allocateAtOrder : Outcome (Option ℕ × BuddyAllocator) :=
  allocateFrom (maxOrder + 1 - order) order b

def allocateContiguous : Outcome (Option ℕ × BuddyAllocator) :=
  b.allocateAtOrder order

/-- `deallocate_at_order`; the first argument is `MAX_ORDER - order`, so that
`0` is the branch `order >= MAX_ORDER`. -/
def deallocateFrom : ℕ → ℕ → ℕ → BuddyAllocator → Outcome BuddyAllocator
  | 0, addr, order, b => b.addBlock addr order
  | n + 1, addr, order, b => do
    let buddyAddr ← physAddrNew (addr ^^^ (4096 * 2 ^ order))
    match ← b.removeBlock buddyAddr order with
    | (true, b) => deallocateFrom n (min buddyAddr addr) (order + 1) b
    | (false, b) => b.addBlock addr order

/-- A block is joined with its buddy as long as the buddy is free. -/
def deallocateAtOrder : Outcome BuddyAllocator :=
  deallocateFrom (maxOrder - order) addr order b

def deallocateContiguous : Outcome BuddyAllocator :=
  b.deallocateAtOrder addr order

/-- The inner loop of `add_region`: the largest order that fits alignment and
size. The first argument counts `MAX_ORDER - order` down. -/
def fitOrder (current remaining : ℕ) : ℕ → ℕ → ℕ
  | 0, order => order
  | n + 1, order =>
    if 4096 * 2 ^ (order + 1) ∣ current ∧ 4096 * 2 ^ (order + 1) ≤ remaining then
      fitOrder current remaining n (order + 1)
    else order

def addRegionLoop (stop : ℕ) : ℕ → ℕ → BuddyAllocator → Outcome BuddyAllocator
  | 0, _, _ => .hang
  | n + 1, current, b =>
    if current < stop then do
      let order := fitOrder current (stop - current) maxOrder 0
      let addr ← physAddrNew current
      let b ← b.addBlock addr order
      addRegionLoop stop n (current + 4096 * 2 ^ order) b
    else .ok b

/-- `add_region`. Each round takes at least one page off the region, which
bounds the number of rounds. -/
def addRegion (start stop : ℕ) : Outcome BuddyAllocator :=
  addRegionLoop stop ((stop - start) / 4096 + 1) start b

def freeList : List ℕ :=
  walk (link b.mem) walkBound (b.freeLists order)

end BuddyAllocator

/-- The allocator together with what its clients know: the blocks they hold and
the regions that were added. -/
structure Arena where
  buddy : BuddyAllocator
  live : List Block
  regions : List (ℕ × ℕ)

inductive BuddyOp where
  | addRegion (start stop : ℕ)
  | allocate (order : ℕ)
  | deallocate (block : Block)
  | store (addr val : ℕ)

def BuddyOp.addsRegion : BuddyOp → Bool
  | .addRegion _ _ => true
  | _ => false

namespace Arena

def new (mem : PhysMem) : Arena := ⟨.new mem, [], []⟩

def exec (a : Arena) : BuddyOp → Outcome Arena
  | .addRegion start stop => do
    let b ← a.buddy.addRegion start stop
    return { a with buddy := b, regions := (start, stop) :: a.regions }
  | .allocate order => do
    match ← a.buddy.allocateContiguous order with
    | (some addr, b) => return { a with buddy := b, live := ⟨addr, order⟩ :: a.live }
    | (none, b) => return { a with buddy := b }
  | .deallocate block => do
    let b ← a.buddy.deallocateContiguous block.base block.order
    return { a with buddy := b, live := a.live.erase block }
  | .store addr val =>
    .ok { a with buddy := { a.buddy with mem := Function.update a.buddy.mem addr val } }

/-- The clients' side of the contract: regions are page aligned, consist of
physical addresses and overlap no earlier region; only a held block is freed,
with its own order; only memory of a held block is written. -/
def Permits (a : Arena) : BuddyOp → Prop
  | .addRegion start stop =>
    4096 ∣ start ∧ 4096 ∣ stop ∧ start < physLimit ∧ stop < physLimit ∧
      ∀ r ∈ a.regions, ∀ x, ¬ ((start ≤ x ∧ x < stop) ∧ r.1 ≤ x ∧ x < r.2)
  | .allocate _ => True
  | .deallocate block => block ∈ a.live
  | .store addr _ => 8 ∣ addr ∧ ∃ block ∈ a.live, block.Covers pageShift addr

def run (a : Arena) : List BuddyOp → Outcome Arena
  | [] => .ok a
  | op :: ops => do
    let a ← a.exec op
    run a ops

def PermitsAll (a : Arena) : List BuddyOp → Prop
  | [] => True
  | op :: ops => a.Permits op ∧ ∀ a', a.exec op = .ok a' → PermitsAll a' ops

def blocks (a : Arena) : List Block :=
  ((List.range (maxOrder + 1)).flatMap fun k => (a.buddy.freeList k).map (Block.mk · k)) ++ a.live

end Arena

end Vahi.Memory
