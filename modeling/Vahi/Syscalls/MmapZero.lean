import Vahi.Syscalls.Mmap

/-!
# Contents of anonymous mappings

`sys_mmap` and `sys_munmap` change the list of areas only. The page fault handler maps zeros at the
first access to a page, which stays until then, whatever becomes of its area.
-/

namespace Vahi.Syscalls

open Vahi.Lib Vahi.Types Vahi.Memory Vahi.Task Function

structure UserPage where
  writable : Bool
  bytes : ℕ → BitVec 8

/-- The areas of a process and its pages by number. For the statements only: the bytes it has
stored, the last one first. -/
structure UserSpace where
  memory : ProcessMemory
  pages : ℕ → Option UserPage := fun _ => none
  stores : List (BitVec 64 × BitVec 8) := []

inductive SpaceOp where
  | mmap (args : MmapArgs)
  | munmap (addr len : BitVec 64)
  /-- A load; `frame` says whether the handler can have a frame. -/
  | load (addr : BitVec 64) (frame : Bool)
  | store (addr : BitVec 64) (byte : BitVec 8) (frame : Bool)

namespace UserSpace

variable (s : UserSpace) (addr : BitVec 64)

/-- What the page fault handler maps for a page that is not present: whether it may be written. -/
def faultFlags : Option Bool :=
  match findVma s.memory.vmas addr with
  | some v => some (v.flags.getLsbD 1)
  | none => if 0x600000000000 ≤ addr ∧ addr < s.memory.brk then some true else none

def touch (frame : Bool) : UserSpace :=
  match s.pages (addr.toNat / 4096), s.faultFlags addr with
  | none, some writable =>
    if frame then
      { s with
        pages := update s.pages (addr.toNat / 4096)
          (some { writable, bytes := fun _ => 0 }) }
    else s
  | _, _ => s

def read (frame : Bool) : Option (BitVec 8) :=
  ((s.touch addr frame).pages (addr.toNat / 4096)).map fun p => p.bytes (addr.toNat % 4096)

def write (byte : BitVec 8) : UserSpace :=
  match s.pages (addr.toNat / 4096) with
  | some p =>
    if p.writable then
      { s with
        pages := update s.pages (addr.toNat / 4096)
          (some { p with bytes := update p.bytes (addr.toNat % 4096) byte })
        stores := (addr, byte) :: s.stores }
    else s
  | none => s

/-- One operation; user mode reaches its own half of the addresses only. -/
def step : SpaceOp → UserSpace
  | .mmap args => { s with memory := VmaResult.memory s.memory (sysMmap s.memory args) }
  | .munmap addr len => { s with memory := sysMunmap s.memory addr len }
  | .load addr frame => if addr.toNat < userEnd then s.touch addr frame else s
  | .store addr byte frame =>
    if addr.toNat < userEnd then (s.touch addr frame).write addr byte else s

def byteAt : BitVec 8 :=
  match s.pages (addr.toNat / 4096) with
  | some p => p.bytes (addr.toNat % 4096)
  | none => 0

def lastStored : BitVec 8 :=
  ((s.stores.find? fun e => e.1 = addr).map (·.2)).getD 0

end UserSpace

/-- A new anonymous mapping that `mmap` returns, whatever its flags: its first address. -/
def newMapping (s : UserSpace) (args : MmapArgs) : Option (BitVec 64) :=
  match sysMmap s.memory args with
  | .ok (_, .ok addr) => if args.fd = BitVec.allOnes 64 then some addr else none
  | _ => none

/-- The first load of any byte of a new mapping yields zero. -/
def FreshZero (s : UserSpace) : SpaceOp → Prop
  | .mmap args => ∀ addr, newMapping s args = some addr →
    ∀ i < args.pageLen, (s.step (.mmap args)).read (addr + i) true = some 0
  | _ => True

/-- The new mapping is where nothing was stored before, or zero last. -/
def NothingLeft (s : UserSpace) : SpaceOp → Prop
  | .mmap args => ∀ addr, newMapping s args = some addr →
    ∀ i < args.pageLen, s.lastStored (addr + i) = 0
  | _ => True

/-- A byte is what was last stored at its address. -/
def UserSpace.Faithful (s : UserSpace) : Prop := ∀ addr, s.byteAt addr = s.lastStored addr

variable {s : UserSpace} {args : MmapArgs}

namespace UserSpace

theorem touch_stores (s : UserSpace) (addr : BitVec 64) (frame : Bool) :
    (s.touch addr frame).stores = s.stores := by
  unfold touch
  split
  · split
    · rfl
    · rfl
  · rfl

/-- The handler changes no byte. -/
theorem byteAt_touch (s : UserSpace) (addr : BitVec 64) (frame : Bool) (a : BitVec 64) :
    (s.touch addr frame).byteAt a = s.byteAt a := by
  unfold touch
  split
  · next hnone _ =>
    split
    · rw [byteAt, byteAt]
      by_cases hpage : a.toNat / 4096 = addr.toNat / 4096
      · rw [hpage, hnone]
        simp
      · simp [update_of_ne hpage]
    · rfl
  · rfl

variable {addr : BitVec 64}

/-- A store changes the byte at its address, and only that. -/
theorem byteAt_write {p : UserPage} {byte : BitVec 8}
    (hp : s.pages (addr.toNat / 4096) = some p) (hw : p.writable) (a : BitVec 64) :
    (s.write addr byte).byteAt a = if a = addr then byte else s.byteAt a := by
  rw [write, hp]
  simp only [hw, if_true, byteAt]
  by_cases hpage : a.toNat / 4096 = addr.toNat / 4096
  · rw [hpage, hp]
    simp only [update_self]
    by_cases heq : a = addr
    · subst heq
      simp
    · have hoff : a.toNat % 4096 ≠ addr.toNat % 4096 := fun hoff => heq (BitVec.eq_of_toNat_eq (by omega))
      rw [if_neg heq, update_of_ne hoff]
  · have heq : a ≠ addr := fun heq => hpage (by rw [heq])
    rw [if_neg heq, update_of_ne hpage]

theorem lastStored_cons (addr : BitVec 64) (byte : BitVec 8) (a : BitVec 64) :
    lastStored { s with stores := (addr, byte) :: s.stores } a =
      if a = addr then byte else s.lastStored a := by
  rw [lastStored, List.find?_cons]
  by_cases heq : a = addr
  · simp [heq]
  · simp [heq, Ne.symm heq, lastStored]

theorem Faithful.touch (h : s.Faithful) (addr : BitVec 64) (frame : Bool) :
    (s.touch addr frame).Faithful := by
  intro a
  rw [byteAt_touch, h a, lastStored, lastStored, touch_stores]

theorem Faithful.write (h : s.Faithful) (addr : BitVec 64) (byte : BitVec 8) :
    (s.write addr byte).Faithful := by
  intro a
  cases hp : s.pages (addr.toNat / 4096) with
  | none =>
    rw [UserSpace.write, hp]
    exact h a
  | some p =>
    cases hw : p.writable with
    | false =>
      rw [UserSpace.write, hp]
      simpa [hw] using h a
    | true =>
      rw [byteAt_write hp hw, h a]
      have hstores : (s.write addr byte).stores = (addr, byte) :: s.stores := by
        simp [UserSpace.write, hp, hw]
      have hlast := lastStored_cons (s := s) addr byte a
      rw [← hlast, lastStored, lastStored, hstores]

theorem Faithful.step (h : s.Faithful) (op : SpaceOp) : (s.step op).Faithful := by
  cases op with
  | mmap args => exact h
  | munmap addr len => exact h
  | load addr frame =>
    rw [UserSpace.step]
    split
    · exact h.touch addr frame
    · exact h
  | store addr byte frame =>
    rw [UserSpace.step]
    split
    · exact (h.touch addr frame).write addr byte
    · exact h

/-- A load in an area yields the byte at its address. -/
theorem read_of_findVma {v : Vma} (hv : findVma s.memory.vmas addr = some v) :
    s.read addr true = some (s.byteAt addr) := by
  have hflags : s.faultFlags addr = some (v.flags.getLsbD 1) := by
    rw [faultFlags, hv]
  rw [read, byteAt]
  cases hp : s.pages (addr.toNat / 4096) with
  | none => simp [touch, hp, hflags]
  | some p => simp [touch, hp]

end UserSpace

/-- What a new mapping adds to the list of areas. -/
theorem newMapping_spec {addr : BitVec 64} (h : newMapping s args = some addr) :
    addr.toNat + args.pageLen.toNat ≤ mmapMax.toNat ∧
      (s.step (.mmap args)).memory.vmas = insertVmaLocked s.memory.vmas (args.vma addr) := by
  rw [newMapping] at h
  split at h
  · next m a hmmap =>
    obtain rfl : a = addr := by
      split at h
      · exact Option.some.inj h
      · cases h
    rw [UserSpace.step, hmmap]
    rw [sysMmap] at hmmap
    split at hmmap
    · cases hmmap
    split at hmmap
    · cases hmmap
    obtain ⟨found, hfind, hfound⟩ := Outcome.bind_eq_ok.mp hmmap
    cases found with
    | none => cases hfound
    | some b =>
      cases hfound
      exact ⟨(findFreeFrom_spec (by decide) hfind).1, rfl⟩
  · cases h

/-- Every address of a new mapping is in an area. -/
theorem findVma_newMapping {addr i : BitVec 64}
    (h : newMapping s args = some addr) (hi : i < args.pageLen) :
    ∃ v, findVma (s.step (.mmap args)).memory.vmas (addr + i) = some v := by
  obtain ⟨hmax, hvmas⟩ := newMapping_spec h
  have hcovers : (args.vma addr).Covers (addr + i) := by
    constructor
    · show addr ≤ addr + i
      bv_omega
    · show addr + i < addr + args.pageLen
      bv_omega
  obtain ⟨v, hv, hin⟩ := exists_covers_insertVmaLocked s.memory.vmas hcovers
  rw [findVma, hvmas]
  refine Option.isSome_iff_exists.mp (List.find?_isSome.mpr ⟨v, hv, ?_⟩)
  exact decide_eq_true hin

/-- For a mapping the bytes were stored before it was made. -/
theorem freshZero_iff_of_faithful (h : s.Faithful) (op : SpaceOp) :
    FreshZero s op ↔ NothingLeft s op := by
  cases op with
  | mmap args =>
    refine forall₂_congr fun addr haddr => forall₂_congr fun i hi => ?_
    obtain ⟨v, hv⟩ := findVma_newMapping haddr hi
    rw [UserSpace.read_of_findVma hv, Option.some.injEq]
    exact Eq.congr_left (h (addr + i))
  | munmap | load | store => exact Iff.rfl

def UserSpace.start (m : ProcessMemory) : UserSpace := { memory := m }

/-- New anonymous mappings read as zero throughout a run exactly if none of them covers an
address where a byte other than zero was stored last, through whatever area. -/
theorem freshZero_iff_nothingLeft (m : ProcessMemory) (ops : List SpaceOp) :
    Along UserSpace.step FreshZero (.start m) ops ↔
      Along UserSpace.step NothingLeft (.start m) ops :=
  along_iff_of_inv (I := UserSpace.Faithful) (fun _ op h => freshZero_iff_of_faithful h op)
    (fun _ op h _ => h.step op) fun _ => rfl

/-- A page is mapped, written, unmapped and mapped again. -/
def remapped : List SpaceOp :=
  [.mmap { addr := 0x1000, len := 0x1000 }, .store 0x1000 7 true, .munmap 0x1000 0x1000,
    .mmap { addr := 0x1000, len := 0x1000 }]

theorem remapped_leaks :
    ¬ Along UserSpace.step FreshZero (.start { brk := 0, vmas := [] }) remapped := by
  rintro ⟨-, -, -, hlast, -⟩
  have hread := hlast 0x1000 (by decide +kernel) 0 (by decide +kernel)
  revert hread
  decide +kernel

end Vahi.Syscalls
