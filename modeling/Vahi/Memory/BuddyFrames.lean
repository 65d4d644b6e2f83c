import Vahi.Memory.BuddyPartition
import Vahi.Memory.FrameInfo

/-!
# The buddy allocator as a frame allocator

`BuddyFrameAllocator` allocates and frees blocks of order 0. There are no swap devices, so an
allocation that fails does not evict a page.
-/

namespace Vahi.Memory

open Vahi.Lib

namespace Arena

def freeCount (a : Arena) (f : ℕ) : ℕ :=
  coverage pageShift (freeBlocks a.buddy.freeList) (4096 * f)

/-- `allocate_frame`; a panic or an endless loop gives no frame either. -/
def allocateFrame (a : Arena) : Option (ℕ × Arena) :=
  match a.buddy.allocateContiguous 0 with
  | .ok (some addr, b) => some (addr / 4096, { a with buddy := b, live := ⟨addr, 0⟩ :: a.live })
  | _ => none

def deallocateFrame (f : ℕ) (a : Arena) : Arena :=
  match a.buddy.deallocateAtOrder (4096 * f) 0 with
  | .ok b => { a with buddy := b, live := a.live.erase ⟨4096 * f, 0⟩ }
  | _ => a

end Arena

variable {a : Arena} {f : ℕ}

variable (h : ArenaInv a)

include h

/-- The partition at one byte of a frame. -/
theorem freeCount_add (f : ℕ) :
    a.freeCount f + coverage pageShift a.live (4096 * f) = regionCover a.regions (4096 * f) := by
  obtain ⟨lists, h⟩ := h
  have hblocks : freeBlocks a.buddy.freeList ++ a.live = freeBlocks lists ++ a.live := h.blocks_eq
  rw [Arena.freeCount, ← coverage_append, hblocks, h.cover]

omit h in
/-- A block of order 0 contains one frame. -/
theorem coverage_frame (f x : ℕ) (l : List Block) :
    coverage pageShift (⟨4096 * f, 0⟩ :: l) (4096 * x) =
      coverage pageShift l (4096 * x) + [f].count x := by
  have hsize : (⟨4096 * f, 0⟩ : Block).size pageShift = 4096 := rfl
  have hcovers : (⟨4096 * f, 0⟩ : Block).Covers pageShift (4096 * x) ↔ f = x := by
    rw [Block.Covers, hsize]
    dsimp only
    omega
  rw [coverage_cons, List.count_singleton]
  simp only [hcovers, beq_iff_eq]

theorem freeCount_le_one (f : ℕ) : a.freeCount f ≤ 1 := by
  have hadd := freeCount_add h f
  obtain ⟨lists, h⟩ := h
  have := h.once (4096 * f)
  omega

/-- A frame that was handed out is not free. -/
theorem freeCount_eq_zero (hf : ⟨4096 * f, 0⟩ ∈ a.live) : a.freeCount f = 0 := by
  have hadd := freeCount_add h f
  rw [coverage_perm (List.perm_cons_erase hf), coverage_frame, List.count_singleton_self] at hadd
  obtain ⟨lists, h⟩ := h
  have := h.once (4096 * f)
  omega

theorem allocateFrame_spec {a' : Arena} (ha : a.allocateFrame = some (f, a')) :
    ArenaInv a' ∧ a'.regions = a.regions ∧ a'.live = ⟨4096 * f, 0⟩ :: a.live := by
  rw [Arena.allocateFrame] at ha
  split at ha
  · next addr b hres =>
    cases ha
    have hpermits : a.Permits (.allocate 0) := trivial
    obtain ⟨a', hexec, hinv, -⟩ := exec_inv h hpermits
    obtain rfl : (⟨b, ⟨addr, 0⟩ :: a.live, a.regions⟩ : Arena) = a' := by
      simpa [Arena.exec, hres] using hexec
    obtain ⟨lists, hlists⟩ := hinv
    have haligned : 4096 ∣ addr := (hlists.wf ⟨addr, 0⟩ (by simp)).2
    refine ⟨⟨lists, hlists⟩, rfl, ?_⟩
    rw [Nat.mul_div_cancel' haligned]
  · cases ha

theorem deallocateFrame_spec (hf : ⟨4096 * f, 0⟩ ∈ a.live) :
    ArenaInv (a.deallocateFrame f) ∧ (a.deallocateFrame f).regions = a.regions ∧
      (a.deallocateFrame f).live = a.live.erase ⟨4096 * f, 0⟩ := by
  have hpermits : a.Permits (.deallocate ⟨4096 * f, 0⟩) := hf
  obtain ⟨a', hexec, hinv, -⟩ := exec_inv h hpermits
  obtain ⟨b, hres, ha'⟩ := Outcome.bind_eq_ok.mp hexec
  have hres' : a.buddy.deallocateAtOrder (4096 * f) 0 = .ok b := hres
  cases ha'
  have heq : a.deallocateFrame f = ⟨b, a.live.erase ⟨4096 * f, 0⟩, a.regions⟩ := by
    simp only [Arena.deallocateFrame, hres']
  rw [heq]
  exact ⟨hinv, rfl, rfl⟩

/-- `BuddyFrameAllocator`. A frame is held as the block of order 0 that was handed out. -/
def buddyFrameAllocator : FrameAllocator Arena where
  allocate := Arena.allocateFrame
  deallocate := Arena.deallocateFrame
  free := Arena.freeCount
  Held a f := ⟨4096 * f, 0⟩ ∈ a.live
  Valid := ArenaInv
  valid_allocate h ha := (allocateFrame_spec h ha).1
  free_allocate {a f a'} h ha x := by
    obtain ⟨hinv, hregions, hlive⟩ := allocateFrame_spec h ha
    have hbefore := freeCount_add h x
    have hafter := freeCount_add hinv x
    rw [hlive, coverage_frame, hregions] at hafter
    omega
  held_allocate {a f a'} h ha x hx := by
    rw [(allocateFrame_spec h ha).2.2]
    rcases hx with rfl | hx
    · exact List.mem_cons_self
    · exact List.mem_cons_of_mem _ hx
  valid_deallocate h hf := (deallocateFrame_spec h hf).1
  free_deallocate {a f} h hf x := by
    obtain ⟨hinv, hregions, hlive⟩ := deallocateFrame_spec h hf
    have hbefore := freeCount_add h x
    have hafter := freeCount_add hinv x
    rw [coverage_perm (List.perm_cons_erase hf), coverage_frame] at hbefore
    rw [hlive, hregions] at hafter
    omega
  held_deallocate {a f} h hf x hx hheld := by
    rw [(deallocateFrame_spec h hf).2.2]
    refine (List.mem_erase_of_ne ?_).mpr hheld
    intro heq
    have hbase : 4096 * x = 4096 * f := congrArg Block.base heq
    omega

end Vahi.Memory
