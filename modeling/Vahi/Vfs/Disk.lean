import Vahi.Lib.Layout

/-!
# Disks

A block device (`crates/drivers/src/block/mod.rs`): `read_sector` and `write_sector` move whole
sectors from the given one on, as the block cache does, and fail behind the last sector.
-/

namespace Vahi.Vfs

open Vahi.Lib List

/-- The number of sectors is not bounded by the `u64` of the device. -/
structure Disk where
  sectors : ℕ
  byte : ℕ → BitVec 8

namespace Disk

def SECTOR_SIZE : ℕ := 512

def slice (d : Disk) (addr len : ℕ) : List (BitVec 8) :=
  (List.range len).map fun i => d.byte (addr + i)

/-- `read_sector` into a buffer of `len` bytes, a multiple of the sector size. -/
def readSector (d : Disk) (sector len : ℕ) : Option (List (BitVec 8)) :=
  if sector + len / SECTOR_SIZE ≤ d.sectors then some (d.slice (sector * SECTOR_SIZE) len) else none

def write (d : Disk) (addr : ℕ) (bytes : List (BitVec 8)) : Disk :=
  { d with
    byte := fun a =>
      if addr ≤ a ∧ a < addr + bytes.length then bytes.getD (a - addr) 0 else d.byte a }

/-- `write_sector` from a buffer whose length is a multiple of the sector size. -/
def writeSector (d : Disk) (sector : ℕ) (bytes : List (BitVec 8)) : Option Disk :=
  if sector + bytes.length / SECTOR_SIZE ≤ d.sectors then
    some (d.write (sector * SECTOR_SIZE) bytes)
  else none

def number (d : Disk) (addr size : ℕ) : ℕ := ofBytes (fun i => d.byte (addr + i)) size

variable (d : Disk)

@[simp] theorem length_slice (addr len : ℕ) : (d.slice addr len).length = len := by
  rw [slice, length_map, length_range]

theorem getElem?_slice (addr : ℕ) {len i : ℕ} (hi : i < len) :
    (d.slice addr len)[i]? = some (d.byte (addr + i)) := by
  rw [slice, getElem?_map, getElem?_range hi, Option.map_some]

theorem slice_append (addr m n : ℕ) :
    d.slice addr m ++ d.slice (addr + m) n = d.slice addr (m + n) := by
  rw [slice, slice, slice, range_add, map_append, map_map]
  refine congrArg _ (map_congr_left fun i _ => ?_)
  rw [Nat.add_assoc]
  rfl

theorem slice_drop_take (addr : ℕ) {len offset size : ℕ} (h : offset + size ≤ len) :
    ((d.slice addr len).drop offset).take size = d.slice (addr + offset) size := by
  refine ext_getElem? fun i => ?_
  by_cases hi : i < size
  · rw [getElem?_take_of_lt hi, getElem?_drop, getElem?_slice d addr (by omega),
      getElem?_slice d _ hi, Nat.add_assoc]
  · rw [getElem?_eq_none (by rw [length_take]; omega),
      getElem?_eq_none (by rw [length_slice]; omega)]

end Disk

/-- The little-endian number at an offset of a buffer; there are no bytes behind its end. -/
def leAt (data : List (BitVec 8)) (offset size : ℕ) : ℕ :=
  ofBytes (fun i => data.getD (offset + i) 0) size

theorem leAt_slice (d : Disk) {addr len offset size : ℕ} (h : offset + size ≤ len) :
    leAt (d.slice addr len) offset size = d.number (addr + offset) size := by
  refine ofBytes_congr fun i hi => ?_
  rw [getD_eq_getElem?_getD, Disk.getElem?_slice d addr (by omega), Option.getD_some, Nat.add_assoc]

end Vahi.Vfs
