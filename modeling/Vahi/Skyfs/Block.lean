import Vahi.Lib.Layout

/-!
# Blocks of a SkyFS device

The device is a map from block numbers to blocks of 4096 bytes. Packed structures are read and
written as fields: little-endian numbers at fixed offsets.
-/

namespace Vahi.Skyfs

open Vahi.Lib

def BLOCK_SIZE : ℕ := 4096

abbrev Block := Fin BLOCK_SIZE → BitVec 8

structure Field where
  offset : ℕ
  size : ℕ
  deriving DecidableEq

namespace Block

def zero : Block := fun _ => 0

def byte (b : Block) (i : ℕ) : BitVec 8 := if h : i < BLOCK_SIZE then b ⟨i, h⟩ else 0

def get (b : Block) (f : Field) : ℕ := ofBytes (fun i => b.byte (f.offset + i)) f.size

def set (b : Block) (f : Field) (v : ℕ) : Block := fun i =>
  if f.offset ≤ i ∧ i < f.offset + f.size then byteOf v (i - f.offset) else b i

/-- A zeroed block after `copy_from_slice` of as much of the data as fits. -/
def ofSlice (data : List (BitVec 8)) : Block := fun i => data.getD i 0

theorem byte_set (b : Block) (f : Field) (v : ℕ) {i : ℕ} (hi : i < BLOCK_SIZE) :
    (b.set f v).byte i =
      if f.offset ≤ i ∧ i < f.offset + f.size then byteOf v (i - f.offset) else b.byte i := by
  simp only [byte, hi, dif_pos, set]

theorem get_set_self (b : Block) {f : Field} (hf : f.offset + f.size ≤ BLOCK_SIZE) (v : ℕ) :
    (b.set f v).get f = v % 256 ^ f.size := by
  rw [← ofBytes_byteOf]
  apply ofBytes_congr
  intro i hi
  rw [byte_set b f v (by omega), if_pos (by omega), Nat.add_sub_cancel_left]

end Block

abbrev Device := ℕ → Block

def Device.write (d : Device) (block : ℕ) (data : Block) : Device :=
  Function.update d block data

theorem Device.write_self (d : Device) (block : ℕ) (data : Block) : d.write block data block = data :=
  Function.update_self ..

theorem Device.write_of_ne (d : Device) {block other : ℕ} (h : other ≠ block) (data : Block) :
    d.write block data other = d other :=
  Function.update_of_ne h ..

end Vahi.Skyfs
