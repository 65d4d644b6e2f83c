import Mathlib.Data.List.GetD
import Vahi.Lib.Run
import Vahi.Vfs.Disk

/-!
# The byte adapter of the FAT file system

`BlockIoAdapter` (`crates/vfs/src/fat.rs`), which gives the `fatfs` crate a device of 512-byte
sectors as a stream of bytes. A call moves at most the rest of one sector.
-/

namespace Vahi.Vfs

open Vahi.Lib List

structure BlockIoAdapter where
  device : Disk
  offset : BitVec 64

/-- The numbers other than of `start` are `i64`. -/
inductive SeekFrom where
  | start (n : BitVec 64)
  | current (n : BitVec 64)
  | fromEnd (n : BitVec 64)

inductive IoCall where
  | seek (pos : SeekFrom)
  | read (len : ℕ)
  | write (buf : List (BitVec 8))

inductive IoResult where
  | position (n : ℕ)
  | bytes (data : List (BitVec 8))
  | written (n : ℕ)
  | failed

namespace BlockIoAdapter

variable (a : BlockIoAdapter)

def sector : ℕ := (a.offset / 512).toNat

def sectorOffset : ℕ := (a.offset % 512).toNat

/-- At most up to the end of the sector. -/
def read (len : ℕ) : IoResult × BlockIoAdapter :=
  match a.device.readSector a.sector 512 with
  | none => (.failed, a)
  | some temp =>
    let n := min len (512 - a.sectorOffset)
    (.bytes ((temp.drop a.sectorOffset).take n), { a with offset := a.offset + BitVec.ofNat 64 n })

/-- A whole sector at its start is not read before it is written. -/
def write (buf : List (BitVec 8)) : IoResult × BlockIoAdapter :=
  let temp :=
    if buf.length < 512 ∨ a.sectorOffset ≠ 0 then a.device.readSector a.sector 512
    else some (replicate 512 0)
  match temp with
  | none => (.failed, a)
  | some temp =>
    let n := min buf.length (512 - a.sectorOffset)
    match a.device.writeSector a.sector
        (temp.take a.sectorOffset ++ buf.take n ++ temp.drop (a.sectorOffset + n)) with
    | none => (.failed, a)
    | some device => (.written n, ⟨device, a.offset + BitVec.ofNat 64 n⟩)

/-- `(count * 512) as i64`, with the sum saturating. -/
def fromEnd (n : BitVec 64) : BitVec 64 :=
  BitVec.ofInt 64 (max (-2 ^ 63) (min (2 ^ 63 - 1)
    ((BitVec.ofNat 64 (a.device.sectors * 512)).toInt + n.toInt)))

def seek (pos : SeekFrom) : IoResult × BlockIoAdapter :=
  let offset :=
    match pos with
    | .start n => n
    | .current n => a.offset + n
    | .fromEnd n => a.fromEnd n
  (.position offset.toNat, { a with offset })

def exec : IoCall → IoResult × BlockIoAdapter
  | .seek pos => a.seek pos
  | .read len => a.read len
  | .write buf => a.write buf

end BlockIoAdapter

/-! ### A cursor over one array -/

structure Cursor where
  array : Disk
  pos : ℕ

namespace Cursor

def target (c : Cursor) : SeekFrom → ℤ
  | .start n => n.toNat
  | .current n => c.pos + n.toInt
  | .fromEnd n => c.array.sectors * 512 + n.toInt

/-- What a call on a cursor may do: it moves `n` bytes, at least one if there is room for any. -/
inductive Step (c : Cursor) : IoCall → IoResult → Cursor → Prop
  | seek (pos : SeekFrom) (n : ℕ) (hn : c.target pos = n) :
    Step c (.seek pos) (.position n) { c with pos := n }
  | read (len n : ℕ) (hle : n ≤ len) (hpos : 0 < len → 0 < n) :
    Step c (.read len) (.bytes (c.array.slice c.pos n)) { c with pos := c.pos + n }
  | write (buf : List (BitVec 8)) (n : ℕ) (hle : n ≤ buf.length) (hpos : 0 < buf.length → 0 < n) :
    Step c (.write buf) (.written n) ⟨c.array.write c.pos (buf.take n), c.pos + n⟩

def Within (c : Cursor) : IoCall → Prop
  | .seek pos => 0 ≤ c.target pos ∧ c.target pos ≤ c.array.sectors * 512
  | .read _ => c.pos < c.array.sectors * 512
  | .write _ => c.pos < c.array.sectors * 512

section

variable {c c' : Cursor}

theorem Step.pos_read {len : ℕ} {data : List (BitVec 8)} (h : c.Step (.read len) (.bytes data) c') :
    c'.pos = c.pos + data.length := by
  cases h
  rw [Disk.length_slice]

theorem Step.pos_write {buf : List (BitVec 8)} {n : ℕ} (h : c.Step (.write buf) (.written n) c') :
    c'.pos = c.pos + n := by
  cases h
  rfl

theorem Step.target_eq {pos : SeekFrom} {n : ℕ} (h : c.Step (.seek pos) (.position n) c') :
    c.target pos = n := by
  cases h
  assumption

end

end Cursor

namespace BlockIoAdapter

variable {a : BlockIoAdapter}

def cursor (a : BlockIoAdapter) : Cursor := ⟨a.device, a.offset.toNat⟩

theorem sector_mul_add (a : BlockIoAdapter) : a.sector * 512 + a.sectorOffset = a.offset.toNat := by
  rw [sector, sectorOffset, BitVec.toNat_udiv, BitVec.toNat_umod]
  exact Nat.div_add_mod' a.offset.toNat 512

theorem sectorOffset_lt (a : BlockIoAdapter) : a.sectorOffset < 512 := by
  rw [sectorOffset, BitVec.toNat_umod]
  exact Nat.mod_lt _ (by decide)

theorem write_splice (d : Disk) (start : ℕ) {off : ℕ} {temp bytes : List (BitVec 8)}
    (hlen : temp.length = 512) (hoff : off + bytes.length ≤ 512)
    (htemp : ∀ i < 512, ¬ (off ≤ i ∧ i < off + bytes.length) →
      temp.getD i 0 = d.byte (start + i)) :
    d.write start (temp.take off ++ bytes ++ temp.drop (off + bytes.length)) =
      d.write (start + off) bytes := by
  have htake : (temp.take off).length = off := by
    rw [length_take]
    omega
  refine congrArg (Disk.mk d.sectors) (funext fun x => ?_)
  simp only [length_append, length_drop, htake, hlen]
  by_cases hx : start ≤ x ∧ x < start + 512
  · rw [if_pos (by omega)]
    by_cases hmid : start + off ≤ x ∧ x < start + off + bytes.length
    · rw [if_pos hmid, getD_append _ _ _ _ (by rw [length_append]; omega),
        getD_append_right _ _ _ _ (by omega), htake]
      congr 1
      omega
    · rw [if_neg hmid]
      have hbyte := htemp (x - start) (by omega) (by omega)
      rw [show start + (x - start) = x by omega] at hbyte
      rw [← hbyte]
      by_cases hleft : x - start < off
      · rw [getD_append _ _ _ _ (by rw [length_append]; omega), getD_append _ _ _ _ (by omega)]
        simp only [getD_eq_getElem?_getD, getElem?_take_of_lt hleft]
      rw [getD_append_right _ _ _ _ (by rw [length_append]; omega), length_append, htake]
      simp only [getD_eq_getElem?_getD, getElem?_drop]
      congr 2
      omega
  · rw [if_neg (by omega), if_neg (by omega)]

theorem readSector_eq (hpos : a.offset.toNat < a.device.sectors * 512) :
    a.device.readSector a.sector 512 = some (a.device.slice (a.sector * 512) 512) := by
  have := a.sector_mul_add
  exact if_pos (by rw [Disk.SECTOR_SIZE]; omega)

theorem toNat_offset_add_iff {n : ℕ} (hn : n ≤ 512) :
    (a.offset + BitVec.ofNat 64 n).toNat = a.offset.toNat + n ↔ a.offset.toNat + n < 2 ^ 64 := by
  rw [BitVec.toNat_add, BitVec.toNat_ofNat]
  omega

/-- The position after the call is a `u64`, and the sum of a seek from the end does not saturate. -/
def Fits (a : BlockIoAdapter) : IoCall → Prop
  | .seek (.start _) => True
  | .seek (.current n) => a.cursor.target (.current n) < 2 ^ 64
  | .seek (.fromEnd n) => a.cursor.target (.fromEnd n) < 2 ^ 64 ∧
      -2 ^ 63 ≤ (BitVec.ofNat 64 (a.device.sectors * 512)).toInt + n.toInt ∧
      (BitVec.ofNat 64 (a.device.sectors * 512)).toInt + n.toInt < 2 ^ 63
  | .read len => a.offset.toNat + min len (512 - a.sectorOffset) < 2 ^ 64
  | .write buf => a.offset.toNat + min buf.length (512 - a.sectorOffset) < 2 ^ 64

section

variable (hpos : a.offset.toNat < a.device.sectors * 512)

include hpos

theorem step_read_iff {len : ℕ} :
    a.cursor.Step (.read len) (a.read len).1 (a.read len).2.cursor ↔ a.Fits (.read len) := by
  have hoff := a.sectorOffset_lt
  have hadd := a.sector_mul_add
  have hn : min len (512 - a.sectorOffset) ≤ 512 := by omega
  rw [read, readSector_eq hpos]
  dsimp only [cursor]
  rw [a.device.slice_drop_take _ (by omega), hadd, Fits, ← toNat_offset_add_iff hn]
  refine ⟨fun h => ?_, fun h => ?_⟩
  · have hmoved := h.pos_read
    rwa [Disk.length_slice] at hmoved
  · rw [h]
    exact .read len _ (by omega) (by omega)

theorem step_write_iff {buf : List (BitVec 8)} :
    a.cursor.Step (.write buf) (a.write buf).1 (a.write buf).2.cursor ↔ a.Fits (.write buf) := by
  have hoff := a.sectorOffset_lt
  have hadd := a.sector_mul_add
  obtain ⟨n, hn⟩ : ∃ n, min buf.length (512 - a.sectorOffset) = n := ⟨_, rfl⟩
  have hlen : (buf.take n).length = n := by
    rw [length_take]
    omega
  -- the sector is read unless all of it is overwritten
  obtain ⟨temp, htemp, hlength, hbytes⟩ : ∃ temp,
      (if buf.length < 512 ∨ a.sectorOffset ≠ 0 then a.device.readSector a.sector 512
        else some (replicate 512 0)) = some temp ∧ temp.length = 512 ∧
      ∀ i < 512, ¬ (a.sectorOffset ≤ i ∧ i < a.sectorOffset + (buf.take n).length) →
        temp.getD i 0 = a.device.byte (a.sector * 512 + i) := by
    split
    · refine ⟨_, readSector_eq hpos, Disk.length_slice _ _ _, fun i hi _ => ?_⟩
      rw [getD_eq_getElem?_getD, a.device.getElem?_slice _ hi, Option.getD_some]
    · exact ⟨_, rfl, length_replicate, fun i hi hout => absurd (by omega) hout⟩
  have hsplice := write_splice a.device (a.sector * 512) hlength (by omega) hbytes
  rw [hlen, hadd] at hsplice
  rw [write]
  rw [htemp]
  dsimp only
  rw [hn, Disk.writeSector, if_pos]
  · dsimp only [cursor]
    rw [Disk.SECTOR_SIZE, hsplice, Fits, hn, ← toNat_offset_add_iff (by omega)]
    refine ⟨fun h => h.pos_write, fun h => ?_⟩
    rw [h]
    exact .write buf n (by omega) (by omega)
  · rw [Disk.SECTOR_SIZE]
    simp only [length_append, length_take, length_drop, hlength]
    omega

end

theorem step_seek_iff {pos : SeekFrom} (h : a.cursor.Within (.seek pos)) :
    a.cursor.Step (.seek pos) (a.seek pos).1 (a.seek pos).2.cursor ↔ a.Fits (.seek pos) := by
  have hstep : a.cursor.Step (.seek pos) (a.seek pos).1 (a.seek pos).2.cursor ↔
      a.cursor.target pos = (a.seek pos).2.offset.toNat :=
    ⟨fun h => h.target_eq, fun h => .seek pos _ h⟩
  rw [hstep]
  cases pos with
  | start n => exact iff_of_true rfl trivial
  | current n =>
    simp only [Cursor.Within, Cursor.target, cursor, Fits, seek, BitVec.toInt_eq_toNat_cond] at h ⊢
    rw [BitVec.toNat_add]
    split at h <;> omega
  | fromEnd n =>
    have hsize := BitVec.toInt_eq_toNat_cond (BitVec.ofNat 64 (a.device.sectors * 512))
    have hmin := BitVec.le_toInt n
    have hmax : n.toInt < 2 ^ (64 - 1) := BitVec.toInt_lt
    simp only [Cursor.Within, Cursor.target, cursor, Fits, seek, fromEnd, BitVec.toNat_ofInt,
      BitVec.toNat_ofNat] at h hsize ⊢
    split at hsize <;> omega

theorem step_exec_iff {call : IoCall} (h : a.cursor.Within call) :
    a.cursor.Step call (a.exec call).1 (a.exec call).2.cursor ↔ a.Fits call := by
  cases call with
  | seek pos => exact step_seek_iff h
  | read len => exact step_read_iff h
  | write buf => exact step_write_iff h

def step (a : BlockIoAdapter) (call : IoCall) : BlockIoAdapter := (a.exec call).2

/-- In a run within its device the adapter is a cursor over the bytes exactly if every position is
a `u64` and no seek from the end saturates. -/
theorem along_cursor_iff (a : BlockIoAdapter) (calls : List IoCall)
    (hwithin : Along step (fun a call => a.cursor.Within call) a calls) :
    Along step (fun a call => a.cursor.Step call (a.exec call).1 (a.step call).cursor) a calls ↔
      Along step Fits a calls :=
  along_iff_of_inv_along (I := fun _ => True) (fun _ _ _ h => step_exec_iff h)
    (fun _ _ _ _ _ => trivial) trivial hwithin

/-- A write across the sectors of a disk, and what it has written. -/
theorem along_cursor_sectors :
    Along step (fun a call => a.cursor.Step call (a.exec call).1 (a.step call).cursor)
      ⟨⟨2, fun _ => 0⟩, 0⟩
      [.seek (.fromEnd (-513)), .write [1, 2], .write [2], .seek (.current (-2)), .read 2] := by
  refine (along_cursor_iff _ _ ?_).mpr ?_
  · simp only [Along, Cursor.Within, Cursor.target]
    decide +kernel
  · simp only [Along, Fits, Cursor.target]
    decide +kernel

/-- The last of `2 ^ 63` bytes is not found from the end. -/
theorem seek_fromEnd_saturates :
    let a : BlockIoAdapter := ⟨⟨2 ^ 54, fun _ => 0⟩, 0⟩
    let call := IoCall.seek (.fromEnd (-1))
    a.cursor.Within call ∧ ¬ a.cursor.Step call (a.exec call).1 (a.step call).cursor := by
  refine ⟨⟨by decide, by decide⟩, fun h => ?_⟩
  cases h with
  | seek _ _ hn => exact absurd hn (by decide)

end BlockIoAdapter

end Vahi.Vfs
