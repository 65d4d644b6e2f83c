import Vahi.Drivers.BlockCache
import Vahi.Lib.Outcome
import Vahi.Vfs.Disk

/-!
# Partitions

`parse_partitions` and the device that a partition makes (`crates/drivers/src/block/partition.rs`).
It compares the sector asked for with its size, but not where the transfer ends.
-/

namespace Vahi.Drivers

open Vahi.Lib Vahi.Vfs List

structure Partition where
  index : BitVec 8
  lbaStart : BitVec 64
  sectorCount : BitVec 64
  type : BitVec 8
  isGpt : Bool
  gptTypeGuid : List (BitVec 8)
  name : List (BitVec 8)
  deriving DecidableEq

/-! ### Partition tables -/

def hasMbrSignature (mbr : List (BitVec 8)) : Bool :=
  mbr.getD 510 0 == 0x55 && mbr.getD 511 0 == 0xAA

/-- Entry `i` of the table at `0x1BE`; empty types and sizes are skipped. -/
def mbrEntry (mbr : List (BitVec 8)) (i : ℕ) : Option Partition :=
  let offset := 0x1BE + i * 16
  let type := mbr.getD (offset + 4) 0
  let lbaStart := BitVec.ofNat 64 (leAt mbr (offset + 8) 4)
  let sectorCount := BitVec.ofNat 64 (leAt mbr (offset + 12) 4)
  if type = 0 then none
  else if sectorCount = 0 then none
  else
    some ⟨BitVec.ofNat 8 (i + 1), lbaStart, sectorCount, type, false, replicate 16 0,
      replicate 72 0⟩

def parseMbr (device : Vfs.Disk) : Option (List Partition) :=
  match device.readSector 0 512 with
  | none => none
  | some mbr =>
    if hasMbrSignature mbr then some ((range 4).filterMap (mbrEntry mbr)) else none

/-- The name of an entry: 36 characters, those outside Latin-1 as question marks. -/
def gptName (buf : List (BitVec 8)) (offset : ℕ) : List (BitVec 8) :=
  (range 36).map (fun j =>
    let c := leAt buf (offset + 56 + j * 2) 2
    if c < 256 then BitVec.ofNat 8 c else 0x3f) ++ replicate 36 0

/-- An entry without a type is unused; the last sector belongs to the partition. -/
def gptEntry (buf : List (BitVec 8)) (offset i : ℕ) : Option Partition :=
  let typeGuid := (buf.drop offset).take 16
  let startingLba := BitVec.ofNat 64 (leAt buf (offset + 32) 8)
  let endingLba := BitVec.ofNat 64 (leAt buf (offset + 40) 8)
  if typeGuid = replicate 16 0 then none
  else
    some ⟨BitVec.ofNat 8 (i + 1), startingLba, endingLba - startingLba + 1, 0xEE, true, typeGuid,
      gptName buf offset⟩

/-- The sector that entry `i` is in: entries of one sector are taken from the buffer. -/
def gptSector (device : Vfs.Disk) (entryLba : BitVec 64) (perSector i : ℕ)
    (buf : List (BitVec 8)) : Option (List (BitVec 8)) :=
  if i % perSector = 0 then
    device.readSector (entryLba + BitVec.ofNat 64 (i / perSector)).toNat 512
  else some buf

/-- The loop of `read_gpt_entries` from entry `i` on, with `n` entries left. Entries of more than
a sector make it divide by zero. -/
def readGptEntries (device : Vfs.Disk) (entryLba : BitVec 64) (entrySize : ℕ) :
    ℕ → ℕ → List (BitVec 8) → List Partition → Outcome (Option (List Partition))
  | 0, _, _, parts => .ok (some parts)
  | n + 1, i, buf, parts =>
    if 512 / entrySize = 0 then .panic
    else
      match gptSector device entryLba (512 / entrySize) i buf with
      | none => .ok none
      | some buf =>
        readGptEntries device entryLba entrySize n (i + 1) buf
          (parts ++ (gptEntry buf (i % (512 / entrySize) * entrySize) i).toList)

/-- `b"EFI PART"`. -/
def efiPart : List (BitVec 8) := [0x45, 0x46, 0x49, 0x20, 0x50, 0x41, 0x52, 0x54]

/-- The header is the second sector, behind the protective boot record. -/
def parseGpt (device : Vfs.Disk) : Outcome (Option (List Partition)) :=
  match device.readSector 0 512, device.readSector 1 512 with
  | some mbr, some header =>
    if !hasMbrSignature mbr then .ok none
    else if header.take 8 ≠ efiPart then .ok none
    else
      let headerSize := leAt header 12 4
      let entryLba := BitVec.ofNat 64 (leAt header 72 8)
      let numEntries := leAt header 80 4
      let entrySize := leAt header 84 4
      if headerSize < 92 ∨ entrySize < 128 then .ok none
      else readGptEntries device entryLba entrySize numEntries 0 (replicate 512 0) []
  | _, _ => .ok none

/-- The boot record is only asked if there is no table of GUIDs or an empty one. -/
def parsePartitions (device : Vfs.Disk) : Outcome (List Partition) := do
  match ← parseGpt device with
  | some (p :: parts) => return p :: parts
  | _ => return (parseMbr device).getD []

/-! ### The device of a partition -/

structure PartitionDevice where
  parent : Vfs.Disk
  lbaStart : BitVec 64
  sectorCount : BitVec 64

def Partition.device (p : Partition) (parent : Vfs.Disk) : PartitionDevice :=
  ⟨parent, p.lbaStart, p.sectorCount⟩

namespace PartitionDevice

variable {d : PartitionDevice} {sector : BitVec 64} {len : ℕ} {buf : List (BitVec 8)}

/-- `read_sector` into a buffer of `len` bytes. -/
def readSector (d : PartitionDevice) (sector : BitVec 64) (len : ℕ) :
    Except BlockDeviceError (List (BitVec 8)) :=
  if d.sectorCount ≤ sector then .error .invalidSector
  else
    match d.parent.readSector (d.lbaStart + sector).toNat len with
    | some buf => .ok buf
    | none => .error .invalidSector

/-- The sum of the two sector numbers wraps around. -/
def writeSector (d : PartitionDevice) (sector : BitVec 64) (buf : List (BitVec 8)) :
    Except BlockDeviceError PartitionDevice :=
  if d.sectorCount ≤ sector then .error .invalidSector
  else
    match d.parent.writeSector (d.lbaStart + sector).toNat buf with
    | some parent => .ok { d with parent := parent }
    | none => .error .invalidSector

/-- The sectors of the parent that a transfer of `len` bytes touches. -/
def touched (d : PartitionDevice) (sector : BitVec 64) (len : ℕ) : List ℕ :=
  range' (d.lbaStart + sector).toNat (len / 512)

def Confined (d : PartitionDevice) (sector : BitVec 64) (len : ℕ) : Prop :=
  ∀ k ∈ d.touched sector len,
    d.lbaStart.toNat ≤ k ∧ k < d.lbaStart.toNat + d.sectorCount.toNat

instance (d : PartitionDevice) (sector : BitVec 64) (len : ℕ) : Decidable (d.Confined sector len) :=
  inferInstanceAs (Decidable (∀ k ∈ _, _))

/-- The transfer ends inside the partition, and its first sector does not wrap around. -/
def Inside (d : PartitionDevice) (sector : BitVec 64) (len : ℕ) : Prop :=
  sector.toNat + len / 512 ≤ d.sectorCount.toNat ∧ d.lbaStart.toNat + sector.toNat < 2 ^ 64

theorem confined_iff_inside (hlen : 0 < len) (hmul : 512 ∣ len) :
    d.Confined sector len ↔ d.Inside sector len := by
  have hn : 0 < len / 512 := Nat.div_pos (Nat.le_of_dvd hlen hmul) (by decide)
  simp only [Confined, touched, Inside, mem_range'_1, BitVec.toNat_add]
  generalize len / 512 = n at hn ⊢
  constructor
  · intro h
    -- the first and the last sector
    have hfirst := h _ ⟨Nat.le_refl _, by omega⟩
    have hlast := h ((d.lbaStart.toNat + sector.toNat) % 2 ^ 64 + (n - 1)) ⟨by omega, by omega⟩
    omega
  · rintro ⟨hend, hnowrap⟩ k ⟨hlo, hhi⟩
    omega

/-- A read returns the bytes of the touched sectors. -/
theorem readSector_eq_ok (h : d.readSector sector len = .ok buf) :
    buf = d.parent.slice ((d.lbaStart + sector).toNat * 512) len := by
  rw [readSector] at h
  split at h
  · cases h
  split at h
  · next hread =>
    cases h
    exact (Option.some.inj (Option.ite_none_right_eq_some.1 hread).2).symm
  · cases h

/-- A write changes no byte outside them. -/
theorem byte_writeSector {d' : PartitionDevice} (hmul : 512 ∣ buf.length)
    (h : d.writeSector sector buf = .ok d') {a : ℕ} (ha : a / 512 ∉ d.touched sector buf.length) :
    d'.parent.byte a = d.parent.byte a := by
  rw [writeSector] at h
  split at h
  · cases h
  split at h
  · next hwrite =>
    cases h
    cases (Option.ite_none_right_eq_some.1 hwrite).2
    refine if_neg ?_
    rintro ⟨hlo, hhi⟩
    refine ha (mem_range'_1.2 ?_)
    rw [Vfs.Disk.SECTOR_SIZE] at hlo hhi
    omega
  · cases h

theorem writeSector_of_fits (hsector : sector < d.sectorCount)
    (hfits : (d.lbaStart + sector).toNat + buf.length / 512 ≤ d.parent.sectors) :
    d.writeSector sector buf =
      .ok { d with parent := d.parent.write ((d.lbaStart + sector).toNat * 512) buf } := by
  rw [writeSector, if_neg (BitVec.not_le.2 hsector), Vfs.Disk.writeSector, Vfs.Disk.SECTOR_SIZE,
    if_pos hfits]

end PartitionDevice

/-! ### The partitions of a disk -/

variable {disk : Vfs.Disk} {parts found : List Partition} {p : Partition} {buf : List (BitVec 8)}
  {i : ℕ}

/-- The numbers of an MBR entry have 32 bits. -/
theorem bound_of_mem_parseMbr (h : parseMbr disk = some parts) (hp : p ∈ parts) :
    p.lbaStart.toNat < 2 ^ 32 ∧ p.sectorCount.toNat < 2 ^ 32 := by
  rw [parseMbr] at h
  split at h
  · cases h
  next mbr _ =>
  obtain ⟨-, h⟩ := Option.ite_none_right_eq_some.1 h
  cases h
  obtain ⟨i, -, hentry⟩ := mem_filterMap.1 hp
  rw [mbrEntry, Option.ite_none_left_eq_some] at hentry
  obtain ⟨-, hentry⟩ := hentry
  obtain ⟨-, hentry⟩ := Option.ite_none_left_eq_some.1 hentry
  cases hentry
  have hlba := ofBytes_lt (fun j => mbr.getD (0x1BE + i * 16 + 8 + j) 0) 4
  have hcount := ofBytes_lt (fun j => mbr.getD (0x1BE + i * 16 + 12 + j) 0) 4
  simp only [BitVec.toNat_ofNat, leAt]
  omega

theorem isGpt_of_gptEntry {offset : ℕ} (h : gptEntry buf offset i = some p) : p.isGpt = true := by
  obtain ⟨-, h⟩ := Option.ite_none_left_eq_some.1 h
  cases h
  rfl

theorem isGpt_of_mem_readGptEntries {entryLba : BitVec 64} {entrySize n : ℕ}
    (hparts : ∀ q ∈ parts, q.isGpt = true)
    (h : readGptEntries disk entryLba entrySize n i buf parts = .ok (some found))
    (hp : p ∈ found) : p.isGpt = true := by
  induction n generalizing i buf parts with
  | zero =>
    cases h
    exact hparts p hp
  | succ n ih =>
    rw [readGptEntries] at h
    split at h
    · cases h
    split at h
    · cases h
    refine ih (fun q hq => ?_) h
    obtain hq | hq := mem_append.1 hq
    · exact hparts q hq
    · exact isGpt_of_gptEntry (Option.mem_toList.1 hq)

/-- `header` sends `parse_gpt` to the entries. -/
def HasGpt (device : Vfs.Disk) (header : List (BitVec 8)) : Prop :=
  (∃ mbr, device.readSector 0 512 = some mbr ∧ hasMbrSignature mbr = true) ∧
    device.readSector 1 512 = some header ∧ header.take 8 = efiPart ∧
    92 ≤ leAt header 12 4 ∧ 128 ≤ leAt header 84 4

theorem parseGpt_cases (disk : Vfs.Disk) :
    parseGpt disk = .ok none ∨
    ∃ header, HasGpt disk header ∧
      parseGpt disk = readGptEntries disk (BitVec.ofNat 64 (leAt header 72 8)) (leAt header 84 4)
        (leAt header 80 4) 0 (replicate 512 0) [] := by
  rw [parseGpt]
  split
  · rename_i mbr header hmbr hheader
    by_cases hsig : hasMbrSignature mbr = true
    · by_cases hefi : header.take 8 = efiPart
      · by_cases hshort : leAt header 12 4 < 92 ∨ leAt header 84 4 < 128
        · simp [hsig, hefi, hshort, -reduceReplicate]
        · refine .inr ⟨header, ⟨⟨mbr, hmbr, hsig⟩, hheader, hefi, by omega, by omega⟩, ?_⟩
          simp [hsig, hefi, hshort, -reduceReplicate]
      · simp [hsig, hefi, -reduceReplicate]
    · simp [hsig, -reduceReplicate]
  · exact .inl rfl

theorem isGpt_of_mem_parseGpt
    (h : parseGpt disk = .ok (some found)) (hp : p ∈ found) : p.isGpt = true := by
  obtain hnone | ⟨header, -, hread⟩ := parseGpt_cases disk
  · rw [hnone] at h
    cases h
  · rw [hread] at h
    exact isGpt_of_mem_readGptEntries (forall_mem_nil _) h hp

/-- A partition without the mark of a GPT comes from the MBR. -/
theorem bound_of_mem_parsePartitions
    (h : parsePartitions disk = .ok parts) (hp : p ∈ parts) (hmbr : p.isGpt = false) :
    p.lbaStart.toNat < 2 ^ 32 ∧ p.sectorCount.toNat < 2 ^ 32 := by
  obtain ⟨gpt, hgpt, hparts⟩ := Outcome.bind_eq_ok.1 h
  split at hparts
  · cases hparts
    exact absurd (isGpt_of_mem_parseGpt hgpt hp) (by rw [hmbr]; decide)
  cases hparts
  cases hparse : parseMbr disk with
  | none => simp [hparse] at hp
  | some found => exact bound_of_mem_parseMbr hparse (by rwa [hparse] at hp)

/-- For every disk and every partition that its table has, every sector number and every buffer of
a positive number of whole sectors: a read or a write through the device of the partition that
succeeds returns the bytes of the sectors it touches or changes no others, and these are only
the partition's exactly if it ends inside the partition and its first sector does not wrap around.
Only partitions of a GPT can make it wrap around. -/
theorem partition_confined_iff {disk : Vfs.Disk} {parts : List Partition} {p : Partition}
    (hparse : parsePartitions disk = .ok parts) (hp : p ∈ parts) (sector : BitVec 64) :
    (∀ len buf, 0 < len → 512 ∣ len → (p.device disk).readSector sector len = .ok buf →
      buf = disk.slice ((p.lbaStart + sector).toNat * 512) len ∧
      ((p.device disk).Confined sector len ↔ (p.device disk).Inside sector len)) ∧
    (∀ buf d', 0 < buf.length → 512 ∣ buf.length →
      (p.device disk).writeSector sector buf = .ok d' →
      (∀ a, a / 512 ∉ (p.device disk).touched sector buf.length →
        d'.parent.byte a = disk.byte a) ∧
      ((p.device disk).Confined sector buf.length ↔
        (p.device disk).Inside sector buf.length)) ∧
    (p.isGpt = false → ∀ len, (p.device disk).Inside sector len ↔
      sector.toNat + len / 512 ≤ p.sectorCount.toNat) := by
  refine ⟨fun len buf hlen hmul hread => ⟨PartitionDevice.readSector_eq_ok hread,
      PartitionDevice.confined_iff_inside hlen hmul⟩,
    fun buf d' hlen hmul hwrite => ⟨fun a ha => PartitionDevice.byte_writeSector hmul hwrite ha,
      PartitionDevice.confined_iff_inside hlen hmul⟩, fun hmbr len => ?_⟩
  obtain ⟨hlba, hcount⟩ := bound_of_mem_parsePartitions hparse hp hmbr
  refine ⟨And.left, fun hend => ⟨hend, ?_⟩⟩
  change p.lbaStart.toNat + sector.toNat < 2 ^ 64
  omega

/-! ### Safety of the parser -/

/-- Entry `i` divides by no zero, its sector number does not overflow, and its 128 bytes are in
the buffer. -/
def EntrySafe (entryLba : BitVec 64) (entrySize i : ℕ) : Prop :=
  512 / entrySize ≠ 0 ∧ entryLba.toNat + i / (512 / entrySize) < 2 ^ 64 ∧
    i % (512 / entrySize) * entrySize + 128 ≤ 512

/-- The `n` entries from `i` on, as far as their sectors can be read. -/
def EntriesSafe (device : Vfs.Disk) (entryLba : BitVec 64) (entrySize : ℕ) : ℕ → ℕ → Prop
  | 0, _ => True
  | n + 1, i =>
    EntrySafe entryLba entrySize i ∧
      ((gptSector device entryLba (512 / entrySize) i []).isSome →
        EntriesSafe device entryLba entrySize n (i + 1))

section Safe

variable {entryLba : BitVec 64} {entrySize n : ℕ}

theorem readGptEntries_ok (hsize : 512 / entrySize ≠ 0) :
    ∃ found, readGptEntries disk entryLba entrySize n i buf parts = .ok found := by
  induction n generalizing i buf parts with
  | zero => exact ⟨_, rfl⟩
  | succ n ih =>
    rw [readGptEntries, if_neg hsize]
    split
    · exact ⟨_, rfl⟩
    · exact ih

/-- The sector of an entry is on the disk, or is the next one behind a sector that is. -/
theorem entriesSafe_of_fits (hsectors : disk.sectors < 2 ^ 64) (hlo : 128 ≤ entrySize)
    (hhi : entrySize ≤ 512)
    (hi : entryLba.toNat + i / (512 / entrySize) < 2 ^ 64)
    (hread : i % (512 / entrySize) ≠ 0 →
      entryLba.toNat + i / (512 / entrySize) < disk.sectors) :
    EntriesSafe disk entryLba entrySize n i := by
  have hper : 0 < 512 / entrySize := Nat.div_pos hhi (by omega)
  have hfits : 512 / entrySize * entrySize ≤ 512 := Nat.div_mul_le_self 512 entrySize
  induction n generalizing i with
  | zero => trivial
  | succ n ih =>
    generalize hk : 512 / entrySize = k at *
    have hmod : i % k < k := Nat.mod_lt i hper
    have hlast : (i % k + 1) * entrySize ≤ k * entrySize := Nat.mul_le_mul_right _ hmod
    rw [Nat.succ_mul] at hlast
    refine ⟨⟨by omega, by rwa [hk], by rw [hk]; omega⟩, fun hsome => ?_⟩
    have hhere : entryLba.toNat + i / k < disk.sectors := by
      rw [hk, gptSector] at hsome
      by_cases hzero : i % k = 0
      · rw [if_pos hzero, Vfs.Disk.readSector, Vfs.Disk.SECTOR_SIZE, BitVec.toNat_add,
          BitVec.toNat_ofNat] at hsome
        split at hsome
        · rename_i hle
          rw [Nat.mod_eq_of_lt (Nat.lt_of_le_of_lt (Nat.le_add_left _ _) hi),
            Nat.mod_eq_of_lt hi] at hle
          omega
        · cases hsome
      · exact hread hzero
    have hnext := Nat.succ_div (a := i) (b := k)
    refine ih ?_ fun hne => ?_
    · split at hnext <;> omega
    · rw [hnext, if_neg fun hdvd => hne (Nat.mod_eq_zero_of_dvd hdvd)]
      exact hhere

end Safe

/-- For every disk of fewer than `2 ^ 64` sectors: the parser returns, no step divides by zero or
overflows and no entry is read outside of the buffer, exactly if the entries of its GPT, should it
have one, are no longer than a sector or there are none. -/
theorem parsePartitions_safe_iff {disk : Vfs.Disk} (hsectors : disk.sectors < 2 ^ 64) :
    ((∃ parts, parsePartitions disk = .ok parts) ∧
      ∀ header, HasGpt disk header → EntriesSafe disk (BitVec.ofNat 64 (leAt header 72 8))
        (leAt header 84 4) (leAt header 80 4) 0) ↔
    ∀ header, HasGpt disk header → leAt header 84 4 ≤ 512 ∨ leAt header 80 4 = 0 := by
  constructor
  · -- the first entry divides by the number of entries in a sector
    rintro ⟨-, hsafe⟩ header h
    have hentries := hsafe header h
    cases hn : leAt header 80 4 with
    | zero => exact .inr rfl
    | succ n =>
      rw [hn] at hentries
      refine .inl (not_lt.1 fun hlong => ?_)
      exact hentries.1.1 (Nat.div_eq_of_lt hlong)
  intro hsize
  constructor
  · have hgpt : ∃ found, parseGpt disk = .ok found := by
      obtain hnone | ⟨header, h, hread⟩ := parseGpt_cases disk
      · exact ⟨_, hnone⟩
      rw [hread]
      obtain hle | hnone := hsize header h
      · exact readGptEntries_ok (Nat.div_pos hle (by have := h.2.2.2.2; omega)).ne'
      · rw [hnone]
        exact ⟨_, rfl⟩
    obtain ⟨found, hfound⟩ := hgpt
    rw [parsePartitions, hfound, Outcome.ok_bind]
    split <;> exact ⟨_, rfl⟩
  · intro header h
    obtain hle | hnone := hsize header h
    · refine entriesSafe_of_fits hsectors h.2.2.2.2 hle ?_ fun hne => absurd (Nat.zero_mod _) hne
      rw [Nat.zero_div, Nat.add_zero]
      exact (BitVec.ofNat 64 _).isLt
    · rw [hnone]
      trivial

/-- A disk of four sectors whose MBR has one partition, sector 1 alone. -/
def mbrDisk : Vfs.Disk where
  sectors := 4
  byte
    | 0x1C2 => 0x83
    | 0x1C6 => 1
    | 0x1CA => 1
    | 510 => 0x55
    | 511 => 0xAA
    | _ => 0

def mbrPartition : Partition := ⟨1, 1, 1, 0x83, false, replicate 16 0, replicate 72 0⟩

/-- A disk of four sectors whose GPT has one partition, from sector 3 to sector 1. -/
def gptDisk : Vfs.Disk where
  sectors := 4
  byte
    | 510 => 0x55
    | 511 => 0xAA
    | 512 => 0x45
    | 513 => 0x46
    | 514 => 0x49
    | 515 => 0x20
    | 516 => 0x50
    | 517 => 0x41
    | 518 => 0x52
    | 519 => 0x54
    -- `header_size`, `entry_lba`, `num_entries` and `entry_size`
    | 524 => 92
    | 584 => 2
    | 592 => 1
    | 596 => 128
    -- the type of the entry, its `starting_lba` and its `ending_lba`
    | 1024 => 1
    | 1056 => 3
    | 1064 => 1
    | _ => 0

def gptPartition : Partition :=
  ⟨1, 3, 0xFFFFFFFFFFFFFFFF, 0xEE, true, 1 :: replicate 15 0, replicate 72 0⟩

theorem parsePartitions_mbrDisk : parsePartitions mbrDisk = .ok [mbrPartition] := by
  decide +kernel

theorem parsePartitions_gptDisk : parsePartitions gptDisk = .ok [gptPartition] := by
  decide +kernel

theorem partition_confined_iff_mbrDisk :
    (mbrPartition.device mbrDisk).Confined 0 512 ↔ (mbrPartition.device mbrDisk).Inside 0 512 :=
  ((partition_confined_iff parsePartitions_mbrDisk (mem_singleton_self _) 0).1 512
    (mbrDisk.slice 512 512) (by decide) (by decide) rfl).2

/-- Reading two sectors at the only sector of a partition returns the sector behind it, and
writing them overwrites it; the last sector of a partition whose end is before its beginning is
the sector before its end. -/
theorem partition_escapes :
    parsePartitions mbrDisk = .ok [mbrPartition] ∧
    (mbrPartition.device mbrDisk).readSector 0 1024 = .ok (mbrDisk.slice 512 1024) ∧
    ¬ (mbrPartition.device mbrDisk).Confined 0 1024 ∧
    (∃ d', (mbrPartition.device mbrDisk).writeSector 0 (replicate 1024 0xFF) = .ok d' ∧
      mbrDisk.byte 1024 = 0 ∧ d'.parent.byte 1024 = 0xFF) ∧
    parsePartitions gptDisk = .ok [gptPartition] ∧
    (gptPartition.device gptDisk).readSector 0xFFFFFFFFFFFFFFFE 512 =
      .ok (gptDisk.slice 512 512) ∧
    ¬ (gptPartition.device gptDisk).Confined 0xFFFFFFFFFFFFFFFE 512 := by
  have hwrite : (mbrPartition.device mbrDisk).writeSector 0 (replicate 1024 0xFF) = _ :=
    PartitionDevice.writeSector_of_fits (by decide) (by rw [length_replicate]; decide)
  exact ⟨parsePartitions_mbrDisk, rfl, by decide, ⟨_, hwrite, rfl, by decide +kernel⟩,
    parsePartitions_gptDisk, rfl, by decide⟩

theorem parsePartitions_safe_iff_gptDisk : ∃ parts, parsePartitions gptDisk = .ok parts :=
  ((parsePartitions_safe_iff (by decide)).2 fun _ h => by
    have hread := h.2.1
    rw [Vfs.Disk.readSector, if_pos (by decide)] at hread
    obtain rfl := Option.some.inj hread
    exact .inl (by decide +kernel)).1

/-- The same disk with entries of 1152 bytes. -/
def wideEntryDisk : Vfs.Disk where
  sectors := 4
  byte a := if a = 597 then 4 else gptDisk.byte a

/-- The parser divides by the number of entries in a sector, which is zero. -/
theorem parsePartitions_wideEntryDisk : parsePartitions wideEntryDisk = .panic := by
  decide +kernel

end Vahi.Drivers
