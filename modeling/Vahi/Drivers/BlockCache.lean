import Vahi.Lib.WriteBack

/-!
# The block cache

`BlockCache` (`crates/drivers/src/block/cache.rs`): 256 lines of one sector. Over a device that
never fails, its reads and its device after a `sync` are those of a plain disk; that a write of the
device has failed is not noticed.
-/

namespace Vahi.Drivers

def CACHE_SIZE : ℕ := 256

def SECTOR_SIZE : ℕ := 512

abbrev Sector := Vector (BitVec 8) SECTOR_SIZE

open Vahi.Lib List Function

inductive BlockDeviceError where
  | readError
  | writeError
  | deviceError
  | invalidSector
  deriving DecidableEq

/-- A call may change the device even if it fails. -/
structure BlockDevice (σ : Type) where
  readSector : σ → BitVec 64 → Except BlockDeviceError Sector × σ
  writeSector : σ → BitVec 64 → Sector → Except BlockDeviceError Unit × σ

abbrev CacheLine := Line (BitVec 64) Sector

def CacheLine.empty : CacheLine := ⟨0, Vector.replicate SECTOR_SIZE 0, false, false⟩

structure BlockCache (σ : Type) where
  inner : σ
  lines : List CacheLine
  accessClock : BitVec 64

def chunk (buf : List (BitVec 8)) (i : ℕ) : Sector :=
  Vector.ofFn fun j : Fin SECTOR_SIZE => buf.getD (i * SECTOR_SIZE + j) 0

def setChunk (buf : List (BitVec 8)) (i : ℕ) (data : Sector) : List (BitVec 8) :=
  buf.take (i * SECTOR_SIZE) ++ data.toList ++ buf.drop ((i + 1) * SECTOR_SIZE)

variable {σ : Type} (d : BlockDevice σ)

namespace BlockCache

def new (inner : σ) : BlockCache σ := ⟨inner, List.replicate CACHE_SIZE .empty, 0⟩

variable (c : BlockCache σ) (sector : BitVec 64)

def line (i : ℕ) : CacheLine := c.lines.getD i .empty

def setLine (i : ℕ) (l : CacheLine) : BlockCache σ :=
  { c with lines := c.lines.set i l }

/-- The result of the write to the device is ignored. -/
def evictOne : Option ℕ × BlockCache σ :=
  let i := c.accessClock.toNat % CACHE_SIZE
  let c := { c with accessClock := c.accessClock + 1 }
  let l := c.line i
  if !l.valid then (some i, c)
  else
    let c := if l.dirty then { c with inner := (d.writeSector c.inner l.key l.data).2 } else c
    (some i, c.setLine i { l with dirty := false, valid := false })

/-- The line is only replaced once the device has read the sector. -/
def fetchSector (slot : ℕ) : Except BlockDeviceError Unit × BlockCache σ :=
  match d.readSector c.inner sector with
  | (.error e, inner) => (.error e, { c with inner := inner })
  | (.ok data, inner) => (.ok (), { c with inner := inner }.setLine slot ⟨sector, data, false, true⟩)

def position : Option ℕ :=
  c.lines.findIdx? fun l => l.valid && l.key = sector

/-- On a miss a line is evicted before the device is asked. -/
def readChunk : Except BlockDeviceError Sector × BlockCache σ :=
  match c.position sector with
  | some i => (.ok (c.line i).data, c)
  | none =>
    match c.evictOne d with
    | (none, c) => (.error .deviceError, c)
    | (some slot, c) =>
      match c.fetchSector d sector slot with
      | (.error e, c) => (.error e, c)
      | (.ok _, c) => (.ok (c.line slot).data, c)

/-- A write only reaches the line, which is dirty from then on. -/
def writeChunk (data : Sector) : Except BlockDeviceError Unit × BlockCache σ :=
  match c.position sector with
  | some i => (.ok (), c.setLine i { c.line i with data := data, dirty := true })
  | none =>
    match c.evictOne d with
    | (none, c) => (.error .deviceError, c)
    | (some slot, c) => (.ok (), c.setLine slot ⟨sector, data, true, true⟩)

/-- The loop of `read_sector_cached` from chunk `i` on; sector numbers wrap around. -/
def readChunks (sector : BitVec 64) : ℕ → ℕ → BlockCache σ → List (BitVec 8) →
    Except BlockDeviceError Unit × BlockCache σ × List (BitVec 8)
  | _, 0, c, buf => (.ok (), c, buf)
  | i, n + 1, c, buf =>
    match c.readChunk d (sector + BitVec.ofNat 64 i) with
    | (.error e, c) => (.error e, c, buf)
    | (.ok data, c) => readChunks sector (i + 1) n c (setChunk buf i data)

/-- A buffer of less than a sector is refused, a rest behind the last sector is left as it was. -/
def readSectorCached (buf : List (BitVec 8)) :
    Except BlockDeviceError Unit × BlockCache σ × List (BitVec 8) :=
  if buf.length < SECTOR_SIZE then (.error .deviceError, c, buf)
  else readChunks d sector 0 (buf.length / SECTOR_SIZE) c buf

def writeChunks (sector : BitVec 64) (buf : List (BitVec 8)) : ℕ → ℕ → BlockCache σ →
    Except BlockDeviceError Unit × BlockCache σ
  | _, 0, c => (.ok (), c)
  | i, n + 1, c =>
    match c.writeChunk d (sector + BitVec.ofNat 64 i) (chunk buf i) with
    | (.error e, c) => (.error e, c)
    | (.ok _, c) => writeChunks sector buf (i + 1) n c

def writeSectorCached (buf : List (BitVec 8)) : Except BlockDeviceError Unit × BlockCache σ :=
  if buf.length < SECTOR_SIZE then (.error .invalidSector, c)
  else writeChunks d sector buf 0 (buf.length / SECTOR_SIZE) c

/-- The lines in order; whether a line is valid is not looked at. -/
def syncLines : List CacheLine → σ → List CacheLine × σ
  | [], inner => ([], inner)
  | l :: lines, inner =>
    if l.dirty then
      let (lines, inner) := syncLines lines (d.writeSector inner l.key l.data).2
      ({ l with dirty := false } :: lines, inner)
    else
      let (lines, inner) := syncLines lines inner
      (l :: lines, inner)

/-- A line whose write fails is clean afterwards as well. -/
def sync : BlockCache σ :=
  let (lines, inner) := syncLines d c.lines c.inner
  { c with lines := lines, inner := inner }

end BlockCache

open BlockCache

/-! ## Runs -/

inductive CacheOp where
  | read (sector : BitVec 64) (buf : List (BitVec 8))
  | write (sector : BitVec 64) (buf : List (BitVec 8))
  | sync

/-- The buffers are a positive multiple of the sector size. -/
def CacheOp.WellSized : CacheOp → Prop
  | .read _ buf | .write _ buf => 0 < buf.length ∧ SECTOR_SIZE ∣ buf.length
  | .sync => True

inductive CacheReply where
  | read (result : Except BlockDeviceError Unit) (buf : List (BitVec 8))
  | written (result : Except BlockDeviceError Unit)
  | synced

namespace BlockCache

def exec (c : BlockCache σ) : CacheOp → CacheReply × BlockCache σ
  | .read sector buf =>
    let (result, c, buf) := c.readSectorCached d sector buf
    (.read result buf, c)
  | .write sector buf =>
    let (result, c) := c.writeSectorCached d sector buf
    (.written result, c)
  | .sync => (.synced, c.sync d)

def run (c : BlockCache σ) (ops : List CacheOp) : BlockCache σ :=
  ops.foldl (fun c op => (c.exec d op).2) c

def replies (c : BlockCache σ) : List CacheOp → List CacheReply
  | [] => []
  | op :: ops => (c.exec d op).1 :: replies (c.exec d op).2 ops

end BlockCache

/-! ## The disk -/

abbrev Disk := BitVec 64 → Sector

namespace Disk

def read (disk : Disk) (sector : BitVec 64) (n : ℕ) : List (BitVec 8) :=
  (List.range n).flatMap fun i => (disk (sector + BitVec.ofNat 64 i)).toList

def write (disk : Disk) (sector : BitVec 64) (buf : List (BitVec 8)) : Disk :=
  (List.range (buf.length / SECTOR_SIZE)).foldl
    (fun disk i => update disk (sector + BitVec.ofNat 64 i) (chunk buf i)) disk

def exec (disk : Disk) : CacheOp → CacheReply × Disk
  | .read sector buf => (.read (.ok ()) (disk.read sector (buf.length / SECTOR_SIZE)), disk)
  | .write sector buf => (.written (.ok ()), disk.write sector buf)
  | .sync => (.synced, disk)

def run (disk : Disk) (ops : List CacheOp) : Disk :=
  ops.foldl (fun disk op => (Disk.exec disk op).2) disk

def replies (disk : Disk) : List CacheOp → List CacheReply
  | [] => []
  | op :: ops => (Disk.exec disk op).1 :: replies (Disk.exec disk op).2 ops

end Disk

/-! ## The simulation -/

/-- Reads return and writes replace the contents of single sectors. -/
structure NeverFails (content : σ → Disk) : Prop where
  read : ∀ s k, ∃ s', d.readSector s k = (.ok (content s k), s') ∧ content s' = content s
  write : ∀ s k v, ∃ s', d.writeSector s k v = (.ok (), s') ∧
    content s' = update (content s) k v

/-- Reads return the contents. A write that is not done leaves a state that counts as failed from
then on. -/
structure WritesMayFail (content : σ → Disk) (failed : σ → Prop) : Prop where
  read : ∀ s k, ∃ s', d.readSector s k = (.ok (content s k), s') ∧ content s' = content s ∧
    (failed s → failed s')
  write : ∀ s k v, ∃ r s', d.writeSector s k v = (r, s') ∧ (failed s' ∨
    ¬failed s ∧ r = .ok () ∧ content s' = update (content s) k v)

structure Caches (content : σ → Disk) (c : BlockCache σ) (disk : Disk) : Prop where
  size : c.lines.length = CACHE_SIZE
  coherent : Coherent c.lines (content c.inner)
  view_eq : view c.lines (content c.inner) = disk

abbrev Tracks (content : σ → Disk) (failed : σ → Prop) (c : BlockCache σ) (disk : Disk) : Prop :=
  failed c.inner ∨ Caches content c disk

variable {d} {content : σ → Disk} {failed : σ → Prop} {c : BlockCache σ} {disk : Disk}

theorem NeverFails.writesMayFail (hd : NeverFails d content) :
    WritesMayFail d content fun _ => False where
  read := fun s k => (hd.read s k).imp fun _ h => ⟨h.1, h.2, id⟩
  write := fun s k v => ⟨_, (hd.write s k v).imp fun _ h => ⟨h.1, .inr ⟨id, rfl, h.2⟩⟩⟩

theorem Caches.new (content : σ → Disk) (inner : σ) : Caches content (.new inner) (content inner) := by
  have hempty : ∀ l ∈ List.replicate CACHE_SIZE CacheLine.empty, ¬l.valid ∧ ¬l.dirty := by
    intro l hl
    rw [eq_of_mem_replicate hl]
    exact ⟨Bool.false_ne_true, Bool.false_ne_true⟩
  have hcoherent : Coherent (List.replicate CACHE_SIZE CacheLine.empty) (content inner) := by
    constructor
    · exact fun i j l l' hi _ hvalid => absurd hvalid (hempty l (mem_of_getElem? hi)).1
    · exact fun l hl hdirty => absurd hdirty (hempty l hl).2
    · exact fun l hl hvalid => absurd hvalid (hempty l hl).1
  exact ⟨length_replicate, hcoherent, hcoherent.view_eq_back fun l hl => (hempty l hl).2⟩

variable {i : ℕ} {k : BitVec 64}

theorem getElem?_line (hi : i < c.lines.length) : c.lines[i]? = some (c.line i) := by
  rw [line, getD_eq_getElem?_getD, getElem?_eq_getElem hi]
  rfl

/-- A round robin slot; its line is written back if it is valid and dirty. -/
theorem evictOne_eq (d : BlockDevice σ) (c : BlockCache σ)
    (hi : c.accessClock.toNat % CACHE_SIZE = i) :
    c.evictOne d = (some i, {
      inner := if (c.line i).valid ∧ (c.line i).dirty then
          (d.writeSector c.inner (c.line i).key (c.line i).data).2 else c.inner
      lines := if (c.line i).valid then
          c.lines.set i { c.line i with dirty := false, valid := false } else c.lines
      accessClock := c.accessClock + 1 }) := by
  subst hi
  unfold evictOne setLine line
  dsimp only
  cases (c.lines.getD (c.accessClock.toNat % CACHE_SIZE) CacheLine.empty).valid with
  | false => simp
  | true =>
    cases (c.lines.getD (c.accessClock.toNat % CACHE_SIZE) CacheLine.empty).dirty with
    | false => simp
    | true => simp

theorem position_some (h : c.position k = some i) :
    c.lines[i]? = some (c.line i) ∧ (c.line i).valid ∧ (c.line i).key = k := by
  obtain ⟨hlt, hvalid, -⟩ := findIdx?_eq_some_iff_getElem.mp h
  have hline := getElem?_line hlt
  rw [getElem?_eq_getElem hlt] at hline
  rw [Option.some.inj hline] at hvalid
  simp only [Bool.and_eq_true, decide_eq_true_eq] at hvalid
  exact ⟨getElem?_line hlt, hvalid⟩

theorem position_none (h : c.position k = none) : Absent c.lines k := by
  intro l hl hvalid hkey
  have hnone := findIdx?_eq_none_iff.mp h l hl
  simp [hvalid, hkey] at hnone

section

variable (hd : WritesMayFail d content failed)

include hd

theorem WritesMayFail.content_write (s : σ) (k : BitVec 64) (v : Sector) :
    failed (d.writeSector s k v).2 ∨
      ¬failed s ∧ content (d.writeSector s k v).2 = update (content s) k v := by
  obtain ⟨r, s', hwrite, hor⟩ := hd.write s k v
  rw [hwrite]
  exact hor.imp_right fun h => ⟨h.1, h.2.2⟩

/-- The slot handed out is free, and the disk is the same. -/
theorem Tracks.evictOne (h : Tracks content failed c disk) :
    ∃ i c', c.evictOne d = (some i, c') ∧ (failed c'.inner ∨ ∃ l, c'.lines[i]? = some l ∧
      ¬l.valid ∧ Caches content c' disk ∧ ∀ k, Absent c.lines k → Absent c'.lines k) := by
  obtain ⟨i, hi⟩ : ∃ i, c.accessClock.toNat % CACHE_SIZE = i := ⟨_, rfl⟩
  rw [evictOne_eq d c hi]
  refine ⟨i, _, rfl, ?_⟩
  dsimp only
  obtain hfailed | ⟨hok, hcontent⟩ : failed (if (c.line i).valid ∧ (c.line i).dirty then
      (d.writeSector c.inner (c.line i).key (c.line i).data).2 else c.inner) ∨ ¬failed c.inner ∧
      content (if (c.line i).valid ∧ (c.line i).dirty then
          (d.writeSector c.inner (c.line i).key (c.line i).data).2 else c.inner) =
        if (c.line i).valid ∧ (c.line i).dirty then
          update (content c.inner) (c.line i).key (c.line i).data else content c.inner := by
    split
    · exact hd.content_write ..
    · exact or_iff_not_imp_left.mpr fun hok => ⟨hok, rfl⟩
  · exact .inl hfailed
  have h := h.resolve_left hok
  have hlt : i < c.lines.length := by
    rw [h.size, ← hi]
    exact Nat.mod_lt _ (by decide)
  have hline := getElem?_line hlt
  right
  by_cases hvalid : (c.line i).valid
  · rw [if_pos hvalid]
    simp only [hvalid, true_and] at hcontent ⊢
    obtain ⟨hcoherent, hview⟩ := h.coherent.evict hline hvalid hcontent
    refine ⟨_, getElem?_set_self hlt, Bool.false_ne_true,
      ⟨(length_set ..).trans h.size, hcoherent, hview.trans h.view_eq⟩, ?_⟩
    intro k habsent l hl hlvalid
    cases mem_or_eq_of_mem_set hl with
    | inl hold => exact habsent l hold hlvalid
    | inr hnew =>
      rw [hnew] at hlvalid
      cases hlvalid
  · rw [if_neg hvalid, if_neg (fun hv => hvalid hv.1)]
    exact ⟨_, hline, hvalid, ⟨h.size, h.coherent, h.view_eq⟩, fun k habsent => habsent⟩

theorem Tracks.readChunk (h : Tracks content failed c disk) (k : BitVec 64) :
    ∃ data c', c.readChunk d k = (.ok data, c') ∧
      (failed c'.inner ∨ data = disk k ∧ Caches content c' disk) := by
  unfold BlockCache.readChunk
  cases hpos : c.position k with
  | some i =>
    refine ⟨_, c, rfl, h.imp_right fun h => ⟨?_, h⟩⟩
    obtain ⟨hline, hvalid, hkey⟩ := position_some hpos
    have hdata := h.coherent.view_eq (mem_of_getElem? hline) hvalid
    rw [h.view_eq, hkey] at hdata
    exact hdata.symm
  | none =>
    obtain ⟨i, c', hevict, hor⟩ := h.evictOne hd
    obtain ⟨inner', hread, hcontent, hmono⟩ := hd.read c'.inner k
    rw [hevict]
    dsimp only
    unfold fetchSector
    rw [hread]
    refine ⟨_, _, rfl, hor.imp hmono ?_⟩
    rintro ⟨l, hline, hfree, hcaches, habsent⟩
    have hk := habsent k (position_none hpos)
    obtain ⟨hcoherent, hview⟩ :=
      hcaches.coherent.fill hline hfree hk (content c'.inner k) false (fun _ => rfl)
    have hdisk : content c'.inner k = disk k := by
      rw [← hcaches.view_eq, view_of_absent hk]
    have hlt := (List.getElem?_eq_some_iff.mp hline).1
    refine ⟨?_, (length_set ..).trans hcaches.size, ?_, ?_⟩
    · unfold line setLine
      rw [getD_eq_getElem?_getD, getElem?_set_self hlt, Option.getD_some, hdisk]
    · show Coherent _ (content inner')
      rw [hcontent]
      exact hcoherent
    · show view (c'.lines.set i ⟨k, content c'.inner k, false, true⟩) (content inner') = disk
      rw [hcontent, hview, hdisk, hcaches.view_eq, update_eq_self]

theorem Tracks.writeChunk (h : Tracks content failed c disk) (k : BitVec 64) (data : Sector) :
    ∃ c', c.writeChunk d k data = (.ok (), c') ∧
      Tracks content failed c' (update disk k data) := by
  unfold BlockCache.writeChunk
  cases hpos : c.position k with
  | some i =>
    refine ⟨_, rfl, h.imp_right fun h => ?_⟩
    obtain ⟨hline, hvalid, hkey⟩ := position_some hpos
    obtain ⟨hcoherent, hview⟩ := h.coherent.overwrite hline hvalid data
    refine ⟨(length_set ..).trans h.size, hcoherent, ?_⟩
    rw [← h.view_eq, ← hkey]
    exact hview
  | none =>
    obtain ⟨i, c', hevict, hor⟩ := h.evictOne hd
    rw [hevict]
    refine ⟨_, rfl, hor.imp_right ?_⟩
    rintro ⟨l, hline, hfree, hcaches, habsent⟩
    have hk := habsent k (position_none hpos)
    obtain ⟨hcoherent, hview⟩ :=
      hcaches.coherent.fill hline hfree hk data true (fun hn => absurd rfl hn)
    refine ⟨(length_set ..).trans hcaches.size, hcoherent, ?_⟩
    rw [← hcaches.view_eq]
    exact hview

variable {i : ℕ} (k : BitVec 64)

theorem Tracks.readChunks (n : ℕ) (h : Tracks content failed c disk) :
    Tracks content failed (readChunks d k i n c buf).2.1 disk := by
  induction n generalizing i c buf with
  | zero => exact h
  | succ n ih =>
    obtain ⟨data, c', hread, hor⟩ := h.readChunk hd (k + BitVec.ofNat 64 i)
    rw [readChunks, hread]
    exact ih (hor.imp_right And.right)

theorem Tracks.writeChunks (buf : List (BitVec 8)) (n : ℕ) (h : Tracks content failed c disk) :
    ∃ c', writeChunks d k buf i n c = (.ok (), c') ∧
      Tracks content failed c' ((List.range' i n).foldl
        (fun disk j => update disk (k + BitVec.ofNat 64 j) (chunk buf j)) disk) := by
  induction n generalizing i c disk with
  | zero => exact ⟨c, rfl, h⟩
  | succ n ih =>
    obtain ⟨c₁, hwrite, hcaches⟩ := h.writeChunk hd (k + BitVec.ofNat 64 i) (chunk buf i)
    obtain ⟨c₂, hloop, hcaches'⟩ := ih hcaches
    refine ⟨c₂, ?_, hcaches'⟩
    rw [writeChunks, hwrite]
    exact hloop

/-- The lines before are synced already; the disk stays and the lines become clean. -/
theorem syncLines_tracks (lines : List CacheLine) (inner : σ) (clock : BitVec 64)
    {before : List CacheLine} (h : Tracks content failed ⟨inner, before ++ lines, clock⟩ disk) :
    Tracks content failed ⟨(syncLines d lines inner).2,
        before ++ (syncLines d lines inner).1, clock⟩ disk ∧
      ∀ l ∈ (syncLines d lines inner).1, ¬l.dirty := by
  induction lines generalizing before inner with
  | nil => exact ⟨h, fun l hl => absurd hl not_mem_nil⟩
  | cons l lines ih =>
    rw [syncLines]
    by_cases hdirty : l.dirty
    · have hnext : Tracks content failed ⟨(d.writeSector inner l.key l.data).2,
          before ++ [{ l with dirty := false }] ++ lines, clock⟩ disk := by
        refine (hd.content_write inner l.key l.data).imp_right fun ⟨hok, hcontent⟩ => ?_
        obtain ⟨hsize, hcoherent, hview⟩ := h.resolve_left hok
        have hl : (before ++ l :: lines)[before.length]? = some l := by
          rw [getElem?_append_right (Nat.le_refl _), Nat.sub_self]
          rfl
        have hset : before ++ [{ l with dirty := false }] ++ lines =
            (before ++ l :: lines).set before.length { l with dirty := false } := by
          rw [set_append_right _ _ (Nat.le_refl _), Nat.sub_self, set_cons_zero, append_assoc,
            singleton_append]
        obtain ⟨hflushed, hsame⟩ := hcoherent.flush hl hdirty
        rw [hset]
        refine ⟨(length_set ..).trans hsize, ?_, ?_⟩
        · rwa [hcontent]
        · rwa [hcontent, hsame]
      obtain ⟨htracks, hclean⟩ := ih _ hnext
      rw [if_pos hdirty, append_cons]
      exact ⟨htracks, forall_mem_cons.mpr ⟨Bool.false_ne_true, hclean⟩⟩
    · rw [append_cons] at h
      obtain ⟨htracks, hclean⟩ := ih inner h
      rw [if_neg hdirty, append_cons]
      exact ⟨htracks, forall_mem_cons.mpr ⟨hdirty, hclean⟩⟩

variable (h : Tracks content failed c disk)

include h

theorem Tracks.sync : failed (c.sync d).inner ∨
    Caches content (c.sync d) disk ∧ content (c.sync d).inner = disk := by
  have hlines : Tracks content failed ⟨c.inner, [] ++ c.lines, c.accessClock⟩ disk := h
  obtain ⟨htracks, hclean⟩ := syncLines_tracks hd c.lines c.inner c.accessClock hlines
  refine htracks.imp_right fun hcaches => ⟨hcaches, ?_⟩
  exact (hcaches.coherent.view_eq_back hclean).symm.trans hcaches.view_eq

/-- A buffer below the size of a sector is refused, and the disk is the same. -/
theorem Tracks.exec (op : CacheOp) :
    Tracks content failed (c.exec d op).2 (Disk.exec disk op).2 := by
  cases op with
  | read k buf =>
    show Tracks content failed (c.readSectorCached d k buf).2.1 disk
    rw [readSectorCached]
    split
    · exact h
    · exact h.readChunks hd k _
  | write k buf =>
    rw [BlockCache.exec, BlockCache.writeSectorCached]
    dsimp only [Disk.exec, Disk.write]
    split
    · next hlt =>
      rwa [Nat.div_eq_of_lt hlt]
    · obtain ⟨c', hloop, htracks⟩ := h.writeChunks hd k buf (buf.length / SECTOR_SIZE) (i := 0)
      rw [hloop, range_eq_range']
      exact htracks
  | sync => exact (h.sync hd).imp_right And.left

theorem Tracks.run (ops : List CacheOp) :
    Tracks content failed (c.run d ops) (Disk.run disk ops) := by
  induction ops generalizing c disk with
  | nil => exact h
  | cons op ops ih => exact ih (h.exec hd op)

end

section

variable (hd : NeverFails d content)

include hd

variable {i : ℕ} {buf : List (BitVec 8)} (k : BitVec 64)

/-- The chunks before `i` are done, and the rest of the buffer is filled in turn. -/
theorem Caches.readChunks (n : ℕ)
    (h : Caches content c disk) {done rest : List (BitVec 8)} (hdone : done.length = i * SECTOR_SIZE)
    (hrest : rest.length = n * SECTOR_SIZE) :
    ∃ c', readChunks d k i n c (done ++ rest) = (.ok (), c', done ++
        (List.range' i n).flatMap fun j => (disk (k + BitVec.ofNat 64 j)).toList) := by
  induction n generalizing i c done rest with
  | zero =>
    have hnil : rest = [] := length_eq_zero_iff.mp (by rw [hrest, Nat.zero_mul])
    exact ⟨c, by rw [hnil]; rfl⟩
  | succ n ih =>
    obtain ⟨data, c₁, hread, hor⟩ :=
      Tracks.readChunk hd.writesMayFail (.inr h) (k + BitVec.ofNat 64 i)
    obtain ⟨rfl, hcaches⟩ := hor.resolve_left id
    have hset : setChunk (done ++ rest) i (disk (k + BitVec.ofNat 64 i)) =
        (done ++ (disk (k + BitVec.ofNat 64 i)).toList) ++ rest.drop SECTOR_SIZE := by
      have hdrop : (i + 1) * SECTOR_SIZE = done.length + SECTOR_SIZE := by
        rw [hdone, Nat.add_mul, Nat.one_mul]
      rw [setChunk, ← hdone, take_left, hdrop, drop_length_add_append]
    have hdone' : (done ++ (disk (k + BitVec.ofNat 64 i)).toList).length = (i + 1) * SECTOR_SIZE := by
      rw [length_append, hdone, Vector.length_toList, Nat.add_mul, Nat.one_mul]
    have hrest' : (rest.drop SECTOR_SIZE).length = n * SECTOR_SIZE := by
      rw [length_drop, hrest, Nat.add_mul, Nat.one_mul, Nat.add_sub_cancel]
    obtain ⟨c₂, hloop⟩ := ih hcaches hdone' hrest'
    refine ⟨c₂, ?_⟩
    rw [readChunks, hread]
    dsimp only
    rw [hset, hloop, range'_succ, flatMap_cons, append_assoc]

omit k in
theorem Caches.exec (h : Caches content c disk) {op : CacheOp}
    (hop : op.WellSized) : (c.exec d op).1 = (Disk.exec disk op).1 := by
  have hbig {buf : List (BitVec 8)} (h : 0 < buf.length ∧ SECTOR_SIZE ∣ buf.length) :
      ¬buf.length < SECTOR_SIZE := Nat.not_lt.mpr (Nat.le_of_dvd h.1 h.2)
  cases op with
  | read k buf =>
    obtain ⟨n, hn⟩ := hop.2
    rw [Nat.mul_comm] at hn
    have hdiv : buf.length / SECTOR_SIZE = n := by
      rw [hn]
      exact Nat.mul_div_cancel n (by decide)
    have hnone : ([] : List (BitVec 8)).length = 0 * SECTOR_SIZE := by simp
    obtain ⟨c', hloop⟩ := h.readChunks hd k n hnone hn
    rw [nil_append] at hloop
    rw [BlockCache.exec, BlockCache.readSectorCached, if_neg (hbig hop), hdiv, hloop, Disk.exec,
      Disk.read, hdiv, range_eq_range']
    rfl
  | write k buf =>
    obtain ⟨c', hloop, -⟩ := Tracks.writeChunks hd.writesMayFail k buf
      (buf.length / SECTOR_SIZE) (.inr h) (i := 0)
    rw [BlockCache.exec, BlockCache.writeSectorCached, if_neg (hbig hop), hloop]
    rfl
  | sync => rfl

omit k in
theorem Caches.run (h : Caches content c disk) {ops : List CacheOp}
    (hops : ∀ op ∈ ops, op.WellSized) : c.replies d ops = Disk.replies disk ops := by
  induction ops generalizing c disk with
  | nil => rfl
  | cons op ops ih =>
    have hnext := (Tracks.exec hd.writesMayFail (.inr h) op).resolve_left id
    rw [replies, Disk.replies, h.exec hd (hops op (mem_cons_self ..)),
      ih hnext fun op' hop' => hops op' (mem_cons_of_mem _ hop')]

end

/-- Over a device that never fails, the replies are those of the disk that the device was,
no two valid lines are for one sector, and a `sync` leaves the device equal to the disk. -/
theorem blockCache_transparent (d : BlockDevice σ) (content : σ → Disk)
    (hd : NeverFails d content) (inner : σ) (ops : List CacheOp)
    (hops : ∀ op ∈ ops, op.WellSized) :
    (new inner).replies d ops = Disk.replies (content inner) ops ∧
    (∀ (i j : ℕ) (l l' : CacheLine), ((new inner).run d ops).lines[i]? = some l →
      ((new inner).run d ops).lines[j]? = some l' →
      l.valid → l'.valid → l.key = l'.key → i = j) ∧
    content (((new inner).run d ops).sync d).inner =
      Disk.run (content inner) ops := by
  have hnew := Caches.new content inner
  have hrun := Tracks.run hd.writesMayFail (.inr hnew) ops
  exact ⟨hnew.run hd hops, (hrun.resolve_left id).coherent.unique,
    ((hrun.sync hd.writesMayFail).resolve_left id).2⟩

def diskDevice : BlockDevice Disk where
  readSector := fun disk k => (.ok (disk k), disk)
  writeSector := fun disk k data => (.ok (), update disk k data)

theorem diskDevice_neverFails : NeverFails diskDevice id where
  read := fun disk _ => ⟨disk, rfl, rfl⟩
  write := fun disk k data => ⟨update disk k data, rfl, rfl⟩

def twoSectors : List CacheOp :=
  [.write 3 (List.replicate 1024 7), .read 4 (List.replicate 512 0)]

theorem twoSectors_wellSized : ∀ op ∈ twoSectors, op.WellSized := by
  intro op hop
  simp only [twoSectors, mem_cons, not_mem_nil, or_false] at hop
  cases hop with
  | inl hwrite =>
    subst hwrite
    exact ⟨by rw [length_replicate]; decide, ⟨2, by rw [length_replicate]; rfl⟩⟩
  | inr hread =>
    subst hread
    exact ⟨by rw [length_replicate]; decide, ⟨1, by rw [length_replicate]; rfl⟩⟩

theorem blockCache_transparent_twoSectors :
    NeverFails diskDevice id ∧ (∀ op ∈ twoSectors, op.WellSized) ∧
      (new (fun _ => Vector.replicate SECTOR_SIZE 0)).replies diskDevice twoSectors =
        Disk.replies (fun _ => Vector.replicate SECTOR_SIZE 0) twoSectors :=
  ⟨diskDevice_neverFails, twoSectors_wellSized,
    (blockCache_transparent diskDevice id diskDevice_neverFails _ twoSectors
      twoSectors_wellSized).1⟩

/-- As long as no write of the device has failed, it has after a `sync` what was written last to
every sector. -/
theorem blockCache_lasting (d : BlockDevice σ) (content : σ → Disk) (failed : σ → Prop)
    (hd : WritesMayFail d content failed) (inner : σ) (ops : List CacheOp)
    (hok : ¬failed (((new inner).run d ops).sync d).inner) :
    content (((new inner).run d ops).sync d).inner = Disk.run (content inner) ops := by
  have hrun := Tracks.run hd (.inr (Caches.new content inner)) ops
  exact ((hrun.sync hd).resolve_left hok).2

/-- Sector 0 cannot be written, and the device says whether this was tried. -/
def badSector : BlockDevice (Disk × Bool) where
  readSector := fun s k => (.ok (s.1 k), s)
  writeSector := fun s k data =>
    if k = 0 then (.error .writeError, (s.1, true)) else (.ok (), (update s.1 k data, s.2))

theorem badSector_writesMayFail : WritesMayFail badSector Prod.fst fun s => s.2 = true where
  read := fun s _ => ⟨s, rfl, rfl, id⟩
  write := by
    intro s k v
    by_cases hk : k = 0
    · exact ⟨_, _, if_pos hk, .inl rfl⟩
    · exact ⟨_, _, if_neg hk, or_iff_not_imp_left.mpr fun hok => ⟨hok, rfl, rfl⟩⟩

/-- A blank disk with this device, and 257 sectors for it. -/
def blankState : Disk × Bool := (fun _ => Vector.replicate SECTOR_SIZE 0, false)

def manySectors : List (BitVec 8) := List.replicate (257 * SECTOR_SIZE) 1

theorem blockCache_lasting_twoSectors :
    (((new blankState).run badSector twoSectors).sync badSector).inner.1 =
      Disk.run blankState.1 twoSectors :=
  blockCache_lasting badSector Prod.fst (fun s => s.2 = true) badSector_writesMayFail blankState
    twoSectors (by decide +kernel)

/-- The lines of a new cache once the sectors below `n` are written. -/
def filledLines (buf : List (BitVec 8)) (n : ℕ) : List CacheLine :=
  (List.range n).map (fun j => ⟨BitVec.ofNat 64 j, chunk buf j, true, true⟩) ++
    List.replicate (CACHE_SIZE - n) .empty

theorem writeChunk_filledLines (d : BlockDevice σ) (inner : σ) (buf : List (BitVec 8))
    (hi : i < CACHE_SIZE) :
    writeChunk d ⟨inner, filledLines buf i, BitVec.ofNat 64 i⟩ (0 + BitVec.ofNat 64 i) (chunk buf i) =
      (.ok (), ⟨inner, filledLines buf (i + 1), BitVec.ofNat 64 (i + 1)⟩) := by
  have hlt : i < 256 := hi
  have hposition : position ⟨inner, filledLines buf i, BitVec.ofNat 64 i⟩
      (0 + BitVec.ofNat 64 i) = none := by
    refine findIdx?_eq_none_iff.mpr (forall_mem_append.mpr ⟨forall_mem_map.mpr fun j hj => ?_,
      fun l hl => ?_⟩)
    · rw [mem_range] at hj
      refine (Bool.true_and _).trans (decide_eq_false fun heq => ?_)
      bv_omega
    · rw [eq_of_mem_replicate hl]
      rfl
  have hslots : CACHE_SIZE - i = CACHE_SIZE - (i + 1) + 1 := by omega
  have hline : line ⟨inner, filledLines buf i, BitVec.ofNat 64 i⟩ i = .empty := by
    simp [line, filledLines, getD_eq_getElem?_getD, hslots]
  have hclock : (BitVec.ofNat 64 i).toNat % CACHE_SIZE = i := by
    rw [BitVec.toNat_ofNat, CACHE_SIZE]
    omega
  rw [writeChunk, hposition, evictOne_eq d _ hclock, hline]
  simp only [CacheLine.empty, Bool.false_eq_true, false_and, if_false, setLine, BitVec.ofNat_add]
  refine congrArg (fun lines => (_, BlockCache.mk inner lines _)) ?_
  rw [filledLines, filledLines, hslots, replicate_succ, set_append_right _ _ (by simp)]
  simp [range_succ]

theorem writeChunks_filledLines (d : BlockDevice σ) (inner : σ) (buf : List (BitVec 8)) (m : ℕ)
    {n : ℕ} (hi : i + n ≤ CACHE_SIZE) :
    writeChunks d 0 buf i (n + m) ⟨inner, filledLines buf i, BitVec.ofNat 64 i⟩ =
      writeChunks d 0 buf (i + n) m ⟨inner, filledLines buf (i + n), BitVec.ofNat 64 (i + n)⟩ := by
  induction n generalizing i with
  | zero => rw [Nat.zero_add, Nat.add_zero]
  | succ n ih =>
    rw [Nat.add_right_comm, writeChunks, writeChunk_filledLines d inner buf (by omega)]
    dsimp only
    rw [ih (by omega), Nat.add_right_comm, Nat.add_assoc]

/-- The line of sector 0 is given up for the last sector although the device has not taken its
data. -/
theorem badSector_loses : ∃ c,
    (new blankState).exec badSector (.write 0 manySectors) = (.written (.ok ()), c) ∧
    (c.sync badSector).position 0 = none ∧
    (c.sync badSector).inner.1 0 ≠ chunk manySectors 0 := by
  obtain ⟨c, hloop, -⟩ := Tracks.writeChunks badSector_writesMayFail (i := 0) 0 manySectors 257
    (.inr (Caches.new Prod.fst blankState))
  have hfilled : writeChunks badSector 0 manySectors 0 257 (.new blankState) = _ :=
    writeChunks_filledLines badSector blankState manySectors 1 (n := 256) (Nat.le_refl _)
  have hc : c = _ := (congrArg Prod.snd hloop).symm.trans (congrArg Prod.snd hfilled)
  have hlost : (c.sync badSector).position 0 = none ∧ ((c.sync badSector).inner.1 0)[0] = 0 := by
    rw [hc]
    decide +kernel
  have hlen : manySectors.length = 257 * SECTOR_SIZE := List.length_replicate
  refine ⟨c, ?_, hlost.1, fun heq => ?_⟩
  · rw [exec, writeSectorCached, hlen, if_neg (by decide)]
    rw [show 257 * SECTOR_SIZE / SECTOR_SIZE = 257 from rfl, hloop]
  · have hone : (chunk manySectors 0)[0] = 1 := by
      rw [chunk, Vector.getElem_ofFn]
      rfl
    rw [← heq, hlost.2] at hone
    cases hone

end Vahi.Drivers
