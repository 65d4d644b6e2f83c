import Vahi.Lib.Fallible
import Vahi.Memory.PageMap
import Vahi.Task.Process

/-!
# Loading a program

`Process::load_elf_static` (`kernel/src/task/process.rs`). The parser of the ELF crate, the frames
of the allocator and what `map_to` meets are arguments. Each written byte remembers whether its
frame had been obtained in this call by then.
-/

namespace Vahi.Task

open Vahi.Lib Vahi.Memory

inductive SegmentType where
  | load
  | dynamic
  | other
  deriving DecidableEq

structure ProgramHeader where
  type : SegmentType
  flags : BitVec 32
  offset : BitVec 64
  virtualAddr : BitVec 64
  fileSize : BitVec 64
  memSize : BitVec 64
  deriving DecidableEq

structure ElfFile where
  entryPoint : BitVec 64
  programHeaders : List ProgramHeader

inductive LoadError where
  | parse
  | pastEnd
  | virtualOverflow
  | outOfMemory
  | mapPage
  | dynamicPastEnd
  deriving DecidableEq

/-- A byte of physical memory that was written; `owned` if its frame had been obtained
from the allocator in this call. -/
structure Store where
  addr : ℕ
  owned : Bool

structure LoadState where
  pages : PageMap
  memory : ℕ → BitVec 8
  free : List ℕ
  obtained : List ℕ
  mapped : List ℕ
  written : List Store

structure LoadEnv where
  parse : List (BitVec 8) → Option ElfFile
  /-- The page tables `map_to` has to add for a page, unless it refuses it. -/
  tables : ℕ → Option ℕ

variable (data : List (BitVec 8)) (ph : ProgramHeader) (headers : List ProgramHeader)
  (env : LoadEnv)

def slice (start stop : ℕ) : Outcome (List (BitVec 8)) :=
  if start ≤ stop ∧ stop ≤ data.length then .ok ((data.drop start).take (stop - start)) else .panic

def LoadState.store (s : LoadState) (pa : ℕ) (bytes : List (BitVec 8)) : LoadState :=
  { s with
    memory := fun a => if pa ≤ a then (bytes[a - pa]?).getD (s.memory a) else s.memory a
    written := s.written ++
      (List.range bytes.length).map fun i => ⟨pa + i, (pa + i) / 4096 ∈ s.obtained⟩ }

/-- The file range of a header does not fit in the file. -/
def filePastEnd : Bool :=
  2 ^ 64 ≤ ph.offset.toNat + ph.fileSize.toNat ∨
    data.length < ph.offset.toNat + ph.fileSize.toNat

/-- The page flags of a segment: present, user, writable and no-execute as it says. -/
def segmentFlags : BitVec 64 :=
  0x5 ||| (if ph.flags.getLsbD 1 then 0x2 else 0) |||
    (if ph.flags.getLsbD 0 then 0 else 0x8000000000000000)

/-- The pages from `a` to `b` as `Page::range_inclusive` visits them: from the last page
of the user half it goes on to the first of the kernel half. -/
def pageRange (a b : ℕ) : List ℕ :=
  if a < 2 ^ 35 ∧ 2 ^ 52 - 2 ^ 35 ≤ b then
    List.range' a (2 ^ 35 - a) ++ List.range' (2 ^ 52 - 2 ^ 35) (b + 1 - (2 ^ 52 - 2 ^ 35))
  else List.range' a (b + 1 - a)

def LoadState.translatePage (s : LoadState) (page : ℕ) : Option PageEntry :=
  (s.pages page).filter (!·.huge)

/-- Where the copy for a page starts and ends, as virtual addresses. -/
def copyStart (page : ℕ) : ℕ :=
  ph.virtualAddr.toNat + (4096 * page - ph.virtualAddr.toNat)

def copyEnd (page : ℕ) : ℕ :=
  min (min (ph.virtualAddr.toNat + ph.fileSize.toNat) (2 ^ 64 - 1)) ((4096 * page + 4096) % 2 ^ 64)

/-- The part of the file that belongs on the page is copied to its frame. -/
def copySegment (page frame : ℕ) : Fallible LoadError LoadState := fun s =>
  if copyStart ph page < copyEnd ph page then do
    let len := copyEnd ph page - copyStart ph page
    let srcOff := (ph.offset.toNat + (copyStart ph page - ph.virtualAddr.toNat)) % 2 ^ 64
    let bytes ← slice data srcOff ((srcOff + len) % 2 ^ 64)
    .ok (s.store (4096 * frame + (ph.virtualAddr.toNat - 4096 * page)) bytes, none)
  else .ok (s, none)

def mapFresh (ph : ProgramHeader) (page : ℕ) (s : LoadState) : LoadState × Except LoadError ℕ :=
  match s.free with
  | [] => (s, .error .outOfMemory)
  | f :: free =>
    match s.pages page, env.tables page with
    | none, some n =>
      if free.length < n then
        ({ s with free := [], obtained := free ++ f :: s.obtained }, .error .mapPage)
      else
        ({ s with
            free := free.drop n
            obtained := free.take n ++ f :: s.obtained
            pages := Function.update s.pages page (some ⟨f, segmentFlags ph⟩)
            mapped := s.mapped ++ [page] },
          .ok f)
    | _, _ => ({ s with free := free, obtained := f :: s.obtained }, .error .mapPage)

/-- One page of a segment: an existing mapping is made writable and used as it is, a
new one gets a frame of its own. -/
def loadPage (data : List (BitVec 8)) (ph : ProgramHeader) (page : ℕ) :
    Fallible LoadError LoadState := fun s =>
  match s.translatePage page with
  | some e =>
    let s := { s with
      pages := Function.update s.pages page (some { e with flags := e.flags ||| 0x2 })
      mapped := s.mapped ++ [page] }
    copySegment data ph page e.frame s
  | none =>
    match mapFresh env ph page s with
    | (s, .error e) => .ok (s, some e)
    | (s, .ok f) => copySegment data ph page f s

/-- The pages from the first to the last byte of the segment. -/
def loadSegment (data : List (BitVec 8)) (ph : ProgramHeader) :
    Fallible LoadError LoadState := fun s =>
  if ph.type ≠ .load then .ok (s, none)
  else if filePastEnd data ph then .ok (s, some .pastEnd)
  else if ph.memSize = 0 then .ok (s, none)
  else if 2 ^ 64 ≤ ph.virtualAddr.toNat + ph.memSize.toNat then .ok (s, some .virtualOverflow)
  else do
    let start ← virtAddrNew ph.virtualAddr
    let stop ← virtAddrNew (ph.virtualAddr + ph.memSize - 1)
    forEach (loadPage env data ph) (pageRange (start.toNat / 4096) (stop.toNat / 4096)) s

def wordAt (bytes : List (BitVec 8)) (i : ℕ) : BitVec 64 :=
  let byte (k : ℕ) : BitVec 8 := bytes.getD (i + k) 0
  byte 7 ++ byte 6 ++ byte 5 ++ byte 4 ++ byte 3 ++ byte 2 ++ byte 1 ++ byte 0

/-- `DT_RELA` and `DT_RELASZ` of the dynamic section; the last entry of a tag counts. -/
def relaTable (dynData : List (BitVec 8)) : BitVec 64 × BitVec 64 :=
  (List.range (dynData.length / 16)).foldl
    (fun acc i =>
      let tag := wordAt dynData (16 * i)
      let val := wordAt dynData (16 * i + 8)
      if tag = 7 then (val, acc.2) else if tag = 8 then (acc.1, val) else acc)
    (0, 0)

/-- The file offset of a virtual address, in the first segment whose file part has it. -/
def fileOffset (vaddr : BitVec 64) : BitVec 64 :=
  match headers.find? fun ph => ph.type = .load ∧ ph.virtualAddr ≤ vaddr ∧
      vaddr < ph.virtualAddr + ph.fileSize with
  | some ph => ph.offset + (vaddr - ph.virtualAddr)
  | none => 0

/-- One relocation entry: `R_X86_64_RELATIVE` stores its addend. -/
def relocateEntry (relaData : List (BitVec 8)) (i : ℕ) : Fallible LoadError LoadState := fun s =>
  let rOffset := wordAt relaData (24 * i)
  let rInfo := wordAt relaData (24 * i + 8)
  let rAddend := wordAt relaData (24 * i + 16)
  if rInfo.toNat % 2 ^ 32 = 8 then do
    let target ← virtAddrNew rOffset
    match translate s.pages target.toNat with
    | some pa => .ok (s.store pa (neBytes 8 rAddend), none)
    | none => .ok (s, none)
  else .ok (s, none)

/-- The relocations of the dynamic segment, whose table is looked up in the file. -/
def relocate (ph : ProgramHeader) : Fallible LoadError LoadState := fun s =>
  if ph.type ≠ .dynamic then .ok (s, none)
  else if filePastEnd data ph then .ok (s, some .dynamicPastEnd)
  else do
    let dynData ← slice data ph.offset.toNat (ph.offset.toNat + ph.fileSize.toNat)
    let (relaVaddr, relaSize) := relaTable dynData
    let relaFileOff := fileOffset headers relaVaddr
    if relaVaddr ≠ 0 ∧ relaSize ≠ 0 ∧ relaFileOff ≠ 0 then do
      let relaEnd := min (relaFileOff + relaSize).toNat data.length
      let relaData ← slice data relaFileOff.toNat relaEnd
      forEach (relocateEntry relaData) (List.range (relaData.length / 24)) s
    else .ok (s, none)

/-- The loop over the headers ends at the first `PT_DYNAMIC`. -/
def dynamicHeader : List ProgramHeader := (headers.find? (·.type = .dynamic)).toList

def segmentVmas : List Vma :=
  (headers.filter fun ph => ph.type = .load ∧ ph.memSize ≠ 0).map fun ph =>
    { start := ph.virtualAddr
      stop := ph.virtualAddr + ph.memSize
      flags := segmentFlags ph
      fileHandle := none
      fileOffset := 0
      isShared := false
      shmId := none }

def loadImage (data : List (BitVec 8)) : Fallible LoadError LoadState := fun s =>
  match env.parse data with
  | none => .ok (s, some .parse)
  | some elf =>
    (forEach (loadSegment env data) elf.programHeaders).seq
      (forEach (relocate data elf.programHeaders) (dynamicHeader elf.programHeaders)) s

def loadElfStatic (data : List (BitVec 8)) (s : LoadState) :
    Outcome (LoadState × Except LoadError (BitVec 64 × List Vma)) := do
  match ← loadImage env data s, env.parse data with
  | (s, some e), _ => .ok (s, .error e)
  | (s, none), some elf => .ok (s, .ok (elf.entryPoint, segmentVmas elf.programHeaders))
  | (s, none), none => .ok (s, .error .parse)

end Vahi.Task
