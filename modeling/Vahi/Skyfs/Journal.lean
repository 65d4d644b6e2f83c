import Vahi.Skyfs.Block

/-!
# The journal of SkyFS

`crates/vfs/src/skyfs/journal.rs`. An entry does not fit into the block behind the header, so none
is ever stored. The checksum is computed with its own field 0, but checked over the block with it. A
crash leaves the first few block writes of a run.
-/

namespace Vahi.Skyfs

def JOURNAL_MAGIC : ℕ := 0x4A4F55524E414C5F

def STATE_ACTIVE : ℕ := 1

def STATE_COMMITTED : ℕ := 2

def STATE_REPLAYED : ℕ := 3

namespace JournalHeader

def magic : Field := ⟨0, 8⟩
def sequence : Field := ⟨8, 8⟩
def numBlocks : Field := ⟨16, 4⟩
def numTargets : Field := ⟨20, 4⟩
def checksum : Field := ⟨24, 4⟩
def state : Field := ⟨28, 1⟩

/-- `size_of::<JournalHeader>()`: 4055 bytes of padding follow the state. -/
def sizeOf : ℕ := 29 + 4055

end JournalHeader

open JournalHeader

namespace JournalTarget

def sizeOf : ℕ := 16

def targetBlock (entryOffset : ℕ) : Field := ⟨entryOffset, 8⟩
def journalOffset (entryOffset : ℕ) : Field := ⟨entryOffset + 8, 4⟩
def pad (entryOffset : ℕ) : Field := ⟨entryOffset + 12, 4⟩

end JournalTarget

def entryOffset (t : ℕ) : ℕ := sizeOf + t * JournalTarget.sizeOf

def fnv1aChecksum (data : List (BitVec 8)) : BitVec 32 :=
  data.foldl (fun hash b => (hash ^^^ b.setWidth 32) * 0x01000193) 0x811c9dc5

def Block.checksum (b : Block) : ℕ := (fnv1aChecksum (List.ofFn b)).toNat

structure Journal where
  startBlock : ℕ
  numBlocks : ℕ
  sequence : ℕ
  nextFree : ℕ
  deriving DecidableEq

namespace Journal

/-- The header block, the journal, and what is written there. -/
def beginTransaction (j : Journal) : ℕ × Journal × Block :=
  let nextFree := if j.numBlocks ≤ j.nextFree + 1 then 1 else j.nextFree
  let sequence := (j.sequence + 1) % 2 ^ 64
  let header := Block.zero.set magic JOURNAL_MAGIC
    |>.set JournalHeader.sequence sequence
    |>.set JournalHeader.numBlocks 1
    |>.set state STATE_ACTIVE
  (j.startBlock + nextFree, { j with sequence, nextFree := nextFree + 1 }, header)

/-- The header with one more target, whose entry is stored if it fits. -/
def addTarget (j : Journal) (headerBlock targetBlock : ℕ) (header : Block) : Block :=
  let targetIdx := header.get numTargets
  let offset := entryOffset targetIdx
  let entered :=
    if offset + JournalTarget.sizeOf ≤ BLOCK_SIZE then
      -- the index is relative to the journal, the header block is not
      header.set (JournalTarget.targetBlock offset) targetBlock
        |>.set (JournalTarget.journalOffset offset)
          ((j.nextFree + 2 ^ 64 - headerBlock % 2 ^ 64) % 2 ^ 32)
        |>.set (JournalTarget.pad offset) 0
    else header
  entered.set numTargets (entered.get numTargets + 1)
    |>.set JournalHeader.numBlocks (entered.get JournalHeader.numBlocks + 1)

/-- The data block and the new header, which are written in this order; none if the journal is
full. -/
def journalData (d : Device) (j : Journal) (headerBlock targetBlock : ℕ) (data : List (BitVec 8)) :
    Option (Journal × (ℕ × Block) × (ℕ × Block)) :=
  if j.numBlocks ≤ j.nextFree then none
  else
    let jblock := j.startBlock + j.nextFree
    let buf := Block.ofSlice data
    let header := d.write jblock buf headerBlock
    some ({ j with nextFree := j.nextFree + 1 }, (jblock, buf),
      (headerBlock, j.addTarget headerBlock targetBlock header))

/-- The checksum covers the header with its new state. -/
def commitTransaction (header : Block) : Block :=
  let committed := header.set state STATE_COMMITTED
  committed.set checksum committed.checksum

end Journal

/-! ## Recovery -/

structure Recovery where
  dev : Device
  replayed : List (ℕ × Block)

/-- The loop over the entries of a header from entry `t` on, `n` of them. -/
def replayTargets (block : ℕ) (buf : Block) : ℕ → ℕ → Recovery → Recovery
  | _, 0, r => r
  | t, n + 1, r =>
    let offset := entryOffset t
    if BLOCK_SIZE < offset + JournalTarget.sizeOf then r
    else
      let target := buf.get (JournalTarget.targetBlock offset)
      if target = 0 then replayTargets block buf (t + 1) n r
      else
        let data := r.dev ((block + buf.get (JournalTarget.journalOffset offset)) % 2 ^ 64)
        replayTargets block buf (t + 1) n ⟨r.dev.write target data, r.replayed ++ [(target, data)]⟩

/-- The header is committed and passes the check of its checksum. -/
def Replayable (buf : Block) : Prop :=
  buf.get magic = JOURNAL_MAGIC ∧ buf.get state = STATE_COMMITTED ∧
    (buf.get checksum = 0 ∨ buf.get checksum = buf.checksum)

instance (buf : Block) : Decidable (Replayable buf) := inferInstanceAs (Decidable (_ ∧ _ ∧ _))

def markReplayed (buf : Block) : Block := buf.set state STATE_REPLAYED

/-- A replayed header is marked, so that it is replayed once. -/
def recoverBlock (block : ℕ) (r : Recovery) : Recovery :=
  let buf := r.dev block
  if Replayable buf then
    let r := replayTargets block buf 0 (buf.get numTargets) r
    { r with dev := r.dev.write block (markReplayed buf) }
  else r

/-- The scan from block `i` of the journal on, over `n` blocks. -/
def recoverScan (startBlock : ℕ) : ℕ → ℕ → Recovery → Recovery
  | _, 0, r => r
  | i, n + 1, r => recoverScan startBlock (i + 1) n (recoverBlock (startBlock + i) r)

def Journal.recoverFromDev (j : Journal) (d : Device) : Recovery :=
  recoverScan j.startBlock 0 j.numBlocks ⟨d, []⟩

/-! ## Runs and crashes -/

structure Transaction where
  sequence : ℕ
  targets : List (ℕ × Block)

def Transaction.dataOf (t : Transaction) (block : ℕ) : Option Block :=
  (t.targets.reverse.find? (·.1 == block)).map Prod.snd

/-- A block write, with the transaction whose commit it completes. -/
structure Event where
  block : ℕ
  data : Block
  commits : Option Transaction

structure JournalState where
  journal : Journal
  current : Option (ℕ × Transaction)

inductive JournalOp where
  | begin
  | data (target : ℕ) (data : List (BitVec 8))
  | writeBlock (block : ℕ) (data : Block)
  | commit

/-- The writes of an operation. A transaction whose data finds no room is given up. -/
def JournalState.exec (d : Device) (s : JournalState) : JournalOp → JournalState × List Event
  | .begin =>
    let (headerBlock, journal, header) := s.journal.beginTransaction
    (⟨journal, some (headerBlock, ⟨journal.sequence, []⟩)⟩, [⟨headerBlock, header, none⟩])
  | .data target data =>
    match s.current with
    | none => (s, [])
    | some (headerBlock, txn) =>
      match s.journal.journalData d headerBlock target data with
      | none => (⟨s.journal, none⟩, [])
      | some (journal, dataWrite, headerWrite) =>
        (⟨journal, some (headerBlock, { txn with targets := txn.targets ++ [(target, dataWrite.2)] })⟩,
          [⟨dataWrite.1, dataWrite.2, none⟩, ⟨headerWrite.1, headerWrite.2, none⟩])
  | .writeBlock block data => (s, [⟨block, data, none⟩])
  | .commit =>
    match s.current with
    | none => (s, [])
    | some (headerBlock, txn) =>
      (⟨s.journal, none⟩, [⟨headerBlock, Journal.commitTransaction (d headerBlock), some txn⟩])

def Device.apply (d : Device) (es : List Event) : Device :=
  es.foldl (fun d e => d.write e.block e.data) d

def events (d : Device) (s : JournalState) : List JournalOp → List Event
  | [] => []
  | op :: ops =>
    let (s', es) := s.exec d op
    es ++ events (d.apply es) s' ops

/-- The device after a crash that let the first `n` block writes through. -/
def crash (d : Device) (s : JournalState) (ops : List JournalOp) (n : ℕ) : Device :=
  d.apply ((events d s ops).take n)

/-- The transactions whose commit was completed before the crash. -/
def committed (d : Device) (s : JournalState) (ops : List JournalOp) (n : ℕ) : List Transaction :=
  ((events d s ops).take n).filterMap Event.commits

end Vahi.Skyfs
