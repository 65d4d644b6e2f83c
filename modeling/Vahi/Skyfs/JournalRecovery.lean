import Vahi.Skyfs.Journal

/-!
# What recovery restores

Recovery should leave every block that a committed transaction wrote with the latest such data, and
write nothing else. It never writes to a target, so the first holds exactly if the data had reached
its place before the crash.
-/

namespace Vahi.Skyfs

/-- The last word on a block: the data of the transaction with the highest number that
wrote it. -/
def Latest (ts : List Transaction) (block : ℕ) (data : Block) : Prop :=
  ∃ t ∈ ts, t.dataOf block = some data ∧
    ∀ t' ∈ ts, (t'.dataOf block).isSome → t'.sequence ≤ t.sequence

/-- Committed transactions are on the device, and only they were written by recovery. -/
structure Restored (ts : List Transaction) (r : Recovery) : Prop where
  complete : ∀ block data, Latest ts block data → r.dev block = data
  sound : ∀ w ∈ r.replayed, ∃ t ∈ ts, w ∈ t.targets

/-- Headers in the journal that recovery accepts are marked; nothing else changes. -/
def marked (j : Journal) (d : Device) (block : ℕ) : Block :=
  if j.startBlock ≤ block ∧ block < j.startBlock + j.numBlocks ∧ Replayable (d block) then
    markReplayed (d block)
  else d block

/-! ## What recovery does -/

/-- No entry fits behind a header. -/
theorem blockSize_lt_entryOffset (t : ℕ) : BLOCK_SIZE < entryOffset t + JournalTarget.sizeOf := by
  rw [entryOffset, BLOCK_SIZE, JournalHeader.sizeOf, JournalTarget.sizeOf]
  omega

variable (block startBlock i n : ℕ) (j : Journal)

theorem replayTargets_eq (buf : Block) (t n : ℕ) (r : Recovery) :
    replayTargets block buf t n r = r := by
  cases n with
  | zero => rfl
  | succ n => rw [replayTargets, if_pos (blockSize_lt_entryOffset t)]

variable (r : Recovery) (d : Device)

theorem recoverBlock_replayed : (recoverBlock block r).replayed = r.replayed := by
  rw [recoverBlock]
  split
  · rw [replayTargets_eq]
  · rfl

theorem recoverBlock_dev (b : ℕ) : (recoverBlock block r).dev b =
      if b = block ∧ Replayable (r.dev b) then markReplayed (r.dev b) else r.dev b := by
  rw [recoverBlock]
  by_cases hreplay : Replayable (r.dev block)
  · rw [if_pos hreplay, replayTargets_eq]
    by_cases hb : b = block
    · subst hb
      rw [if_pos ⟨rfl, hreplay⟩]
      exact Device.write_self ..
    · rw [if_neg fun h => hb h.1]
      exact Device.write_of_ne _ hb _
  · rw [if_neg hreplay, if_neg]
    rintro ⟨rfl, h⟩
    exact hreplay h

theorem recoverScan_replayed : (recoverScan startBlock i n r).replayed = r.replayed := by
  induction n generalizing i r with
  | zero => rfl
  | succ n ih => rw [recoverScan, ih, recoverBlock_replayed]

theorem recoverScan_dev (b : ℕ) : (recoverScan startBlock i n r).dev b =
      if startBlock + i ≤ b ∧ b < startBlock + i + n ∧ Replayable (r.dev b) then
        markReplayed (r.dev b)
      else r.dev b := by
  induction n generalizing i r with
  | zero => rw [recoverScan, if_neg (by omega)]
  | succ n ih =>
    rw [recoverScan, ih, recoverBlock_dev]
    by_cases hb : b = startBlock + i
    · -- the block of this step: the rest of the scan is behind it
      rw [if_neg (by omega)]
      by_cases hreplay : Replayable (r.dev b)
      · rw [if_pos ⟨hb, hreplay⟩, if_pos ⟨by omega, by omega, hreplay⟩]
      · rw [if_neg fun h => hreplay h.2, if_neg fun h => hreplay h.2.2]
    · have hother : ¬ (b = startBlock + i ∧ Replayable (r.dev b)) := fun h => hb h.1
      rw [if_neg hother]
      by_cases hin : startBlock + (i + 1) ≤ b ∧ b < startBlock + (i + 1) + n ∧ Replayable (r.dev b)
      · rw [if_pos hin, if_pos ⟨by omega, by omega, hin.2.2⟩]
      · rw [if_neg hin, if_neg]
        rintro ⟨hle, hlt, hreplay⟩
        exact hin ⟨by omega, by omega, hreplay⟩

theorem recoverFromDev_replayed : (j.recoverFromDev d).replayed = [] :=
  recoverScan_replayed ..

theorem recoverFromDev_dev : (j.recoverFromDev d).dev = marked j d := by
  funext b
  rw [Journal.recoverFromDev, recoverScan_dev]
  rfl

/-! ## Runs -/

/-- The blocks that the journal writes; a journal of one block has its header behind it. -/
def Journal.InArea (j : Journal) (block : ℕ) : Prop :=
  j.startBlock ≤ block ∧ block < j.startBlock + max 2 j.numBlocks

instance (j : Journal) (block : ℕ) : Decidable (j.InArea block) :=
  inferInstanceAs (Decidable (_ ∧ _))

/-- A write in place, if it is among the next `n` block writes. -/
def JournalOp.inPlace (n : ℕ) (dev : Device) : JournalOp → Device
  | .writeBlock block content => if n = 0 then dev else dev.write block content
  | _ => dev

/-- What the writes in place alone make of a device, as far as they are among the first `n` block
writes of the run. -/
def inPlace (s : JournalState) (d : Device) : List JournalOp → ℕ → Device → Device
  | [], _, dev => dev
  | op :: ops, n, dev =>
    let (s', es) := s.exec d op
    inPlace s' (d.apply es) ops (n - es.length) (op.inPlace n dev)

/-- The journal stays where it is, and the header of an open transaction is in its area. -/
structure AreaKept (j : Journal) (s : JournalState) : Prop where
  start : s.journal.startBlock = j.startBlock
  size : s.journal.numBlocks = j.numBlocks
  header : ∀ headerBlock txn, s.current = some (headerBlock, txn) → j.InArea headerBlock

section Area

variable {j : Journal} {s : JournalState} {block : ℕ}

theorem AreaKept.inArea_nextFree (h : AreaKept j s) {k : ℕ} (hk : k < max 2 j.numBlocks) :
    j.InArea (s.journal.startBlock + k) := by
  rw [h.start]
  exact ⟨Nat.le_add_right _ _, Nat.add_lt_add_left hk _⟩

/-- Only a write in place leaves the area of the journal. -/
theorem AreaKept.exec (h : AreaKept j s) (d : Device) (op : JournalOp) :
    AreaKept j (s.exec d op).1 ∧
      ((∃ block data, op = .writeBlock block data) ∨
        (∀ e ∈ (s.exec d op).2, j.InArea e.block) ∧ ∀ n dev, op.inPlace n dev = dev) := by
  cases op with
  | begin =>
    have hin : j.InArea s.journal.beginTransaction.1 := by
      refine h.inArea_nextFree ?_
      have hsize := h.size
      split <;> omega
    refine ⟨⟨h.start, h.size, ?_⟩, .inr ⟨?_, fun _ _ => rfl⟩⟩
    · rintro headerBlock txn ⟨⟩
      exact hin
    · simpa [JournalState.exec] using hin
  | data target data =>
    rw [JournalState.exec]
    cases hcur : s.current with
    | none => exact ⟨h, .inr ⟨by simp, fun _ _ => rfl⟩⟩
    | some opened =>
      obtain ⟨headerBlock, txn⟩ := opened
      have hheader := h.header headerBlock txn hcur
      dsimp only
      split
      · exact ⟨⟨h.start, h.size, fun _ _ hnone => by cases hnone⟩,
          .inr ⟨by simp, fun _ _ => rfl⟩⟩
      · next hdata =>
        obtain ⟨hroom, hr⟩ := Option.ite_none_left_eq_some.1 hdata
        cases hr
        have hin : j.InArea (s.journal.startBlock + s.journal.nextFree) :=
          h.inArea_nextFree (by have hsize := h.size; omega)
        refine ⟨⟨h.start, h.size, ?_⟩, .inr ⟨?_, fun _ _ => rfl⟩⟩
        · rintro block txn' ⟨⟩
          exact hheader
        · simpa using ⟨hin, hheader⟩
  | writeBlock block data => exact ⟨h, .inl ⟨block, data, rfl⟩⟩
  | commit =>
    rw [JournalState.exec]
    cases hcur : s.current with
    | none => exact ⟨h, .inr ⟨by simp, fun _ _ => rfl⟩⟩
    | some opened =>
      obtain ⟨headerBlock, txn⟩ := opened
      refine ⟨⟨h.start, h.size, fun _ _ hnone => by cases hnone⟩, .inr ⟨?_, fun _ _ => rfl⟩⟩
      simpa using h.header headerBlock txn hcur

theorem apply_of_forall_ne {es : List Event} (d : Device) (h : ∀ e ∈ es, e.block ≠ block) :
    d.apply es block = d block := by
  induction es generalizing d with
  | nil => rfl
  | cons e es ih =>
    obtain ⟨hne, hes⟩ := List.forall_mem_cons.1 h
    exact (ih _ hes).trans (Device.write_of_ne _ hne.symm _)

/-- Outside of the journal the block writes of a run do what its writes in place do. -/
theorem AreaKept.apply_events (h : AreaKept j s) (hout : ¬ j.InArea block)
    (ops : List JournalOp) (n : ℕ) {d base dev : Device} (hdev : base block = dev block) :
    base.apply ((events d s ops).take n) block = inPlace s d ops n dev block := by
  induction ops generalizing s d base dev n with
  | nil =>
    rw [events, List.take_nil, inPlace]
    exact hdev
  | cons op ops ih =>
    obtain ⟨hkept, hwrites⟩ := h.exec d op
    rw [events, List.take_append, Device.apply, List.foldl_append, inPlace]
    refine ih hkept _ ?_
    obtain ⟨b, data, rfl⟩ | ⟨hin, hnone⟩ := hwrites
    · cases n with
      | zero => exact hdev
      | succ n =>
        change base.apply ([⟨b, data, none⟩].take (n + 1)) block =
          (if n + 1 = 0 then dev else dev.write b data) block
        rw [List.take_succ_cons, List.take_nil, if_neg n.succ_ne_zero]
        change base.write b data block = dev.write b data block
        by_cases hb : block = b
        · subst hb
          rw [Device.write_self, Device.write_self]
        · rw [Device.write_of_ne _ hb, Device.write_of_ne _ hb]
          exact hdev
    · -- the other operations write blocks of the journal, and none in place
      have hsame : base.apply ((s.exec d op).2.take n) block = base block :=
        apply_of_forall_ne _ fun e he heq => hout (heq ▸ hin e (List.mem_of_mem_take he))
      rw [hnone]
      exact hsame.trans hdev

end Area

/-- For every run that starts without an open transaction, whatever the device and the journal are
then, and every crash: recovery is as it should be exactly if, for each block of a committed
transaction, the latest data was put in place by the writes in place that were done before the
crash. In the journal itself the block must be what the crash left there, but for the mark of a
header. -/
theorem restored_iff (d : Device) (j : Journal) (ops : List JournalOp) (n : ℕ) :
    Restored (committed d ⟨j, none⟩ ops n) (j.recoverFromDev (crash d ⟨j, none⟩ ops n)) ↔
      ∀ block data, Latest (committed d ⟨j, none⟩ ops n) block data →
        if j.InArea block then marked j (crash d ⟨j, none⟩ ops n) block = data
        else inPlace ⟨j, none⟩ d ops n d block = data := by
  have hkept : AreaKept j ⟨j, none⟩ := ⟨rfl, rfl, fun _ _ hnone => by cases hnone⟩
  have hdev (block : ℕ) : (j.recoverFromDev (crash d ⟨j, none⟩ ops n)).dev block =
      if j.InArea block then marked j (crash d ⟨j, none⟩ ops n) block
      else inPlace ⟨j, none⟩ d ops n d block := by
    rw [recoverFromDev_dev]
    split
    · rfl
    · next hout =>
      rw [← hkept.apply_events hout ops n rfl, marked, if_neg]
      · rfl
      · exact fun hin => hout ⟨hin.1, by omega⟩
  constructor
  · intro h block data hlatest
    have hblock := hdev block
    rw [h.complete block data hlatest] at hblock
    split <;> simp_all
  · intro h
    refine ⟨fun block data hlatest => ?_, ?_⟩
    · have hblock := h block data hlatest
      rw [hdev]
      split <;> simp_all
    · rw [recoverFromDev_replayed]
      exact List.forall_mem_nil _

def freshJournal : JournalState := ⟨⟨1, 64, 1, 1⟩, none⟩

/-- One transaction writes a block outside the journal and is committed; all of its four block
writes are done. After recovery the block still is what it was. -/
theorem committedWrite_notRestored :
    ∃ txn : Transaction, txn.dataOf 100 = some (Block.ofSlice [1]) ∧
      committed (fun _ => Block.zero) freshJournal [.begin, .data 100 [1], .commit] 4 = [txn] ∧
      (freshJournal.journal.recoverFromDev
        (crash (fun _ => Block.zero) freshJournal [.begin, .data 100 [1], .commit] 4)).dev 100 =
          Block.zero ∧
      Block.zero ≠ Block.ofSlice [1] ∧
      ¬ Restored (committed (fun _ => Block.zero) freshJournal [.begin, .data 100 [1], .commit] 4)
        (freshJournal.journal.recoverFromDev
          (crash (fun _ => Block.zero) freshJournal [.begin, .data 100 [1], .commit] 4)) := by
  have hne : Block.zero ≠ Block.ofSlice [1] := by
    intro h
    exact absurd (congrFun h ⟨0, by decide⟩) (by decide)
  have hcommitted : committed (fun _ => Block.zero) freshJournal [.begin, .data 100 [1], .commit] 4 =
      [⟨2, [(100, Block.ofSlice [1])]⟩] := rfl
  have hkept : (freshJournal.journal.recoverFromDev
      (crash (fun _ => Block.zero) freshJournal [.begin, .data 100 [1], .commit] 4)).dev 100 =
        Block.zero := by
    rw [recoverFromDev_dev, marked, if_neg (by decide)]
    rfl
  refine ⟨_, rfl, hcommitted, hkept, hne, ?_⟩
  intro hrestored
  have hlatest : Latest
      (committed (fun _ => Block.zero) freshJournal [.begin, .data 100 [1], .commit] 4)
      100 (Block.ofSlice [1]) := by
    refine ⟨_, List.mem_singleton_self _, rfl, ?_⟩
    intro t ht _
    obtain rfl := List.mem_singleton.mp ht
    exact Nat.le_refl _
  exact hne (hkept.symm.trans (hrestored.complete 100 _ hlatest))

end Vahi.Skyfs
