import Vahi.Lib.Run
import Vahi.Lib.Stream
import Vahi.Types.Errno

/-!
# Pipes

`crates/vfs/src/pipe.rs` and the arms of `sys_read` and `sys_write`
(`kernel/src/syscalls/fs_io.rs`). `sys_write` returns the number of bytes it was given, whatever
fits. The reader takes bytes out before `sys_read` copies them. Calls that wait are steps when done.
-/

namespace Vahi.Vfs

open Vahi.Lib Vahi.Types List

structure Pipe where
  buffer : List (BitVec 8)
  capacity : ℕ
  eof : Bool
  deriving DecidableEq

def PIPE_DEFAULT_CAPACITY : ℕ := 65536

def Pipe.new (capacity : ℕ) : Pipe := ⟨[], max capacity.nextPowerOfTwo 4096, false⟩

/-- The last turn of the loop of `PipeReader::read`; an error if the reader gives up. -/
def PipeReader.read (p : Pipe) (maxLen : ℕ) : Except Unit (List (BitVec 8)) × Pipe :=
  if p.buffer ≠ [] then
    let n := min p.buffer.length maxLen
    (.ok (p.buffer.take n), { p with buffer := p.buffer.drop n })
  else if p.eof then (.ok [], p)
  else (.error (), p)

/-- What does not fit is dropped, and success is reported. -/
def PipeWriter.write (p : Pipe) (data : List (BitVec 8)) : Except Unit Unit × Pipe :=
  let available := p.capacity - p.buffer.length
  if available = 0 then (.error (), p)
  else
    let toWrite := min available data.length
    (.ok (), { p with buffer := p.buffer ++ data.take toWrite })

/-- `sys_write` on the writer, with the bytes that were copied from the caller. -/
def sysWrite (p : Pipe) (data : Option (List (BitVec 8))) : Except Errno ℕ × Pipe :=
  match data with
  | none => (.error .efault, p)
  | some data =>
    match PipeWriter.write p data with
    | (.ok (), p) => (.ok data.length, p)
    | (.error (), p) => (.error .eio, p)

/-- `sys_read` on the reader: what the caller gets in its buffer, which faults or not. -/
def sysRead (p : Pipe) (count : ℕ) (faults : Bool) : Except Errno (List (BitVec 8)) × Pipe :=
  match PipeReader.read p count with
  | (.error (), p) => (.error .eio, p)
  | (.ok data, p) =>
    let len := min data.length count
    if len = 0 then (.ok [], p)
    else if faults then (.error .efault, p)
    else (.ok (data.take len), p)

/-! ### Runs -/

inductive PipeCall where
  /-- `none` if the bytes cannot be copied from the caller. -/
  | write (data : Option (List (BitVec 8)))
  | read (count : ℕ) (faults : Bool)
  /-- The last writer is dropped. -/
  | closeWriters
  deriving DecidableEq

/-- A pipe with the bytes that writes reported as written, and those that reads returned. -/
structure PipeRun where
  pipe : Pipe
  reported : List (BitVec 8)
  returned : List (BitVec 8)
  deriving DecidableEq

def reportedBytes (data : Option (List (BitVec 8))) : Except Errno ℕ → List (BitVec 8)
  | .ok n => (data.getD []).take n
  | .error _ => []

def returnedBytes : Except Errno (List (BitVec 8)) → List (BitVec 8)
  | .ok bytes => bytes
  | .error _ => []

namespace PipeRun

def new (pipe : Pipe) : PipeRun := ⟨pipe, [], []⟩

def step (s : PipeRun) : PipeCall → PipeRun
  | .write data =>
    let (result, pipe) := sysWrite s.pipe data
    ⟨pipe, s.reported ++ reportedBytes data result, s.returned⟩
  | .read count faults =>
    let (result, pipe) := sysRead s.pipe count faults
    ⟨pipe, s.reported, s.returned ++ returnedBytes result⟩
  | .closeWriters => { s with pipe := { s.pipe with eof := true } }

def stream (s : PipeRun) : Stream (BitVec 8) := ⟨s.reported, s.returned, s.pipe.buffer⟩

end PipeRun

/-- What was read comes first in what was reported as written, the rest of it is in the
buffer and is there for the readers to drain, and the buffer is bounded. -/
structure Delivers (s : PipeRun) : Prop where
  isPrefix : s.returned <+: s.reported
  rest : s.reported = s.returned ++ s.pipe.buffer
  bounded : s.pipe.buffer.length ≤ s.pipe.capacity

/-- A write has room for all of its bytes or for none, and bytes that are read reach the caller. -/
def Fits (s : PipeRun) : PipeCall → Prop
  | .write none => True
  | .write (some data) =>
    s.pipe.capacity = s.pipe.buffer.length ∨ data.length ≤ s.pipe.capacity - s.pipe.buffer.length
  | .read count faults => faults = false ∨ count = 0 ∨ s.pipe.buffer = []
  | .closeWriters => True

instance (s : PipeRun) (call : PipeCall) : Decidable (Fits s call) := by
  cases call with
  | write data => cases data <;> unfold Fits <;> infer_instance
  | read count faults => unfold Fits; infer_instance
  | closeWriters => unfold Fits; infer_instance

/-! ### Steps -/

structure PipeInv (s : PipeRun) : Prop where
  intact : s.stream.Intact
  bounded : s.pipe.buffer.length ≤ s.pipe.capacity

theorem PipeInv.delivers {s : PipeRun} (h : PipeInv s) : Delivers s :=
  ⟨h.intact.isPrefix, h.intact, h.bounded⟩

theorem inv_new (capacity : ℕ) (eof : Bool) : PipeInv (.new ⟨[], capacity, eof⟩) :=
  ⟨Stream.intact_new [], Nat.zero_le _⟩

theorem delivers_iff (s : PipeRun) : Delivers s ↔ PipeInv s :=
  ⟨fun h => ⟨h.rest, h.bounded⟩, PipeInv.delivers⟩

section Steps

variable {s : PipeRun}

/-- A write that succeeds reports all bytes, and keeps those that fit. -/
theorem step_write_of_room (data : List (BitVec 8))
    (h : s.pipe.capacity - s.pipe.buffer.length ≠ 0) :
    s.step (.write (some data)) =
      ⟨⟨s.pipe.buffer ++ data.take (min (s.pipe.capacity - s.pipe.buffer.length) data.length),
        s.pipe.capacity, s.pipe.eof⟩, s.reported ++ data, s.returned⟩ := by
  rw [PipeRun.step, sysWrite, PipeWriter.write, if_neg h]
  simp only [reportedBytes, Option.getD_some, take_length]

theorem step_write_of_full (data : List (BitVec 8))
    (h : s.pipe.capacity - s.pipe.buffer.length = 0) : s.step (.write (some data)) = s := by
  rw [PipeRun.step, sysWrite, PipeWriter.write, if_pos h]
  simp only [reportedBytes, append_nil]

theorem inv_write_iff (h : PipeInv s) (data : List (BitVec 8)) :
    PipeInv (s.step (.write (some data))) ↔ Fits s (.write (some data)) := by
  have hbounded := h.bounded
  by_cases hroom : s.pipe.capacity - s.pipe.buffer.length = 0
  · rw [step_write_of_full data hroom]
    exact iff_of_true h (.inl (by omega))
  rw [step_write_of_room data hroom]
  have hpush := h.intact.push_iff data
    (data.take (min (s.pipe.capacity - s.pipe.buffer.length) data.length))
  constructor
  · rintro ⟨hintact, -⟩
    have hkept := congrArg List.length (hpush.mp hintact)
    rw [length_take] at hkept
    exact .inr (by omega)
  · rintro (hfull | hfits)
    · omega
    · refine ⟨hpush.mpr (take_of_length_le (by omega)), ?_⟩
      change (_ ++ _ : List (BitVec 8)).length ≤ s.pipe.capacity
      rw [length_append, length_take]
      omega

/-- What a read lets go, and what the caller gets of it. -/
theorem sysRead_eq (p : Pipe) (count : ℕ) (faults : Bool) :
    (sysRead p count faults).2 = ⟨p.buffer.drop count, p.capacity, p.eof⟩ ∧
      returnedBytes (sysRead p count faults).1 = if faults then [] else p.buffer.take count := by
  obtain ⟨buffer, capacity, eof⟩ := p
  rw [sysRead, PipeReader.read]
  cases buffer with
  | nil => cases eof <;> simp [returnedBytes]
  | cons b bs =>
    have hlen : 0 < (b :: bs).length := Nat.zero_lt_succ _
    rw [if_pos (cons_ne_nil b bs)]
    dsimp only
    rw [length_take]
    rcases Nat.le_total count (b :: bs).length with hle | hle
    · rw [Nat.min_eq_right hle]
      split
      · next hzero =>
        have hcount : count = 0 := by omega
        subst hcount
        cases faults <;> exact ⟨rfl, rfl⟩
      · cases faults
        · refine ⟨rfl, ?_⟩
          change ((b :: bs).take count).take _ = (b :: bs).take count
          rw [take_take, Nat.min_eq_left (by omega)]
          congr 1
          omega
        · exact ⟨rfl, rfl⟩
    · rw [Nat.min_eq_left hle, drop_length, take_length, drop_of_length_le hle,
        take_of_length_le hle, if_neg (by omega)]
      cases faults
      · refine ⟨rfl, ?_⟩
        exact take_of_length_le (by omega)
      · exact ⟨rfl, rfl⟩

theorem inv_read_iff (h : PipeInv s) (count : ℕ) (faults : Bool) :
    PipeInv (s.step (.read count faults)) ↔ Fits s (.read count faults) := by
  have hbounded := h.bounded
  obtain ⟨hpipe, hbytes⟩ := sysRead_eq s.pipe count faults
  have hstep : s.step (.read count faults) =
      ⟨⟨s.pipe.buffer.drop count, s.pipe.capacity, s.pipe.eof⟩, s.reported,
        s.returned ++ if faults then [] else s.pipe.buffer.take count⟩ := by
    rw [← hpipe, ← hbytes]
    rfl
  have hlen : (s.pipe.buffer.drop count).length ≤ s.pipe.capacity := by
    rw [length_drop]
    omega
  have hpop := h.intact.pop_iff count (if faults then [] else s.pipe.buffer.take count)
  have hinv : PipeInv (s.step (.read count faults)) ↔
      (if faults then [] else s.pipe.buffer.take count) = s.pipe.buffer.take count := by
    rw [hstep]
    exact ⟨fun h => hpop.mp h.intact, fun h => ⟨hpop.mpr h, hlen⟩⟩
  rw [hinv]
  cases faults with
  | false => exact iff_of_true rfl (.inl rfl)
  | true =>
    change [] = s.pipe.buffer.take count ↔ true = false ∨ count = 0 ∨ s.pipe.buffer = []
    simp

theorem inv_step_iff (h : PipeInv s) (call : PipeCall) : PipeInv (s.step call) ↔ Fits s call := by
  cases call with
  | write data =>
    cases data with
    | none =>
      refine iff_of_true ?_ trivial
      rw [PipeRun.step, sysWrite]
      simp only [reportedBytes, append_nil]
      exact h
    | some data => exact inv_write_iff h data
  | read count faults => exact inv_read_iff h count faults
  | closeWriters => exact iff_of_true ⟨h.intact, h.bounded⟩ trivial

end Steps

/-- A pipe delivers what writes reported exactly if every write fits and no read
faults, for any sequence of calls by any processes. -/
theorem delivers_iff_fits (capacity : ℕ) (eof : Bool) (calls : List PipeCall) :
    Along PipeRun.step (fun s call => Delivers (s.step call)) (.new ⟨[], capacity, eof⟩) calls ↔
      Along PipeRun.step Fits (.new ⟨[], capacity, eof⟩) calls := by
  refine along_iff_of_inv (I := PipeInv) (fun s call h => ?_) (fun s call h hfits => ?_) ?_
  · rw [delivers_iff, inv_step_iff h]
  · exact (inv_step_iff h call).mpr hfits
  · exact inv_new capacity eof

/-- Of 65537 bytes that are written to a new pipe one is lost, and all are reported. -/
theorem overfullWrite_loses :
    sysWrite (.new PIPE_DEFAULT_CAPACITY) (some (List.replicate 65537 0)) =
        (.ok 65537, ⟨List.replicate 65536 0, 65536, false⟩) ∧
      ¬ Delivers (PipeRun.step (.new (.new PIPE_DEFAULT_CAPACITY))
        (.write (some (List.replicate 65537 0)))) := by
  have hcapacity : max (Nat.nextPowerOfTwo PIPE_DEFAULT_CAPACITY) 4096 = 65536 := by decide +kernel
  constructor
  · rw [Pipe.new, hcapacity, sysWrite, PipeWriter.write, if_neg (by decide)]
    simp only [length_replicate, length_nil, nil_append, take_replicate]
    rfl
  · rw [Pipe.new, hcapacity, delivers_iff, inv_step_iff (inv_new 65536 false)]
    rintro (hfull | hfits)
    · exact absurd hfull (by decide)
    · rw [length_replicate] at hfits
      exact absurd hfits (by decide)

end Vahi.Vfs
