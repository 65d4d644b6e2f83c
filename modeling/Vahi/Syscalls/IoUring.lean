import Mathlib.Tactic.Ring
import Vahi.Lib.Ring
import Vahi.Lib.Run
import Vahi.Types.Errno

/-!
# Submission and completion rings

`IoUringInstance` (`kernel/src/syscalls/io_uring.rs`). The rings use `entries - 1` as a mask, do not
compare what is submitted or completed with the room there is, and do not count cancelled entries as
processed. An entry that reads, writes or closes the ring's own descriptor takes the lock that
`process_all` holds, and `IrqSafeMutex` panics.
-/

namespace Vahi.Syscalls.Uring

open Vahi.Lib Vahi.Types List

/-- The fields that processing reads; `fd`, `addr` and `len` go to the operations. -/
structure IoSqEntry where
  opcode : BitVec 8
  flags : BitVec 8
  fd : BitVec 32
  addr : BitVec 64
  len : BitVec 32
  userData : BitVec 64
  deriving DecidableEq, Inhabited

structure IoCqe where
  userData : BitVec 64
  res : BitVec 32
  flags : BitVec 32
  deriving DecidableEq, Inhabited

structure IoRingRing where
  head : ℕ
  tail : ℕ
  ringMask : ℕ
  ringEntries : ℕ
  deriving DecidableEq

structure IoUringInstance where
  sqRing : IoRingRing
  sqEntries : List IoSqEntry
  cqRing : IoRingRing
  cqEntries : List IoCqe
  deriving DecidableEq

def IORING_MAX_ENTRIES : ℕ := 4096
def IORING_OP_NOP : BitVec 8 := 0
def IORING_OP_READV : BitVec 8 := 1
def IORING_OP_WRITEV : BitVec 8 := 2
def IORING_OP_CLOSE : BitVec 8 := 5
def IORING_OP_POLL_ADD : BitVec 8 := 6
def IORING_OP_POLL_REMOVE : BitVec 8 := 7
def IOSQE_IO_LINK : BitVec 8 := 2

def IoSqEntry.isLinked (sqe : IoSqEntry) : Bool := sqe.flags &&& IOSQE_IO_LINK ≠ 0

/-- What the rest of the kernel answers to the `n`-th entry that is processed: which descriptors
are the ring itself, whether `validate_ptr` and `copy_from_user` accept the buffer, and what the
file operation returns otherwise. -/
structure FileEnv where
  own : ℕ → BitVec 32 → Bool
  validPtr : ℕ → Bool
  copied : ℕ → Bool
  answer : ℕ → BitVec 32

section Operations

variable (env : FileEnv) (n : ℕ) (sqe : IoSqEntry)

/-- `none` where the ring is locked a second time. -/
def doReadv : Option (BitVec 32) :=
  if sqe.len = 0 ∨ sqe.addr = 0 then some (BitVec.ofInt 32 Errno.einval.value)
  else if !env.validPtr n then some (BitVec.ofInt 32 Errno.efault.value)
  else if env.own n sqe.fd then none
  else some (env.answer n)

/-- A write of less than one entry to the ring is refused before it locks it. -/
def doWritev : Option (BitVec 32) :=
  if sqe.len = 0 ∨ sqe.addr = 0 then some (BitVec.ofInt 32 Errno.einval.value)
  else if !env.validPtr n || !env.copied n then some (BitVec.ofInt 32 Errno.efault.value)
  else if env.own n sqe.fd then
    if sqe.len.toNat / 64 = 0 then some (BitVec.ofInt 32 Errno.einval.value) else none
  else some (env.answer n)

def doClose : Option (BitVec 32) :=
  if sqe.fd.slt 0 then some (BitVec.ofInt 32 Errno.ebadf.value)
  else if env.own n sqe.fd then none
  else some (env.answer n)

def doPollAdd : BitVec 32 :=
  if sqe.fd.slt 0 then BitVec.ofInt 32 Errno.ebadf.value else env.answer n

def processSqe : Option IoCqe :=
  let res : Option (BitVec 32) :=
    if sqe.opcode = IORING_OP_NOP ∨ sqe.opcode = IORING_OP_POLL_REMOVE then some 0
    else if sqe.opcode = IORING_OP_READV then doReadv env n sqe
    else if sqe.opcode = IORING_OP_WRITEV then doWritev env n sqe
    else if sqe.opcode = IORING_OP_CLOSE then doClose env n sqe
    else if sqe.opcode = IORING_OP_POLL_ADD then some (doPollAdd env n sqe)
    else some (BitVec.ofInt 32 Errno.enosys.value)
  res.map fun res => ⟨sqe.userData, res, 0⟩

/-- The entry reads, writes or closes the ring itself, and is not refused before. -/
def Relocks : Prop :=
  env.own n sqe.fd = true ∧
    (sqe.opcode = IORING_OP_CLOSE ∧ sqe.fd.slt 0 = false ∨
      (sqe.opcode = IORING_OP_READV ∨ sqe.opcode = IORING_OP_WRITEV ∧ env.copied n = true ∧
        64 ≤ sqe.len.toNat) ∧ sqe.len ≠ 0 ∧ sqe.addr ≠ 0 ∧ env.validPtr n = true)

instance : Decidable (Relocks env n sqe) := inferInstanceAs (Decidable (_ ∧ _))

theorem doReadv_eq_none_iff : doReadv env n sqe = none ↔
    env.own n sqe.fd = true ∧ sqe.len ≠ 0 ∧ sqe.addr ≠ 0 ∧ env.validPtr n = true := by
  unfold doReadv
  split_ifs <;> grind

theorem doWritev_eq_none_iff : doWritev env n sqe = none ↔ env.own n sqe.fd = true ∧
    (env.copied n = true ∧ 64 ≤ sqe.len.toNat) ∧ sqe.len ≠ 0 ∧ sqe.addr ≠ 0 ∧
      env.validPtr n = true := by
  unfold doWritev
  split_ifs <;> grind

theorem doClose_eq_none_iff :
    doClose env n sqe = none ↔ env.own n sqe.fd = true ∧ sqe.fd.slt 0 = false := by
  unfold doClose
  split_ifs <;> grind

theorem processSqe_eq_none_iff : processSqe env n sqe = none ↔ Relocks env n sqe := by
  have hcodes : IORING_OP_NOP ≠ IORING_OP_READV ∧ IORING_OP_NOP ≠ IORING_OP_WRITEV ∧
      IORING_OP_NOP ≠ IORING_OP_CLOSE ∧ IORING_OP_POLL_REMOVE ≠ IORING_OP_READV ∧
      IORING_OP_POLL_REMOVE ≠ IORING_OP_WRITEV ∧ IORING_OP_POLL_REMOVE ≠ IORING_OP_CLOSE ∧
      IORING_OP_READV ≠ IORING_OP_WRITEV ∧ IORING_OP_READV ≠ IORING_OP_CLOSE ∧
      IORING_OP_WRITEV ≠ IORING_OP_CLOSE := by decide
  simp only [processSqe, Relocks, Option.map_eq_none_iff]
  split_ifs with hnop hread hwrite hclose hpoll
  · rcases hnop with hop | hop <;> simp [hop, hcodes]
  · simp [hread, hcodes, doReadv_eq_none_iff]
  · simp [hwrite, hcodes, hcodes.2.2.2.2.2.2.1.symm, doWritev_eq_none_iff]
  · simp [hclose, hcodes.2.2.2.2.2.2.2.1.symm, hcodes.2.2.2.2.2.2.2.2.symm, doClose_eq_none_iff]
  all_goals simp [hread, hwrite, hclose]

end Operations

/-- The completion of an entry that follows a failed one in its chain. -/
def cancelSqe (sqe : IoSqEntry) : IoCqe := ⟨sqe.userData, BitVec.ofInt 32 Errno.ecanceled.value, 0⟩

def chainFailed (failed : Bool) (sqe : IoSqEntry) (cqe : IoCqe) : Bool :=
  if !sqe.isLinked then false else if cqe.res.slt 0 then true else failed

/-! ### The instance -/

/-- The bound is on what one call submits, not on what the ring holds. -/
def submitLoop (mask ringCap tail : ℕ) :
    List IoSqEntry → ℕ → List IoSqEntry → ℕ × List IoSqEntry
  | [], accepted, entries => (accepted, entries)
  | sqe :: sqes, accepted, entries =>
    if ringCap ≤ accepted then (accepted, entries)
    else
      submitLoop mask ringCap tail sqes (accepted + 1)
        (Ring.put default entries ((tail + accepted) &&& mask) sqe)

/-- The loop of `process_all`, with the number of turns until the position is the tail: the
completions that it pushes, and the number of entries processed. -/
def processLoop (mask : ℕ) (entries : List IoSqEntry) (env : FileEnv) :
    ℕ → ℕ → ℕ → Bool → Option (List IoCqe × ℕ)
  | 0, _, processed, _ => some ([], processed)
  | turns + 1, pos, processed, failed =>
    match entries[pos &&& mask]? with
    | none => some ([], processed)
    | some sqe =>
      if sqe.isLinked && failed then do
        let (cqes, n) ← processLoop mask entries env turns (pos + 1) processed failed
        return (cancelSqe sqe :: cqes, n)
      else do
        let cqe ← processSqe env processed sqe
        let (cqes, n) ← processLoop mask entries env turns (pos + 1) (processed + 1)
          (chainFailed failed sqe cqe)
        return (cqe :: cqes, n)

/-- The number of times that `pos += 1` takes `pos` to `tail`, for `usize`. -/
def turnsTo (pos tail : ℕ) : ℕ := if pos ≤ tail then tail - pos else 2 ^ 64 - (pos - tail)

namespace IoUringInstance

def new (entries : ℕ) : IoUringInstance where
  sqRing := ⟨0, 0, entries - 1, entries⟩
  sqEntries := []
  cqRing := ⟨0, 0, entries * 2 - 1, entries * 2⟩
  cqEntries := []

variable (r : IoUringInstance)

def submitSqes (sqes : List IoSqEntry) : ℕ × IoUringInstance :=
  let (accepted, entries) :=
    submitLoop r.sqRing.ringMask r.sqRing.ringEntries r.sqRing.tail sqes 0 r.sqEntries
  (accepted, { r with
    sqRing := { r.sqRing with tail := (r.sqRing.tail + accepted) % 2 ^ 32 }
    sqEntries := entries })

/-- A full completion ring is overwritten. -/
def pushCqe (cqe : IoCqe) : IoUringInstance :=
  { r with
    cqEntries := Ring.put default r.cqEntries (r.cqRing.tail &&& r.cqRing.ringMask) cqe
    cqRing := { r.cqRing with tail := (r.cqRing.tail + 1) % 2 ^ 32 } }

/-- All entries up to the tail; the slots are dropped afterwards. -/
def processAll (env : FileEnv) : Option (List IoCqe × IoUringInstance) :=
  (processLoop r.sqRing.ringMask r.sqEntries env
    (turnsTo r.sqRing.head r.sqRing.tail) r.sqRing.head 0 false).map fun (cqes, processed) =>
      let r := cqes.foldl pushCqe r
      (cqes, { r with
        sqRing := { r.sqRing with head := (r.sqRing.head + processed) % 2 ^ 32 }
        sqEntries := [] })

/-- At most `bufLen` entries are taken. -/
def drainCqes (bufLen : ℕ) : List IoCqe × IoUringInstance :=
  let count := min (turnsTo r.cqRing.head r.cqRing.tail) bufLen
  ((List.range count).map fun i =>
      (r.cqEntries[(r.cqRing.head + i) &&& r.cqRing.ringMask]?).getD default,
    { r with cqRing := { r.cqRing with head := (r.cqRing.head + count) % 2 ^ 32 } })

end IoUringInstance

/-! ### Runs -/

inductive UringOp where
  | submit (sqes : List IoSqEntry)
  | process (env : FileEnv)
  | drain (bufLen : ℕ)

structure UringRun where
  ring : IoUringInstance
  accepted : List IoSqEntry
  completed : List IoCqe
  drained : List IoCqe

namespace UringRun

def new (entries : ℕ) : UringRun := ⟨.new entries, [], [], []⟩

def step (s : UringRun) : UringOp → UringRun
  | .submit sqes =>
    let (n, ring) := s.ring.submitSqes sqes
    { s with ring := ring, accepted := s.accepted ++ sqes.take n }
  | .process env =>
    match s.ring.processAll env with
    | some (cqes, ring) => { s with ring := ring, completed := s.completed ++ cqes }
    -- the kernel has stopped
    | none => s
  | .drain bufLen =>
    let (cqes, ring) := s.ring.drainCqes bufLen
    { s with ring := ring, drained := s.drained ++ cqes }

end UringRun

open UringRun

/-- The completions are for the first entries accepted, one each and in order; those
drained are the first completions, and the others are in their slots; the counters count
modulo `2 ^ 32`, and neither ring is over its size. -/
structure Corresponds (s : UringRun) : Prop where
  processed : s.completed.map IoCqe.userData <+: s.accepted.map IoSqEntry.userData
  drained : s.drained <+: s.completed
  kept : ∀ i, s.drained.length ≤ i → i < s.completed.length →
    s.ring.cqEntries[i &&& s.ring.cqRing.ringMask]? = s.completed[i]?
  sqHead : s.ring.sqRing.head = s.completed.length % 2 ^ 32
  sqTail : s.ring.sqRing.tail = s.accepted.length % 2 ^ 32
  cqHead : s.ring.cqRing.head = s.drained.length % 2 ^ 32
  cqTail : s.ring.cqRing.tail = s.completed.length % 2 ^ 32
  sqRoom : s.accepted.length ≤ s.completed.length + s.ring.sqRing.ringEntries
  cqRoom : s.completed.length ≤ s.drained.length + s.ring.cqRing.ringEntries

/-- The correspondence holds after the step; processing returns, and once it has, all accepted
entries are completed. -/
def StepOk (s : UringRun) (op : UringOp) : Prop :=
  Corresponds (s.step op) ∧ ∀ env, op = .process env →
    (s.ring.processAll env).isSome ∧ (s.step op).completed.length = s.accepted.length

def UringRun.pending (s : UringRun) : List IoSqEntry := s.accepted.drop s.completed.length

def UringRun.undrained (s : UringRun) : ℕ := s.completed.length - s.drained.length

/-- None of the entries, which are processed from the `n`-th on, locks the ring again, and no
linked one follows a linked one whose operation fails. -/
def Runs (env : FileEnv) : ℕ → List IoSqEntry → Prop
  | _, [] => True
  | n, sqe :: sqes =>
    ¬ Relocks env n sqe ∧
      (∀ next ∈ sqes.head?, sqe.isLinked → next.isLinked →
        ∀ cqe ∈ processSqe env n sqe, cqe.res.slt 0 = false) ∧
      Runs env (n + 1) sqes

/-- There is room for what is submitted and completed, no entry locks the ring again or is
cancelled, and the counters have not wrapped around between head and tail. -/
def Sound (s : UringRun) : UringOp → Prop
  | .submit sqes =>
    s.pending.length + min s.ring.sqRing.ringEntries sqes.length ≤ s.ring.sqRing.ringEntries
  | .process env =>
    s.ring.sqRing.head ≤ s.ring.sqRing.tail ∧
      Runs env 0 s.pending ∧
      s.undrained + s.pending.length ≤ s.ring.cqRing.ringEntries
  | .drain bufLen => s.ring.cqRing.head ≤ s.ring.cqRing.tail ∨ bufLen ≤ s.undrained

/-- On a ring for `n` entries, the positions that the step puts into use have slots of their own,
as far as there are slots. -/
def SlotsApart (n : ℕ) (s : UringRun) : UringOp → Prop
  | .submit sqes => ∀ hi ≤ s.accepted.length + sqes.length, hi ≤ s.completed.length + n →
    Ring.Apart (· &&& (n - 1)) s.completed.length hi
  | .process _ => ∀ hi ≤ s.accepted.length, hi ≤ s.drained.length + n * 2 →
    Ring.Apart (· &&& (n * 2 - 1)) s.drained.length hi
  | .drain _ => True

instance decidableRuns (env : FileEnv) :
    (n : ℕ) → (sqes : List IoSqEntry) → Decidable (Runs env n sqes)
  | _, [] => inferInstanceAs (Decidable True)
  | n, sqe :: sqes =>
    have := decidableRuns env (n + 1) sqes
    inferInstanceAs (Decidable (¬ Relocks env n sqe ∧ (∀ next ∈ sqes.head?, _) ∧
      Runs env (n + 1) sqes))

instance (s : UringRun) : (op : UringOp) → Decidable (Sound s op)
  | .submit _ => inferInstanceAs (Decidable (_ ≤ _))
  | .process env => inferInstanceAs (Decidable (_ ∧ Runs env 0 s.pending ∧ _))
  | .drain _ => inferInstanceAs (Decidable (_ ∨ _))

/-! ### Loops -/

variable {mask : ℕ}

/-- A position has the same slot as its counter. -/
theorem and_mask (hmask : mask < 2 ^ 32) (x j : ℕ) :
    (x % 2 ^ 32 + j) &&& mask = (x + j) &&& mask := by
  have hlow (a : ℕ) : a &&& mask = (a % 2 ^ 32) &&& mask := by
    rw [← Nat.and_two_pow_sub_one_eq_mod, Nat.and_assoc, Nat.and_comm (2 ^ 32 - 1),
      Nat.and_two_pow_sub_one_eq_mod, Nat.mod_eq_of_lt hmask]
  rw [hlow, hlow (x + j), Nat.mod_add_mod]

theorem submitLoop_eq (hmask : mask < 2 ^ 32) (ringCap base : ℕ) (sqes : List IoSqEntry)
    (accepted : ℕ) (entries : List IoSqEntry) :
    submitLoop mask ringCap (base % 2 ^ 32) sqes accepted entries =
      (accepted + min (ringCap - accepted) sqes.length,
        Ring.putAll default (· &&& mask) entries (base + accepted)
          (sqes.take (min (ringCap - accepted) sqes.length))) := by
  induction sqes generalizing accepted entries with
  | nil => simp [submitLoop, Ring.putAll]
  | cons sqe sqes ih =>
    rw [submitLoop]
    split
    · next hfull =>
      rw [Nat.sub_eq_zero_of_le hfull, Nat.zero_min, take_zero, Ring.putAll, Nat.add_zero]
    next hroom =>
    have hmin : min (ringCap - accepted) (sqe :: sqes).length =
        min (ringCap - (accepted + 1)) sqes.length + 1 := by
      rw [length_cons]
      omega
    rw [ih, hmin, take_succ_cons, Ring.putAll, and_mask hmask, Nat.add_assoc base]
    congr 1
    omega

variable {r : IoUringInstance} {base : ℕ} {env : FileEnv}

theorem submitSqes_eq (hmask : r.sqRing.ringMask < 2 ^ 32)
    (htail : r.sqRing.tail = base % 2 ^ 32) (sqes : List IoSqEntry) :
    r.submitSqes sqes = (min r.sqRing.ringEntries sqes.length,
      ⟨⟨r.sqRing.head, (base + min r.sqRing.ringEntries sqes.length) % 2 ^ 32, r.sqRing.ringMask,
          r.sqRing.ringEntries⟩,
        Ring.putAll default (· &&& r.sqRing.ringMask) r.sqEntries base
          (sqes.take (min r.sqRing.ringEntries sqes.length)),
        r.cqRing, r.cqEntries⟩) := by
  have hloop := submitLoop_eq hmask r.sqRing.ringEntries base sqes 0 r.sqEntries
  rw [Nat.sub_zero, Nat.zero_add, Nat.add_zero, ← htail] at hloop
  have htail' : (r.sqRing.tail + min r.sqRing.ringEntries sqes.length) % 2 ^ 32 =
      (base + min r.sqRing.ringEntries sqes.length) % 2 ^ 32 := by
    rw [htail, Nat.mod_add_mod]
  rw [IoUringInstance.submitSqes, hloop]
  dsimp only
  rw [htail']

/-- The completions of entries, and the number of entries that are not cancelled. -/
def completions (env : FileEnv) : ℕ → Bool → List IoSqEntry → Option (List IoCqe × ℕ)
  | processed, _, [] => some ([], processed)
  | processed, failed, sqe :: sqes =>
    if sqe.isLinked && failed then do
      let (cqes, n) ← completions env processed failed sqes
      return (cancelSqe sqe :: cqes, n)
    else do
      let cqe ← processSqe env processed sqe
      let (cqes, n) ← completions env (processed + 1) (chainFailed failed sqe cqe) sqes
      return (cqe :: cqes, n)

/-- The loop completes the entries that it finds in their slots. -/
theorem processLoop_eq (mask : ℕ) (entries : List IoSqEntry) (env : FileEnv)
    (sqes : List IoSqEntry) (pos processed : ℕ) (failed : Bool)
    (hslots : ∀ j, j < sqes.length → entries[(pos + j) &&& mask]? = sqes[j]?) :
    processLoop mask entries env sqes.length pos processed failed =
      completions env processed failed sqes := by
  induction sqes generalizing pos processed failed with
  | nil => rfl
  | cons sqe sqes ih =>
    have hhead : entries[pos &&& mask]? = some sqe := hslots 0 (Nat.succ_pos _)
    have htail : ∀ j, j < sqes.length → entries[(pos + 1 + j) &&& mask]? = sqes[j]? := by
      intro j hj
      have hslot := hslots (j + 1) (Nat.succ_lt_succ hj)
      rw [getElem?_cons_succ, Nat.add_comm j 1, ← Nat.add_assoc] at hslot
      exact hslot
    rw [length_cons, processLoop, completions, hhead]
    dsimp only
    simp only [ih _ _ _ htail]

theorem userData_of_processSqe {n : ℕ} {sqe : IoSqEntry} {cqe : IoCqe}
    (h : processSqe env n sqe = some cqe) : cqe.userData = sqe.userData := by
  obtain ⟨res, -, rfl⟩ := Option.map_eq_some_iff.mp h
  rfl

theorem completions_spec {cqes : List IoCqe} {n processed : ℕ} {failed : Bool}
    {sqes : List IoSqEntry} (h : completions env processed failed sqes = some (cqes, n)) :
    cqes.map IoCqe.userData = sqes.map IoSqEntry.userData ∧ n ≤ processed + sqes.length := by
  induction sqes generalizing processed failed cqes with
  | nil =>
    cases h
    exact ⟨rfl, Nat.le_refl _⟩
  | cons sqe sqes ih =>
    rw [completions] at h
    split at h
    · obtain ⟨⟨cqes', n'⟩, hrest, heq⟩ := Option.bind_eq_some_iff.mp h
      cases heq
      obtain ⟨hdata, hle⟩ := ih hrest
      exact ⟨congrArg (sqe.userData :: ·) hdata, by rw [length_cons]; omega⟩
    · obtain ⟨cqe, hcqe, h⟩ := Option.bind_eq_some_iff.mp h
      obtain ⟨⟨cqes', n'⟩, hrest, heq⟩ := Option.bind_eq_some_iff.mp h
      cases heq
      obtain ⟨hdata, hle⟩ := ih hrest
      rw [map_cons, map_cons, hdata, userData_of_processSqe hcqe, length_cons]
      exact ⟨rfl, by omega⟩

theorem length_of_completions {cqes : List IoCqe} {n processed : ℕ} {failed : Bool}
    {sqes : List IoSqEntry} (h : completions env processed failed sqes = some (cqes, n)) :
    cqes.length = sqes.length := by
  have hlen := congrArg List.length (completions_spec h).1
  rwa [length_map, length_map] at hlen

/-- All entries are processed exactly if none locks the ring again or is cancelled. -/
theorem exists_completions_iff {processed : ℕ} {failed : Bool} {sqes : List IoSqEntry} :
    (∃ cqes, completions env processed failed sqes = some (cqes, processed + sqes.length)) ↔
      Runs env processed sqes ∧ ∀ sqe ∈ sqes.head?, failed → sqe.isLinked = false := by
  induction sqes generalizing processed failed with
  | nil => exact iff_of_true ⟨[], rfl⟩ ⟨trivial, nofun⟩
  | cons sqe sqes ih =>
    rw [completions, Runs, length_cons]
    split
    · next hcancel =>
      -- a cancelled entry is not counted
      rw [Bool.and_eq_true] at hcancel
      refine iff_of_false ?_ fun h => ?_
      · rintro ⟨cqes, h⟩
        obtain ⟨⟨cqes', n'⟩, hrest, heq⟩ := Option.bind_eq_some_iff.mp h
        cases heq
        have hle := (completions_spec hrest).2
        omega
      · rw [h.2 sqe rfl hcancel.2] at hcancel
        cases hcancel.1
    next hrun =>
    have hhead : ∀ sqe' ∈ (sqe :: sqes).head?, failed → sqe'.isLinked = false := by
      rintro _ ⟨⟩ hfailed
      simpa [hfailed] using hrun
    cases hcqe : processSqe env processed sqe with
    | none =>
      refine iff_of_false (fun ⟨_, h⟩ => by cases h) fun h => h.1.1 ?_
      exact (processSqe_eq_none_iff env processed sqe).mp hcqe
    | some cqe =>
      have hlocks : ¬ Relocks env processed sqe := fun h => by
        rw [(processSqe_eq_none_iff env processed sqe).mpr h] at hcqe
        cases hcqe
      have hchain : chainFailed failed sqe cqe = true ↔ sqe.isLinked ∧ cqe.res.slt 0 := by
        rw [chainFailed]
        cases hlinked : sqe.isLinked with
        | false => simp
        | true =>
          have hfailed : failed = false := by simpa [hlinked] using hrun
          simp [hfailed]
      have hrest := @ih (processed + 1) (chainFailed failed sqe cqe)
      have hnext : (∀ next ∈ sqes.head?, chainFailed failed sqe cqe → next.isLinked = false) ↔
          ∀ next ∈ sqes.head?, sqe.isLinked → next.isLinked →
            ∀ cqe' ∈ some cqe, cqe'.res.slt 0 = false := by
        refine forall₂_congr fun next _ => ?_
        rw [hchain]
        cases next.isLinked <;> simp
      rw [hnext] at hrest
      rw [and_iff_left hhead, and_iff_right hlocks, and_comm, ← hrest, Nat.add_right_comm]
      constructor
      · rintro ⟨cqes, h⟩
        rw [Option.bind_eq_bind, Option.bind_some] at h
        obtain ⟨⟨cqes', n'⟩, hcompletions, heq⟩ := Option.bind_eq_some_iff.mp h
        cases heq
        exact ⟨cqes', hcompletions⟩
      · rintro ⟨cqes, h⟩
        rw [Option.bind_eq_bind, Option.bind_some]
        exact ⟨cqe :: cqes, Option.bind_eq_some_iff.mpr ⟨_, h, rfl⟩⟩

theorem foldl_pushCqe (hmask : r.cqRing.ringMask < 2 ^ 32) (base : ℕ)
    (htail : r.cqRing.tail = base % 2 ^ 32) (cqes : List IoCqe) :
    cqes.foldl IoUringInstance.pushCqe r =
      ⟨r.sqRing, r.sqEntries,
        ⟨r.cqRing.head, (base + cqes.length) % 2 ^ 32, r.cqRing.ringMask, r.cqRing.ringEntries⟩,
        Ring.putAll default (· &&& r.cqRing.ringMask) r.cqEntries base cqes⟩ := by
  induction cqes generalizing r base with
  | nil =>
    rw [foldl_nil, Ring.putAll, length_nil, Nat.add_zero, ← htail]
  | cons cqe cqes ih =>
    have hslot : r.cqRing.tail &&& r.cqRing.ringMask = base &&& r.cqRing.ringMask := by
      rw [htail]
      exact and_mask hmask base 0
    have hnext : (r.cqRing.tail + 1) % 2 ^ 32 = (base + 1) % 2 ^ 32 := by
      rw [htail, Nat.mod_add_mod]
    have hpush : r.pushCqe cqe =
        ⟨r.sqRing, r.sqEntries,
          ⟨r.cqRing.head, (base + 1) % 2 ^ 32, r.cqRing.ringMask, r.cqRing.ringEntries⟩,
          Ring.put default r.cqEntries (base &&& r.cqRing.ringMask) cqe⟩ := by
      rw [IoUringInstance.pushCqe, hslot, hnext]
    have hrest := ih (r := r.pushCqe cqe) (by rw [hpush]; exact hmask) (base + 1) (by rw [hpush])
    rw [foldl_cons, hrest, hpush, Ring.putAll, length_cons, Nat.add_assoc base, Nat.add_comm 1]

/-- Processing, whether there is room for the completions or not; `sqes` are the entries
in the slots from head to tail. -/
theorem processAll_eq (hmask : r.cqRing.ringMask < 2 ^ 32)
    (htail : r.cqRing.tail = base % 2 ^ 32) (env : FileEnv) {sqes : List IoSqEntry}
    (hturns : turnsTo r.sqRing.head r.sqRing.tail = sqes.length)
    (hslots : ∀ j, j < sqes.length →
      r.sqEntries[(r.sqRing.head + j) &&& r.sqRing.ringMask]? = sqes[j]?) :
    r.processAll env = (completions env 0 false sqes).map fun (cqes, n) => (cqes,
      ⟨⟨(r.sqRing.head + n) % 2 ^ 32, r.sqRing.tail, r.sqRing.ringMask, r.sqRing.ringEntries⟩, [],
        ⟨r.cqRing.head, (base + cqes.length) % 2 ^ 32, r.cqRing.ringMask, r.cqRing.ringEntries⟩,
        Ring.putAll default (· &&& r.cqRing.ringMask) r.cqEntries base cqes⟩) := by
  rw [IoUringInstance.processAll, hturns, processLoop_eq _ _ _ _ _ _ _ hslots]
  simp only [foldl_pushCqe hmask base htail]

/-! ### Steps -/

structure UringInv (n : ℕ) (s : UringRun) : Prop where
  corresponds : Corresponds s
  slots : Ring.Holds (· &&& (n - 1)) s.ring.sqEntries s.accepted s.completed.length
  sqMask : s.ring.sqRing.ringMask = n - 1
  sqSize : s.ring.sqRing.ringEntries = n
  cqMask : s.ring.cqRing.ringMask = n * 2 - 1
  cqSize : s.ring.cqRing.ringEntries = n * 2

/-- The number of turns from a head to a tail that is `n` further, by their counters. -/
theorem turnsTo_eq {a b : ℕ} (hab : a ≤ b) (hlt : b < a + 2 ^ 32) :
    (a % 2 ^ 32 ≤ b % 2 ^ 32 ∧ turnsTo (a % 2 ^ 32) (b % 2 ^ 32) = b - a) ∨
      (b % 2 ^ 32 < a % 2 ^ 32 ∧ b - a < turnsTo (a % 2 ^ 32) (b % 2 ^ 32)) := by
  rw [turnsTo]
  split <;> omega

namespace UringInv

variable {n : ℕ} {s : UringRun} {env : FileEnv}

theorem completed_le (h : UringInv n s) : s.completed.length ≤ s.accepted.length := by
  have hle := h.corresponds.processed.length_le
  rwa [length_map, length_map] at hle

theorem kept_holds (h : UringInv n s) :
    Ring.Holds (· &&& (n * 2 - 1)) s.ring.cqEntries s.completed s.drained.length := by
  intro i hlo hi
  have hkept := h.corresponds.kept i hlo hi
  rwa [h.cqMask] at hkept

theorem length_pending (s : UringRun) :
    s.pending.length = s.accepted.length - s.completed.length := length_drop

section

variable (h : UringInv n s)

include h

section

variable (hn : n ≤ IORING_MAX_ENTRIES)

include hn

theorem sqMask_lt : s.ring.sqRing.ringMask < 2 ^ 32 := by
  rw [h.sqMask]
  rw [IORING_MAX_ENTRIES] at hn
  omega

theorem cqMask_lt : s.ring.cqRing.ringMask < 2 ^ 32 := by
  rw [h.cqMask]
  rw [IORING_MAX_ENTRIES] at hn
  omega

/-- What is submitted, whether there is room for it or not. -/
theorem step_submit (sqes : List IoSqEntry) : s.step (.submit sqes) =
      ⟨⟨⟨s.ring.sqRing.head, (s.accepted.length + min n sqes.length) % 2 ^ 32,
            s.ring.sqRing.ringMask, s.ring.sqRing.ringEntries⟩,
          Ring.putAll default (· &&& (n - 1)) s.ring.sqEntries s.accepted.length
            (sqes.take (min n sqes.length)),
          s.ring.cqRing, s.ring.cqEntries⟩,
        s.accepted ++ sqes.take (min n sqes.length), s.completed, s.drained⟩ := by
  rw [step, submitSqes_eq (h.sqMask_lt hn) h.corresponds.sqTail]
  simp only [h.sqSize, h.sqMask]

theorem submit_iff (sqes : List IoSqEntry) (hapart : SlotsApart n s (.submit sqes)) :
    (StepOk s (.submit sqes) ↔ Sound s (.submit sqes)) ∧
      (Sound s (.submit sqes) → UringInv n (s.step (.submit sqes))) := by
  have hle := h.completed_le
  have hsound : Sound s (.submit sqes) ↔
      s.accepted.length + min n sqes.length ≤ s.completed.length + n := by
    rw [Sound, length_pending, h.sqSize]
    omega
  have hlen : (s.accepted ++ sqes.take (min n sqes.length)).length =
      s.accepted.length + min n sqes.length := by
    rw [length_append, length_take]
    omega
  have hinv : Sound s (.submit sqes) → UringInv n (s.step (.submit sqes)) := by
    intro hroom
    rw [hsound] at hroom
    rw [h.step_submit hn]
    refine { h with
      corresponds := { h.corresponds with processed := ?_, sqTail := ?_, sqRoom := ?_ }
      slots := ?_ }
    · rw [map_append]
      exact h.corresponds.processed.trans (prefix_append _ _)
    · exact congrArg (· % 2 ^ 32) hlen.symm
    · rw [hlen, h.sqSize]
      exact hroom
    · refine h.slots.putAll default (hapart _ ?_ ?_)
      all_goals rw [length_take]; omega
  refine ⟨⟨fun hok => ?_, fun hs => ⟨(hinv hs).corresponds, fun _ heq => by cases heq⟩⟩, hinv⟩
  have hroom := hok.1.sqRoom
  rw [h.step_submit hn] at hroom
  rw [hlen, h.sqSize] at hroom
  exact hsound.mpr hroom

/-- If the counters have wrapped around between head and tail, all slots are in use. -/
theorem exists_slot (hwrap : s.ring.sqRing.tail < s.ring.sqRing.head) (pos : ℕ) :
    ∃ sqe, s.ring.sqEntries[pos &&& s.ring.sqRing.ringMask]? = some sqe := by
  have hle := h.completed_le
  have hmask := h.sqMask_lt hn
  rw [h.corresponds.sqTail, h.corresponds.sqHead] at hwrap
  -- the last position before the counter wraps around is in the last slot
  obtain ⟨i, hlo, hi, hlast⟩ : ∃ i, s.completed.length ≤ i ∧ i < s.accepted.length ∧
      i % 2 ^ 32 = 2 ^ 32 - 1 :=
    ⟨s.completed.length / 2 ^ 32 * 2 ^ 32 + (2 ^ 32 - 1), by omega, by omega, by omega⟩
  have hslot := h.slots i hlo hi
  dsimp only at hslot
  have hmod : i &&& s.ring.sqRing.ringMask = s.ring.sqRing.ringMask := by
    have hcounter := and_mask hmask i 0
    rw [Nat.add_zero, Nat.add_zero, hlast] at hcounter
    rw [← hcounter, Nat.and_comm, Nat.and_two_pow_sub_one_eq_mod, Nat.mod_eq_of_lt hmask]
  rw [← h.sqMask, hmod, getElem?_eq_getElem hi] at hslot
  have hlen := (List.getElem?_eq_some_iff.mp hslot).1
  exact ⟨_, getElem?_eq_getElem (Nat.lt_of_le_of_lt Nat.and_le_right hlen)⟩

/-- The entries in the slots from head to tail, if the counters have not wrapped around
between them. -/
theorem slots_pending (j : ℕ) (hj : j < s.pending.length) :
    s.ring.sqEntries[(s.ring.sqRing.head + j) &&& s.ring.sqRing.ringMask]? = s.pending[j]? := by
  rw [length_pending] at hj
  rw [h.corresponds.sqHead, and_mask (h.sqMask_lt hn), h.sqMask, pending, getElem?_drop]
  exact h.slots _ (Nat.le_add_right _ _) (by omega)

theorem pending_le : s.pending.length ≤ 4096 := by
  have hroom := h.corresponds.sqRoom
  rw [h.sqSize] at hroom
  rw [IORING_MAX_ENTRIES] at hn
  rw [length_pending]
  omega

/-- Processing, if the counters have not wrapped around between head and tail. -/
theorem processAll_pending (env : FileEnv) (hwrap : s.ring.sqRing.head ≤ s.ring.sqRing.tail) :
    s.ring.processAll env = (completions env 0 false s.pending).map fun (cqes, n) => (cqes,
      ⟨⟨(s.ring.sqRing.head + n) % 2 ^ 32, s.ring.sqRing.tail, s.ring.sqRing.ringMask,
          s.ring.sqRing.ringEntries⟩, [],
        ⟨s.ring.cqRing.head, (s.completed.length + cqes.length) % 2 ^ 32, s.ring.cqRing.ringMask,
          s.ring.cqRing.ringEntries⟩,
        Ring.putAll default (· &&& s.ring.cqRing.ringMask) s.ring.cqEntries s.completed.length
          cqes⟩) := by
  have hle := h.completed_le
  have hpending := h.pending_le hn
  rw [length_pending] at hpending
  have hturns : turnsTo s.ring.sqRing.head s.ring.sqRing.tail = s.pending.length := by
    rw [h.corresponds.sqHead, h.corresponds.sqTail] at hwrap ⊢
    rw [length_pending]
    rcases turnsTo_eq hle (by omega) with ⟨-, heq⟩ | ⟨hlt, -⟩
    · exact heq
    · omega
  exact processAll_eq (h.cqMask_lt hn) h.corresponds.cqTail env hturns (h.slots_pending hn)

/-- If the counters have wrapped around between head and tail, more is completed than was
accepted. -/
theorem lt_completed (hwrap : s.ring.sqRing.tail < s.ring.sqRing.head)
    (hreturns : (s.ring.processAll env).isSome) :
    s.accepted.length < (s.step (.process env)).completed.length := by
  have hle := h.completed_le
  have hpending := h.pending_le hn
  rw [length_pending] at hpending
  choose sqe hsqe using h.exists_slot hn hwrap
  obtain ⟨sqes, hsqes, hslots⟩ : ∃ sqes : List IoSqEntry,
      turnsTo s.ring.sqRing.head s.ring.sqRing.tail = sqes.length ∧ ∀ j, j < sqes.length →
        s.ring.sqEntries[(s.ring.sqRing.head + j) &&& s.ring.sqRing.ringMask]? = sqes[j]? := by
    refine ⟨(List.range (turnsTo s.ring.sqRing.head s.ring.sqRing.tail)).map
      fun j => sqe (s.ring.sqRing.head + j), ?_, fun j hj => ?_⟩
    · rw [length_map, length_range]
    · rw [length_map, length_range] at hj
      rw [getElem?_map, getElem?_range hj]
      exact hsqe _
  have hstep := processAll_eq (h.cqMask_lt hn) h.corresponds.cqTail env hsqes hslots
  rw [step, hstep]
  rw [hstep, Option.isSome_map] at hreturns
  obtain ⟨⟨cqes, count⟩, hcqes⟩ := Option.isSome_iff_exists.mp hreturns
  rw [hcqes, Option.map_some]
  dsimp only
  rw [length_append, length_of_completions hcqes, ← hsqes]
  rw [h.corresponds.sqHead, h.corresponds.sqTail] at hwrap ⊢
  rcases turnsTo_eq hle (by omega) with ⟨hnot, -⟩ | ⟨-, hlt⟩ <;> omega

theorem inv_process (hapart : SlotsApart n s (.process env)) (hs : Sound s (.process env)) :
    StepOk s (.process env) ∧ UringInv n (s.step (.process env)) := by
  obtain ⟨hwrap, hruns, hroom⟩ := hs
  have hle := h.completed_le
  have hdrained := h.corresponds.drained.length_le
  have hholds := h.kept_holds
  obtain ⟨cqes, hcqes⟩ : ∃ cqes, completions env 0 false s.pending =
      some (cqes, 0 + s.pending.length) := exists_completions_iff.mpr ⟨hruns, nofun⟩
  have hall := h.processAll_pending hn env hwrap
  rw [hcqes, Option.map_some, Nat.zero_add] at hall
  have hdata := (completions_spec hcqes).1
  have hlength := length_of_completions hcqes
  rw [length_pending, undrained, h.cqSize] at hroom
  have hlen : (s.completed ++ cqes).length = s.accepted.length := by
    rw [length_append, hlength, length_pending]
    omega
  have hadd : s.completed.length + cqes.length = s.accepted.length := by
    rw [hlength, length_pending]
    omega
  have hsize : s.pending.length = cqes.length := hlength.symm
  have hcqSize := h.cqSize
  have hinv : UringInv n (s.step (.process env)) := by
    rw [step, hall]
    dsimp only
    refine { h with
      corresponds := { h.corresponds with
        processed := ?_, drained := ?_, kept := ?_, sqHead := ?_, cqTail := ?_, sqRoom := ?_,
        cqRoom := ?_ }
      slots := ?_ }
    · obtain ⟨rest, hrest⟩ := h.corresponds.processed
      have hpending : s.pending.map IoSqEntry.userData = rest := by
        rw [pending, map_drop, ← hrest]
        rw [← length_map (f := IoCqe.userData), drop_left]
      rw [map_append, hdata, hpending]
      exact hrest ▸ prefix_rfl
    · exact h.corresponds.drained.trans (prefix_append _ _)
    · intro i hlo hi
      rw [h.cqMask]
      exact hholds.putAll default (hapart _ (by omega) (by omega)) i hlo hi
    · rw [hlen, h.corresponds.sqHead, Nat.mod_add_mod, hsize, hadd]
    · rw [hlen, hadd]
    · dsimp only
      omega
    · dsimp only
      omega
    · rw [hlen]
      exact Ring.Holds.none _ _ _
  refine ⟨⟨hinv.corresponds, fun env' heq => ?_⟩, hinv⟩
  cases heq
  rw [step, hall]
  exact ⟨rfl, hlen⟩

theorem sound_of_process (hok : StepOk s (.process env)) : Sound s (.process env) := by
  obtain ⟨hok, hreturns⟩ := hok
  obtain ⟨hsome, hall⟩ := hreturns env rfl
  have hle := h.completed_le
  have hdrained := h.corresponds.drained.length_le
  have hpending := h.pending_le hn
  have hwrap : s.ring.sqRing.head ≤ s.ring.sqRing.tail := by
    by_contra hlt
    have hmore := h.lt_completed hn (by omega) hsome
    rw [hall] at hmore
    exact absurd hmore (Nat.lt_irrefl _)
  have hprocess := h.processAll_pending hn env hwrap
  rw [hprocess, Option.isSome_map] at hsome
  obtain ⟨⟨cqes, count⟩, hcqes⟩ := Option.isSome_iff_exists.mp hsome
  have hlength := length_of_completions hcqes
  have hcount := (completions_spec hcqes).2
  rw [hcqes, Option.map_some] at hprocess
  obtain ⟨-, -, -, hsqHead, -, -, -, -, hcqRoom⟩ := hok
  rw [step, hprocess] at hsqHead hcqRoom
  dsimp only at hsqHead hcqRoom
  rw [length_append] at hcqRoom
  refine ⟨hwrap, ?_, ?_⟩
  · -- a cancelled entry leaves the head behind
    rw [length_append, h.corresponds.sqHead, Nat.mod_add_mod] at hsqHead
    have hall' : count = 0 + s.pending.length := by omega
    rw [hall'] at hcqes
    exact (exists_completions_iff.mp ⟨cqes, hcqes⟩).1
  · rw [undrained]
    omega

/-! Draining -/

theorem drainCqes_eq {count : ℕ} (hcount : count ≤ s.undrained) : ((List.range count).map fun i =>
      (s.ring.cqEntries[(s.ring.cqRing.head + i) &&& s.ring.cqRing.ringMask]?).getD default) =
      (s.completed.drop s.drained.length).take count := by
  rw [undrained] at hcount
  refine ext_getElem? fun i => ?_
  by_cases hi : i < count
  · rw [getElem?_map, getElem?_range hi, getElem?_take_of_lt hi, getElem?_drop,
      h.corresponds.cqHead]
    dsimp only [Option.map_some]
    rw [and_mask (h.cqMask_lt hn), h.corresponds.kept _ (Nat.le_add_right _ _) (by omega),
      getElem?_eq_getElem (by omega), Option.getD_some]
  · rw [getElem?_eq_none (by rw [length_map, length_range]; omega),
      getElem?_eq_none (by rw [length_take]; omega)]

theorem drain_iff (bufLen : ℕ) : (StepOk s (.drain bufLen) ↔ Sound s (.drain bufLen)) ∧
      (Sound s (.drain bufLen) → UringInv n (s.step (.drain bufLen))) := by
  have hdrained := h.corresponds.drained.length_le
  have hcqRoom := h.corresponds.cqRoom
  rw [h.cqSize] at hcqRoom
  have hmax : n ≤ 4096 := hn
  have hturns := turnsTo_eq hdrained (by omega)
  rw [← h.corresponds.cqHead, ← h.corresponds.cqTail] at hturns
  have hsound : Sound s (.drain bufLen) ↔
      min (turnsTo s.ring.cqRing.head s.ring.cqRing.tail) bufLen ≤ s.undrained := by
    rw [Sound, undrained]
    rcases hturns with ⟨hle, heq⟩ | ⟨hlt, hmore⟩
    · exact iff_of_true (.inl hle) (by omega)
    · omega
  have hinv : Sound s (.drain bufLen) → UringInv n (s.step (.drain bufLen)) := by
    intro hs
    rw [hsound] at hs
    rw [step, IoUringInstance.drainCqes]
    rw [h.drainCqes_eq hn hs]
    rw [undrained] at hs
    generalize min (turnsTo s.ring.cqRing.head s.ring.cqRing.tail) bufLen = count at hs ⊢
    have hlen : (s.drained ++ (s.completed.drop s.drained.length).take count).length =
        s.drained.length + count := by
      rw [length_append, length_take, length_drop]
      omega
    have hcqSize := h.cqSize
    refine { h with
      corresponds := { h.corresponds with
        drained := ?_, kept := fun i hlo hi => h.corresponds.kept i ?_ hi, cqHead := ?_,
        cqRoom := ?_ } }
    · obtain ⟨rest, hrest⟩ := h.corresponds.drained
      rw [← hrest, drop_left]
      exact prefix_append_right_inj _ |>.mpr (List.take_prefix count rest)
    · dsimp only at hlo
      omega
    · rw [hlen, h.corresponds.cqHead, Nat.mod_add_mod]
    · dsimp only
      omega
  refine ⟨⟨fun hok => ?_, fun hs => ⟨(hinv hs).corresponds, fun _ heq => by cases heq⟩⟩, hinv⟩
  have hle := hok.1.drained.length_le
  dsimp only [step, IoUringInstance.drainCqes] at hle
  rw [length_append, length_map, length_range] at hle
  rw [hsound, undrained]
  omega

theorem stepOk_iff (op : UringOp) (hapart : SlotsApart n s op) :
    (StepOk s op ↔ Sound s op) ∧ (Sound s op → UringInv n (s.step op)) := by
  cases op with
  | submit sqes => exact h.submit_iff hn sqes hapart
  | process env =>
    exact ⟨⟨h.sound_of_process hn, fun hs => (h.inv_process hn hapart hs).1⟩,
      fun hs => (h.inv_process hn hapart hs).2⟩
  | drain bufLen => exact h.drain_iff hn bufLen

end

end

theorem new (n : ℕ) : UringInv n (.new n) where
  corresponds := ⟨prefix_rfl, prefix_rfl, fun _ _ hi => absurd hi (Nat.not_lt_zero _),
    rfl, rfl, rfl, rfl, Nat.zero_le _, Nat.zero_le _⟩
  slots := Ring.Holds.none _ _ _
  sqMask := rfl
  sqSize := rfl
  cqMask := rfl
  cqSize := rfl

end UringInv

/-- Positions in use have slots of their own in every ring whose size is a power of two. -/
theorem slotsApart_two_pow (k : ℕ) (s : UringRun) (op : UringOp) : SlotsApart (2 ^ k) s op := by
  cases op with
  | submit sqes => exact fun hi _ hroom => Ring.apart_two_pow hroom
  | process env =>
    intro hi _ hroom
    rw [← Nat.pow_succ] at hroom ⊢
    exact Ring.apart_two_pow hroom
  | drain bufLen => trivial

/-- The ring has descriptor 5, and operations on other files fail. -/
def ringAtFive : FileEnv :=
  ⟨fun _ fd => fd = 5, fun _ => true, fun _ => true, fun _ => BitVec.ofInt 32 (-9)⟩

end Vahi.Syscalls.Uring
