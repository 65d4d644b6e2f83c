import Vahi.Lib.Bytes
import Vahi.Memory.PageMap

/-!
# Signal delivery and return

The signal delivery on the way out of `do_syscall_body` (`kernel/src/syscalls/dispatch.rs`),
`sys_rt_sigreturn` (`process_signal.rs`) and the signal state (`crates/syscalls/src/signal.rs`).
User memory is written through the linear map of physical memory.
-/

namespace Vahi.Syscalls

open Vahi.Lib Vahi.Memory

/-- The slots of the register frame, in the order of `SignalFrame`. -/
inductive Reg where
  | r15 | r14 | r13 | r12 | r11 | r10 | r9 | r8 | rdi | rsi | rbp | rbx | rdx | rcx | rax
  | rip | rflags | rsp
  deriving DecidableEq

def Reg.all : List Reg :=
  [.r15, .r14, .r13, .r12, .r11, .r10, .r9, .r8, .rdi, .rsi, .rbp, .rbx, .rdx, .rcx, .rax,
    .rip, .rflags, .rsp]

abbrev Regs := Reg → BitVec 64

/-- `SignalContext`: the saved registers, under their own names, and the FPU state. -/
structure SignalContext where
  regs : Regs
  fpuState : List (BitVec 8)

structure SignalState where
  pending : BitVec 64
  blocked : BitVec 64
  savedContext : Option SignalContext

def SignalState.hasUnmaskedPending (s : SignalState) (mask : BitVec 64) : Bool :=
  s.pending &&& ~~~mask ≠ 0

/-- What delivery and return work on: the register frame, the FPU, the current
process's signal tables and page mappings, and physical memory. -/
structure Machine where
  regs : Regs
  fpu : List (BitVec 8)
  signals : SignalState
  signalHandlers : Fin 32 → BitVec 64
  signalRestorers : Fin 32 → BitVec 64
  pages : PageMap
  memory : ℕ → BitVec 8

structure Write where
  va : ℕ
  pa : ℕ
  byte : BitVec 8

def applyWrites (memory : ℕ → BitVec 8) (writes : List Write) : ℕ → BitVec 8 :=
  writes.foldl (fun mem w => Function.update mem w.pa w.byte) memory

def storeBytes (va pa : ℕ) (bytes : List (BitVec 8)) : List Write :=
  bytes.mapIdx fun i b => ⟨va + i, pa + i, b⟩

/-- `SIGNAL_RESTORER`: `mov eax, 15; syscall`. -/
def signalRestorer : List (BitVec 8) := [0xB8, 0x0F, 0x00, 0x00, 0x00, 0x0F, 0x05]

/-- `get_restorer`; `trampoline` is the address of `SIGNAL_RESTORER` in the kernel. -/
def getRestorer (trampoline saRestorer : BitVec 64) : BitVec 64 :=
  if saRestorer ≠ 0 then saRestorer else trampoline

def frameSize : ℕ := 144

/-- The slot for the return address, below the interrupted stack pointer. -/
def retAddrRsp (oldRsp : BitVec 64) : BitVec 64 := oldRsp - 8

/-- The handler's stack pointer: below the return slot, aligned to 16 bytes. -/
def newRsp (oldRsp : BitVec 64) : BitVec 64 := (retAddrRsp oldRsp - 144) &&& ~~~(0xF : BitVec 64)

def frameBytes (regs : Regs) : List (BitVec 8) := Reg.all.flatMap fun r => neBytes 8 (regs r)

/-- What is put in the return slot: the application's restorer or the default code. -/
def retBytes (trampoline saRestorer : BitVec 64) : List (BitVec 8) :=
  let restorer := getRestorer trampoline saRestorer
  if restorer ≠ trampoline then neBytes 8 restorer else signalRestorer

inductive Delivery where
  /-- Nothing to deliver, or the signal is ignored. -/
  | quiet (m : Machine)
  /-- The process is terminated with a status. -/
  | exit (m : Machine) (writes : List Write) (status : ℕ)
  /-- The handler is entered on return to user mode. -/
  | handler (m : Machine) (writes : List Write)

def Delivery.writes : Delivery → List Write
  | .quiet _ => []
  | .exit _ writes _ => writes
  | .handler _ writes => writes

def sigBit (s : SignalState) : ℕ := (s.pending &&& ~~~s.blocked).ctz.toNat

def signalMask (bit : ℕ) : BitVec 64 := 1 <<< bit

def enterHandler (m : Machine) (bit : ℕ) (handler : BitVec 64) (writes : List Write) : Machine :=
  let oldRsp := m.regs .rsp
  { m with
    memory := applyWrites m.memory writes
    signals :=
      { pending := m.signals.pending &&& ~~~signalMask bit
        blocked := m.signals.blocked ||| signalMask bit
        -- the stack pointer saved is the handler's
        savedContext := some ⟨Function.update m.regs .rsp (newRsp oldRsp), m.fpu⟩ }
    regs := fun
      | .rsp => newRsp oldRsp
      | .rip => handler
      | .rdi => BitVec.ofNat 64 (bit + 1)
      | r => m.regs r }

/-- A page that is not mapped ends the process; the frame may be written by then. -/
def buildFrame (trampoline : BitVec 64) (m : Machine) (bit : ℕ) (handler saRestorer : BitVec 64) :
    Outcome Delivery := do
  let oldRsp := m.regs .rsp
  let va ← virtAddrNew (newRsp oldRsp)
  match translate m.pages va.toNat with
  | none => .ok (.exit m [] (128 + (bit + 1)))
  | some phys =>
    let frame := storeBytes (newRsp oldRsp).toNat phys (frameBytes m.regs)
    let retVa ← virtAddrNew (retAddrRsp oldRsp)
    match translate m.pages retVa.toNat with
    | none => .ok (.exit { m with memory := applyWrites m.memory frame } frame (128 + (bit + 1)))
    | some retPhys =>
      let ret := storeBytes (retAddrRsp oldRsp).toNat retPhys (retBytes trampoline saRestorer)
      .ok (.handler (enterHandler m bit handler (frame ++ ret)) (frame ++ ret))

/-- The lowest pending signal that is not blocked; 0 is the default action, 1 ignores it. -/
def deliver (trampoline : BitVec 64) (m : Machine) : Outcome Delivery :=
  if m.signals.hasUnmaskedPending m.signals.blocked = false then .ok (.quiet m)
  else if h : sigBit m.signals < 32 then
    let bit := sigBit m.signals
    let handler := m.signalHandlers ⟨bit, h⟩
    if handler = 1 then
      .ok (.quiet { m with signals := { m.signals with
        pending := m.signals.pending &&& ~~~signalMask bit } })
    else if handler = 0 then .ok (.exit m [] (128 + (bit + 1)))
    else buildFrame trampoline m bit handler (m.signalRestorers ⟨bit, h⟩)
  else .panic

/-- `sys_rt_sigreturn`; without a saved context the frame is left alone (`EINVAL`). -/
def sysRtSigreturn (m : Machine) : Machine :=
  match m.signals.savedContext with
  | none => m
  | some ctx =>
    { m with
      regs := ctx.regs
      fpu := ctx.fpuState
      signals := { m.signals with blocked := 0, savedContext := none } }

@[simp] theorem length_frameBytes (regs : Regs) : (frameBytes regs).length = frameSize := by
  simp [frameBytes, Reg.all, frameSize]

/-- The handler's stack pointer is 152 to 167 bytes below the interrupted one, counted
around the address space. -/
theorem newRsp_add (oldRsp : BitVec 64) :
    ∃ r < 16, ((newRsp oldRsp).toNat + (152 + r)) % 2 ^ 64 = oldRsp.toNat := by
  refine ⟨(retAddrRsp oldRsp - 144).toNat % 16, Nat.mod_lt _ (by omega), ?_⟩
  have hnew : (newRsp oldRsp).toNat = (retAddrRsp oldRsp - 144).toNat / 16 * 16 :=
    toNat_and_not_15 _
  have hret : (retAddrRsp oldRsp - 144).toNat = (oldRsp.toNat + (2 ^ 64 - 152)) % 2 ^ 64 := by
    have h8 : (8 : BitVec 64).toNat = 8 := rfl
    have h144 : (144 : BitVec 64).toNat = 144 := rfl
    rw [retAddrRsp, BitVec.toNat_sub, BitVec.toNat_sub, h8, h144]
    omega
  omega

/-- The interrupted stack pointer is never the one saved. -/
theorem newRsp_ne (oldRsp : BitVec 64) : newRsp oldRsp ≠ oldRsp := by
  intro h
  obtain ⟨r, hr, hsum⟩ := newRsp_add oldRsp
  rw [h] at hsum
  omega

/-- A delivery saves a context exactly when it enters a handler, and then it is the
interrupted one but for the stack pointer. -/
theorem deliver_savedContext {trampoline : BitVec 64} {m : Machine} {d : Delivery}
    (h : deliver trampoline m = .ok d) :
    (∃ m', d = .quiet m' ∧ m'.signals.savedContext = m.signals.savedContext) ∨
      (∃ m' writes status, d = .exit m' writes status) ∨
      ∃ m' writes, d = .handler m' writes ∧ m'.signals.savedContext =
        some ⟨Function.update m.regs .rsp (newRsp (m.regs .rsp)), m.fpu⟩ := by
  unfold deliver at h
  split at h
  · cases h; exact .inl ⟨m, rfl, rfl⟩
  split at h
  · simp only at h
    split at h
    · cases h; exact .inl ⟨_, rfl, rfl⟩
    split at h
    · cases h; exact .inr (.inl ⟨_, _, _, rfl⟩)
    obtain ⟨va, -, h⟩ := Outcome.bind_eq_ok.mp h
    split at h
    · cases h; exact .inr (.inl ⟨_, _, _, rfl⟩)
    obtain ⟨retVa, -, h⟩ := Outcome.bind_eq_ok.mp h
    split at h
    · cases h; exact .inr (.inl ⟨_, _, _, rfl⟩)
    · cases h; exact .inr (.inr ⟨_, _, rfl, rfl⟩)
  · cases h

end Vahi.Syscalls
