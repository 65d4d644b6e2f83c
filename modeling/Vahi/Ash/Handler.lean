import Vahi.Ebpf.TnumVerify

/-!
# Application-specific handlers

`verify_handler` (`kernel/src/ash/verifier.rs`) and the interpreter path of `execute_handler`
(`runtime.rs`). The accesses of a verified handler stay inside its stack exactly as long as no
address wraps around.
-/

namespace Vahi.Ash

open Vahi.Lib Vahi.Ebpf List

inductive Protocol where
  | tcp | udp | icmp | raw
  deriving DecidableEq

inductive HookPoint where
  | netReceive (interface : BitVec 8) (port : BitVec 16) (protocol : Protocol)
  | netTransmit (interface : BitVec 8) (port : BitVec 16) (protocol : Protocol)
  | syscallEntry (syscallNum : BitVec 64)
  | syscallExit (syscallNum : BitVec 64)
  | timerFired (timerId : BitVec 64)
  | signalDelivery (signal : BitVec 32)
  | messageReceive (channel : BitVec 64)
  deriving DecidableEq

structure AshHandler where
  bytecode : List (BitVec 8)
  hookPoint : HookPoint
  maxInsns : ℕ

structure VerifiedAsh where
  insns : List EbpfInsn
  maxCycles : ℕ
  contextSize : ℕ
  memoryBudget : ℕ
  deriving DecidableEq

def ashMaxInsns : ℕ := 512

def ashMaxMemoryBudget : ℕ := 512

/-- `size_of::<EbpfInsn>()`: three bytes, padding, `off` at 4, padding, `imm` at 8. -/
def insnSize : ℕ := 12

def decodeInsn (bytes : List (BitVec 8)) (i : ℕ) : EbpfInsn :=
  let byte (k : ℕ) : BitVec 8 := bytes.getD (insnSize * i + k) 0
  { code := byte 0
    dstReg := byte 1
    srcReg := byte 2
    off := byte 5 ++ byte 4
    imm := byte 11 ++ byte 10 ++ byte 9 ++ byte 8 }

def decodeInsns (bytes : List (BitVec 8)) : List EbpfInsn :=
  (List.range (bytes.length / insnSize)).map (decodeInsn bytes)

def hookContextSize : HookPoint → ℕ
  | .netReceive _ _ _ | .netTransmit _ _ _ => 32
  | .syscallEntry _ | .syscallExit _ => 64
  | .timerFired _ => 16
  | .signalDelivery _ => 16
  | .messageReceive _ => 32

/-- Loads through the context register must stay inside the context. -/
def isHookCompatible (insns : List EbpfInsn) (hook : HookPoint) : Bool :=
  insns.all fun insn =>
    if insn.cls = .ldx ∧ insn.srcReg = 1 then
      decide (0 ≤ insn.off.toInt) &&
        decide (insn.off.toInt + insn.sizeBytes ≤ hookContextSize hook)
    else true

/-- `verify_handler`; `none` is `VerifierRejected`. -/
def verifyHandler (handler : AshHandler) : Outcome (Option VerifiedAsh) :=
  if handler.bytecode.isEmpty || handler.bytecode.length > ashMaxInsns * insnSize then .ok none
  else if handler.bytecode.length / insnSize > ashMaxInsns then .ok none
  else
    let insns := decodeInsns handler.bytecode
    if !verify insns then .ok none
    else do
      if !(← tnumVerify insns) then return none
      else if !isHookCompatible insns handler.hookPoint then return none
      else
        return some
          { insns := insns
            maxCycles := min (max handler.maxInsns ashMaxInsns) 100000
            contextSize := hookContextSize handler.hookPoint
            memoryBudget := ashMaxMemoryBudget }

/-- The registers `execute_handler` sets up: context, payload and payload length
in `r1`, `r2`, `r3`, everything else `0`. -/
def handlerRegs (context payload len : BitVec 64) : EbpfRegs :=
  EbpfRegs.setR (EbpfRegs.setR (EbpfRegs.setR (fun _ => 0) 1 context) 2 payload) 3 len

def handlerMemory (outside : Memory) : Memory := fun a =>
  if a.toNat < stackSize then 0 else outside a

def handlerStart (context payload len : BitVec 64) (outside : Memory) : VmState :=
  .start (handlerRegs context payload len) (handlerMemory outside)

/-! ### Accesses of one step -/

/-- The range lies inside the stack, with address and size added as numbers. -/
def InStack (a : Access) : Prop := a.addr.toNat + a.size ≤ stackSize

instance (a : Access) : Decidable (InStack a) := inferInstanceAs (Decidable (_ ≤ _))

def memOperand (insn : EbpfInsn) (regs : EbpfRegs) : Option (BitVec 64 × ℕ) :=
  match insn.cls with
  | .ldx => some (effAddr (regs.r insn.srcReg.toNat) insn, insn.sizeBytes)
  | .st => some (effAddr (regs.r insn.dstReg.toNat) insn, 8)
  | .stx => some (effAddr (regs.r insn.dstReg.toNat) insn, insn.sizeBytes)
  | _ => none

/-- If the next instruction is a load or a store, the end of its range does not
wrap around. -/
def NoWrap (insns : List EbpfInsn) (s : VmState) : Prop :=
  s.pc < insns.length →
    match memOperand (insnAt insns s.pc) s.regs with
    | some (addr, size) => addr.toNat + size < 2 ^ 64
    | none => True

def AccessesInStack (insns : List EbpfInsn) (env : HelperEnv) (s : VmState) : Prop :=
  ∀ t, step insns env s = .ok t → ∀ a ∈ t.accesses, InStack a

section OneStep

variable {insns : List EbpfInsn} {s : VmState}

variable {addr : BitVec 64} {size : ℕ} (insn : EbpfInsn) (env : HelperEnv)

theorem sizeBytes_le : insn.sizeBytes ≤ 8 := by
  have hall : ∀ c : BitVec 8, (⟨c, 0, 0, 0, 0⟩ : EbpfInsn).sizeBytes ≤ 8 := by decide
  exact hall insn.code

/-- The interpreter's check lets exactly the ranges inside the stack and the
ranges that wrap around pass. -/
theorem inBounds_inStack_iff (hsize : size ≤ 8) :
    (inBounds addr size = true → InStack ⟨addr, size⟩) ↔ addr.toNat + size < 2 ^ 64 := by
  rw [inBounds, decide_eq_true_eq, BitVec.toNat_add, BitVec.toNat_ofNat, InStack, stackSize]
  simp only
  omega

theorem mapLookupElem_inStack (mem : Memory) (mapFd keyOff valOff : BitVec 64) :
    ∀ a ∈ (mapLookupElem env mem mapFd keyOff valOff).2.2, InStack a := by
  rw [mapLookupElem]
  split
  · rename_i m hm
    split
    · simp
    rename_i hkey
    split
    · simp
    rename_i hval
    have hkeyIn : InStack ⟨keyOff, m.keySize⟩ := by rw [InStack]; simp only; omega
    split
    · rename_i val hlookup
      intro a ha
      simp only [mem_cons, not_mem_nil, or_false] at ha
      rcases ha with rfl | rfl
      · exact hkeyIn
      · rw [InStack]
        simp only
        omega
    · intro a ha
      rw [mem_singleton.1 ha]
      exact hkeyIn
  · simp

/-- The helpers a verified program can call check their ranges without wrapping. -/
theorem callHelper_inStack {env : HelperEnv} {imm : BitVec 32} {regs regs' : EbpfRegs}
    {mem mem' : Memory} {accesses : List Access} (h₁ : 1 ≤ imm.toInt) (h₄ : imm.toInt ≤ 4)
    (h : callHelper env imm regs mem = .ok (some (regs', mem', accesses))) :
    ∀ a ∈ accesses, InStack a := by
  rcases helper_toNat h₁ h₄ with hn | hn | hn | hn
  · simp only [callHelper, hn] at h
    cases h
    exact mapLookupElem_inStack _ _ _ _ _
  · simp only [callHelper, hn] at h
    cases h
    simp
  · simp only [callHelper, hn] at h
    cases h
    simp
  simp only [callHelper, hn, debugPrint] at h
  cases h
  split
  · simp
  intro a ha
  rw [mem_singleton.1 ha, InStack]
  simp only
  omega

theorem stepLdx_accesses (s : VmState) : (stepLdx insn s).accesses =
      if inBounds (effAddr (s.regs.r insn.srcReg.toNat) insn) insn.sizeBytes then
        [⟨effAddr (s.regs.r insn.srcReg.toNat) insn, insn.sizeBytes⟩]
      else [] := by
  rw [stepLdx]
  split
  · rfl
  · rfl

theorem stepStore_accesses (size : ℕ) (val : BitVec 64) (s : VmState) :
    (stepStore insn size val s).accesses =
      if inBounds (effAddr (s.regs.r insn.dstReg.toNat) insn) size then
        [⟨effAddr (s.regs.r insn.dstReg.toNat) insn, size⟩]
      else [] := by
  rw [stepStore]
  split
  · rfl
  · rfl

/-- A step whose only access is the checked one. -/
theorem checked_accesses_iff {t : Transition} (hsize : size ≤ 8)
    (hacc : t.accesses = if inBounds addr size then [⟨addr, size⟩] else []) :
    (∀ t', Outcome.ok t = .ok t' → ∀ a ∈ t'.accesses, InStack a) ↔
      addr.toNat + size < 2 ^ 64 := by
  rw [← inBounds_inStack_iff hsize]
  constructor
  · intro h hin
    exact h t rfl ⟨addr, size⟩ (by rw [hacc, if_pos hin]; exact mem_singleton.2 rfl)
  · intro h t' ht' a ha
    cases ht'
    rw [hacc] at ha
    split at ha
    · rename_i hin
      rw [mem_singleton.1 ha]
      exact h hin
    · cases ha

theorem stepAlu_accesses {insn : EbpfInsn} :
    ∀ t, stepAlu insn s = .ok t → ∀ a ∈ t.accesses, InStack a := by
  intro t ht
  obtain ⟨z, -, ht⟩ := Outcome.bind_eq_ok.1 ht
  cases ht
  simp [VmState.advance]

theorem step_accesses_iff (h : verify insns = true) :
    AccessesInStack insns env s ↔ NoWrap insns s := by
  rw [AccessesInStack, NoWrap]
  by_cases hpc : s.pc < insns.length
  · have hcheck := verify_checkInsn h hpc
    have hjmp : (insnAt insns s.pc).isJmp = true →
        ∀ t, step insns env s = .ok t → ∀ a ∈ t.accesses, InStack a := by
      intro hjmp t ht
      have hres := step_jmp env hpc hcheck hjmp
      rw [ht] at hres
      cases hres with
      | exit hop => simp
      | call hop hres =>
        obtain ⟨h₁, h₄⟩ := checkInsn_call hcheck hjmp hop
        exact callHelper_inStack h₁ h₄ hres
      | falls hexit hcall htaken => simp [VmState.advance]
      | stops hexit htaken hoff => simp
      | jumps hexit htaken hoff => simp
    simp only [hpc, forall_const]
    rw [step_eq hpc, stepInsn] at *
    cases hcls : (insnAt insns s.pc).cls with
    | alu | alu64 =>
      simp only [memOperand, hcls, iff_true]
      exact stepAlu_accesses
    | jmp | jmp32 =>
      simp only [memOperand, hcls, iff_true]
      simpa only [hcls] using hjmp (by simp [EbpfInsn.isJmp, hcls])
    | ld =>
      simp only [memOperand, hcls, iff_true]
      intro t ht
      cases ht
      rw [stepLd]
      split
      all_goals simp [VmState.advance]
    | ldx =>
      simp only [memOperand, hcls]
      exact checked_accesses_iff (sizeBytes_le _) (stepLdx_accesses _ _)
    | st =>
      simp only [memOperand, hcls]
      exact checked_accesses_iff (Nat.le_refl 8) (stepStore_accesses _ _ _ _)
    | stx =>
      simp only [memOperand, hcls]
      exact checked_accesses_iff (sizeBytes_le _) (stepStore_accesses _ _ _ _)
  · simp only [hpc, false_imp_iff, iff_true]
    intro t ht
    rw [step, getElem?_eq_none (by omega)] at ht
    cases ht
    simp

end OneStep

/-! ### Executions -/

@[simp] theorem length_decodeInsns (bytes : List (BitVec 8)) :
    (decodeInsns bytes).length = bytes.length / insnSize := by
  rw [decodeInsns, length_map, length_range]

/-- A verified handler runs instructions that both verifiers accepted, and it has no more of
them than it is given cycles. -/
theorem verifyHandler_spec {handler : AshHandler} {v : VerifiedAsh}
    (h : verifyHandler handler = .ok (some v)) :
    v.insns = decodeInsns handler.bytecode ∧ verify v.insns = true ∧
      tnumVerify v.insns = .ok true ∧ v.insns.length ≤ v.maxCycles := by
  rw [verifyHandler] at h
  split at h
  · cases h
  split at h
  · cases h
  rename_i hcount
  simp only at h
  split at h
  · cases h
  rename_i hverify
  obtain ⟨accepted, hacc, h⟩ := Outcome.bind_eq_ok.1 h
  cases accepted with
  | false => cases h
  | true =>
    split at h
    · cases h
    split at h
    · cases h
    cases h
    refine ⟨rfl, by simpa using hverify, hacc, ?_⟩
    rw [length_decodeInsns]
    simp only [ashMaxInsns] at hcount ⊢
    omega

/-- An execution of a verified handler touches only its own stack exactly when
the range of no load or store wraps around. -/
theorem handler_accesses_iff {handler : AshHandler} {v : VerifiedAsh}
    (h : verifyHandler handler = .ok (some v)) (env : ℕ → HelperEnv)
    (context payload len : BitVec 64) (outside : Memory) :
    (∀ n s, trace (next v.insns) env (handlerStart context payload len outside) n = some s →
      AccessesInStack v.insns (env n) s) ↔
    ∀ n s, trace (next v.insns) env (handlerStart context payload len outside) n = some s →
      NoWrap v.insns s := by
  obtain ⟨-, hverify, -⟩ := verifyHandler_spec h
  constructor
  · intro hacc n s hs
    exact (step_accesses_iff (env n) hverify).1 (hacc n s hs)
  · intro hwrap n s hs
    exact (step_accesses_iff (env n) hverify).2 (hwrap n s hs)

/-- `mov r0, 0; ldx r2, [r10 - 8]; exit` in the layout of `EbpfInsn`. -/
def frameLoad : AshHandler where
  bytecode :=
    [0xbf, 0, 0, 0, 0, 0, 0, 0, 0, 0, 0, 0, 0x01, 2, 10, 0, 0xf8, 0xff, 0, 0, 0, 0, 0, 0,
     0x95, 0, 0, 0, 0, 0, 0, 0, 0, 0, 0, 0]
  hookPoint := .timerFired 0
  maxInsns := 0

def frameLoadVerified : VerifiedAsh where
  insns := [⟨0xbf, 0, 0, 0, 0⟩, ⟨0x01, 2, 10, 0xfff8, 0⟩, ⟨0x95, 0, 0, 0, 0⟩]
  maxCycles := 512
  contextSize := 16
  memoryBudget := 512

theorem handler_accesses_iff_frameLoad :
    verifyHandler frameLoad = .ok (some frameLoadVerified) ∧
    ((∀ n s, trace (next frameLoadVerified.insns) (fun _ => .idle)
        (handlerStart 0 0 0 fun _ => 0) n = some s →
        AccessesInStack frameLoadVerified.insns .idle s) ↔
      ∀ n s, trace (next frameLoadVerified.insns) (fun _ => .idle)
        (handlerStart 0 0 0 fun _ => 0) n = some s → NoWrap frameLoadVerified.insns s) := by
  have hverified : verifyHandler frameLoad = .ok (some frameLoadVerified) := by decide +kernel
  exact ⟨hverified, handler_accesses_iff hverified _ _ _ _ _⟩

/-- The load is accepted at `512 - 8`, but the frame pointer holds `0`: the
interpreter reads the eight bytes below the stack. -/
theorem frameLoad_reads_below_stack :
    verifyHandler frameLoad = .ok (some frameLoadVerified) ∧
    ¬ ∀ n s, trace (next frameLoadVerified.insns) (fun _ => .idle)
        (handlerStart 0 0 0 fun _ => 0) n = some s →
      AccessesInStack frameLoadVerified.insns .idle s := by
  refine ⟨by decide +kernel, fun hall => ?_⟩
  have hin := hall 1 _ rfl _ rfl ⟨-8#64, 8⟩ (mem_singleton.2 rfl)
  exact absurd hin (by decide)

end Vahi.Ash
