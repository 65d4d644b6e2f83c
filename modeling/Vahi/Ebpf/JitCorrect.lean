import Vahi.Ebpf.Jit
import Vahi.Ebpf.Verifier

/-!
# Compiled programs and the interpreter

The interpreter and a processor that executes the bytes of `compile` are two machines. `FaithfulRun`
describes the runs on whose instructions the encodings mean what the interpreter does.
-/

namespace Vahi.Ebpf

open Vahi.Lib Vahi.Lib.X86 List

abbrev JitResult := BitVec 64 × List (BitVec 8)

variable (insns : List EbpfInsn)

/-- A round of the interpreter; the environment may differ from one to the next. -/
def vmStep (env : ℕ → HelperEnv) (s : ℕ × VmState) : Progress (ℕ × VmState) JitResult :=
  match step insns (env s.1) s.2 with
  | .ok ⟨.running s', _⟩ => .run (s.1 + 1, s')
  | .ok ⟨.returned r0, _⟩ => .done (r0, s.2.mem.readBytes 0 stackSize)
  | _ => .stuck

def jitResult (base : BitVec 64) (x : State) : JitResult :=
  (x.regs .rax, Memory.readBytes x.mem base stackSize)

abbrev jitStep (code : Bytes) (ret base : BitVec 64) : State → Progress State JitResult :=
  machine code ret (jitResult base)

/-- The processor when compiled code is entered: the program's registers are where the compiler
has them, its stack is at `base`, and not in the 40 bytes that the code needs of the processor's
stack. -/
structure Entry (regs : EbpfRegs) (mem : Memory) (base : BitVec 64) (x : State) : Prop where
  rip : x.rip = 0
  regs : ∀ i, x.regs (hostReg i) = regs i
  stack : ∀ i < stackSize, x.mem (base + BitVec.ofNat 64 i) = mem (BitVec.ofNat 64 i)
  apart : ∀ i < stackSize, 40 ≤ (base + BitVec.ofNat 64 i - (x.regs .rsp - 40)).toNat

/-! ## Programs that are compiled faithfully -/

/-- `R0` to `R4` live in registers that need no extension bit. -/
def lowBank (r : BitVec 8) : Bool := r.toNat < 5

def sameBank (dst src : BitVec 8) : Bool := lowBank dst == lowBank src

def faithfulAlu64 (insn : EbpfInsn) : Bool :=
  match insn.aluOp with
  | .add | .sub | .and | .or | .xor | .mov =>
    if insn.useImm then lowBank insn.dstReg else sameBank insn.dstReg insn.srcReg
  | .mul => if insn.useImm then lowBank insn.dstReg else insn.dstReg == insn.srcReg
  | .lsh | .rsh => insn.useImm && lowBank insn.dstReg
  | .neg => lowBank insn.dstReg
  | .div | .mod | .arsh | .undefined => false

def faithfulAlu32 (insn : EbpfInsn) : Bool :=
  insn.aluOp == .mov && insn.useImm && lowBank insn.dstReg

def EbpfInsn.isExit (insn : EbpfInsn) : Bool := insn.isJmp && insn.jmpOp == .exit

open EbpfInsn

/-- The displacement leads where the interpreter goes: for the offset `-1`, where the interpreter
returns, to an `EXIT`. -/
def lands (i : ℕ) (off : BitVec 16) : Bool :=
  if off.toInt = -1 then insns[i + 1]?.any isExit
  else decide (jumpTo i off < insns.length) &&
    decide ((pos insns (i + 1) : Int) + 8 * (1 + off.toInt) = pos insns (jumpTo i off))

/-- A conditional jump has to lead to the right place only if it is taken. -/
def faithfulJmp (i : ℕ) (insn : EbpfInsn) (taken : Bool) : Bool :=
  match insn.jmpOp with
  | .exit => true
  -- printing, which leaves registers and memory alone
  | .call => insn.imm == 4
  | .ja => lands insns i insn.off
  | .jeq | .jne | .jgt | .jset | .jsgt | .jsge =>
    insn.cls == .jmp && !insn.useImm && sameBank insn.dstReg insn.srcReg &&
      (!taken || lands insns i insn.off)
  | .jge | .undefined => false

def faithfulInsn (i : ℕ) (insn : EbpfInsn) (taken : Bool) : Bool :=
  match insn.cls with
  | .alu64 => faithfulAlu64 insn
  | .alu => faithfulAlu32 insn
  | .jmp | .jmp32 => faithfulJmp insns i insn taken
  | .ld | .ldx | .st | .stx => false

/-- Every instruction that the interpreter comes to is faithful there. -/
def FaithfulRun (env : ℕ → HelperEnv) (regs : EbpfRegs) (mem : Memory) : Prop :=
  ∀ n p, Reaches (vmStep insns env) n (0, VmState.start regs mem) p →
    ∀ insn, insns[p.2.pc]? = some insn → faithfulInsn insns p.2.pc insn (insn.taken p.2.regs)

/-! ## What the compiler emits for them -/

theorem needsRexr_of_low {r : BitVec 8} (h : lowBank r) : needsRexr r = false := by
  simp only [lowBank, decide_eq_true_eq] at h
  simp only [needsRexr, decide_eq_false_iff_not]
  omega

theorem needs_of_sameBank {dst src : BitVec 8} (h : sameBank dst src) :
    needsRexr dst = needsRexb src ∧ needsRexb src = needsRexb dst := by
  simp only [sameBank, lowBank, beq_iff_eq, decide_eq_decide] at h
  constructor
  · simp only [needsRexr, needsRexb, decide_eq_decide]
    omega
  · simp only [needsRexb, decide_eq_decide]
    omega

def Holds (host : Reg → BitVec 64) (regs : EbpfRegs) : Prop := ∀ i, host (hostReg i) = regs i

/-- The bytes are an instruction that sets `dst` to a function of the program's registers. -/
def Computes (bytes : Bytes) (dst : BitVec 8) (v : EbpfRegs → BitVec 64) : Prop :=
  ∃ i : Fin 11, dst.toNat = i ∧ ∃ insn f, Encodes bytes insn ∧ insn.Assigns (hostReg i) f ∧
    ∀ host regs, Holds host regs → f host = v regs

variable {regs : EbpfRegs} {insn : EbpfInsn} {code : Bytes} {base : BitVec 64}
  {mem : Memory} (imm : BitVec 32) (x : State)

theorem Holds.r {host : Reg → BitVec 64} (h : Holds host regs) {r : ℕ}
    {i : Fin 11} (hr : r = i) : regs.r r = host (hostReg i) := by
  subst hr
  rw [EbpfRegs.r, dif_pos i.isLt, h i]

section Encodings

variable {dst src : BitVec 8} {bytes : Bytes}

/-- Without extension bits, an encoding names the register of a low `dst`. -/
theorem regOf_of_low {d : BitVec 8} {i : Fin 11} (hlow : lowBank dst)
    (h : regOf (needsRexb dst) d.toNat = hostReg i) : regOf false d.toNat = hostReg i := by
  rw [← h]
  exact congrArg (regOf · d.toNat) (needsRexr_of_low hlow).symm

/-- Code for one register of the lower bank. -/
theorem computes_of_low {body : BitVec 8 → Bytes} {insn : Reg → Insn} {v : BitVec 64 → BitVec 64}
    (h : (do let d ← x86reg dst; return body d) = .ok bytes) (hlow : lowBank dst)
    (hencodes : ∀ d, d.toNat < 8 → Encodes (body d) (insn (regOf false d.toNat)))
    (hassigns : ∀ r, (insn r).Assigns r fun regs => v (regs r)) :
    Computes bytes dst fun regs => v (regs.r dst.toNat) := by
  obtain ⟨d, hd, h⟩ := emit_bind h
  cases h
  obtain ⟨hd8, i, hi, hreg⟩ := x86reg_eq_ok hd
  have hcode := hencodes d hd8
  rw [regOf_of_low hlow hreg] at hcode
  exact ⟨i, hi, _, _, hcode, hassigns _, fun host regs hholds => congrArg v (hholds.r hi).symm⟩

theorem computes_emitMovImm64 {imm : BitVec 64} (h : emitMovImm64 dst imm = .ok bytes)
    (hlow : lowBank dst) : Computes bytes dst fun _ => imm := by
  refine computes_of_low (v := fun _ => imm) h hlow (fun d hd => ?_) fun r => assigns_movImm r imm
  rw [rexDst_eq]
  exact encodes_movImm _ false hd imm

variable {imm : BitVec 32} {ext opcode : BitVec 8} {op : BinOp}

theorem computes_emitAluImm32
    (h : emitAluImm32 dst imm ext = .ok bytes) (hlow : lowBank dst) (hext : ext.toNat < 8)
    (hop : binOpOfExt ext.toNat = some op) (hcmp : op ≠ .cmp) (htest : op ≠ .test) :
    Computes bytes dst fun regs => binary op (regs.r dst.toNat) (imm.signExtend 64) := by
  refine computes_of_low (v := (binary op · _)) h hlow (fun d hd => ?_)
    fun r => assigns_bin hcmp htest r (.imm _)
  rw [rexDst_eq]
  exact encodes_bin_imm hext hd _ false hop imm

theorem computes_emitShiftImm {imm : BitVec 8} {op : ShiftOp}
    (h : emitShiftImm dst imm ext = .ok bytes) (hlow : lowBank dst) (hext : ext.toNat < 8)
    (hmodrm : ∀ d : BitVec 8, 0xE0#8 ||| ((ext &&& 7) <<< 3) ||| (d &&& 7) = modRmByte ext d)
    (hop : shiftOpOf ext.toNat = some op) :
    Computes bytes dst fun regs => shifted op (regs.r dst.toNat) (imm.toNat % 64) := by
  have himm : (imm.setWidth 64).toNat = imm.toNat :=
    BitVec.toNat_setWidth_of_le (by decide)
  rw [← himm]
  refine computes_of_low (v := (shifted op · _)) h hlow (fun d hd => ?_)
    fun r => assigns_shift_imm op r _
  rw [rexDst_eq, hmodrm]
  exact encodes_shift_imm hext hd _ false hop imm

theorem computes_emitMulImm (h : emitMulImm dst imm = .ok bytes)
    (hlow : lowBank dst) : Computes bytes dst fun regs => regs.r dst.toNat * imm.signExtend 64 := by
  refine computes_of_low (v := (· * _)) h hlow (fun d hd => ?_) fun r => assigns_imul r r (.imm _)
  rw [rexDst_eq, needsRexr_of_low hlow]
  exact encodes_imul_imm hd hd false false imm

theorem computes_emitMulReg (h : emitMulReg dst dst = .ok bytes) :
    Computes bytes dst fun regs => regs.r dst.toNat * regs.r dst.toNat := by
  obtain ⟨d, hd, h⟩ := emit_bind h
  obtain ⟨d', hd', h⟩ := emit_bind h
  cases h
  obtain rfl : d = d' := Except.ok.inj (hd.symm.trans hd')
  obtain ⟨hd8, i, hi, hreg⟩ := x86reg_eq_ok hd
  have hencodes := encodes_imul_reg hd8 hd8 (needsRexr dst) (needsRexb dst)
  have hreg' : regOf (needsRexr dst) d.toNat = hostReg i := hreg
  rw [hreg', hreg, ← rexDstSrc_eq] at hencodes
  refine ⟨i, hi, _, _, hencodes, assigns_imul _ _ _, fun host regs hholds => ?_⟩
  show _ = regs.r dst.toNat * regs.r dst.toNat
  rw [hholds.r hi]
  rfl

theorem computes_emitNeg (h : emitNeg dst = .ok bytes) (hlow : lowBank dst) :
    Computes bytes dst fun regs => -regs.r dst.toNat := by
  refine computes_of_low (v := (-·)) h hlow (fun d hd => ?_) assigns_neg
  rw [rexDst_eq]
  exact encodes_neg (by decide : (3#8).toNat < 8) hd _ false rfl

/-- A two-register form with both registers in one bank. -/
theorem encodes_emitRegReg
    (h : emitRegReg 0x48 opcode dst src = .ok bytes) (hbank : sameBank dst src)
    (hop : binOpOf opcode.toNat = some op) :
    ∃ i j : Fin 11, dst.toNat = i ∧ src.toNat = j ∧
      Encodes bytes (.bin op .qword (.reg (hostReg i)) (.reg (hostReg j))) ∧ bytes.length = 3 := by
  obtain ⟨d, hd, h⟩ := emit_bind h
  obtain ⟨s, hs, h⟩ := emit_bind h
  cases h
  obtain ⟨hd8, i, hi, hdreg⟩ := x86reg_eq_ok hd
  obtain ⟨hs8, j, hj, hsreg⟩ := x86reg_eq_ok hs
  obtain ⟨hr, hb⟩ := needs_of_sameBank hbank
  have hencodes := encodes_bin_reg hs8 hd8 (needsRexr dst) (needsRexb src) hop
  rw [← rexDstSrc_eq, hr, hsreg, hb, hdreg] at hencodes
  exact ⟨i, j, hi, hj, hencodes, rfl⟩

theorem computes_emitRegReg
    (h : emitRegReg 0x48 opcode dst src = .ok bytes) (hbank : sameBank dst src)
    (hop : binOpOf opcode.toNat = some op) (hcmp : op ≠ .cmp) (htest : op ≠ .test) :
    Computes bytes dst fun regs => binary op (regs.r dst.toNat) (regs.r src.toNat) := by
  obtain ⟨i, j, hi, hj, hencodes, -⟩ := encodes_emitRegReg h hbank hop
  refine ⟨i, hi, _, _, hencodes, assigns_bin hcmp htest _ _, fun host regs hholds => ?_⟩
  show _ = binary op (regs.r dst.toNat) (regs.r src.toNat)
  rw [hholds.r hi, hholds.r hj]
  rfl

theorem computes_emitAlu (h : emitAlu insn ext opcode = .ok bytes)
    (hregs : (if insn.useImm then lowBank insn.dstReg else sameBank insn.dstReg insn.srcReg) = true)
    (hext : ext.toNat < 8) (hopExt : binOpOfExt ext.toNat = some op)
    (hop : binOpOf opcode.toNat = some op) (hcmp : op ≠ .cmp) (htest : op ≠ .test) :
    Computes bytes insn.dstReg fun regs =>
      binary op (regs.r insn.dstReg.toNat) (insn.aluSrc regs) := by
  rw [emitAlu] at h
  simp only [aluSrc]
  cases himm : insn.useImm with
  | true =>
    rw [himm] at h hregs
    exact computes_emitAluImm32 h hregs hext hopExt hcmp htest
  | false =>
    rw [himm] at h hregs
    exact computes_emitRegReg h hregs hop hcmp htest

end Encodings

/-- The count of a shift is the same from the lowest byte. -/
theorem shiftCount :
    (imm.setWidth 8).toNat % 64 = ((imm.signExtend 64).setWidth 32).toNat % 64 := by
  rw [setWidth_signExtend, BitVec.toNat_setWidth]
  omega

/-- What the code of a faithful instruction computes is what the interpreter computes. -/
theorem computes_alu64 (h : compileAlu64 insn = .ok bytes) (hf : faithfulAlu64 insn) :
    ∃ v, Computes bytes insn.dstReg v ∧ ∀ regs : EbpfRegs,
      aluResult insn.aluOp (regs.r insn.dstReg.toNat) (insn.aluSrc regs) = .ok (v regs) := by
  rw [compileAlu64] at h
  rw [faithfulAlu64] at hf
  cases hop : insn.aluOp with
  | add | sub | and | or | xor =>
    rw [hop] at h hf
    exact ⟨_, computes_emitAlu h hf (by decide) rfl rfl nofun nofun, fun regs => rfl⟩
  | mov =>
    rw [hop] at h hf
    simp only [aluSrc]
    cases himm : insn.useImm with
    | true =>
      simp only [himm, if_true] at h hf
      exact ⟨_, computes_emitMovImm64 h hf, fun regs => rfl⟩
    | false =>
      simp only [himm, Bool.false_eq_true, if_false] at h hf
      exact ⟨_, computes_emitRegReg h hf rfl nofun nofun, fun regs => rfl⟩
  | mul =>
    rw [hop] at h hf
    simp only [aluSrc]
    cases himm : insn.useImm with
    | true =>
      simp only [himm, if_true] at h hf
      exact ⟨_, computes_emitMulImm h hf, fun regs => rfl⟩
    | false =>
      simp only [himm, Bool.false_eq_true, if_false, beq_iff_eq] at h hf
      rw [← hf] at h ⊢
      exact ⟨_, computes_emitMulReg h, fun regs => rfl⟩
  | lsh | rsh =>
    rw [hop] at h hf
    obtain ⟨himm, hlow⟩ := Bool.and_eq_true_iff.mp hf
    simp only [himm, if_true] at h
    simp only [aluSrc, himm, if_true]
    refine ⟨_, computes_emitShiftImm h hlow (by decide) (fun d => rfl) rfl, fun regs => ?_⟩
    rw [shiftCount]
    rfl
  | neg =>
    rw [hop] at h hf
    exact ⟨_, computes_emitNeg h hf, fun regs => rfl⟩
  | div | mod | arsh | undefined =>
    rw [hop] at hf
    cases hf

theorem computes_alu32 (h : compileAlu32 insn = .ok bytes) (hf : faithfulAlu32 insn) :
    ∃ v, Computes bytes insn.dstReg v ∧ ∀ regs : EbpfRegs, ∃ w,
      aluResult insn.aluOp (regs.r insn.dstReg.toNat) (insn.aluSrc regs) = .ok w ∧
        narrow w = v regs := by
  simp only [faithfulAlu32, Bool.and_eq_true, beq_iff_eq] at hf
  obtain ⟨⟨hop, himm⟩, hlow⟩ := hf
  simp only [compileAlu32, hop, himm, if_true] at h
  simp only [aluSrc, hop, himm, if_true]
  refine ⟨_, computes_emitMovImm64 h hlow, fun regs => ⟨_, rfl, ?_⟩⟩
  rw [narrow, setWidth_signExtend]

/-- The displacement of a jump, in bytes. -/
theorem toInt_targetBytes (insn : EbpfInsn) :
    (targetBytes insn).toInt = 8 * (1 + insn.off.toInt) := by
  have hoff := insn.off.le_toInt
  have hoff' := insn.off.toInt_lt
  have hext : (insn.off.signExtend 32).toInt = insn.off.toInt :=
    BitVec.toInt_signExtend_of_le (by decide)
  have hone : (1 : BitVec 32).toInt = 1 := rfl
  have height : (8 : BitVec 32).toInt = 8 := rfl
  have hsum : (1 + insn.off.toInt).bmod (2 ^ 32) = 1 + insn.off.toInt :=
    Int.bmod_eq_of_le (by omega) (by omega)
  have hproduct : ((1 + insn.off.toInt) * 8).bmod (2 ^ 32) = (1 + insn.off.toInt) * 8 :=
    Int.bmod_eq_of_le (by omega) (by omega)
  rw [targetBytes, BitVec.toInt_mul, BitVec.toInt_add, hext, hone, hsum, height, hproduct,
    Int.mul_comm]

/-! ## One round of the interpreter -/

/-- What does not change while the compiled code runs: the word above the saved registers is the
address it was called from, and the program's stack is in place. -/
structure Frame (ret base sp : BitVec 64) (m : ByteMemory) (mem : Memory) : Prop where
  ret : load64 m (sp + 40) = ret
  stack : Memory.readBytes m base stackSize = mem.readBytes 0 stackSize

structure Matches (insns : List EbpfInsn) (sp : BitVec 64) (m : ByteMemory) (mem : Memory)
    (s : VmState) (x : State) : Prop where
  inside : s.pc < insns.length
  rip : x.rip = pos insns s.pc
  regs : Holds x.regs s.regs
  rsp : x.regs .rsp = sp
  host : x.mem = m
  stack : s.mem = mem

/-- A round of the interpreter is a piece of the compiled code. -/
abbrev Follows (insns : List EbpfInsn) (code : Bytes) (ret base sp : BitVec 64) (m : ByteMemory)
    (mem : Memory) (env : ℕ → HelperEnv) : ℕ × VmState → State → Prop :=
  Simulates (vmStep insns env) (jitStep code ret base) fun p => Matches insns sp m mem p.2

/-- What the interpreter does where a jump is taken. -/
def jumped (insn : EbpfInsn) (s : VmState) : Outcome Transition :=
  if insn.off.toInt = -1 then .ok ⟨.returned (s.regs.r 0), []⟩
  else .ok ⟨.running { s with pc := jumpTo s.pc insn.off }, []⟩

def prologueBlock : List (Bytes × Insn) :=
  [([0x55], .push .rbp), ([0x48, 0x89, 0xE5], .bin .mov .qword (.reg .rbp) (.reg .rsp)),
    ([0x41, 0x54], .push .r12), ([0x41, 0x55], .push .r13), ([0x41, 0x56], .push .r14),
    ([0x41, 0x57], .push .r15)]

def epilogueBlock : List (Bytes × Insn) :=
  [([0x41, 0x5F], .pop .r15), ([0x41, 0x5E], .pop .r14), ([0x41, 0x5D], .pop .r13),
    ([0x41, 0x5C], .pop .r12), ([0x5D], .pop .rbp)]

theorem encodes_prologueBlock : ∀ p ∈ prologueBlock, Encodes p.1 p.2 ∧ p.2.straight := by
  simp only [prologueBlock, forall_mem_cons]
  exact ⟨⟨fun _ => rfl, rfl⟩, ⟨fun _ => rfl, rfl⟩, ⟨fun _ => rfl, rfl⟩, ⟨fun _ => rfl, rfl⟩,
    ⟨fun _ => rfl, rfl⟩, ⟨fun _ => rfl, rfl⟩, forall_mem_nil _⟩

theorem encodes_epilogueBlock : ∀ p ∈ epilogueBlock, Encodes p.1 p.2 ∧ p.2.straight := by
  simp only [epilogueBlock, forall_mem_cons]
  exact ⟨⟨fun _ => rfl, rfl⟩, ⟨fun _ => rfl, rfl⟩, ⟨fun _ => rfl, rfl⟩, ⟨fun _ => rfl, rfl⟩,
    ⟨fun _ => rfl, rfl⟩, forall_mem_nil _⟩

theorem execAll_epilogueBlock :
    ∃ y, execAll epilogueBlock x = some y ∧ y.regs .rsp = x.regs .rsp + 40 ∧
      y.regs .rax = x.regs .rax ∧ y.mem = x.mem := by
  refine ⟨_, rfl, ?_, rfl, rfl⟩
  show x.regs .rsp + 8 + 8 + 8 + 8 + 8 = x.regs .rsp + 40
  bv_omega

/-- Five words are pushed; everything else stays. -/
theorem execAll_prologueBlock :
    ∃ y, execAll prologueBlock x = some y ∧ y.regs .rsp = x.regs .rsp - 40 ∧
      (∀ i, y.regs (hostReg i) = x.regs (hostReg i)) ∧
      ∀ a, 40 ≤ (a - (x.regs .rsp - 40)).toNat → y.mem a = x.mem a := by
  refine ⟨_, rfl, ?_, fun i => ?_, fun a ha => ?_⟩
  · show x.regs .rsp - 8 - 8 - 8 - 8 - 8 = x.regs .rsp - 40
    bv_omega
  · match i with
    | 0 | 1 | 2 | 3 | 4 | 5 | 6 | 7 | 8 | 9 | 10 => rfl
  · -- no pushed word contains the byte
    have hout : ∀ b : BitVec 64, (b - (x.regs .rsp - 40)).toNat ≤ 32 → ¬InWord b a := by
      intro b hb
      rw [InWord]
      bv_omega
    show store64 (store64 (store64 (store64 (store64 x.mem (x.regs .rsp - 8) _)
      (x.regs .rsp - 8 - 8) _) (x.regs .rsp - 8 - 8 - 8) _) (x.regs .rsp - 8 - 8 - 8 - 8) _)
      (x.regs .rsp - 8 - 8 - 8 - 8 - 8) _ a = x.mem a
    rw [store64_of_not_inWord (hout _ (by bv_omega)), store64_of_not_inWord (hout _ (by bv_omega)),
      store64_of_not_inWord (hout _ (by bv_omega)), store64_of_not_inWord (hout _ (by bv_omega)),
      store64_of_not_inWord (hout _ (by bv_omega))]

section Simulation

variable {insns : List EbpfInsn} {code : Bytes} {ret base sp : BitVec 64} {m : ByteMemory}
  {mem : Memory} {env : ℕ → HelperEnv} {n : ℕ} {s : VmState} {x : State} {insn : EbpfInsn}

/-- The code of `EXIT` returns `R0`. -/
theorem returns_of_exit {rest : Bytes} (hf : Frame ret base sp m mem)
    (hcode : code.drop x.rip = emitEpilogue ++ ([0xC3] ++ rest)) (hrsp : x.regs .rsp = sp)
    (hmem : x.mem = m) :
    ∃ k, Returns (jitStep code ret base) k x (x.regs .rax, mem.readBytes 0 stackSize) := by
  obtain ⟨y, hexec, hyrsp, hyrax, hymem⟩ := execAll_epilogueBlock x
  obtain ⟨hreach, hrip⟩ : Reaches (jitStep code ret base) _ x y ∧ _ :=
    reaches_block encodes_epilogueBlock hcode hexec
  have hnext : code.drop y.rip = [0xC3] ++ rest := by
    rw [hrip, ← drop_drop, hcode]
    exact drop_left
  have htarget : load64 y.mem (y.regs .rsp) = ret := by rw [hymem, hmem, hyrsp, hrsp, hf.ret]
  obtain ⟨z, hdone, hzmem, hzregs⟩ := machine_ret hnext htarget
  have hresult : jitResult base z = (x.regs .rax, mem.readBytes 0 stackSize) := by
    rw [jitResult, hzregs .rax (by decide), hyrax, hzmem, hymem, hmem, hf.stack]
  rw [← hresult]
  exact ⟨_, hreach.returns (.done hdone)⟩

variable {accesses : List Access} {v : EbpfRegs → BitVec 64}

theorem vmStep_running {s' : VmState} (h : step insns (env n) s = .ok ⟨.running s', accesses⟩) :
    vmStep insns env (n, s) = .run (n + 1, s') := by
  rw [vmStep, h]

theorem vmStep_returned {r0 : BitVec 64} (h : step insns (env n) s = .ok ⟨.returned r0, accesses⟩) :
    vmStep insns env (n, s) = .done (r0, s.mem.readBytes 0 stackSize) := by
  rw [vmStep, h]

/-- The jump of a faithful instruction leads into the code. -/
theorem jump_of_lands (hlands : lands insns s.pc insn.off) (hrip : x.rip = pos insns (s.pc + 1)) :
    ∃ y, x.jump (targetBytes insn) = some y ∧
      (y.rip : Int) = pos insns (s.pc + 1) + 8 * (1 + insn.off.toInt) ∧ y.regs = x.regs ∧
      y.mem = x.mem := by
  have hnonneg : (0 : Int) ≤ pos insns (s.pc + 1) + 8 * (1 + insn.off.toInt) := by
    rw [lands] at hlands
    split at hlands
    · omega
    · simp only [Bool.and_eq_true, decide_eq_true_eq] at hlands
      omega
  refine ⟨{ x with rip := (pos insns (s.pc + 1) + 8 * (1 + insn.off.toInt)).toNat }, ?_,
    Int.toNat_of_nonneg hnonneg, rfl, rfl⟩
  rw [State.jump, toInt_targetBytes, hrip]
  exact if_pos hnonneg

variable {bytes : Bytes} {c : Cond} {k : ℕ} {y : State}

theorem emitted_exit (h : compileInsn insn = .ok bytes) (hexit : insn.isExit) :
    bytes = emitEpilogue ++ [0xC3] := by
  simp only [isExit, isJmp, Bool.and_eq_true, Bool.or_eq_true, beq_iff_eq] at hexit
  obtain ⟨hcls, hop⟩ := hexit
  have hjmp : compileInsn insn = compileJmp insn := by
    obtain hcls | hcls := hcls <;> rw [compileInsn, hcls]
  rw [hjmp, compileJmp, hop] at h
  exact (Except.ok.inj h).symm

/-- A comparison and a conditional jump that is taken when the interpreter takes it. -/
structure Branches (insn : EbpfInsn) (first second : Bytes) (op : BinOp) (c : Cond)
    (i j : Fin 11) : Prop where
  compares : op = .cmp ∨ op = .test
  first : Encodes first (.bin op .qword (.reg (hostReg i)) (.reg (hostReg j)))
  second : Encodes second (.jcc c (targetBytes insn))
  taken : ∀ host regs, Holds host regs →
    c.holds (flagsOf op (host (hostReg i)) (host (hostReg j))) = insn.taken regs

theorem branches_of_cmp (h : emitCondJmp insn = .ok bytes)
    (himm : insn.useImm = false) (hset : insn.jmpOp ≠ .jset)
    (hbank : sameBank insn.dstReg insn.srcReg) {cc : BitVec 8}
    (hcc : condByte insn.jmpOp = .ok cc) (hc : condOf cc.toNat = some c)
    (htaken : ∀ regs : EbpfRegs, c.holds (flagsOf .cmp (regs.r insn.dstReg.toNat)
      (regs.r insn.srcReg.toNat)) = insn.taken regs) :
    ∃ first second op c i j, bytes = first ++ second ∧ Branches insn first second op c i j := by
  obtain ⟨cmp, hcmp, h⟩ := emit_bind h
  obtain ⟨cc', hcc', h⟩ := emit_bind h
  obtain rfl : cc = cc' := Except.ok.inj (hcc.symm.trans hcc')
  rw [if_neg hset] at h
  cases h
  rw [emitCmp, himm] at hcmp
  obtain ⟨i, j, hi, hj, hencodes, -⟩ := encodes_emitRegReg hcmp hbank rfl
  refine ⟨cmp, _, .cmp, c, i, j, append_assoc _ _ _, .inl rfl, hencodes,
    encodes_jcc hc _, fun host regs hholds => ?_⟩
  rw [← htaken, hholds.r hi, hholds.r hj]

theorem branches_of_test (h : emitCondJmp insn = .ok bytes)
    (himm : insn.useImm = false) (hset : insn.jmpOp = .jset)
    (hbank : sameBank insn.dstReg insn.srcReg) (hcls : insn.cls = .jmp) :
    ∃ first second op c i j, bytes = first ++ second ∧ Branches insn first second op c i j := by
  obtain ⟨cmp, hcmp, h⟩ := emit_bind h
  obtain ⟨cc, -, h⟩ := emit_bind h
  rw [if_pos hset] at h
  obtain ⟨test, htest, h⟩ := emit_bind h
  cases h
  rw [emitCmp, himm] at hcmp
  obtain ⟨-, -, -, -, -, hlength⟩ := encodes_emitRegReg hcmp hbank rfl
  rw [emitTest, himm] at htest
  obtain ⟨i, j, hi, hj, hencodes, -⟩ := encodes_emitRegReg htest hbank rfl
  -- the whole comparison is dropped
  have hdrop : cmp.take (cmp.length - if insn.useImm then 7 else 3) = [] := by
    rw [himm, hlength]
    rfl
  rw [hdrop]
  refine ⟨test, _, .test, .ne, i, j, append_assoc _ _ _, .inr rfl, hencodes,
    encodes_jcc rfl _, fun host regs hholds => ?_⟩
  rw [taken, hset, jmpVal, jmpVal]
  simp only [hcls, reduceCtorEq, if_false]
  rw [hholds.r hi, hholds.r hj, holds_ne_test]
  rfl

theorem branches_of_faithful {t : Bool} (h : compileJmp insn = .ok bytes)
    (hf : faithfulJmp insns s.pc insn t) (hexit : insn.jmpOp ≠ .exit)
    (hcall : insn.jmpOp ≠ .call) (hja : insn.jmpOp ≠ .ja) :
    (t → lands insns s.pc insn.off) ∧ ∃ first second op c i j, bytes = first ++ second ∧
      Branches insn first second op c i j := by
  rw [faithfulJmp] at hf
  rw [compileJmp] at h
  cases hop : insn.jmpOp with
  | exit => exact absurd hop hexit
  | call => exact absurd hop hcall
  | ja => exact absurd hop hja
  | jge | undefined =>
    rw [hop] at hf
    cases hf
  | jset =>
    simp only [hop, Bool.and_eq_true, beq_iff_eq, Bool.not_eq_true', Bool.or_eq_true,
      ← Bool.not_eq_true, ← imp_iff_not_or] at h hf
    obtain ⟨⟨⟨hcls, himm⟩, hbank⟩, hlands⟩ := hf
    rw [Bool.not_eq_true] at himm
    exact ⟨hlands, branches_of_test h himm hop hbank hcls⟩
  | jeq | jne | jgt | jsgt | jsge =>
    simp only [hop, Bool.and_eq_true, beq_iff_eq, Bool.not_eq_true', Bool.or_eq_true,
      ← Bool.not_eq_true, ← imp_iff_not_or] at h hf
    obtain ⟨⟨⟨hcls, himm⟩, hbank⟩, hlands⟩ := hf
    rw [Bool.not_eq_true] at himm
    have hset : insn.jmpOp ≠ .jset := hop ▸ nofun
    refine ⟨hlands, branches_of_cmp h himm hset hbank (congrArg condByte hop) rfl fun regs => ?_⟩
    simp only [taken, hop, jmpVal, hcls, reduceCtorEq, if_false, holds_e_cmp,
      holds_ne_cmp, holds_a_cmp, holds_g_cmp, holds_ge_cmp]

/-- An instruction that only goes on, in the interpreter and in the code. -/
theorem simulates_of_next (hx : Matches insns sp m mem s x) (hnext : s.pc + 1 < insns.length)
    (hreach : Reaches (jitStep code ret base) (k + 1) x y) (hyrip : y.rip = pos insns (s.pc + 1))
    (hyregs : y.regs = x.regs) (hymem : y.mem = x.mem)
    (hstep : step insns (env n) s = .ok ⟨.running { s with pc := s.pc + 1 }, accesses⟩) :
    Follows insns code ret base sp m mem env (n, s) x :=
  .inl ⟨_, y, k, vmStep_running hstep, hreach, hnext, hyrip, hyregs ▸ hx.regs, hyregs ▸ hx.rsp,
    hymem.trans hx.host, hx.stack⟩

/-- The processor is behind the code of the instruction. -/
theorem rip_of_matches (hx : Matches insns sp m mem s x) (hinsn : insns[s.pc]? = some insn) :
    x.rip + (emitted insn).length = pos insns (s.pc + 1) := by
  rw [hx.rip, pos_succ hinsn]

variable (hcompile : compile insns = .ok code) (hx : Matches insns sp m mem s x)
  (hinsn : insns[s.pc]? = some insn)

include hcompile hx hinsn

theorem drop_of_matches :
    code.drop x.rip = emitted insn ++ (insns.drop (s.pc + 1)).flatMap emitted := by
  rw [hx.rip, drop_compile hcompile hinsn]

/-- An instruction that sets a register, in the interpreter and in the code. -/
theorem simulates_of_computes
    (hcomputes : Computes (emitted insn) insn.dstReg v) (hnext : s.pc + 1 < insns.length)
    (hstep : step insns (env n) s = .ok ⟨.running { s with
      pc := s.pc + 1, regs := s.regs.setR insn.dstReg.toNat (v s.regs) }, accesses⟩) :
    Follows insns code ret base sp m mem env (n, s) x := by
  obtain ⟨i, hi, hinsn', f, hencodes, hassigns, hf⟩ := hcomputes
  obtain ⟨y, hexec, hyrip, hymem, hyregs⟩ :=
    hassigns { x with rip := x.rip + (emitted insn).length }
  have hrun : jitStep code ret base x = .run y :=
    machine_of_encodes hencodes (drop_of_matches hcompile hx hinsn) hexec
  refine .inl ⟨_, y, 0, vmStep_running hstep, .one hrun, hnext, ?_, fun j => ?_, ?_, ?_, hx.stack⟩
  · exact hyrip.trans (rip_of_matches hx hinsn)
  · show y.regs (hostReg j) = s.regs.setR insn.dstReg.toNat (v s.regs) j
    rw [hyregs, EbpfRegs.setR, hi, dif_pos i.isLt, Function.update_apply, Function.update_apply,
      hf x.regs s.regs hx.regs, hx.regs j]
    simp only [hostReg_inj]
  · rw [hyregs, Function.update_of_ne (hostReg_ne_rsp i).symm]
    exact hx.rsp
  · exact hymem.trans hx.host

omit hinsn in
/-- A jump that was taken, in the interpreter and in the code. -/
theorem simulates_of_taken (hf : Frame ret base sp m mem) (hlands : lands insns s.pc insn.off)
    (hreach : Reaches (jitStep code ret base) (k + 1) x y)
    (hyrip : (y.rip : Int) = pos insns (s.pc + 1) + 8 * (1 + insn.off.toInt))
    (hyregs : y.regs = x.regs) (hymem : y.mem = x.mem)
    (hstep : step insns (env n) s = jumped insn s) :
    Follows insns code ret base sp m mem env (n, s) x := by
  rw [lands] at hlands
  split at hlands
  · -- the interpreter returns, the code goes on to an `EXIT`
    rename_i hoff
    rw [jumped, if_pos hoff] at hstep
    obtain ⟨exit, hexit, hisExit⟩ := (Option.any_eq_true _ _).mp hlands
    have hrip : y.rip = pos insns (s.pc + 1) := by omega
    have hemitted : emitted exit = emitEpilogue ++ [0xC3] :=
      emitted_exit ((compile_eq hcompile).2 exit (mem_of_getElem? hexit)) hisExit
    have hcode := drop_compile hcompile hexit
    rw [← hrip, hemitted, append_assoc] at hcode
    obtain ⟨l, hreturns⟩ := returns_of_exit hf hcode (hyregs ▸ hx.rsp) (hymem.trans hx.host)
    have hr0 : y.regs .rax = s.regs.r 0 := by
      rw [hyregs]
      exact hx.regs 0
    rw [hr0, ← hx.stack] at hreturns
    exact .inr ⟨_, _, vmStep_returned hstep, hreach.returns hreturns⟩
  · rename_i hoff
    rw [jumped, if_neg hoff] at hstep
    simp only [Bool.and_eq_true, decide_eq_true_eq] at hlands
    refine .inl ⟨_, y, k, vmStep_running hstep, hreach, hlands.1, ?_, ?_, ?_, hymem.trans hx.host,
      hx.stack⟩
    · show y.rip = pos insns (jumpTo s.pc insn.off)
      omega
    · exact hyregs ▸ hx.regs
    · exact hyregs ▸ hx.rsp

theorem simulates_of_branch (hf : Frame ret base sp m mem) (hnext : s.pc + 1 < insns.length)
    (hlands : insn.taken s.regs → lands insns s.pc insn.off) {first second : Bytes} {op : BinOp}
    {i j : Fin 11} (hbytes : emitted insn = first ++ second)
    (hb : Branches insn first second op c i j)
    (hstep : step insns (env n) s =
      if insn.taken s.regs then jumped insn s else .ok (s.advance 1)) :
    Follows insns code ret base sp m mem env (n, s) x := by
  have hcode := drop_of_matches hcompile hx hinsn
  have hrip := rip_of_matches hx hinsn
  rw [hbytes, append_assoc] at hcode
  rw [hbytes, length_append, ← Nat.add_assoc] at hrip
  -- the comparison
  let flags := flagsOf op (x.regs (hostReg i)) (x.regs (hostReg j))
  let y : State := { x with rip := x.rip + first.length, flags := some flags }
  have hcmp : jitStep code ret base x = .run y :=
    machine_of_encodes hb.first hcode (exec_compare hb.compares _ _ _)
  have hcode' : code.drop y.rip = second ++ (insns.drop (s.pc + 1)).flatMap emitted := by
    rw [← drop_drop, hcode, drop_left]
  have hexec : exec (.jcc c (targetBytes insn)) { y with rip := y.rip + second.length } =
      if c.holds flags then
        (State.jump { y with rip := y.rip + second.length } (targetBytes insn)).map .running
      else some (.running { y with rip := y.rip + second.length }) := rfl
  rw [hb.taken x.regs s.regs hx.regs] at hexec
  cases htaken : insn.taken s.regs with
  | true =>
    rw [htaken, if_pos rfl] at hexec hstep
    obtain ⟨z, hz, hzrip, hzregs, hzmem⟩ :=
      jump_of_lands (x := { y with rip := y.rip + second.length }) (hlands htaken) hrip
    rw [hz] at hexec
    have hjump : jitStep code ret base y = .run z := machine_of_encodes hb.second hcode' hexec
    exact simulates_of_taken hcompile hx hf (hlands htaken) (.head hcmp (.one hjump)) hzrip hzregs
      hzmem hstep
  | false =>
    rw [htaken, if_neg Bool.false_ne_true] at hexec hstep
    have hjump : jitStep code ret base y = .run { y with rip := y.rip + second.length } :=
      machine_of_encodes hb.second hcode' hexec
    exact simulates_of_next hx hnext (.head hcmp (.one hjump)) hrip rfl rfl hstep

theorem simulates_of_jmp (hf : Frame ret base sp m mem)
    (hfaithful : faithfulJmp insns s.pc insn (insn.taken s.regs))
    (hemitted : compileJmp insn = .ok (emitted insn))
    (hnext : insn.jmpOp ≠ .exit → s.pc + 1 < insns.length)
    (hstep : step insns (env n) s = stepJmp (env n) insn s) :
    Follows insns code ret base sp m mem env (n, s) x := by
  have hcode := drop_of_matches hcompile hx hinsn
  have hrip := rip_of_matches hx hinsn
  have hjumps (hcall : insn.jmpOp ≠ .call) (hexit : insn.jmpOp ≠ .exit) :
      stepJmp (env n) insn s =
        if insn.taken s.regs then jumped insn s else .ok (s.advance 1) := by
    rw [stepJmp]
    split
    · rename_i hop
      exact absurd hop hcall
    · rename_i hop
      exact absurd hop hexit
    · rfl
  by_cases hexit : insn.jmpOp = .exit
  · rw [compileJmp, hexit] at hemitted
    rw [← Except.ok.inj hemitted, append_assoc] at hcode
    obtain ⟨k, hreturns⟩ := returns_of_exit hf hcode hx.rsp hx.host
    have hr0 : x.regs .rax = s.regs.r 0 := hx.regs 0
    rw [hr0, ← hx.stack] at hreturns
    rw [stepJmp, hexit] at hstep
    exact .inr ⟨_, k, vmStep_returned hstep, hreturns⟩
  by_cases hcall : insn.jmpOp = .call
  · rw [faithfulJmp, hcall] at hfaithful
    rw [compileJmp, hcall] at hemitted
    rw [stepJmp, hcall, eq_of_beq hfaithful] at hstep
    have hnop : Encodes (emitted insn) .nop := by
      rw [← Except.ok.inj hemitted]
      exact fun _ => rfl
    have hrun : jitStep code ret base x = .run { x with rip := x.rip + (emitted insn).length } :=
      machine_of_encodes hnop hcode rfl
    exact simulates_of_next hx (hnext hexit) (.one hrun) hrip rfl rfl hstep
  by_cases hja : insn.jmpOp = .ja
  · have htaken : insn.taken s.regs = true := by rw [taken, hja]
    rw [hjumps hcall hexit, htaken, if_pos rfl] at hstep
    rw [faithfulJmp, hja] at hfaithful
    rw [compileJmp, hja] at hemitted
    have hjmp : Encodes (emitted insn) (.jmp (targetBytes insn)) := by
      rw [← Except.ok.inj hemitted]
      exact encodes_jmp _
    obtain ⟨y, hy, hyrip, hyregs, hymem⟩ :=
      jump_of_lands (x := { x with rip := x.rip + (emitted insn).length }) hfaithful hrip
    have hrun : jitStep code ret base x = .run y :=
      machine_of_encodes hjmp hcode (congrArg (Option.map Event.running) hy)
    exact simulates_of_taken hcompile hx hf hfaithful (.one hrun) hyrip hyregs hymem hstep
  · obtain ⟨hlands, first, second, op, c, i, j, hbytes, hb⟩ :=
      branches_of_faithful hemitted hfaithful hexit hcall hja
    exact simulates_of_branch hcompile hx hinsn hf (hnext hexit) hlands hbytes hb
      (hstep.trans (hjumps hcall hexit))

theorem simulates_of_alu (hnext : s.pc + 1 < insns.length)
    {w : BitVec 64} (hcomputes : Computes (emitted insn) insn.dstReg v)
    (hresult : aluResult insn.aluOp (s.regs.r insn.dstReg.toNat) (insn.aluSrc s.regs) = .ok w)
    (hvalue : (if insn.cls = .alu64 then w else narrow w) = v s.regs)
    (hstep : step insns (env n) s = stepAlu insn s) :
    Follows insns code ret base sp m mem env (n, s) x := by
  rw [stepAlu, hresult, Outcome.ok_bind, hvalue] at hstep
  exact simulates_of_computes hcompile hx hinsn hcomputes hnext hstep

end Simulation

/-- Behind a faithful instruction other than `EXIT` an accepted program goes on. -/
theorem next_of_faithful {insns : List EbpfInsn} (hverify : verify insns) {i : ℕ} {taken : Bool}
    (hfaithful : faithfulInsn insns i insn taken) (hinsn : insns[i]? = some insn)
    (hexit : insn.isExit = false) : i + 1 < insns.length := by
  obtain ⟨hi, -⟩ := List.getElem?_eq_some_iff.mp hinsn
  obtain ⟨-, -, -, hlast, -⟩ := verify_spec hverify
  by_contra hend
  have hlength : insns.length - 1 = i := by omega
  have hcode : insn.code &&& 0xf0#8 = 0x90#8 := by
    rw [hlength, insnAt, getD_eq_getElem?_getD, hinsn] at hlast
    exact hlast
  have halu : insn.aluOp = .mod := by
    rw [aluOp, hcode]
    rfl
  have hjmp : insn.jmpOp = .exit := by
    rw [jmpOp, hcode]
    rfl
  rw [faithfulInsn, faithfulAlu64, faithfulAlu32, halu] at hfaithful
  rw [isExit, isJmp, hjmp] at hexit
  cases hcls : insn.cls with
  | jmp | jmp32 =>
    rw [hcls] at hexit
    cases hexit
  | alu64 | alu | ld | ldx | st | stx =>
    rw [hcls] at hfaithful
    cases hfaithful

/-- A round of the interpreter at a faithful instruction is a piece of the compiled code. -/
theorem simulates_of_faithful {insns : List EbpfInsn} (hverify : verify insns)
    (hcompile : compile insns = .ok code) (env : ℕ → HelperEnv)
    {ret sp : BitVec 64} {m : ByteMemory} (hf : Frame ret base sp m mem)
    (p : ℕ × VmState) (x : State) (hfaithful : ∀ insn, insns[p.2.pc]? = some insn →
      faithfulInsn insns p.2.pc insn (insn.taken p.2.regs))
    (hx : Matches insns sp m mem p.2 x) :
    Follows insns code ret base sp m mem env p x := by
  obtain ⟨n, s⟩ := p
  let insn := insns.get ⟨s.pc, hx.inside⟩
  have hinsn : insns[s.pc]? = some insn := getElem?_eq_getElem hx.inside
  have hemitted := (compile_eq hcompile).2 insn (mem_of_getElem? hinsn)
  have hinsn' := hfaithful insn hinsn
  have hstep : step insns (env n) s = stepInsn insns (env n) insn s := by rw [step, hinsn]
  have hnext := fun h => next_of_faithful hverify hinsn' hinsn h
  rw [compileInsn] at hemitted
  rw [faithfulInsn] at hinsn'
  rw [stepInsn] at hstep
  rw [isExit, isJmp] at hnext
  cases hcls : insn.cls with
  | alu64 =>
    rw [hcls] at hemitted hinsn' hstep hnext
    obtain ⟨v, hcomputes, hresult⟩ := computes_alu64 hemitted hinsn'
    exact simulates_of_alu hcompile hx hinsn (hnext rfl) hcomputes (hresult s.regs) (if_pos hcls)
      hstep
  | alu =>
    rw [hcls] at hemitted hinsn' hstep hnext
    obtain ⟨v, hcomputes, hresult⟩ := computes_alu32 hemitted hinsn'
    obtain ⟨w, hw, hvalue⟩ := hresult s.regs
    have hvalue' : (if insn.cls = .alu64 then w else narrow w) = v s.regs := by
      rw [hcls, if_neg nofun, hvalue]
    exact simulates_of_alu hcompile hx hinsn (hnext rfl) hcomputes hw hvalue' hstep
  | jmp | jmp32 =>
    rw [hcls] at hemitted hinsn' hstep hnext
    refine simulates_of_jmp hcompile hx hinsn hf hinsn' hemitted (fun hexit => hnext ?_) hstep
    exact beq_false_of_ne hexit
  | ld | ldx | st | stx =>
    rw [hcls] at hinsn'
    cases hinsn'

/-- Entering compiled code leads to the code of the first instruction. -/
theorem matches_of_entry {insns : List EbpfInsn} (hcompile : compile insns = .ok code)
    (hlength : 0 < insns.length) {x : State}
    (h : Entry regs mem base x) :
    ∃ sp m k y, Frame (load64 x.mem (x.regs .rsp)) base sp m mem ∧
      Reaches (jitStep code (load64 x.mem (x.regs .rsp)) base) k x y ∧
      Matches insns sp m mem (VmState.start regs mem) y := by
  obtain ⟨y, hexec, hyrsp, hyregs, hymem⟩ := execAll_prologueBlock x
  have hcode : code.drop x.rip = prologueBlock.flatMap Prod.fst ++ insns.flatMap emitted := by
    rw [h.rip, (compile_eq hcompile).1]
    rfl
  obtain ⟨hreach, hrip⟩ :
      Reaches (jitStep code (load64 x.mem (x.regs .rsp)) base) _ x y ∧ _ :=
    reaches_block encodes_prologueBlock hcode hexec
  refine ⟨x.regs .rsp - 40, y.mem, _, y, ⟨?_, ?_⟩, hreach, hlength, ?_, fun i => ?_, hyrsp, rfl,
    rfl⟩
  · rw [BitVec.sub_add_cancel]
    refine load64_congr fun a ha => hymem a ?_
    rw [InWord] at ha
    bv_omega
  · refine map_congr_left fun i hi => ?_
    rw [mem_range] at hi
    rw [hymem _ (h.apart i hi), h.stack i hi]
    exact congrArg mem (BitVec.zero_add _).symm
  · rw [hrip, h.rip]
    rfl
  · rw [hyregs, h.regs]
    rfl

/-- The interpreter returns exactly when the compiled code does, with the same `R0` and the same
stack. -/
theorem jit_equivalent {insns : List EbpfInsn} {code : Bytes} (hverify : verify insns)
    (hcompile : compile insns = .ok code) {env : ℕ → HelperEnv} {regs : EbpfRegs} {mem : Memory}
    (hfaithful : FaithfulRun insns env regs mem) {base : BitVec 64} {x : State}
    (h : Entry regs mem base x) (r : JitResult) :
    (∃ n, Returns (vmStep insns env) n (0, VmState.start regs mem) r) ↔
      ∃ n, Returns (jitStep code (load64 x.mem (x.regs .rsp)) base) n x r := by
  obtain ⟨sp, m, k, y, hf, hreach, hmatches⟩ :=
    matches_of_entry hcompile (verify_length hverify).1 h
  rw [hreach.returns_iff]
  exact returns_iff_of_simulation_along (fun p x ⟨n, hp⟩ hx =>
    simulates_of_faithful hverify hcompile env hf p x (hfaithful n p hp) hx) hmatches r

def entryState : State :=
  { rip := 0, regs := fun r => if r = .rsp then 0x8000 else 0, flags := none, mem := fun _ => 0 }

theorem entry_entryState : Entry (fun _ => 0) (fun _ => 0) 0x1000 entryState where
  rip := rfl
  regs := fun i => if_neg (hostReg_ne_rsp i)
  stack := fun _ _ => rfl
  apart := by
    intro i hi
    rw [stackSize] at hi
    show 40 ≤ (0x1000 + BitVec.ofNat 64 i - (0x8000 - 40)).toNat
    bv_omega

/-- `R0 = 1; if R0 = R0 skip 3; R1 %= 3; R2 = 7; EXIT; EXIT`: the remainder, which is compiled
wrongly, is skipped. -/
def skipsMod : List EbpfInsn :=
  [⟨0xbf, 0, 0, 0, 1⟩, ⟨0x15, 0, 0, 3, 0⟩, ⟨0x9f, 1, 0, 0, 3⟩, ⟨0xbf, 2, 0, 0, 7⟩,
    ⟨0x95, 0, 0, 0, 0⟩, ⟨0x95, 0, 0, 0, 0⟩]

theorem faithfulRun_skipsMod :
    FaithfulRun skipsMod (fun _ => .idle) (fun _ => 0) fun _ => 0 := by
  intro n p hreach insn hinsn
  -- the interpreter comes to the instructions 0, 1 and 4
  cases hreach with
  | refl =>
    cases hinsn
    decide +kernel
  | head hrun hreach =>
    cases hrun
    cases hreach with
    | refl =>
      cases hinsn
      decide +kernel
    | head hrun hreach =>
      cases hrun
      cases hreach with
      | refl =>
        cases hinsn
        decide +kernel
      | head hrun _ => cases hrun

theorem jit_equivalent_skipsMod :
    ∃ code, compile skipsMod = .ok code ∧
      ∀ r, (∃ n, Returns (vmStep skipsMod fun _ => .idle) n
        (0, VmState.start (fun _ => 0) fun _ => 0) r) ↔
        ∃ n, Returns (jitStep code 0 0x1000) n entryState r := by
  have hverify : verify skipsMod := by decide +kernel
  refine ⟨_, rfl, fun r => ?_⟩
  exact jit_equivalent hverify rfl faithfulRun_skipsMod entry_entryState r

/-- `R5 = 7; EXIT`. -/
def upperImmediate : List EbpfInsn := [⟨0xbf, 5, 0, 0, 7⟩, ⟨0x95, 0, 0, 0, 0⟩]

def upperCode : Bytes :=
  emitPrologue ++ ([0x4C, 0xB8, 7, 0, 0, 0, 0, 0, 0, 0] ++ (emitEpilogue ++ ([0xC3] ++ [])))

/-- The move of an immediate to `R5` is encoded as a move to `rax`, where `R0` is: the interpreter
returns `0` and the compiled code `7`. -/
theorem jit_diverges :
    verify upperImmediate ∧ compile upperImmediate = .ok upperCode ∧
      Entry (fun _ => 0) (fun _ => 0) 0x1000 entryState ∧
      (∃ n stack, Returns (vmStep upperImmediate fun _ => .idle) n
        (0, VmState.start (fun _ => 0) fun _ => 0) (0, stack)) ∧
      ∃ n stack, Returns (jitStep upperCode 0 0x1000) n entryState (7, stack) := by
  have hcompile : compile upperImmediate = .ok upperCode := rfl
  refine ⟨by decide +kernel, hcompile, entry_entryState, ⟨1, _, .run rfl (.done rfl)⟩, ?_⟩
  obtain ⟨sp, m, k, y, hf, hreach, hy⟩ := matches_of_entry hcompile (by decide) entry_entryState
  have hmov : Encodes [0x4C, 0xB8, 7, 0, 0, 0, 0, 0, 0, 0] (.movImm .rax 7) :=
    encodes_movImm true false (by decide : (0#8).toNat < 8) 7
  have hcode : upperCode.drop y.rip = [0x4C, 0xB8, 7, 0, 0, 0, 0, 0, 0, 0] ++
      (emitEpilogue ++ ([0xC3] ++ [])) := by
    rw [hy.rip]
    rfl
  let z := { y with rip := y.rip + 10 }.setReg .rax 7
  have hrun : jitStep upperCode 0 0x1000 y = .run z := machine_of_encodes hmov hcode rfl
  have hcode' : upperCode.drop z.rip = emitEpilogue ++ ([0xC3] ++ []) := by
    show upperCode.drop (y.rip + 10) = _
    rw [hy.rip]
    rfl
  obtain ⟨l, hreturns⟩ := returns_of_exit hf hcode' hy.rsp hy.host
  exact ⟨_, _, hreach.returns ((Reaches.one hrun).returns hreturns)⟩

end Vahi.Ebpf
