import Vahi.Ebpf.Verifier

/-!
# Control flow of verified programs

Jump targets are relative to the next instruction for the verifier, to the jump itself for the
interpreter. A step follows an edge of the verifier's graph exactly if it meets `StaysOnGraph`.
-/

namespace Vahi.Ebpf

open Vahi.Lib

/-! ### Opcode bytes -/

section Codes

variable {insn : EbpfInsn}

theorem isWide_iff_code : insn.isWide = true ↔ insn.code &&& 0x1f#8 = 0x18#8 := by
  simp [EbpfInsn.isWide]

theorem cls_of_isWide (h : insn.isWide = true) : insn.cls = .ld := by
  have hcode : ∀ c : BitVec 8, c &&& 0x1f#8 = 0x18#8 → c &&& 0x07#8 = 0#8 := by decide
  rw [EbpfInsn.cls, hcode _ (isWide_iff_code.1 h)]
  rfl

theorem isWide_of_isJmp (h : insn.isJmp = true) : insn.isWide = false := by
  by_contra hwide
  have hcls := cls_of_isWide (Bool.not_eq_false _ ▸ hwide)
  simp [EbpfInsn.isJmp, hcls] at h

theorem cls_eq_ld_iff : insn.cls = .ld ↔ insn.code &&& 0x07#8 = 0#8 := by
  have hcode : ∀ c : BitVec 8, (⟨c, 0, 0, 0, 0⟩ : EbpfInsn).cls = .ld ↔
      c &&& 0x07#8 = 0#8 := by decide
  exact hcode insn.code

/-- On accepted code both tests for a 64-bit immediate load agree. -/
theorem isLdDw_eq_isWide (hcls : insn.cls = .ld) (hcode : insn.code &&& 0xe0#8 = 0#8) :
    insn.isLdDw = insn.isWide := by
  have hbits : ∀ c : BitVec 8, c &&& 0x07#8 = 0#8 → c &&& 0xe0#8 = 0#8 →
      (c &&& 0x18#8 == 0x18#8 && c &&& 0xe0#8 == 0#8) = (c &&& 0x1f#8 == 0x18#8) := by decide
  exact hbits insn.code (cls_eq_ld_iff.1 hcls) hcode

end Codes

theorem getElem?_eq_insnAt {insns : List EbpfInsn} {i : ℕ} (hi : i < insns.length) :
    insns[i]? = some (insnAt insns i) := by
  rw [insnAt, List.getD_eq_getElem?_getD, List.getElem?_eq_getElem hi]
  rfl

/-! ### One step -/

def EbpfInsn.aluPanics (insn : EbpfInsn) (regs : EbpfRegs) : Bool :=
  insn.isAlu && (insn.aluOp == .div || insn.aluOp == .mod) &&
    divOverflows (regs.r insn.dstReg.toNat) (insn.aluSrc regs)

open EbpfInsn

/-- The condition under which a step keeps to the graph: a jump is only taken
when it is conditional and has offset `1`, only a jump instruction is executed at
the end of the program, and no division overflows. -/
def StaysOnGraph (insns : List EbpfInsn) (s : VmState) : Prop :=
  ((insnAt insns s.pc).isJmp = true → (insnAt insns s.pc).taken s.regs = true →
    (insnAt insns s.pc).jmpOp ≠ .ja ∧ (insnAt insns s.pc).off = 1#16) ∧
  ((insnAt insns s.pc).isJmp = false → s.pc + 1 < insns.length) ∧
  (insnAt insns s.pc).aluPanics s.regs = false

/-- A step ends on a successor in the verifier's graph, or is an `EXIT`. -/
def StepFollows (insns : List EbpfInsn) (env : HelperEnv) (s : VmState) : Prop :=
  match step insns env s with
  | .ok ⟨.running s', _⟩ => s'.pc ∈ cfgSucc insns s.pc
  | .ok ⟨.returned _, _⟩ => (insnAt insns s.pc).isJmp = true ∧ (insnAt insns s.pc).jmpOp = .exit
  | .panic => False
  | .hang => False

section OneStep

variable {insns : List EbpfInsn} {s : VmState}

theorem step_eq (hpc : s.pc < insns.length) :
    step insns env s = stepInsn insns env (insnAt insns s.pc) s := by
  rw [step, getElem?_eq_insnAt hpc]

theorem divide_eq (f : BitVec 64 → BitVec 64 → BitVec 64) (dst src : BitVec 64) :
    (divide f dst src = .panic ∧ divOverflows dst src = true) ∨
      (∃ v, divide f dst src = .ok v) ∧ divOverflows dst src = false := by
  rw [divide]
  by_cases hsrc : src = 0#64
  · subst hsrc
    exact Or.inr ⟨⟨0, rfl⟩, by simp [divOverflows]⟩
  rw [if_neg hsrc]
  cases hov : divOverflows dst src with
  | true => exact Or.inl ⟨rfl, rfl⟩
  | false => exact Or.inr ⟨⟨_, rfl⟩, rfl⟩

/-- An ALU operation returns unless it is an overflowing division. -/
theorem aluResult_eq (op : AluOp) (dst src : BitVec 64) :
    (aluResult op dst src = .panic ∧ (op = .div ∨ op = .mod) ∧ divOverflows dst src = true) ∨
      (∃ v, aluResult op dst src = .ok v) ∧
        ((op = .div ∨ op = .mod) → divOverflows dst src = false) := by
  cases op with
  | div =>
    rcases divide_eq BitVec.sdiv dst src with ⟨hres, hov⟩ | ⟨hres, hov⟩
    · exact Or.inl ⟨hres, Or.inl rfl, hov⟩
    · exact Or.inr ⟨hres, fun _ => hov⟩
  | mod =>
    rcases divide_eq BitVec.srem dst src with ⟨hres, hov⟩ | ⟨hres, hov⟩
    · exact Or.inl ⟨hres, Or.inr rfl, hov⟩
    · exact Or.inr ⟨hres, fun _ => hov⟩
  | _ => exact Or.inr ⟨⟨_, rfl⟩, by simp⟩

theorem stepLdx_pc (insn : EbpfInsn) (s : VmState) :
    ∃ s' accesses, Outcome.ok (stepLdx insn s) = .ok ⟨.running s', accesses⟩ ∧ s'.pc = s.pc + 1 := by
  rw [stepLdx]
  split
  all_goals exact ⟨_, _, rfl, rfl⟩

theorem stepStore_pc (insn : EbpfInsn) (size : ℕ) (val : BitVec 64) (s : VmState) :
    ∃ s' accesses, Outcome.ok (stepStore insn size val s) = .ok ⟨.running s', accesses⟩ ∧
      s'.pc = s.pc + 1 := by
  rw [stepStore]
  split
  all_goals exact ⟨_, _, rfl, rfl⟩

variable {insn : EbpfInsn} {imm : BitVec 32}

theorem aluPanics_of_isAlu (halu : insn.isAlu = false) (regs : EbpfRegs) :
    insn.aluPanics regs = false := by
  simp [aluPanics, halu]

theorem stepAlu_plain (s : VmState) (halu : insn.isAlu = true) (hwide : insn.isWide = false) :
    (stepAlu insn s = .panic ∧ insn.aluPanics s.regs = true) ∨
      insn.aluPanics s.regs = false ∧
        ∃ s' accesses, stepAlu insn s = .ok ⟨.running s', accesses⟩ ∧
          s'.pc = s.pc + if insn.isWide then 2 else 1 := by
  rcases aluResult_eq insn.aluOp (s.regs.r insn.dstReg.toNat) (insn.aluSrc s.regs) with
    ⟨hres, hop, hov⟩ | ⟨⟨v, hres⟩, hno⟩
  · left
    exact ⟨by simp [stepAlu, hres], by simp [aluPanics, halu, hop, hov]⟩
  · right
    refine ⟨?_, _, [], by rw [stepAlu, hres]; rfl, by simp [hwide]⟩
    simpa [aluPanics, halu] using hno

/-- A non-jump instruction panics or continues behind itself. -/
theorem step_plain (env : HelperEnv) (hpc : s.pc < insns.length) (hcheck : checkInsn insns s.pc = true)
    (hjmp : (insnAt insns s.pc).isJmp = false) :
    (step insns env s = .panic ∧ (insnAt insns s.pc).aluPanics s.regs = true) ∨
      (insnAt insns s.pc).aluPanics s.regs = false ∧
        ∃ s' accesses, step insns env s = .ok ⟨.running s', accesses⟩ ∧
          s'.pc = s.pc + if (insnAt insns s.pc).isWide then 2 else 1 := by
  rw [step_eq hpc, stepInsn]
  generalize hinsn : insnAt insns s.pc = insn at *
  have hnarrow : insn.cls ≠ .ld → insn.isWide = false := by
    intro hne
    by_contra hwide
    exact hne (cls_of_isWide (Bool.not_eq_false _ ▸ hwide))
  cases hcls : insn.cls with
  | alu | alu64 => exact stepAlu_plain s (by simp [isAlu, hcls]) (hnarrow (by simp [hcls]))
  | jmp | jmp32 => simp [isJmp, hcls] at hjmp
  | ld =>
    right
    refine ⟨aluPanics_of_isAlu (by simp [isAlu, hcls]) _, ?_⟩
    have hcode : insn.code &&& 0xe0#8 = 0#8 := by
      by_contra hne
      simp [checkInsn, hinsn, hcls, hne] at hcheck
    rw [stepLd, isLdDw_eq_isWide hcls hcode]
    by_cases hwide : insn.isWide = true
    · exact ⟨_, _, by rw [if_pos hwide]; rfl, by simp [hwide]⟩
    · exact ⟨_, _, by rw [if_neg hwide]; rfl, by simp [hwide]⟩
  | ldx =>
    rw [hnarrow (by simp [hcls])]
    exact Or.inr ⟨aluPanics_of_isAlu (by simp [isAlu, hcls]) _, stepLdx_pc insn s⟩
  | st =>
    rw [hnarrow (by simp [hcls])]
    exact Or.inr ⟨aluPanics_of_isAlu (by simp [isAlu, hcls]) _,
      stepStore_pc insn 8 (insn.imm.signExtend 64) s⟩
  | stx =>
    rw [hnarrow (by simp [hcls])]
    exact Or.inr ⟨aluPanics_of_isAlu (by simp [isAlu, hcls]) _,
      stepStore_pc insn insn.sizeBytes (s.regs.r insn.srcReg.toNat) s⟩

theorem helper_toNat (h₁ : 1 ≤ imm.toInt) (h₄ : imm.toInt ≤ 4) :
    imm.toNat = 1 ∨ imm.toNat = 2 ∨ imm.toNat = 3 ∨ imm.toNat = 4 := by
  rw [BitVec.toInt_eq_toNat_cond] at h₁ h₄
  split at h₁ <;> omega

theorem callHelper_small (h₁ : 1 ≤ imm.toInt) (h₄ : imm.toInt ≤ 4)
    (env : HelperEnv) (regs : EbpfRegs) (mem : Memory) :
    ∃ regs' mem' accesses, callHelper env imm regs mem = .ok (some (regs', mem', accesses)) := by
  rcases helper_toNat h₁ h₄ with h | h | h | h
  all_goals exact ⟨_, _, _, by simp only [callHelper, h]; rfl⟩

theorem checkInsn_call (hcheck : checkInsn insns s.pc = true)
    (hjmp : (insnAt insns s.pc).isJmp = true) (hop : (insnAt insns s.pc).jmpOp = .call) :
    1 ≤ (insnAt insns s.pc).imm.toInt ∧ (insnAt insns s.pc).imm.toInt ≤ 4 := by
  have hcode : (insnAt insns s.pc).code &&& 0xf0#8 = 0x80#8 := by
    have hall : ∀ c : BitVec 8, (⟨c, 0, 0, 0, 0⟩ : EbpfInsn).jmpOp = .call →
        c &&& 0xf0#8 = 0x80#8 := by decide
    exact hall _ hop
  simp only [checkInsn] at hcheck
  split at hcheck
  · cases hcheck
  split at hcheck
  · cases hcheck
  have hcls : (insnAt insns s.pc).cls = .jmp ∨ (insnAt insns s.pc).cls = .jmp32 := by
    simpa [isJmp] using hjmp
  cases hcls with
  | inl hcls
  | inr hcls =>
    simp only [hcls, hcode, beq_self_eq_true, Bool.true_and, Bool.not_eq_true',
      Bool.or_eq_false_iff, decide_eq_false_iff_not] at hcheck
    omega

inductive JmpStep (env : HelperEnv) (insn : EbpfInsn) (s : VmState) : Outcome Transition → Prop
  | exit (hop : insn.jmpOp = .exit) : JmpStep env insn s (.ok ⟨.returned (s.regs.r 0), []⟩)
  | call {regs : EbpfRegs} {mem : Memory} {accesses : List Access} (hop : insn.jmpOp = .call)
      (hres : callHelper env insn.imm s.regs s.mem = .ok (some (regs, mem, accesses))) :
      JmpStep env insn s (.ok ⟨.running ⟨s.pc + 1, regs, mem⟩, accesses⟩)
  | falls (hexit : insn.jmpOp ≠ .exit) (hcall : insn.jmpOp ≠ .call)
      (htaken : insn.taken s.regs = false) : JmpStep env insn s (.ok (s.advance 1))
  | stops (hexit : insn.jmpOp ≠ .exit) (htaken : insn.taken s.regs = true)
      (hoff : insn.off.toInt = -1) : JmpStep env insn s (.ok ⟨.returned (s.regs.r 0), []⟩)
  | jumps (hexit : insn.jmpOp ≠ .exit) (htaken : insn.taken s.regs = true)
      (hoff : insn.off.toInt ≠ -1) :
      JmpStep env insn s (.ok ⟨.running { s with pc := jumpTo s.pc insn.off }, []⟩)

theorem stepJmp_branch (hexit : insn.jmpOp ≠ .exit)
    (hcall : insn.jmpOp ≠ .call) : JmpStep env insn s (stepJmp env insn s) := by
  have heq : stepJmp env insn s =
      if insn.taken s.regs then
        if insn.off.toInt = -1 then .ok ⟨.returned (s.regs.r 0), []⟩
        else .ok ⟨.running { s with pc := jumpTo s.pc insn.off }, []⟩
      else .ok (s.advance 1) := by
    simp only [stepJmp]
  rw [heq]
  cases htaken : insn.taken s.regs with
  | false => exact .falls hexit hcall htaken
  | true =>
    by_cases hoff : insn.off.toInt = -1
    · rw [if_pos rfl, if_pos hoff]
      exact .stops hexit htaken hoff
    · rw [if_pos rfl, if_neg hoff]
      exact .jumps hexit htaken hoff

theorem step_jmp (env : HelperEnv) (hpc : s.pc < insns.length) (hcheck : checkInsn insns s.pc = true)
    (hjmp : (insnAt insns s.pc).isJmp = true) :
    JmpStep env (insnAt insns s.pc) s (step insns env s) := by
  have hstep : step insns env s = stepJmp env (insnAt insns s.pc) s := by
    rw [step_eq hpc, stepInsn]
    have hcls : (insnAt insns s.pc).cls = .jmp ∨ (insnAt insns s.pc).cls = .jmp32 := by
      simpa [isJmp] using hjmp
    cases hcls with
    | inl hcls =>
      rw [hcls]
    | inr hcls =>
      rw [hcls]
  have hcall := checkInsn_call hcheck hjmp
  rw [hstep]
  generalize insnAt insns s.pc = insn at *
  by_cases hexit : insn.jmpOp = .exit
  · rw [stepJmp, hexit]
    exact .exit hexit
  by_cases hop : insn.jmpOp = .call
  · obtain ⟨regs', mem', accesses, hres⟩ :=
      callHelper_small (hcall hop).1 (hcall hop).2 env s.regs s.mem
    have heq : stepJmp env insn s = .ok ⟨.running ⟨s.pc + 1, regs', mem'⟩, accesses⟩ := by
      simp [stepJmp, hop, hres]
    rw [heq]
    exact .call hop hres
  · exact stepJmp_branch hexit hop

theorem callHelper_ne_panic (env : HelperEnv) (imm : BitVec 32) (regs : EbpfRegs)
    (mem : Memory) : callHelper env imm regs mem ≠ .panic := by
  rw [callHelper]
  repeat' split
  all_goals simp

theorem stepJmp_ne_panic (env : HelperEnv) (insn : EbpfInsn) (s : VmState) :
    stepJmp env insn s ≠ .panic := by
  rw [stepJmp]
  split
  · cases hcall : callHelper env insn.imm s.regs s.mem with
    | ok res => cases res <;> simp
    | panic => exact absurd hcall (callHelper_ne_panic env _ _ _)
    | hang => simp
  · simp
  · repeat' split
    all_goals simp

theorem insnAt_of_ge {i : ℕ} (h : insns.length ≤ i) : insnAt insns i = default := by
  rw [insnAt, List.getD_eq_getElem?_getD, List.getElem?_eq_none h, Option.getD_none]

/-- Divisions are the only steps of the interpreter that panic, also by zero divisors. -/
theorem step_eq_panic_iff :
    step insns env s = .panic ↔ (insnAt insns s.pc).aluPanics s.regs = true := by
  by_cases hpc : s.pc < insns.length
  · rw [step_eq hpc, stepInsn]
    have hno : (insnAt insns s.pc).isAlu = false →
        ¬ (insnAt insns s.pc).aluPanics s.regs = true := fun halu => by
      rw [aluPanics_of_isAlu halu]
      exact Bool.false_ne_true
    have hyes (halu : (insnAt insns s.pc).isAlu = true) : stepAlu (insnAt insns s.pc) s = .panic ↔
        (insnAt insns s.pc).aluPanics s.regs = true := by
      rcases aluResult_eq (insnAt insns s.pc).aluOp _ _ with ⟨hres, hop, hov⟩ | ⟨⟨v, hres⟩, hno⟩
      · exact iff_of_true (by rw [stepAlu, hres]; rfl)
          (by simp [aluPanics, halu, hop, hov])
      · refine iff_of_false (by rw [stepAlu, hres]; simp) ?_
        simpa [aluPanics, halu] using hno
    cases hcls : (insnAt insns s.pc).cls with
    | alu | alu64 => exact hyes (by simp [isAlu, hcls])
    | jmp | jmp32 =>
      exact iff_of_false (stepJmp_ne_panic _ _ _) (hno (by simp [isAlu, hcls]))
    | _ => exact iff_of_false (by simp) (hno (by simp [isAlu, hcls]))
  · have hge : insns.length ≤ s.pc := Nat.le_of_not_lt hpc
    rw [step, List.getElem?_eq_none hge, insnAt_of_ge hge]
    exact iff_of_false (by simp) (by rw [aluPanics_of_isAlu rfl]; exact Bool.false_ne_true)

end OneStep

/-! ### Edges -/

section Edges

variable {insns : List EbpfInsn} {env : HelperEnv} {s : VmState}

variable {cur t pc : ℕ}

theorem cfgSucc_lt (h : t ∈ cfgSucc insns cur) : t < insns.length := by
  simp only [cfgSucc, List.mem_append] at h
  cases h with
  | inl h =>
    split at h
    · cases h
    · obtain ⟨rfl, hlt⟩ := mem_pushIn.1 h
      exact hlt
  | inr h =>
    split at h
    · obtain ⟨rfl, hlt⟩ := mem_pushIn.1 h
      exact hlt
    · cases h

theorem mem_cfgSucc_plain (hjmp : (insnAt insns cur).isJmp = false) : t ∈ cfgSucc insns cur ↔
      t = cur + (if (insnAt insns cur).isWide then 2 else 1) ∧ t < insns.length := by
  simp only [cfgSucc, hjmp, Bool.false_and, Bool.false_eq_true, if_false, List.append_nil,
    mem_pushIn]
  constructor
  all_goals
    rintro ⟨rfl, hlt⟩
    exact ⟨rfl, hlt⟩

theorem mem_cfgSucc_jmp (hjmp : (insnAt insns cur).isJmp = true) :
    t ∈ cfgSucc insns cur ↔ t < insns.length ∧ (t = jumpTarget cur (insnAt insns cur).off ∨
      t = cur + 1 ∧ (insnAt insns cur).jmpOp ≠ .ja ∧ (insnAt insns cur).jmpOp ≠ .exit) := by
  simp only [cfgSucc, hjmp, isWide_of_isJmp hjmp, Bool.true_and, Bool.or_eq_true, beq_iff_eq,
    Bool.false_eq_true, if_true, if_false, List.mem_append, mem_pushIn]
  by_cases hop : (insnAt insns cur).jmpOp = .ja ∨ (insnAt insns cur).jmpOp = .exit
  · rw [if_pos hop]
    rw [← not_not (a := _ ∨ _), not_or] at hop
    simp only [List.not_mem_nil, false_or]
    constructor
    · rintro ⟨rfl, hlt⟩
      exact ⟨hlt, Or.inl rfl⟩
    · rintro ⟨hlt, rfl | ⟨-, hno⟩⟩
      · exact ⟨rfl, hlt⟩
      · exact absurd hno hop
  · rw [if_neg hop]
    rw [not_or] at hop
    simp only [mem_pushIn]
    constructor
    · rintro (⟨rfl, hlt⟩ | ⟨rfl, hlt⟩)
      · exact ⟨hlt, Or.inr ⟨rfl, hop⟩⟩
      · exact ⟨hlt, Or.inl rfl⟩
    · rintro ⟨hlt, rfl | ⟨rfl, -⟩⟩
      · exact Or.inr ⟨rfl, hlt⟩
      · exact Or.inl ⟨rfl, hlt⟩

/-- Both computations of a jump target wrap, and they differ by one. -/
theorem jumpTo_ne_jumpTarget (hpc : pc < 4096) (off : BitVec 16) :
    jumpTo pc off ≠ jumpTarget pc off := by
  have hlo := BitVec.le_toInt off
  rw [jumpTo, jumpTarget]
  generalize off.toInt = o at *
  split <;> omega

theorem jumpTo_eq_succ_iff (hpc : pc < 4096) (off : BitVec 16) :
    jumpTo pc off = pc + 1 ↔ off = 1#16 := by
  have hlo := BitVec.le_toInt off
  have hone : off = 1#16 ↔ off.toInt = 1 := by
    rw [← BitVec.toInt_inj]
    rfl
  rw [jumpTo, hone]
  generalize off.toInt = o at *
  split <;> omega

/-- One step of a verified program follows the graph exactly when it meets the
condition. -/
theorem stepFollows_iff (env : HelperEnv) (h : verify insns = true) (hpc : s.pc < insns.length) :
    StepFollows insns env s ↔ StaysOnGraph insns s := by
  have hcheck := verify_checkInsn h hpc
  have hlen := (verify_length h).2
  have hpanic : (insnAt insns s.pc).isJmp = true →
      (insnAt insns s.pc).aluPanics s.regs = false := by
    intro hjmp
    apply aluPanics_of_isAlu
    simp only [isJmp, Bool.or_eq_true, beq_iff_eq] at hjmp
    cases hjmp with
    | inl hcls | inr hcls => simp [isAlu, hcls]
  unfold StepFollows StaysOnGraph
  cases hjmp : (insnAt insns s.pc).isJmp with
  | false =>
    rcases step_plain env hpc hcheck hjmp with
      ⟨hstep, hpan⟩ | ⟨hpan, s', accesses, hstep, hpc'⟩
    · simp [hstep, hpan]
    rw [hstep, hpan]
    simp only [mem_cfgSucc_plain hjmp, hpc', true_and, Bool.false_eq_true, false_imp_iff,
      forall_const, and_true]
    constructor
    · intro hlt
      split at hlt <;> omega
    · intro hlt
      exact verify_plain_next h hlt hjmp
  | true =>
    have hnext := verify_jmp_next h hpc hjmp
    have hres := step_jmp env hpc hcheck hjmp
    simp only [hpanic hjmp, forall_const, Bool.true_eq_false, false_imp_iff, and_true, true_and]
    generalize step insns env s = r at hres ⊢
    cases hres with
    | exit hop =>
      have htaken : (insnAt insns s.pc).taken s.regs = false := by rw [taken, hop]
      simp [hop, htaken]
    | call hop hres =>
      have htaken : (insnAt insns s.pc).taken s.regs = false := by rw [taken, hop]
      simp only [mem_cfgSucc_jmp hjmp, htaken, Bool.false_eq_true, false_imp_iff, iff_true]
      exact ⟨hnext (by simp [hop]) (by simp [hop]), Or.inr ⟨trivial, by simp [hop], by simp [hop]⟩⟩
    | falls hexit hcall htaken =>
      have hja : (insnAt insns s.pc).jmpOp ≠ .ja := by
        intro hop
        simp [taken, hop] at htaken
      simp only [VmState.advance, mem_cfgSucc_jmp hjmp, htaken, Bool.false_eq_true,
        false_imp_iff, iff_true]
      exact ⟨hnext hja hexit, Or.inr ⟨trivial, hja, hexit⟩⟩
    | stops hexit htaken hoff =>
      simp only [hexit, htaken, false_iff, forall_const, not_and]
      intro _ hone
      rw [hone] at hoff
      exact absurd hoff (by decide)
    | jumps hexit htaken hoff =>
      simp only [mem_cfgSucc_jmp hjmp, htaken, forall_const]
      constructor
      · rintro ⟨-, htarget | ⟨hone, hja, -⟩⟩
        · exact absurd htarget (jumpTo_ne_jumpTarget (by omega) _)
        · exact ⟨hja, (jumpTo_eq_succ_iff (by omega) _).1 hone⟩
      · rintro ⟨hja, hone⟩
        have heq := (jumpTo_eq_succ_iff (show s.pc < 4096 by omega) _).2 hone
        exact ⟨by rw [heq]; exact hnext hja hexit, Or.inr ⟨heq, hja, hexit⟩⟩

end Edges

/-! ### Runs -/

def FollowsGraph (insns : List EbpfInsn) (env : HelperEnv) (s : VmState) : Prop :=
  s.pc < insns.length ∧ isSlot insns s.pc = false ∧ StepFollows insns env s

section Runs

variable {insns : List EbpfInsn}

/-- The second slot of a wide load has opcode zero, so it starts no wide load itself. -/
theorem slot_code {pc : ℕ} (hcheck : checkInsn insns pc = true)
    (hwide : (insnAt insns pc).isWide = true) : (insnAt insns (pc + 1)).code = 0#8 := by
  have hcls := cls_of_isWide hwide
  have hbits : ∀ c : BitVec 8, c &&& 0x1f#8 = 0x18#8 → c &&& 0x18#8 = 0x18#8 := by decide
  simp only [checkInsn, hcls, hbits _ (isWide_iff_code.1 hwide)] at hcheck
  split at hcheck
  · cases hcheck
  split at hcheck
  · cases hcheck
  split at hcheck
  · cases hcheck
  simpa using (Bool.and_eq_true_iff.1 hcheck).2

/-- The successors of an instruction that is no second slot are no second slots
either, apart from jump targets, which a step meeting the condition never uses. -/
theorem isSlot_next (h : verify insns = true) {env : HelperEnv} {s s' : VmState}
    (hpc : s.pc < insns.length) (hstay : StaysOnGraph insns s)
    (hnext : next insns env s = some s') : isSlot insns s'.pc = false := by
  obtain ⟨accesses, hstep⟩ := next_eq_some.1 hnext
  have hcheck := verify_checkInsn h hpc
  have hsucc : s'.pc = s.pc + 1 → (insnAt insns s.pc).isWide = false →
      isSlot insns s'.pc = false := by
    intro heq hwide
    simp [isSlot, heq, hwide]
  cases hjmp : (insnAt insns s.pc).isJmp with
  | true =>
    have hwide := isWide_of_isJmp hjmp
    have hres := step_jmp env hpc hcheck hjmp
    rw [hstep] at hres
    refine hsucc ?_ hwide
    cases hres with
    | call hop hres => rfl
    | falls hexit hcall htaken => rfl
    | jumps hexit htaken hoff =>
      exact (jumpTo_eq_succ_iff (Nat.lt_of_lt_of_le hpc (verify_length h).2) _).2
        (hstay.1 hjmp htaken).2
  | false =>
    rcases step_plain env hpc hcheck hjmp with ⟨hstep', -⟩ | ⟨-, t, accesses', hstep', hpc'⟩
    · rw [hstep] at hstep'
      cases hstep'
    rw [hstep] at hstep'
    cases hstep'
    cases hwide : (insnAt insns s.pc).isWide with
    | false => exact hsucc (by simpa [hwide] using hpc') hwide
    | true =>
      have hcode := slot_code hcheck hwide
      have heq : s'.pc - 1 = s.pc + 1 := by
        rw [hpc', if_pos hwide]
        rfl
      rw [isSlot, heq, isWide, hcode]
      simp

/-- A run of a verified program follows the graph in every state it reaches
exactly when each of its steps meets the condition. -/
theorem run_followsGraph_iff (h : verify insns = true) (env : ℕ → HelperEnv) (regs : EbpfRegs)
    (mem : Memory) :
    (∀ n s, trace (next insns) env (.start regs mem) n = some s → FollowsGraph insns (env n) s) ↔
      ∀ n s, trace (next insns) env (.start regs mem) n = some s → StaysOnGraph insns s := by
  constructor
  · intro hfollows n s hs
    obtain ⟨hpc, -, hstep⟩ := hfollows n s hs
    exact (stepFollows_iff _ h hpc).1 hstep
  · intro hstay
    have hinv : ∀ n s, trace (next insns) env (.start regs mem) n = some s →
        s.pc < insns.length ∧ isSlot insns s.pc = false := by
      apply trace_inv
      · exact ⟨(verify_length h).1, rfl⟩
      · intro n s s' hs hinv hnext
        refine ⟨?_, isSlot_next h hinv.1 (hstay n s hs) hnext⟩
        have hfollows := (stepFollows_iff (env n) h hinv.1).2 (hstay n s hs)
        obtain ⟨accesses, hstep⟩ := next_eq_some.1 hnext
        rw [StepFollows, hstep] at hfollows
        exact cfgSucc_lt hfollows
    intro n s hs
    obtain ⟨hpc, hslot⟩ := hinv n s hs
    exact ⟨hpc, hslot, (stepFollows_iff _ h hpc).2 (hstay n s hs)⟩

/-- A conditional jump over one instruction, followed by `EXIT`. -/
theorem run_followsGraph_iff_branch :
    verify [⟨0x1d, 0, 1, 1, 0⟩, ⟨0x07, 0, 0, 0, 1⟩, ⟨0x95, 0, 0, 0, 0⟩] = true ∧
    ((∀ n s, trace (next [⟨0x1d, 0, 1, 1, 0⟩, ⟨0x07, 0, 0, 0, 1⟩, ⟨0x95, 0, 0, 0, 0⟩])
        (fun _ => .idle) (.start (fun _ => 0) (fun _ => 0)) n = some s →
        FollowsGraph [⟨0x1d, 0, 1, 1, 0⟩, ⟨0x07, 0, 0, 0, 1⟩, ⟨0x95, 0, 0, 0, 0⟩] .idle s) ↔
      ∀ n s, trace (next [⟨0x1d, 0, 1, 1, 0⟩, ⟨0x07, 0, 0, 0, 1⟩, ⟨0x95, 0, 0, 0, 0⟩])
        (fun _ => .idle) (.start (fun _ => 0) (fun _ => 0)) n = some s →
        StaysOnGraph [⟨0x1d, 0, 1, 1, 0⟩, ⟨0x07, 0, 0, 0, 1⟩, ⟨0x95, 0, 0, 0, 0⟩] s) := by
  have hverify :
      verify [⟨0x1d, 0, 1, 1, 0⟩, ⟨0x07, 0, 0, 0, 1⟩, ⟨0x95, 0, 0, 0, 0⟩] = true := by decide
  exact ⟨hverify, run_followsGraph_iff hverify _ _ _⟩

/-- `ja +0` is accepted as a jump to the next instruction, but the interpreter
jumps to the same one again. -/
theorem ja_zero_leaves_graph :
    verify [⟨0x05, 0, 0, 0, 0⟩, ⟨0x95, 0, 0, 0, 0⟩] = true ∧
    ¬ ∀ n s, trace (next [⟨0x05, 0, 0, 0, 0⟩, ⟨0x95, 0, 0, 0, 0⟩]) (fun _ => .idle)
        (.start (fun _ => 0) (fun _ => 0)) n = some s →
      FollowsGraph [⟨0x05, 0, 0, 0, 0⟩, ⟨0x95, 0, 0, 0, 0⟩] .idle s := by
  refine ⟨by decide, fun hall => ?_⟩
  obtain ⟨-, -, hstep⟩ := hall 0 _ rfl
  have hmem : 0 ∈ cfgSucc [⟨0x05, 0, 0, 0, 0⟩, ⟨0x95, 0, 0, 0, 0⟩] 0 := hstep
  exact absurd hmem (by decide)

end Runs

end Vahi.Ebpf
