import Vahi.Ash.Handler

/-!
# How long a handler runs

`execute_handler` never reads `max_cycles`. It bounds an execution all the same while the program
counter only grows; but both verifiers accept jumps back, and the interpreter takes a jump over no
instruction as a jump to itself.
-/

namespace Vahi.Ash

open Vahi.Lib Vahi.Ebpf

variable {insns : List EbpfInsn} {s t : VmState} {env : HelperEnv}

/-- `exec_raw` returns after executing at most `k` instructions. The round of the loop behind the
end of the program executes none. -/
def ReturnsWithin (insns : List EbpfInsn) (env : ℕ → HelperEnv) (s : VmState) (k : ℕ) : Prop :=
  ∃ n t r0 accesses, trace (next insns) env s n = some t ∧
    step insns (env n) t = .ok ⟨.returned r0, accesses⟩ ∧
    n + (if t.pc < insns.length then 1 else 0) ≤ k

/-- The next instruction is no division that overflows and, if it is a jump that is taken and
does not return, it goes forward. -/
def Advances (insns : List EbpfInsn) (s : VmState) : Prop :=
  s.pc < insns.length →
    (insnAt insns s.pc).aluPanics s.regs = false ∧
    ((insnAt insns s.pc).isJmp = true → (insnAt insns s.pc).taken s.regs = true →
      (insnAt insns s.pc).off.toInt ≠ -1 → s.pc < jumpTo s.pc (insnAt insns s.pc).off)

/-- The interpreter goes on only inside the program, and then it goes forward. -/
theorem pc_lt_of_next (h : verify insns = true) (hadv : Advances insns s)
    (hnext : next insns env s = some t) : s.pc < insns.length ∧ s.pc < t.pc := by
  obtain ⟨accesses, hstep⟩ := next_eq_some.1 hnext
  have hpc : s.pc < insns.length := by
    by_contra hout
    rw [step, List.getElem?_eq_none (Nat.le_of_not_lt hout)] at hstep
    cases hstep
  refine ⟨hpc, ?_⟩
  obtain ⟨-, hjumps⟩ := hadv hpc
  have hcheck := verify_checkInsn h hpc
  cases hjmp : (insnAt insns s.pc).isJmp with
  | false =>
    obtain ⟨hpanic, -⟩ | ⟨-, t', accesses', hstep', hpc'⟩ := step_plain env hpc hcheck hjmp
    · rw [hpanic] at hstep
      cases hstep
    · rw [hstep'] at hstep
      cases hstep
      split at hpc' <;> omega
  | true =>
    have hres := step_jmp env hpc hcheck hjmp
    rw [hstep] at hres
    cases hres with
    | call | falls => exact Nat.lt_succ_self _
    | jumps hexit htaken hoff => exact hjumps hjmp htaken hoff

/-- Where the interpreter does not go on, it returns. -/
theorem returns_of_next (h : verify insns = true) (hadv : Advances insns s)
    (hnext : next insns env s = none) :
    ∃ r0 accesses, step insns env s = .ok ⟨.returned r0, accesses⟩ := by
  have hgoes {t' : VmState} {accesses : List Access} :
      step insns env s ≠ .ok ⟨.running t', accesses⟩ := by
    intro hstep
    rw [next_eq_some.2 ⟨accesses, hstep⟩] at hnext
    cases hnext
  by_cases hpc : s.pc < insns.length
  · have hcheck := verify_checkInsn h hpc
    cases hjmp : (insnAt insns s.pc).isJmp with
    | false =>
      obtain ⟨-, hpanics⟩ | ⟨-, t', accesses, hstep, -⟩ := step_plain env hpc hcheck hjmp
      · rw [(hadv hpc).1] at hpanics
        cases hpanics
      · exact absurd hstep hgoes
    | true =>
      have hres := step_jmp env hpc hcheck hjmp
      generalize hout : step insns env s = out at hres
      cases hres with
      | exit hop => exact ⟨_, _, rfl⟩
      | stops hexit htaken hoff => exact ⟨_, _, rfl⟩
      | _ => exact absurd hout hgoes
  · exact ⟨s.regs.r 0, [], by rw [step, List.getElem?_eq_none (Nat.le_of_not_lt hpc)]⟩

/-- A verified handler whose execution only advances returns after at most `max_cycles`
instructions. -/
theorem handler_returnsWithin {handler : AshHandler} {v : VerifiedAsh}
    (h : verifyHandler handler = .ok (some v)) (env : ℕ → HelperEnv)
    (context payload len : BitVec 64) (outside : Memory)
    (hadv : ∀ n s, trace (next v.insns) env (handlerStart context payload len outside) n = some s →
      Advances v.insns s) :
    ReturnsWithin v.insns env (handlerStart context payload len outside) v.maxCycles := by
  obtain ⟨-, hverify, -, hcycles⟩ := verifyHandler_spec h
  -- the program counter is the measure
  obtain ⟨n, t, ht, hstops, hbound, hpc⟩ := trace_stops (m := VmState.pc)
    (fun n t t' ht hnext => pc_lt_of_next hverify (hadv n t ht) hnext)
  obtain ⟨r0, accesses, hstep⟩ := returns_of_next hverify (hadv n t ht) hstops
  refine ⟨n, t, r0, accesses, ht, hstep, ?_⟩
  split
  · omega
  · omega

/-- No division, and no jump but to a later instruction or out of the program. -/
def Forward (insns : List EbpfInsn) : Prop :=
  ∀ i < insns.length,
    ((insnAt insns i).isAlu = true →
      (insnAt insns i).aluOp ≠ .div ∧ (insnAt insns i).aluOp ≠ .mod) ∧
    ((insnAt insns i).isJmp = true →
      (insnAt insns i).jmpOp = .exit ∨ (insnAt insns i).jmpOp = .call ∨
        (insnAt insns i).off.toInt = -1 ∨ i < jumpTo i (insnAt insns i).off)

instance (insns : List EbpfInsn) : Decidable (Forward insns) :=
  inferInstanceAs (Decidable (∀ i < insns.length, _))

/-- Such a program advances from every state. -/
theorem Forward.advances (h : Forward insns) (s : VmState) : Advances insns s := by
  intro hpc
  obtain ⟨hdiv, hjump⟩ := h s.pc hpc
  generalize insnAt insns s.pc = insn at hdiv hjump ⊢
  constructor
  · cases halu : insn.isAlu with
    | false => exact aluPanics_of_isAlu halu _
    | true =>
      obtain ⟨hne, hne'⟩ := hdiv halu
      rw [EbpfInsn.aluPanics, beq_false_of_ne hne, beq_false_of_ne hne', Bool.or_self,
        Bool.and_false, Bool.false_and]
  · intro hjmp htaken hoff
    obtain hop | hop | hret | hlt := hjump hjmp
    · simp [EbpfInsn.taken, hop] at htaken
    · simp [EbpfInsn.taken, hop] at htaken
    · exact absurd hret hoff
    · exact hlt

/-- `mov r0, 0; jeq r0, r1, +2; mov r0, 1; exit; exit` in the layout of `EbpfInsn`. -/
def branchHandler : AshHandler where
  bytecode :=
    [0xbf, 0, 0, 0, 0, 0, 0, 0, 0, 0, 0, 0, 0x1d, 0, 1, 0, 2, 0, 0, 0, 0, 0, 0, 0,
     0xbf, 0, 0, 0, 0, 0, 0, 0, 1, 0, 0, 0,
     0x95, 0, 0, 0, 0, 0, 0, 0, 0, 0, 0, 0,
     0x95, 0, 0, 0, 0, 0, 0, 0, 0, 0, 0, 0]
  hookPoint := .timerFired 0
  maxInsns := 0

def branchVerified : VerifiedAsh where
  insns := [⟨0xbf, 0, 0, 0, 0⟩, ⟨0x1d, 0, 1, 2, 0⟩, ⟨0xbf, 0, 0, 0, 1⟩, ⟨0x95, 0, 0, 0, 0⟩,
    ⟨0x95, 0, 0, 0, 0⟩]
  maxCycles := 512
  contextSize := 16
  memoryBudget := 512

theorem handler_returnsWithin_branch :
    verifyHandler branchHandler = .ok (some branchVerified) ∧
    ReturnsWithin branchVerified.insns (fun _ => .idle) (handlerStart 0 0 0 fun _ => 0) 512 := by
  have hverified : verifyHandler branchHandler = .ok (some branchVerified) := by decide +kernel
  have hforward : Forward branchVerified.insns := by decide
  exact ⟨hverified, handler_returnsWithin hverified _ _ _ _ _ fun _ s _ => hforward.advances s⟩

/-- `mov r0, 0; ja +0; exit`. -/
def loopHandler : AshHandler where
  bytecode :=
    [0xbf, 0, 0, 0, 0, 0, 0, 0, 0, 0, 0, 0, 0x05, 0, 0, 0, 0, 0, 0, 0, 0, 0, 0, 0,
     0x95, 0, 0, 0, 0, 0, 0, 0, 0, 0, 0, 0]
  hookPoint := .timerFired 0
  maxInsns := 0

def loopVerified : VerifiedAsh where
  insns := [⟨0xbf, 0, 0, 0, 0⟩, ⟨0x05, 0, 0, 0, 0⟩, ⟨0x95, 0, 0, 0, 0⟩]
  maxCycles := 512
  contextSize := 16
  memoryBudget := 512

/-- The jump is accepted as one to the next instruction; the interpreter stays on it. -/
theorem loopHandler_never_returns :
    verifyHandler loopHandler = .ok (some loopVerified) ∧
    ∀ k, ¬ ReturnsWithin loopVerified.insns (fun _ => .idle) (handlerStart 0 0 0 fun _ => 0) k := by
  refine ⟨by decide +kernel, ?_⟩
  rintro k ⟨n, ⟨pc, regs, mem⟩, r0, accesses, ht, hstep, -⟩
  have hinv : ∀ n t, trace (next loopVerified.insns) (fun _ => .idle)
      (handlerStart 0 0 0 fun _ => 0) n = some t → t.pc = 0 ∨ t.pc = 1 := by
    refine trace_inv (.inl rfl) ?_
    rintro n ⟨pc, regs, mem⟩ t' - (hpc | hpc) hnext
    all_goals
      cases hpc
      cases hnext
      exact .inr rfl
  obtain hpc | hpc := hinv n _ ht
  all_goals
    cases hpc
    cases hstep

end Vahi.Ash
