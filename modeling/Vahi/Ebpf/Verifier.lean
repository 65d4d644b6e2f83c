import Vahi.Ebpf.Vm
import Mathlib.Data.List.Basic

/-!
# The structural verifier

`verify` (`kernel/src/ebpf/verifier.rs`): the checks of instructions and jump targets, and the walk
of the control-flow graph, which must visit every instruction.
-/

namespace Vahi.Ebpf

variable (insns : List EbpfInsn)

def insnAt (i : ℕ) : EbpfInsn := insns.getD i default

def jumpTarget (i : ℕ) (off : BitVec 16) : ℕ :=
  (((i : Int) + 1 + off.toInt) % 2 ^ 64).toNat

/-- The verifier's test for a 64-bit immediate load, `code & 0x1f == 0x18`. -/
def EbpfInsn.isWide (insn : EbpfInsn) : Bool :=
  insn.code &&& 0x1f#8 == 0x18#8

def isSlot (t : ℕ) : Bool :=
  decide (0 < t) && (insnAt insns (t - 1)).isWide

/-- The check of one instruction in the first pass. -/
def checkInsn (i : ℕ) : Bool :=
  let insn := insnAt insns i
  if insn.dstReg.toNat > 10 || insn.srcReg.toNat > 10 then false
  else if (insn.isAlu || insn.isJmp) && insn.dstReg.toNat == 10 then false
  else
    match insn.cls with
    | .ld =>
      if insn.code &&& 0xe0#8 != 0#8 then false
      else if insn.code &&& 0x18#8 == 0x18#8 then
        decide (i + 1 < insns.length) && (insnAt insns (i + 1)).code == 0#8
      else true
    | .ldx =>
      !(insn.off.toInt < -512 || insn.off.toInt > 512) && !(insn.dstReg.toNat == 10)
    | .st | .stx => !(insn.off.toInt < -512 || insn.off.toInt > 512)
    | .alu | .alu64 | .jmp | .jmp32 =>
      !(insn.code &&& 0xf0#8 == 0x80#8 && (insn.imm.toInt < 1 || insn.imm.toInt > 4))

/-- The targets an instruction adds in the second loop of `verify`; `none`
rejects the program. -/
def insnTargets (i : ℕ) : Option (List ℕ) :=
  let insn := insnAt insns i
  let target := jumpTarget i insn.off
  if insn.isJmp then
    match insn.jmpOp with
    | .ja => if target ≥ insns.length then none else some [target]
    | .exit => some []
    | _ => if target ≥ insns.length then none else some [target, i + 1]
  else if i + 1 < insns.length then some [i + if insn.isWide then 2 else 1]
  else some []

def allTargets (insns : List EbpfInsn) : ℕ → ℕ → Option (List ℕ)
  | 0, _ => some []
  | n + 1, i => do
    let here ← insnTargets insns i
    let rest ← allTargets insns n (i + 1)
    return here ++ rest

def checkTarget (t : ℕ) : Bool :=
  decide (t < insns.length) && !isSlot insns t

def pushIn (t : ℕ) : List ℕ :=
  if t < insns.length then [t] else []

/-- The indices the walk pushes when it visits `cur`, last one first. -/
def cfgSucc (cur : ℕ) : List ℕ :=
  let insn := insnAt insns cur
  let falls :=
    if insn.isJmp && (insn.jmpOp == .ja || insn.jmpOp == .exit) then []
    else pushIn insns (cur + if insn.isWide then 2 else 1)
  let jumps := if insn.isJmp then pushIn insns (jumpTarget cur insn.off) else []
  falls ++ jumps

/-- The walk of the graph with its budget; `none` when the budget is used up. -/
def explore (insns : List EbpfInsn) : ℕ → List ℕ → List ℕ → Option (List ℕ)
  | _, [], visited => some visited
  | 0, _ :: _, _ => none
  | budget + 1, cur :: worklist, visited =>
    if cur ∈ visited then explore insns budget worklist visited
    else explore insns budget (cfgSucc insns cur ++ worklist) (cur :: visited)

def maxStepsPerInsn : ℕ := 64

/-- Every instruction must be reached, apart from the second halves of wide loads. -/
def verify : Bool :=
  if insns.isEmpty || insns.length > 4096 then false
  else if !(List.range insns.length).all (checkInsn insns) then false
  else if (insnAt insns (insns.length - 1)).code &&& 0xf0#8 != 0x90#8 then false
  else
    match allTargets insns insns.length 0 with
    | none => false
    | some targets =>
      if !(0 :: (insns.length - 1) :: targets).all (checkTarget insns) then false
      else
        match explore insns (insns.length * maxStepsPerInsn) [0] [] with
        | none => false
        | some visited =>
          (List.range insns.length).all fun i => decide (i ∈ visited) || isSlot insns i

/-! ### What acceptance says -/

@[simp] theorem mem_pushIn {insns : List EbpfInsn} {x t : ℕ} :
    x ∈ pushIn insns t ↔ x = t ∧ t < insns.length := by
  rw [pushIn]
  split
  · simp [*]
  · simp [*]

section Accepted

variable {insns : List EbpfInsn}

variable (h : verify insns = true) {i : ℕ}

include h

theorem verify_spec :
    0 < insns.length ∧ insns.length ≤ 4096 ∧
      (∀ i < insns.length, checkInsn insns i = true) ∧
      (insnAt insns (insns.length - 1)).code &&& 0xf0#8 = 0x90#8 ∧
      ∃ targets, allTargets insns insns.length 0 = some targets ∧
        ∀ t ∈ targets, checkTarget insns t = true := by
  rw [verify] at h
  split at h
  · exact absurd h (by decide)
  rename_i hlen
  split at h
  · exact absurd h (by decide)
  rename_i hcheck
  split at h
  · exact absurd h (by decide)
  rename_i hlast
  split at h
  · exact absurd h (by decide)
  rename_i targets htargets
  split at h
  · exact absurd h (by decide)
  rename_i hall
  simp only [Bool.or_eq_true, List.isEmpty_iff, decide_eq_true_eq, not_or] at hlen
  simp only [Bool.not_eq_true', Bool.not_eq_false, List.all_eq_true, List.mem_range] at hcheck
  simp only [Bool.not_eq_true', Bool.not_eq_false, List.all_eq_true, List.mem_cons] at hall
  refine ⟨List.length_pos_iff.2 hlen.1, by omega, hcheck, by simpa using hlast, targets,
    htargets, fun t ht => hall t (Or.inr (Or.inr ht))⟩

omit h in
theorem allTargets_mem : ∀ (n i : ℕ) {targets : List ℕ}, allTargets insns n i = some targets →
    ∀ j, i ≤ j → j < i + n →
      ∃ here, insnTargets insns j = some here ∧ ∀ t ∈ here, t ∈ targets := by
  intro n
  induction n with
  | zero => intro i targets _ j h₁ h₂; omega
  | succ n ih =>
    intro i targets h j h₁ h₂
    rw [allTargets, Option.bind_eq_bind, Option.bind_eq_some_iff] at h
    obtain ⟨here, hhere, h⟩ := h
    rw [Option.bind_eq_some_iff] at h
    obtain ⟨rest, hrest, h⟩ := h
    obtain rfl : here ++ rest = targets := Option.some.inj h
    rcases Nat.eq_or_lt_of_le h₁ with rfl | h₁
    · exact ⟨here, hhere, fun t ht => List.mem_append_left _ ht⟩
    · obtain ⟨here', hj, hmem⟩ := ih (i + 1) hrest j h₁ (by omega)
      exact ⟨here', hj, fun t ht => List.mem_append_right _ (hmem t ht)⟩

theorem verify_length : 0 < insns.length ∧ insns.length ≤ 4096 :=
  ⟨(verify_spec h).1, (verify_spec h).2.1⟩

theorem verify_checkInsn (hi : i < insns.length) :
    checkInsn insns i = true :=
  (verify_spec h).2.2.1 i hi

/-- Every target an instruction adds is an index of the program and no second slot. -/
theorem verify_targets (hi : i < insns.length) :
    ∃ here, insnTargets insns i = some here ∧ ∀ t ∈ here, checkTarget insns t = true := by
  obtain ⟨-, -, -, -, targets, htargets, hall⟩ := verify_spec h
  obtain ⟨here, hhere, hmem⟩ := allTargets_mem _ _ htargets i (Nat.zero_le i) (by omega)
  exact ⟨here, hhere, fun t ht => hall t (hmem t ht)⟩

/-- A jump other than `JA` and `EXIT` is not the last instruction. -/
theorem verify_jmp_next (hi : i < insns.length)
    (hjmp : (insnAt insns i).isJmp = true) (hja : (insnAt insns i).jmpOp ≠ .ja)
    (hexit : (insnAt insns i).jmpOp ≠ .exit) : i + 1 < insns.length := by
  obtain ⟨here, hhere, hall⟩ := verify_targets h hi
  have htargets : insnTargets insns i =
      if jumpTarget i (insnAt insns i).off ≥ insns.length then none
      else some [jumpTarget i (insnAt insns i).off, i + 1] := by
    simp only [insnTargets, hjmp, if_true]
  have hmem : i + 1 ∈ here := by
    rw [htargets] at hhere
    split at hhere
    · cases hhere
    · cases hhere
      simp
  have ht := hall _ hmem
  simp only [checkTarget, Bool.and_eq_true, decide_eq_true_eq] at ht
  exact ht.1

/-- The instruction behind a non-jump that is not the last one. -/
theorem verify_plain_next (hi : i + 1 < insns.length) (hjmp : (insnAt insns i).isJmp = false) :
    i + (if (insnAt insns i).isWide then 2 else 1) < insns.length := by
  obtain ⟨here, hhere, hall⟩ := verify_targets h (Nat.lt_of_succ_lt hi)
  have hmem : i + (if (insnAt insns i).isWide then 2 else 1) ∈ here := by
    simp only [insnTargets, hjmp, hi, if_true] at hhere
    cases hhere
    simp
  have ht := hall _ hmem
  simp only [checkTarget, Bool.and_eq_true, decide_eq_true_eq] at ht
  exact ht.1

end Accepted

end Vahi.Ebpf
