import Vahi.Ebpf.Tnum
import Vahi.Ebpf.ControlFlow
import Mathlib.Data.Fintype.Basic

/-!
# The abstract verifier

`tnum_verify` (`kernel/src/ebpf/verifier.rs`), which keeps a tnum for every register and stack slot,
as an instance of the worklist iteration. Array indexing panics outside the array.
-/

namespace Vahi.Ebpf

open Vahi.Lib Function
open Outcome (ok_bind)

structure VState where
  regs : Fin 11 → Tnum
  stack : Fin 64 → Tnum
  deriving DecidableEq

namespace VState

/-- `VState::init`: the frame pointer holds the stack's size, the rest is unknown. -/
def init : VState :=
  ⟨update (fun _ => Tnum.any) 10 (Tnum.exact (BitVec.ofNat 64 stackSize)), fun _ => Tnum.any⟩

def getReg (s : VState) (i : ℕ) : Outcome Tnum :=
  if h : i < 11 then .ok (s.regs ⟨i, h⟩) else .panic

def setReg (s : VState) (i : ℕ) (t : Tnum) : Outcome VState :=
  if h : i < 11 then .ok { s with regs := update s.regs ⟨i, h⟩ t } else .panic

/-- The slots `off / 8 ..` of an aligned store; unaligned stores are not tracked. -/
def writeStack (s : VState) (off : BitVec 64) (size : ℕ) (t : Tnum) : VState :=
  if off.toNat % 8 ≠ 0 ∨ size % 8 ≠ 0 then s
  else
    { s with stack := fun j =>
        if off.toNat / 8 ≤ j.val ∧ j.val < off.toNat / 8 + Nat.max 1 (size / 8) then t
        else s.stack j }

def merge (s o : VState) : VState :=
  ⟨fun i => (s.regs i).merge (o.regs i), fun i => (s.stack i).merge (o.stack i)⟩

end VState

open VState

def mask32 (t : Tnum) : Tnum :=
  ⟨t.value &&& 0xFFFF_FFFF#64, (t.mask &&& 0xFFFF_FFFF#64) ||| ~~~0xFFFF_FFFF#64⟩

/-- The largest address the base can have is checked, not the smallest. -/
def checkStackAcc (base : Tnum) (off : BitVec 16) (size : ℕ) : Bool :=
  if base.max.toNat > stackSize * 8 then false
  else
    let addr : Int := base.max.toNat + off.toInt
    let stop : Int := addr + (size - 1)
    decide (addr ≥ 0) && decide (stop < stackSize)

def aluOpWide (op : AluOp) (dst src : Tnum) : Tnum :=
  match op with
  | .add => dst.add src
  | .sub => dst.sub src
  | .mul => dst.mul src
  | .div => .any
  | .or => dst.or src
  | .and => dst.and src
  | .lsh => dst.shl src
  | .rsh => dst.lshr src
  | .neg => dst.neg
  | .mod => .any
  | .xor => dst.xor src
  | .mov => src
  | .arsh => dst.ashr src
  | .undefined => .any

def cut32 (r : Tnum) : Tnum :=
  ⟨r.value &&& 0xFFFF_FFFF#64 &&& ~~~r.mask, (r.mask &&& 0xFFFF_FFFF#64) ||| ~~~0xFFFF_FFFF#64⟩

def aluOpTnum (op : AluOp) (dst src : Tnum) (isAlu32 : Bool) : Tnum :=
  if isAlu32 then cut32 (aluOpWide op dst src) else aluOpWide op dst src

/-- The states an instruction sends on; `none` rejects the program. -/
abbrev Sent := Option (List (ℕ × VState))

variable (insns : List EbpfInsn)

/-- `if next < insns.len() { push_merged(.., next, &post) }`. -/
def sendTo (t : ℕ) (post : VState) : Sent :=
  if t < insns.length then some [(t, post)] else some []

section Transfer

variable (insns : List EbpfInsn) (cur : ℕ) (insn : EbpfInsn) (pre : VState)

def aluSrcTnum : Outcome Tnum :=
  if insn.useImm then
    .ok (.exact (if insn.cls = .alu64 then insn.imm.signExtend 64 else insn.imm.setWidth 64))
  else do
    let t ← pre.getReg insn.srcReg.toNat
    return if insn.cls = .alu64 then t else mask32 t

def transferAlu : Outcome Sent := do
  let src ← aluSrcTnum insn pre
  let dst ← pre.getReg insn.dstReg.toNat
  let dst := if insn.cls = .alu64 then dst else mask32 dst
  if (insn.aluOp = .div ∨ insn.aluOp = .mod) ∧ src.couldBeZero then
    return none
  else
    let post ← pre.setReg insn.dstReg.toNat
      (aluOpTnum insn.aluOp dst src (insn.cls != .alu64))
    return sendTo insns (cur + 1) post

def transferLdx : Outcome Sent := do
  let base ← pre.getReg insn.srcReg.toNat
  if checkStackAcc base insn.off insn.sizeBytes then
    let post ← pre.setReg insn.dstReg.toNat .any
    return sendTo insns (cur + 1) post
  else return none

/-- `ST` and `STX`: a store of `size` bytes; what is stored is read after the check. -/
def transferStore (size : ℕ) (val : Outcome Tnum) : Outcome Sent := do
  let base ← pre.getReg insn.dstReg.toNat
  if checkStackAcc base insn.off size then
    let t ← val
    let addr := base.min + insn.off.signExtend 64
    return sendTo insns (cur + 1) (pre.writeStack addr size t)
  else return none

/-- Only equality is refined: on the taken edge of `jeq`, on the other one of `jne`. -/
def refineCond (taken is32 : Bool) : Outcome VState :=
  let eq := (insn.jmpOp == .jeq && taken) || (insn.jmpOp == .jne && !taken)
  if insn.useImm && eq then
    pre.setReg insn.dstReg.toNat
      (.exact (if is32 then insn.imm.setWidth 64 else insn.imm.signExtend 64))
  else if !insn.useImm && eq && insn.srcReg != insn.dstReg then do
    let s ← pre.getReg insn.srcReg.toNat
    let d ← pre.getReg insn.dstReg.toNat
    let r := d.intersect s
    let state ← pre.setReg insn.dstReg.toNat r
    state.setReg insn.srcReg.toNat r
  else .ok pre

/-- Helpers other than 1 to 4 are refused. -/
def transferCall : Outcome Sent :=
  let clobber (r0 : Tnum) : VState :=
    { pre with regs := fun i => if i = 0 then r0 else if i.val ≤ 5 then .any else pre.regs i }
  match insn.imm.toNat with
  | 1 | 2 | 3 => .ok (sendTo insns (cur + 1) (clobber .any))
  | 4 => .ok (sendTo insns (cur + 1) (clobber (.exact 0)))
  | _ => .ok none

/-- An exit with a wholly unknown result is refused. -/
def transferJmp : Outcome Sent :=
  let target := jumpTarget cur insn.off
  match insn.jmpOp with
  | .exit => .ok (if pre.regs 0 = .any then none else some [])
  | .call => transferCall insns cur insn pre
  | .ja => .ok (if target ≥ insns.length then none else some [(target, pre)])
  | _ =>
    if target ≥ insns.length then .ok none
    else do
      let taken ← refineCond insn pre true (insn.cls == .jmp32)
      let fallthru ← refineCond insn pre false (insn.cls == .jmp32)
      return some [(target, taken), (cur + 1, fallthru)]

def transferLd : Outcome Sent :=
  if insn.isLdDw then
    if cur + 1 ≥ insns.length then .ok none
    else do
      let imm64 := insn.imm.signExtend 64 |||
        ((insnAt insns (cur + 1)).imm.signExtend 64 <<< 32)
      let post ← pre.setReg insn.dstReg.toNat (.exact imm64)
      return sendTo insns (cur + 2) post
  else .ok none

end Transfer

def transfer : Transfer VState := fun cur pre =>
  match insns[cur]? with
  | none => .panic
  | some insn =>
    match insn.cls with
    | .alu | .alu64 => transferAlu insns cur insn pre
    | .ldx => transferLdx insns cur insn pre
    | .st =>
      transferStore insns cur insn pre (if insn.code &&& 0x18#8 = 0#8 then 8 else 4)
        (.ok (.exact (insn.imm.signExtend 64)))
    | .stx => transferStore insns cur insn pre insn.sizeBytes (pre.getReg insn.srcReg.toNat)
    | .jmp | .jmp32 => transferJmp insns cur insn pre
    | .ld => transferLd insns cur insn pre

/-- The map after the loop; `none` when the program was rejected inside it. -/
def tnumStates : Outcome (Option (ℕ → Option VState)) :=
  solve merge (transfer insns) (insns.length * maxStepsPerInsn)
    ⟨update (fun _ => none) 0 (some .init), [0]⟩

/-- The last instruction must not be reached with a wholly unknown result. -/
def tnumVerify : Outcome Bool :=
  if insns.isEmpty || insns.length > 4096 then .ok false
  else do
    match ← tnumStates insns with
    | none => return false
    | some states =>
      match states (insns.length - 1) with
      | some state => return decide (state.regs 0 ≠ .any)
      | none => return true

theorem VState.merge_laws : JoinLaws merge where
  self := by
    intro s
    simp only [merge, Tnum.merge_laws.self]
  absorbed := by
    intro s o
    simp only [merge, Tnum.merge_laws.absorbed]
  keeps := by
    intro s o p h
    have hregs : ∀ i, (s.regs i).merge (o.regs i) = s.regs i := fun i =>
      congrFun (congrArg regs h) i
    have hstack : ∀ i, (s.stack i).merge (o.stack i) = s.stack i := fun i =>
      congrFun (congrArg stack h) i
    simp only [merge, mk.injEq]
    constructor
    · funext i
      exact Tnum.merge_laws.keeps _ _ _ (hregs i)
    · funext i
      exact Tnum.merge_laws.keeps _ _ _ (hstack i)

/-- The final states absorb the initial state and everything an instruction sends. -/
theorem tnumStates_postFixpoint {insns : List EbpfInsn} {states : ℕ → Option VState}
    (h : tnumStates insns = .ok (some states)) :
    PostFixpoint merge (transfer insns) (0, .init) states := by
  refine solve_postFixpoint merge_laws _ ⟨?_, ?_⟩ h
  · exact ⟨.init, by simp, merge_laws.self _⟩
  · intro cur pre hcur
    left
    by_cases hzero : cur = 0
    · simp [hzero]
    · simp [update_of_ne hzero] at hcur

/-- Acceptance gives the final states. -/
theorem tnumVerify_states {insns : List EbpfInsn} (h : tnumVerify insns = .ok true) :
    ∃ states, tnumStates insns = .ok (some states) := by
  rw [tnumVerify] at h
  split at h
  · cases h
  obtain ⟨res, hres, h⟩ := Outcome.bind_eq_ok.1 h
  cases res with
  | none => cases h
  | some states => exact ⟨states, hres⟩

/-- In the final states of an accepted program, entry 0 absorbs the initial state, and every
successor has a state that absorbs what an instruction sends to it. -/
theorem tnumVerify_absorbs {insns : List EbpfInsn} (h : tnumVerify insns = .ok true) :
    ∃ states, tnumStates insns = .ok (some states) ∧
      (∃ first, states 0 = some first ∧ first.merge .init = first) ∧
      ∀ cur pre, states cur = some pre → ∃ outs, transfer insns cur pre = .ok (some outs) ∧
        ∀ p ∈ outs, ∃ post, states p.1 = some post ∧ post.merge p.2 = post := by
  obtain ⟨states, hstates⟩ := tnumVerify_states h
  obtain ⟨hentry, hstable⟩ := tnumStates_postFixpoint hstates
  exact ⟨states, hstates, hentry, hstable⟩

/-- `mov r0, 1`; a jump on `r0 = 0`; `mov r0, 7`; `exit`. -/
def branching : List EbpfInsn :=
  [⟨0xbf, 0, 0, 0, 1⟩, ⟨0x15, 0, 0, 1, 0⟩, ⟨0xbf, 0, 0, 0, 7⟩, ⟨0x95, 0, 0, 0, 0⟩]

theorem tnumVerify_absorbs_branching : tnumVerify branching = .ok true ∧
    ∃ states, tnumStates branching = .ok (some states) ∧
      ∃ first, states 0 = some first ∧ first.merge .init = first := by
  have haccepted : tnumVerify branching = .ok true := by decide +kernel
  exact ⟨haccepted, (tnumVerify_absorbs haccepted).imp fun _ h => ⟨h.1, h.2.1⟩⟩

/-! ### Totality -/

namespace VState

def setSlot (s : VState) (i : ℕ) (t : Tnum) : Outcome VState :=
  if h : i < 64 then .ok { s with stack := update s.stack ⟨i, h⟩ t } else .panic

def writeSlots (s : VState) (slot : ℕ) (t : Tnum) : ℕ → Outcome VState
  | 0 => .ok s
  | n + 1 => do
    let s ← s.writeSlots slot t n
    if slot + n < 64 then s.setSlot (slot + n) t else .ok s

theorem writeSlots_eq (s : VState) (slot : ℕ) (t : Tnum) (n : ℕ) :
    s.writeSlots slot t n = .ok { s with stack := fun j =>
      if slot ≤ j.val ∧ j.val < slot + n then t else s.stack j } := by
  induction n with
  | zero =>
    have hnone : ∀ j : Fin 64, ¬ (slot ≤ j.val ∧ j.val < slot + 0) := by omega
    simp only [writeSlots, if_neg (hnone _)]
  | succ n ih =>
    rw [writeSlots, ih, ok_bind]
    split
    · rename_i hlt
      rw [setSlot, dif_pos hlt]
      congr 2
      funext j
      by_cases hj : j = ⟨slot + n, hlt⟩
      · subst hj
        rw [update_self, if_pos (by simp only; omega)]
      · have hne : j.val ≠ slot + n := fun heq => hj (Fin.ext heq)
        rw [update_of_ne hj]
        exact if_congr (by omega) rfl rfl
    · congr 2
      funext j
      exact if_congr (by omega) rfl rfl

end VState

/-- The transfer returns, and sends to instructions of the program only. -/
def Sends (res : Outcome Sent) : Prop :=
  ∃ sent, res = .ok sent ∧ ∀ outs, sent = some outs → ∀ p ∈ outs, p.1 < insns.length

section Total

variable {insns : List EbpfInsn} {cur : ℕ} {insn : EbpfInsn} {pre : VState} {i : ℕ}

theorem sends_none : Sends insns (.ok none) := ⟨none, rfl, by simp⟩

theorem sends_sendTo (t : ℕ) (post : VState) : Sends insns (.ok (sendTo insns t post)) := by
  refine ⟨_, rfl, ?_⟩
  intro outs houts p hp
  rw [sendTo] at houts
  split at houts
  · cases houts
    obtain rfl := List.mem_singleton.1 hp
    assumption
  · cases houts
    cases hp

theorem VState.getReg_of_lt (h : i < 11) (s : VState) : s.getReg i = .ok (s.regs ⟨i, h⟩) :=
  dif_pos h

theorem VState.setReg_of_lt (h : i < 11) (s : VState) (t : Tnum) :
    s.setReg i t = .ok { s with regs := update s.regs ⟨i, h⟩ t } :=
  dif_pos h

variable (hdst : insn.dstReg.toNat < 11) (hsrc : insn.srcReg.toNat < 11)

include hdst hsrc

theorem sends_transferAlu : Sends insns (transferAlu insns cur insn pre) := by
  obtain ⟨t, ht⟩ : ∃ t, aluSrcTnum insn pre = .ok t := by
    rw [aluSrcTnum, getReg_of_lt hsrc]
    split
    all_goals exact ⟨_, rfl⟩
  simp only [transferAlu, ht, getReg_of_lt hdst, setReg_of_lt hdst, ok_bind]
  split
  · exact sends_none
  · exact sends_sendTo _ _

theorem sends_transferLdx : Sends insns (transferLdx insns cur insn pre) := by
  simp only [transferLdx, getReg_of_lt hsrc, setReg_of_lt hdst, ok_bind]
  split
  · exact sends_sendTo _ _
  · exact sends_none

omit hsrc in
theorem sends_transferStore (size : ℕ) (t : Tnum) :
    Sends insns (transferStore insns cur insn pre size (.ok t)) := by
  simp only [transferStore, getReg_of_lt hdst, ok_bind]
  split
  · exact sends_sendTo _ _
  · exact sends_none

theorem refineCond_returns (pre : VState) (taken is32 : Bool) :
    ∃ s, refineCond insn pre taken is32 = .ok s := by
  simp only [refineCond, getReg_of_lt hsrc, getReg_of_lt hdst,
    setReg_of_lt hdst, setReg_of_lt hsrc, ok_bind]
  repeat' split
  all_goals exact ⟨_, rfl⟩

theorem sends_transferJmp (pre : VState)
    (hnext : insn.jmpOp ≠ .ja → insn.jmpOp ≠ .exit → cur + 1 < insns.length) :
    Sends insns (transferJmp insns cur insn pre) := by
  obtain ⟨taken, htaken⟩ := refineCond_returns hdst hsrc pre true (insn.cls == .jmp32)
  obtain ⟨falls, hfalls⟩ := refineCond_returns hdst hsrc pre false (insn.cls == .jmp32)
  rw [transferJmp]
  split
  · refine ⟨_, rfl, ?_⟩
    split <;> simp
  · rw [transferCall]
    split
    all_goals first | exact sends_sendTo _ _ | exact sends_none
  · refine ⟨_, rfl, ?_⟩
    split
    · simp
    · simp_all
  · rename_i hexit _ hja
    split
    · exact sends_none
    rename_i htarget
    rw [htaken, ok_bind, hfalls]
    refine ⟨_, rfl, ?_⟩
    intro outs houts p hp
    cases houts
    rcases List.mem_cons.1 hp with rfl | hp
    · exact Nat.lt_of_not_le htarget
    · rw [List.mem_singleton.1 hp]
      exact hnext hja hexit

omit hsrc in
theorem sends_transferLd : Sends insns (transferLd insns cur insn pre) := by
  simp only [transferLd, setReg_of_lt hdst, ok_bind]
  split
  · split
    · exact sends_none
    · exact sends_sendTo _ _
  · exact sends_none

end Total

/-- A verified program keeps the analysis inside the program and the registers. -/
theorem closed_transfer {insns : List EbpfInsn} (h : verify insns = true) :
    Closed (transfer insns) (· < insns.length) := by
  intro cur pre hcur
  have hcheck := verify_checkInsn h hcur
  have hregs : (insnAt insns cur).dstReg.toNat < 11 ∧ (insnAt insns cur).srcReg.toNat < 11 := by
    simp only [checkInsn] at hcheck
    split at hcheck
    · cases hcheck
    · rename_i hle
      simp only [Bool.or_eq_true, decide_eq_true_eq, not_or] at hle
      omega
  obtain ⟨hdst, hsrc⟩ := hregs
  simp only [transfer, getElem?_eq_insnAt hcur]
  have hjmp (hj : (insnAt insns cur).isJmp = true) :=
    sends_transferJmp hdst hsrc pre (verify_jmp_next h hcur hj)
  split
  · exact sends_transferAlu hdst hsrc
  · exact sends_transferAlu hdst hsrc
  · exact sends_transferLdx hdst hsrc
  · exact sends_transferStore hdst _ _
  · rw [getReg_of_lt hsrc]
    exact sends_transferStore hdst _ _
  · rename_i hcls
    exact hjmp (by simp [EbpfInsn.isJmp, hcls])
  · rename_i hcls
    exact hjmp (by simp [EbpfInsn.isJmp, hcls])
  · exact sends_transferLd hdst

/-- On a verified program the analysis returns, queues instructions of the program only, and
its stores stay inside the tracked slots. -/
theorem tnumVerify_total {insns : List EbpfInsn} (h : verify insns = true) :
    (∃ accepted, tnumVerify insns = .ok accepted) ∧
    (∀ w, Loop merge (transfer insns)
        ⟨update (fun _ => none) 0 (some .init), [0]⟩ w →
      ∀ cur ∈ w.worklist, cur < insns.length) ∧
    ∀ (s : VState) (off : BitVec 64) (size : ℕ) (t : Tnum), off.toNat % 8 = 0 → size % 8 = 0 →
      s.writeSlots (off.toNat / 8) t (Nat.max 1 (size / 8)) = .ok (s.writeStack off size t) := by
  have hc := closed_transfer h
  have h₀ : ∀ c ∈ [0], c < insns.length := by simpa using (verify_length h).1
  refine ⟨?_, fun w hw => hc.loop h₀ hw, fun s off size t hoff hsize => ?_⟩
  on_goal 2 => rw [s.writeSlots_eq, writeStack, if_neg (by omega)]
  obtain ⟨res, hres⟩ : ∃ res, tnumStates insns = .ok res := hc.solve_returns _ h₀
  rw [tnumVerify, hres, ok_bind]
  repeat' split
  all_goals exact ⟨_, rfl⟩

theorem tnumVerify_total_branching : verify branching = true ∧
    ∃ accepted, tnumVerify branching = .ok accepted :=
  ⟨by decide, (tnumVerify_total (by decide)).1⟩

end Vahi.Ebpf
