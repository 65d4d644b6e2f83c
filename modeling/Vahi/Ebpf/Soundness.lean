import Vahi.Ebpf.TnumVerify

/-!
# The abstract verifier against the interpreter

Registers should lie in the tnums that `tnum_verify` recorded. The two disagree on taken jumps, the
refinement of `JNE`, the result of helper `4`, and the tnum operations `sub`, `and` and `neg`.
-/

namespace Vahi.Ebpf

open Vahi.Lib Function BitVec Tnum Outcome VState

/-! ### The low half -/

section LowHalf

theorem getLsbD_low (i : ℕ) : (0xFFFF_FFFF#64).getLsbD i = decide (i < 32) := by
  have heq : 0xFFFF_FFFF#64 = (BitVec.allOnes 32).setWidth 64 := by decide
  rw [heq, getLsbD_setWidth, getLsbD_allOnes]
  by_cases hi : i < 32
  · simp [hi, show i < 64 by omega]
  · simp [hi]

variable {x y : BitVec 64} {i : ℕ} {t : Tnum}

theorem getLsbD_of_low_eq (h : x.setWidth 32 = y.setWidth 32)
    (hi : i < 32) : x.getLsbD i = y.getLsbD i := by
  have hbit := congrArg (·.getLsbD i) h
  simpa only [getLsbD_setWidth, hi, decide_true, Bool.true_and] using hbit

theorem narrow_low (z : BitVec 64) : (narrow z).setWidth 32 = z.setWidth 32 :=
  setWidth_signExtend _

/-- The mask of both 32-bit cuts leaves only low bits known. -/
theorem cut_mask_false {m : BitVec 64} (hi : i < 64) :
    ((m &&& 0xFFFF_FFFF#64) ||| ~~~0xFFFF_FFFF#64).getLsbD i = false ↔
      i < 32 ∧ m.getLsbD i = false := by
  rw [getLsbD_or, getLsbD_and, getLsbD_not, getLsbD_low]
  by_cases hlow : i < 32 <;> simp [hi, hlow]

theorem contains_mask32 (h : t.Contains x)
    (hlow : y.setWidth 32 = x.setWidth 32) : (mask32 t).Contains y := by
  rw [Tnum.Contains, agreeOff_iff]
  intro i hi hm
  obtain ⟨hlt, hmask⟩ := (cut_mask_false hi).1 hm
  rw [getLsbD_of_low_eq hlow hlt, AgreeOff.bit h hi hmask, mask32, getLsbD_and, getLsbD_low]
  simp [hlt]

theorem contains_cut32 (h : t.Contains x)
    (hlow : y.setWidth 32 = x.setWidth 32) : (cut32 t).Contains y := by
  rw [Tnum.Contains, agreeOff_iff]
  intro i hi hm
  obtain ⟨hlt, hmask⟩ := (cut_mask_false hi).1 hm
  rw [getLsbD_of_low_eq hlow hlt, AgreeOff.bit h hi hmask, cut32, getLsbD_and,
    getLsbD_and, getLsbD_not, getLsbD_low, hmask]
  simp [hlt, hi]

theorem valid_mask32 (h : t.Valid) : (mask32 t).Valid := by
  rw [valid_iff] at h ⊢
  intro i hi hv
  simp only [mask32, getLsbD_and, getLsbD_low, Bool.and_eq_true, decide_eq_true_eq] at hv
  exact (cut_mask_false hi).2 ⟨hv.2, h i hi hv.1⟩

theorem valid_cut32 (t : Tnum) : (cut32 t).Valid := by
  rw [valid_iff]
  intro i hi hv
  simp only [cut32, getLsbD_and, getLsbD_not, getLsbD_low, Bool.and_eq_true,
    decide_eq_true_eq, Bool.not_eq_true'] at hv
  exact (cut_mask_false hi).2 ⟨hv.1.2, hv.2.2⟩

end LowHalf

/-! ### ALU operations -/

/-- The operands for which every tnum operation over-approximates: nothing is
subtracted or negated, and `AND` meets no common bit. -/
def OperandsOk (op : AluOp) (x y : BitVec 64) : Prop :=
  match op with
  | .sub => y = 0#64
  | .and => x &&& y = 0#64
  | .neg => x = 0#64
  | _ => True

section Alu

variable {a b : Tnum} {x y z : BitVec 64} {op : AluOp}

theorem aluOpWide_contains (hx : a.Contains x) (hy : b.Contains y) (ha : a.Valid)
    (hb : b.Valid) (hok : OperandsOk op x y) (hres : aluResult op x y = .ok z) :
    (aluOpWide op a b).Contains z := by
  cases op with
  | add => cases hres; exact hx.add hy ha hb
  | sub =>
    cases hres
    obtain rfl : y = 0#64 := hok
    exact hx.sub_zero hy hb
  | mul => cases hres; exact hx.mul hy
  | or => cases hres; exact hx.or hy
  | and => cases hres; exact hx.and hy ha hb hok
  | lsh => cases hres; exact hx.shl hy
  | rsh => cases hres; exact hx.lshr hy
  | neg =>
    cases hres
    obtain rfl : x = 0#64 := hok
    exact hx.neg_zero ha
  | xor => cases hres; exact hx.xor hy
  | mov => cases hres; exact hy
  | arsh => exact contains_ashr _
  | div | mod | undefined => exact contains_any _

def low (x : BitVec 64) : BitVec 64 := (x.setWidth 32).setWidth 64

theorem low_low (x : BitVec 64) : (low x).setWidth 32 = x.setWidth 32 := by
  rw [low, setWidth_setWidth_of_le _ (by decide), setWidth_setWidth_of_le _ (by decide)]

theorem and_low (x y : BitVec 64) : x &&& low y = low x &&& low y := by
  apply eq_of_getLsbD_eq
  intro i hi
  simp only [low, getLsbD_and, getLsbD_setWidth, hi, decide_true, Bool.true_and]
  by_cases hlow : i < 32 <;> simp [hlow]

/-- The interpreter computes on whole registers and cuts the result; the
analysis computes on what is known of the low halves. -/
theorem aluOp32_contains (hx : a.Contains x) (hy : b.Contains (low y))
    (ha : a.Valid) (hb : b.Valid) (hok : OperandsOk op (low x) (low y))
    (hres : aluResult op x y = .ok z) :
    (cut32 (aluOpWide op (mask32 a) b)).Contains (narrow z) := by
  have hx' : (mask32 a).Contains x := contains_mask32 hx rfl
  have hva := valid_mask32 ha
  -- it is enough to treat a result with the same low half
  have hcut : ∀ z', (aluOpWide op (mask32 a) b).Contains z' →
      z.setWidth 32 = z'.setWidth 32 →
      (cut32 (aluOpWide op (mask32 a) b)).Contains (narrow z) := by
    intro z' hz' hlow
    exact contains_cut32 hz' ((narrow_low z).trans hlow)
  have hshift : ((low y).setWidth 32).toNat % 64 = (y.setWidth 32).toNat % 64 := by rw [low_low]
  cases op with
  | add =>
    cases hres
    refine hcut (x + low y) (hx'.add hy hva hb) ?_
    rw [BitVec.setWidth_add _ _ (by decide), BitVec.setWidth_add _ _ (by decide), low_low]
  | sub =>
    cases hres
    have hzero : low y = 0#64 := hok
    refine hcut (x - 0#64) (hx'.sub_zero (hzero ▸ hy) hb) ?_
    have hy0 : y.setWidth 32 = 0#32 := by rw [← low_low, hzero]; rfl
    rw [BitVec.sub_zero, BitVec.sub_eq_add_neg, BitVec.setWidth_add _ _ (by decide),
      BitVec.setWidth_neg_of_le (by decide), hy0, BitVec.neg_zero, BitVec.add_zero]
  | mul =>
    cases hres
    refine hcut (x * low y) (hx'.mul hy) ?_
    rw [setWidth_mul _ _ (by decide), setWidth_mul _ _ (by decide), low_low]
  | or =>
    cases hres
    refine hcut (x ||| low y) (hx'.or hy) ?_
    rw [setWidth_or, setWidth_or, low_low]
  | and =>
    cases hres
    have hzero : x &&& low y = 0#64 := by rw [and_low]; exact hok
    refine hcut (x &&& low y) (hx'.and hy hva hb hzero) ?_
    rw [setWidth_and, setWidth_and, low_low]
  | lsh =>
    cases hres
    exact hcut _ (hx'.shl hy) (by rw [hshift])
  | rsh =>
    cases hres
    exact hcut _ (hx'.lshr hy) (by rw [hshift])
  | neg =>
    cases hres
    have hzero : low x = 0#64 := hok
    have hcontains : (mask32 a).Contains 0#64 := hzero ▸ contains_mask32 hx (low_low x)
    refine hcut _ (hcontains.neg_zero hva) ?_
    have hx0 : x.setWidth 32 = 0#32 := by rw [← low_low, hzero]; rfl
    rw [BitVec.setWidth_neg_of_le (by decide), hx0]
    rfl
  | xor =>
    cases hres
    refine hcut (x ^^^ low y) (hx'.xor hy) ?_
    rw [setWidth_xor, setWidth_xor, low_low]
  | mov =>
    cases hres
    exact hcut _ hy (low_low y).symm
  | arsh => exact hcut z (contains_ashr _) rfl
  | div | mod | undefined => exact hcut z (contains_any _) rfl

theorem aluOpWide_valid (ha : a.Valid) (hb : b.Valid) (hneg : op ≠ .neg)
    (harsh : op ≠ .arsh) : (aluOpWide op a b).Valid := by
  cases op with
  | add => exact valid_add
  | sub => exact valid_sub
  | mul => exact valid_mul
  | or => exact valid_or
  | and => exact valid_and ha hb
  | lsh => exact valid_shl ha
  | rsh => exact valid_lshr ha
  | neg => exact absurd rfl hneg
  | xor => exact valid_xor
  | mov => exact hb
  | arsh => exact absurd rfl harsh
  | div | mod | undefined => exact valid_any

end Alu

/-! ### States -/

namespace VState

def Contains (st : VState) (regs : EbpfRegs) : Prop :=
  ∀ i, (st.regs i).Contains (regs i)

def Valid (st : VState) : Prop := ∀ i, (st.regs i).Valid

variable {st st' : VState} {regs : EbpfRegs} {i : ℕ} {t : Tnum}

theorem init_contains (h : regs 10 = BitVec.ofNat 64 stackSize) : init.Contains regs :=
  (forall_update_iff _ fun (i : Fin 11) (t : Tnum) => t.Contains (regs i)).mpr
    ⟨contains_exact.2 h, fun _ _ => contains_any _⟩

theorem init_valid : init.Valid :=
  (forall_update_iff _ fun (_ : Fin 11) (t : Tnum) => t.Valid).mpr
    ⟨valid_exact _, fun _ _ => valid_any⟩

theorem merge_valid (h : st.Valid) (h' : st'.Valid) : (st.merge st').Valid :=
  fun i => valid_merge (h i) (h' i)

/-- A state that absorbs another one contains what the other one contains. -/
theorem contains_of_absorbs (h : st'.Contains regs) (habs : st.merge st' = st) :
    st.Contains regs := by
  intro i
  rw [← habs]
  exact (h i).merge_right _

theorem getReg_spec (regs : EbpfRegs) (hget : st.getReg i = .ok t) :
    (st.Contains regs → t.Contains (regs.r i)) ∧ (st.Valid → t.Valid) := by
  rw [getReg] at hget
  by_cases hi : i < 11
  · rw [dif_pos hi] at hget
    cases hget
    refine ⟨fun h => ?_, fun h => h _⟩
    rw [EbpfRegs.r, dif_pos hi]
    exact h _
  · rw [dif_neg hi] at hget
    cases hget

section

variable (hset : st.setReg i t = .ok st')

include hset

theorem setReg_eq_ok :
    ∃ hi : i < 11, st'.regs = update st.regs ⟨i, hi⟩ t := by
  rw [setReg] at hset
  by_cases hi : i < 11
  · rw [dif_pos hi] at hset
    cases hset
    exact ⟨hi, rfl⟩
  · rw [dif_neg hi] at hset
    cases hset

theorem setReg_contains (h : st.Contains regs)
    {v : BitVec 64} (hv : t.Contains v) : st'.Contains (regs.setR i v) := by
  obtain ⟨hi, hregs⟩ := setReg_eq_ok hset
  rw [EbpfRegs.setR, dif_pos hi]
  intro j
  rw [hregs]
  by_cases hj : j = ⟨i, hi⟩
  · subst hj
    simpa only [update_self] using hv
  · simpa only [update_of_ne hj] using h j

omit hset in
theorem setR_self (regs : EbpfRegs) (i : ℕ) : regs.setR i (regs.r i) = regs := by
  rw [EbpfRegs.setR, EbpfRegs.r]
  by_cases hi : i < 11
  · rw [dif_pos hi, dif_pos hi, update_eq_self]
  · rw [dif_neg hi]

/-- Learning more about a register that does not change. -/
theorem setReg_refines (h : st.Contains regs) (hv : t.Contains (regs.r i)) : st'.Contains regs := by
  have hcontains := setReg_contains hset h hv
  rwa [setR_self] at hcontains

theorem setReg_valid (h : st.Valid) (ht : t.Valid) :
    st'.Valid := by
  obtain ⟨hi, hregs⟩ := setReg_eq_ok hset
  rw [Valid, hregs]
  exact (forall_update_iff st.regs fun _ t => t.Valid).mpr ⟨ht, fun j _ => h j⟩

end

theorem writeStack_regs (st : VState) (off : BitVec 64) (size : ℕ) (t : Tnum) :
    (st.writeStack off size t).regs = st.regs := by
  rw [writeStack]
  split
  · rfl
  · rfl

end VState

theorem valid_of_sendTo {insns : List EbpfInsn} {t : ℕ} {post : VState} {outs : List (ℕ × VState)}
    (h : Outcome.ok (sendTo insns t post) = .ok (some outs)) (hval : post.Valid) :
    ∀ p ∈ outs, p.2.Valid := by
  rw [sendTo] at h
  split at h
  · cases h
    exact List.forall_mem_singleton.2 hval
  · cases h
    exact List.forall_mem_nil _

/-! ### One step -/

namespace EbpfInsn

/-- The operands of an ALU instruction, as wide as the instruction uses them,
are ones for which its tnum operation over-approximates. -/
def operandsOk (insn : EbpfInsn) (regs : EbpfRegs) : Prop :=
  if insn.cls = .alu64 then
    OperandsOk insn.aluOp (regs.r insn.dstReg.toNat) (insn.aluSrc regs)
  else OperandsOk insn.aluOp (low (regs.r insn.dstReg.toNat)) (low (insn.aluSrc regs))

/-- What the analysis concludes when it follows `JNE` to the next instruction:
the whole destination register equals the immediate or the source register. -/
def jneHolds (insn : EbpfInsn) (regs : EbpfRegs) : Prop :=
  if insn.useImm then
    regs.r insn.dstReg.toNat =
      if insn.cls = .jmp32 then insn.imm.setWidth 64 else insn.imm.signExtend 64
  else insn.srcReg ≠ insn.dstReg → regs.r insn.dstReg.toNat = regs.r insn.srcReg.toNat

end EbpfInsn

open EbpfInsn

/-- The condition on a step under which the analysis follows the interpreter. -/
structure TnumStepOk (insns : List EbpfInsn) (s : VmState) : Prop where
  alu : (insnAt insns s.pc).isAlu = true → (insnAt insns s.pc).operandsOk s.regs
  jump : (insnAt insns s.pc).isJmp = true → (insnAt insns s.pc).taken s.regs = true →
    (insnAt insns s.pc).jmpOp ≠ .ja ∧ (insnAt insns s.pc).off = 1#16
  jne : (insnAt insns s.pc).isJmp = true → (insnAt insns s.pc).jmpOp = .jne →
    (insnAt insns s.pc).jneHolds s.regs
  call : (insnAt insns s.pc).isJmp = true → (insnAt insns s.pc).jmpOp = .call →
    (insnAt insns s.pc).imm = 4#32 → s.regs.r 0 = 0#64

/-- The program has no 64-bit `NEG` or `ARSH`, the operations that can make a
tnum whose value overlaps its mask. -/
def NoWideNegArsh (insns : List EbpfInsn) : Prop :=
  ∀ insn ∈ insns, insn.cls = .alu64 → insn.aluOp ≠ .neg ∧ insn.aluOp ≠ .arsh

instance (insns : List EbpfInsn) : Decidable (NoWideNegArsh insns) :=
  inferInstanceAs (Decidable (∀ insn ∈ insns, _))

def Covered (outs : List (ℕ × VState)) (s' : VmState) : Prop :=
  ∃ post, (s'.pc, post) ∈ outs ∧ post.Contains s'.regs

section Covers

variable {insns : List EbpfInsn} {insn : EbpfInsn} {s s' : VmState} {pre : VState}
  {outs : List (ℕ × VState)} {accesses : List Access}

theorem covered_of_sendTo {post : VState}
    (h : Outcome.ok (sendTo insns s'.pc post) = .ok (some outs)) (hlt : s'.pc < insns.length)
    (hpost : post.Contains s'.regs) : Covered outs s' := by
  rw [sendTo, if_pos hlt] at h
  cases h
  exact ⟨post, List.mem_singleton_self _, hpost⟩

theorem aluSrcTnum_spec {t : Tnum} (h : aluSrcTnum insn pre = .ok t) (hval : pre.Valid) :
    t.Valid ∧ ∀ regs : EbpfRegs, pre.Contains regs →
      t.Contains (if insn.cls = .alu64 then insn.aluSrc regs else low (insn.aluSrc regs)) := by
  rw [aluSrcTnum] at h
  simp only [aluSrc]
  by_cases himm : insn.useImm = true
  · rw [if_pos himm] at h
    cases h
    refine ⟨valid_exact _, fun regs _ => contains_exact.2 ?_⟩
    rw [if_pos himm]
    split
    · rfl
    · rw [low, setWidth_signExtend]
  · rw [if_neg himm] at h
    obtain ⟨u, hu, h⟩ := bind_eq_ok.1 h
    have hget := fun regs => getReg_spec regs hu
    have hvalid := (hget fun _ => 0).2 hval
    cases h
    simp only [himm]
    split
    · exact ⟨hvalid, fun regs => (hget regs).1⟩
    · exact ⟨valid_mask32 hvalid, fun regs h => contains_mask32 ((hget regs).1 h) (low_low _)⟩

variable {env : HelperEnv} {regs : EbpfRegs} {mem : Memory}

/-- Helpers `1` to `3` write only the result register, helper `4` writes none. -/
theorem callHelper_regs {imm : BitVec 32} {regs' : EbpfRegs}
    {mem' : Memory} (h₁ : 1 ≤ imm.toInt) (h₄ : imm.toInt ≤ 4)
    (h : callHelper env imm regs mem = .ok (some (regs', mem', accesses))) :
    ((imm.toNat = 1 ∨ imm.toNat = 2 ∨ imm.toNat = 3) ∧ ∃ v, regs' = regs.setR 0 v) ∨
      imm.toNat = 4 ∧ regs' = regs := by
  rcases helper_toNat h₁ h₄ with hn | hn | hn | hn
  all_goals
    simp only [callHelper, hn] at h
    cases h
  · exact Or.inl ⟨Or.inl hn, _, rfl⟩
  · exact Or.inl ⟨Or.inr (Or.inl hn), _, rfl⟩
  · exact Or.inl ⟨Or.inr (Or.inr hn), _, rfl⟩
  · exact Or.inr ⟨hn, rfl⟩

variable (hpre : pre.Contains s.regs) (hlt : s'.pc < insns.length)

include hpre hlt

theorem transferAlu_covers (htr : transferAlu insns s.pc insn pre = .ok (some outs))
    (hval : pre.Valid) (hok : insn.operandsOk s.regs)
    (hstep : stepAlu insn s = .ok ⟨.running s', accesses⟩) : Covered outs s' := by
  obtain ⟨z, hres, hstep⟩ := bind_eq_ok.1 hstep
  obtain ⟨rfl, -⟩ := hstep
  obtain ⟨src, hsrc, htr⟩ := bind_eq_ok.1 htr
  obtain ⟨dst, hdst, htr⟩ := bind_eq_ok.1 htr
  obtain ⟨hsv, hsrc⟩ := aluSrcTnum_spec hsrc hval
  have hsc := hsrc s.regs hpre
  obtain ⟨hdc, hdv⟩ := getReg_spec s.regs hdst
  simp only at htr
  split at htr
  · cases htr
  obtain ⟨post, hset, htr⟩ := bind_eq_ok.1 htr
  refine covered_of_sendTo htr hlt (setReg_contains hset hpre ?_)
  rw [aluOpTnum]
  rw [operandsOk] at hok
  by_cases hcls : insn.cls = .alu64
  · rw [if_pos hcls] at hsc hok
    simp only [hcls, bne_self_eq_false, Bool.false_eq_true, if_false, if_true]
    exact aluOpWide_contains (hdc hpre) hsc (hdv hval) hsv hok hres
  rw [if_neg hcls] at hsc hok
  have hne : (insn.cls != .alu64) = true := by simp [hcls]
  rw [if_neg hcls, if_neg hcls, if_pos hne]
  exact aluOp32_contains (hdc hpre) hsc (hdv hval) hsv hok hres

theorem transferLdx_covers (htr : transferLdx insns s.pc insn pre = .ok (some outs))
    (hstep : stepLdx insn s = ⟨.running s', accesses⟩) : Covered outs s' := by
  obtain ⟨base, hbase, htr⟩ := bind_eq_ok.1 htr
  split at htr
  · obtain ⟨post, hset, htr⟩ := bind_eq_ok.1 htr
    rw [stepLdx] at hstep
    -- the destination is unknown afterwards, whether or not the load was skipped
    split at hstep
    · cases hstep
      exact covered_of_sendTo htr hlt (setReg_contains hset hpre (contains_any _))
    · cases hstep
      exact covered_of_sendTo htr hlt (setReg_refines hset hpre (contains_any _))
  · cases htr

theorem transferStore_covers {size size' : ℕ} {val : Outcome Tnum} {v : BitVec 64}
    (htr : transferStore insns s.pc insn pre size val = .ok (some outs))
    (hstep : stepStore insn size' v s = ⟨.running s', accesses⟩) : Covered outs s' := by
  obtain ⟨base, hbase, htr⟩ := bind_eq_ok.1 htr
  split at htr
  · obtain ⟨t, ht, htr⟩ := bind_eq_ok.1 htr
    have hpost : ∀ off t, (pre.writeStack off size t).Contains s.regs := by
      intro off t
      rw [VState.Contains, writeStack_regs]
      exact hpre
    rw [stepStore] at hstep
    split at hstep
    all_goals
      cases hstep
      exact covered_of_sendTo htr hlt (hpost _ _)
  · cases htr

theorem transferLd_covers (htr : transferLd insns s.pc insn pre = .ok (some outs))
    (hstep : stepLd insns insn s = ⟨.running s', accesses⟩) : Covered outs s' := by
  rw [transferLd] at htr
  split at htr
  · rename_i hwide
    split at htr
    · cases htr
    rename_i hnext
    obtain ⟨post, hset, htr⟩ := bind_eq_ok.1 htr
    rw [stepLd, if_pos hwide] at hstep
    cases hstep
    exact covered_of_sendTo htr hlt (setReg_contains hset hpre (contains_exact.2 rfl))
  · cases htr

omit hlt in
theorem transferCall_covers (htr : transferCall insns s.pc insn pre = .ok (some outs))
    (h₁ : 1 ≤ insn.imm.toInt) (h₄ : insn.imm.toInt ≤ 4)
    (hok : insn.imm = 4#32 → s.regs.r 0 = 0#64)
    (hres : callHelper env insn.imm s.regs s.mem = .ok (some (regs, mem, accesses)))
    (hlt : s.pc + 1 < insns.length) : Covered outs ⟨s.pc + 1, regs, mem⟩ := by
  -- the clobbered state contains the registers when `r0` lies in its new tnum
  have hclobber : ∀ r0 : Tnum, r0.Contains (regs 0) → (∀ i : Fin 11, i ≠ 0 → regs i = s.regs i) →
      (⟨fun i => if i = 0 then r0 else if i.val ≤ 5 then .any else pre.regs i,
        pre.stack⟩ : VState).Contains regs := by
    intro r0 hr0 hsame i
    by_cases hi : i = 0
    · subst hi
      simpa using hr0
    simp only [if_neg hi]
    split
    · exact contains_any _
    · rw [hsame i hi]
      exact hpre i
  rcases callHelper_regs h₁ h₄ hres with ⟨hn, v, rfl⟩ | ⟨hn, rfl⟩
  · have hsame : ∀ i : Fin 11, i ≠ 0 → (s.regs.setR 0 v) i = s.regs i := by
      intro i hi
      exact update_of_ne hi _ _
    rcases hn with hn | hn | hn
    all_goals
      simp only [transferCall, hn] at htr
      exact covered_of_sendTo htr hlt (hclobber _ (contains_any _) hsame)
  · simp only [transferCall, hn] at htr
    refine covered_of_sendTo htr hlt (hclobber _ (contains_exact.2 ?_) fun _ _ => rfl)
    exact hok (eq_of_toNat_eq hn)

omit hlt in
/-- What the analysis learns in the direction to the next instruction is only
ever learnt from `JNE`. -/
theorem refineCond_contains {st : VState}
    (h : refineCond insn pre false (insn.cls == .jmp32) = .ok st)
    (hval : pre.Valid) (hjne : insn.jmpOp = .jne → insn.jneHolds s.regs) :
    st.Contains s.regs := by
  simp only [refineCond, Bool.and_false, Bool.not_false, Bool.and_true, Bool.false_or] at h
  split at h
  · rename_i hcond
    simp only [Bool.and_eq_true, beq_iff_eq] at hcond
    have hold := hjne hcond.2
    rw [jneHolds, if_pos hcond.1] at hold
    refine setReg_refines h hpre (contains_exact.2 ?_)
    simpa using hold
  · rename_i himm
    split at h
    · rename_i hcond
      simp only [Bool.and_eq_true, Bool.not_eq_true', beq_iff_eq, bne_iff_ne, ne_eq] at hcond
      obtain ⟨⟨hreg, hop⟩, hne⟩ := hcond
      have hold := hjne hop
      rw [jneHolds, if_neg (by simp [hreg])] at hold
      obtain ⟨src, hsrc, h⟩ := bind_eq_ok.1 h
      obtain ⟨dst, hdst, h⟩ := bind_eq_ok.1 h
      obtain ⟨mid, hmid, h⟩ := bind_eq_ok.1 h
      obtain ⟨hsc, hsv⟩ := getReg_spec s.regs hsrc
      obtain ⟨hdc, hdv⟩ := getReg_spec s.regs hdst
      have heq := hold hne
      have hinter : (dst.intersect src).Contains (s.regs.r insn.srcReg.toNat) :=
        (heq ▸ hdc hpre).intersect (hsc hpre) (hdv hval) (hsv hval)
      exact setReg_refines h (setReg_refines hmid hpre (heq ▸ hinter)) hinter
    · cases h
      exact hpre

theorem transferJmp_covers {r : Outcome Transition}
    (hstep : JmpStep env insn s r) (hr : r = .ok ⟨.running s', accesses⟩)
    (htr : transferJmp insns s.pc insn pre = .ok (some outs))
    (hval : pre.Valid) (hpc : s.pc < 4096)
    (hcall : insn.jmpOp = .call → 1 ≤ insn.imm.toInt ∧ insn.imm.toInt ≤ 4)
    (hjump : insn.taken s.regs = true → insn.jmpOp ≠ .ja ∧ insn.off = 1#16)
    (hjne : insn.jmpOp = .jne → insn.jneHolds s.regs)
    (hprint : insn.jmpOp = .call → insn.imm = 4#32 → s.regs.r 0 = 0#64) :
    Covered outs s' := by
  -- every conditional jump sends the refined state to the next instruction
  have hbranch : insn.jmpOp ≠ .exit → insn.jmpOp ≠ .call → insn.jmpOp ≠ .ja →
      s'.pc = s.pc + 1 → s'.regs = s.regs → Covered outs s' := by
    intro hexit hcall hja hpc' hregs
    simp only [transferJmp] at htr
    split at htr
    · cases htr
    obtain ⟨taken, htaken, htr⟩ := bind_eq_ok.1 htr
    obtain ⟨fallthru, hfall, htr⟩ := bind_eq_ok.1 htr
    cases htr
    refine ⟨fallthru, by simp [hpc'], ?_⟩
    rw [hregs]
    exact refineCond_contains hpre hfall hval hjne
  cases hstep with
  | exit hop => cases hr
  | call hop hres =>
    cases hr
    simp only [transferJmp, hop] at htr
    exact transferCall_covers hpre htr (hcall hop).1 (hcall hop).2 (hprint hop) hres hlt
  | falls hexit hcall htaken =>
    cases hr
    have hja : insn.jmpOp ≠ .ja := by
      intro hop
      simp [taken, hop] at htaken
    exact hbranch hexit hcall hja rfl rfl
  | stops hexit htaken hoff => cases hr
  | jumps hexit htaken hoff =>
    cases hr
    have hncall : insn.jmpOp ≠ .call := by
      intro hop
      simp [taken, hop] at htaken
    obtain ⟨hja, hone⟩ := hjump htaken
    exact hbranch hexit hncall hja ((jumpTo_eq_succ_iff hpc _).2 hone) rfl

/-- The transfer function over-approximates a step that meets the condition. -/
theorem transfer_covers (h : verify insns = true) (hpc : s.pc < insns.length)
    (htr : transfer insns s.pc pre = .ok (some outs)) (hval : pre.Valid) (hok : TnumStepOk insns s)
    (hnext : next insns env s = some s') : Covered outs s' := by
  obtain ⟨accesses, hstep⟩ := next_eq_some.1 hnext
  have hcheck := verify_checkInsn h hpc
  have hlen := (verify_length h).2
  simp only [transfer, getElem?_eq_insnAt hpc] at htr
  have hjmp : (insnAt insns s.pc).isJmp = true →
      transferJmp insns s.pc (insnAt insns s.pc) pre = .ok (some outs) → Covered outs s' := by
    intro hjmp htr
    exact transferJmp_covers hpre hlt (step_jmp env hpc hcheck hjmp) hstep htr hval (by omega)
      (checkInsn_call hcheck hjmp) (hok.jump hjmp) (hok.jne hjmp) (hok.call hjmp)
  rw [step_eq hpc, stepInsn] at hstep
  cases hcls : (insnAt insns s.pc).cls with
  | alu | alu64 =>
    simp only [hcls] at htr hstep
    exact transferAlu_covers hpre hlt htr hval (hok.alu (by simp [isAlu, hcls])) hstep
  | jmp | jmp32 =>
    simp only [hcls] at htr
    exact hjmp (by simp [isJmp, hcls]) htr
  | ld =>
    simp only [hcls] at htr hstep
    exact transferLd_covers hpre hlt htr (Outcome.ok.inj hstep)
  | ldx =>
    simp only [hcls] at htr hstep
    exact transferLdx_covers hpre hlt htr (Outcome.ok.inj hstep)
  | st | stx =>
    simp only [hcls] at htr hstep
    exact transferStore_covers hpre hlt htr (Outcome.ok.inj hstep)

end Covers

/-! ### Validity of the recorded states -/

section Validity

variable {insns : List EbpfInsn} {insn : EbpfInsn} {cur : ℕ} {pre : VState}
  {outs : List (ℕ × VState)} (hval : pre.Valid)

include hval

theorem transferAlu_valid (htr : transferAlu insns cur insn pre = .ok (some outs))
    (hop : insn.cls = .alu64 → insn.aluOp ≠ .neg ∧ insn.aluOp ≠ .arsh) :
    ∀ p ∈ outs, p.2.Valid := by
  obtain ⟨src, hsrc, htr⟩ := bind_eq_ok.1 htr
  obtain ⟨dst, hdst, htr⟩ := bind_eq_ok.1 htr
  have hdv := (getReg_spec (fun _ => 0) hdst).2 hval
  have hsv := (aluSrcTnum_spec hsrc hval).1
  simp only at htr
  split at htr
  · cases htr
  obtain ⟨post, hset, htr⟩ := bind_eq_ok.1 htr
  refine valid_of_sendTo htr (setReg_valid hset hval ?_)
  rw [aluOpTnum]
  split
  · exact valid_cut32 _
  rename_i hcls
  have hcls' : insn.cls = .alu64 := by simpa using hcls
  rw [if_pos hcls']
  exact aluOpWide_valid hdv hsv (hop hcls').1 (hop hcls').2

theorem refineCond_valid {taken is32 : Bool} {st : VState}
    (h : refineCond insn pre taken is32 = .ok st) : st.Valid := by
  simp only [refineCond] at h
  split at h
  · exact setReg_valid h hval (valid_exact _)
  split at h
  · obtain ⟨src, hsrc, h⟩ := bind_eq_ok.1 h
    obtain ⟨dst, hdst, h⟩ := bind_eq_ok.1 h
    obtain ⟨mid, hmid, h⟩ := bind_eq_ok.1 h
    exact setReg_valid h (setReg_valid hmid hval valid_intersect)
      valid_intersect
  · cases h
    exact hval

theorem transferCall_valid (htr : transferCall insns cur insn pre = .ok (some outs)) :
    ∀ p ∈ outs, p.2.Valid := by
  have hclobber : ∀ r0 : Tnum, r0.Valid →
      (⟨fun i => if i = 0 then r0 else if i.val ≤ 5 then .any else pre.regs i,
        pre.stack⟩ : VState).Valid := by
    intro r0 hr0 i
    simp only
    split
    · exact hr0
    · split
      · exact valid_any
      · exact hval i
  simp only [transferCall] at htr
  split at htr
  · exact valid_of_sendTo htr (hclobber _ valid_any)
  · exact valid_of_sendTo htr (hclobber _ valid_any)
  · exact valid_of_sendTo htr (hclobber _ valid_any)
  · exact valid_of_sendTo htr (hclobber _ (valid_exact _))
  · cases htr

theorem transferJmp_valid (htr : transferJmp insns cur insn pre = .ok (some outs)) :
    ∀ p ∈ outs, p.2.Valid := by
  simp only [transferJmp] at htr
  split at htr
  · split at htr
    · cases htr
    · cases htr
      simp
  · exact transferCall_valid hval htr
  · split at htr
    · cases htr
    · cases htr
      exact List.forall_mem_singleton.2 hval
  · split at htr
    · cases htr
    · obtain ⟨taken, htaken, htr⟩ := bind_eq_ok.1 htr
      obtain ⟨fallthru, hfall, htr⟩ := bind_eq_ok.1 htr
      cases htr
      exact List.forall_mem_cons.2
        ⟨refineCond_valid hval htaken, List.forall_mem_singleton.2 (refineCond_valid hval hfall)⟩

theorem transferStore_valid {size : ℕ} {val : Outcome Tnum}
    (htr : transferStore insns cur insn pre size val = .ok (some outs)) :
    ∀ p ∈ outs, p.2.Valid := by
  obtain ⟨base, hbase, htr⟩ := bind_eq_ok.1 htr
  split at htr
  · obtain ⟨t, ht, htr⟩ := bind_eq_ok.1 htr
    refine valid_of_sendTo htr ?_
    rw [VState.Valid, writeStack_regs]
    exact hval
  · cases htr

/-- Apart from 64-bit `NEG` and `ARSH`, an instruction sends valid tnums on. -/
theorem transfer_valid (hprog : NoWideNegArsh insns)
    (htr : transfer insns cur pre = .ok (some outs)) : ∀ p ∈ outs, p.2.Valid := by
  rw [transfer] at htr
  cases hget : insns[cur]? with
  | none =>
    rw [hget] at htr
    cases htr
  | some insn =>
    rw [hget] at htr
    have hop := hprog insn (List.mem_of_getElem? hget)
    simp only at htr
    split at htr
    · exact transferAlu_valid hval htr hop
    · exact transferAlu_valid hval htr hop
    · obtain ⟨base, hbase, htr⟩ := bind_eq_ok.1 htr
      split at htr
      · obtain ⟨post, hset, htr⟩ := bind_eq_ok.1 htr
        exact valid_of_sendTo htr (setReg_valid hset hval valid_any)
      · cases htr
    · exact transferStore_valid hval htr
    · exact transferStore_valid hval htr
    · exact transferJmp_valid hval htr
    · exact transferJmp_valid hval htr
    · rw [transferLd] at htr
      split at htr
      · split at htr
        · cases htr
        · obtain ⟨post, hset, htr⟩ := bind_eq_ok.1 htr
          exact valid_of_sendTo htr (setReg_valid hset hval (valid_exact _))
      · cases htr

omit hval in
theorem tnumStates_valid {states : ℕ → Option VState} (hprog : NoWideNegArsh insns)
    (h : tnumStates insns = .ok (some states)) : ∀ c st, states c = some st → st.Valid := by
  refine solve_forall (fun _ _ => merge_valid) ?_ _ ?_ h
  · intro cur pre outs hpre htr
    exact transfer_valid hpre hprog htr
  · intro c st hc
    by_cases hzero : c = 0
    · obtain rfl : VState.init = st := by simpa [hzero] using hc
      exact init_valid
    · simp [update_of_ne hzero] at hc

end Validity

/-! ### Runs -/

/-- About to execute an instruction, every register lies in its recorded tnum. -/
def TnumSound (insns : List EbpfInsn) (states : ℕ → Option VState) (s : VmState) : Prop :=
  s.pc < insns.length → ∃ st, states s.pc = some st ∧ st.Contains s.regs

/-- In a run of an accepted program without 64-bit `NEG` and `ARSH` that starts
with the stack's size in the frame pointer, and whose steps all meet the
condition, every register stays in its recorded tnum. -/
theorem run_tnum_sound {insns : List EbpfInsn} (h : verify insns = true)
    (hacc : tnumVerify insns = .ok true) (hprog : NoWideNegArsh insns) (env : ℕ → HelperEnv)
    (regs : EbpfRegs) (mem : Memory) (hframe : regs 10 = BitVec.ofNat 64 stackSize)
    (hok : ∀ n s, trace (next insns) env (.start regs mem) n = some s → TnumStepOk insns s) :
    ∃ states, tnumStates insns = .ok (some states) ∧
      ∀ n s, trace (next insns) env (.start regs mem) n = some s →
        TnumSound insns states s := by
  obtain ⟨states, hstates⟩ := tnumVerify_states hacc
  refine ⟨states, hstates, ?_⟩
  have hpost := tnumStates_postFixpoint hstates
  have hvalid := tnumStates_valid hprog hstates
  apply trace_inv
  · intro _
    obtain ⟨e, he, habs⟩ := hpost.entry
    exact ⟨e, he, contains_of_absorbs (init_contains hframe) habs⟩
  · intro n s s' hs hinv hnext hlt
    have hpc : s.pc < insns.length := by
      by_contra hge
      rw [next, step, List.getElem?_eq_none (by omega)] at hnext
      cases hnext
    obtain ⟨st, hst, hcontains⟩ := hinv hpc
    obtain ⟨outs, htr, habs⟩ := hpost.stable s.pc st hst
    obtain ⟨post, hmem, hpostc⟩ :=
      transfer_covers hcontains hlt h hpc htr (hvalid _ _ hst) (hok n s hs) hnext
    obtain ⟨e, he, hmerge⟩ := habs _ hmem
    exact ⟨e, he, contains_of_absorbs hpostc hmerge⟩

/-- The program with the stack's size in the frame pointer. -/
theorem run_tnum_sound_branching :
    ∃ states, tnumStates branching = .ok (some states) ∧
      ∀ n s, trace (next branching) (fun _ => .idle)
        (.start (update (fun _ => 0) 10 512) (fun _ => 0)) n = some s →
        TnumSound branching states s := by
  refine run_tnum_sound (by decide) (by decide +kernel) (by decide) _ _ _ rfl ?_
  -- the run stays in the program, whatever way the branch goes
  have hpc : ∀ n s, trace (next branching) (fun _ => .idle)
      (.start (update (fun _ => 0) 10 512) (fun _ => 0)) n = some s →
      s.pc = 0 ∨ s.pc = 1 ∨ s.pc = 2 ∨ s.pc = 3 := by
    apply trace_inv
    · exact .inl rfl
    · rintro n ⟨pc, regs, mem⟩ s' - (rfl | rfl | rfl | rfl) hnext
      · cases hnext
        exact .inr (.inl rfl)
      · obtain ⟨accesses, hstep⟩ := next_eq_some.mp hnext
        change (if EbpfInsn.taken ⟨0x15, 0, 0, 1, 0⟩ regs then _ else _) = _ at hstep
        split at hstep <;> cases hstep <;> exact .inr (.inr (.inl rfl))
      · cases hnext
        exact .inr (.inr (.inr rfl))
      · cases hnext
  intro n s hs
  have hcases := hpc n s hs
  constructor
  · rcases hcases with hpc | hpc | hpc | hpc <;> rw [hpc]
    · exact fun _ => trivial
    · exact fun halu => absurd halu (by decide)
    · exact fun _ => trivial
    · exact fun halu => absurd halu (by decide)
  · rcases hcases with hpc | hpc | hpc | hpc <;> rw [hpc]
    · exact fun hjmp => absurd hjmp (by decide)
    · exact fun _ _ => by decide
    · exact fun hjmp => absurd hjmp (by decide)
    · exact fun _ htaken => absurd htaken Bool.false_ne_true
  · rcases hcases with hpc | hpc | hpc | hpc <;> rw [hpc]
    · exact fun hjmp => absurd hjmp (by decide)
    · exact fun _ hop => absurd hop (by decide)
    · exact fun hjmp => absurd hjmp (by decide)
    · exact fun _ hop => absurd hop (by decide)
  · rcases hcases with hpc | hpc | hpc | hpc <;> rw [hpc]
    · exact fun hjmp => absurd hjmp (by decide)
    · exact fun _ hop => absurd hop (by decide)
    · exact fun hjmp => absurd hjmp (by decide)
    · exact fun _ hop => absurd hop (by decide)

/-- The registers `execute_handler` sets up have `0` in the frame pointer, where
the analysis records the stack's size. -/
theorem frame_pointer_unsound :
    verify [⟨0xbf, 0, 0, 0, 1⟩, ⟨0x95, 0, 0, 0, 0⟩] = true ∧
    tnumVerify [⟨0xbf, 0, 0, 0, 1⟩, ⟨0x95, 0, 0, 0, 0⟩] = .ok true ∧
    ∃ states, tnumStates [⟨0xbf, 0, 0, 0, 1⟩, ⟨0x95, 0, 0, 0, 0⟩] = .ok (some states) ∧
      ¬ ∀ n s, trace (next [⟨0xbf, 0, 0, 0, 1⟩, ⟨0x95, 0, 0, 0, 0⟩]) (fun _ => .idle)
          (.start (fun _ => 0) (fun _ => 0)) n = some s →
        TnumSound [⟨0xbf, 0, 0, 0, 1⟩, ⟨0x95, 0, 0, 0, 0⟩] states s := by
  refine ⟨by decide, by decide +kernel, ?_⟩
  obtain ⟨states, hstates⟩ := tnumVerify_states
    (show tnumVerify [⟨0xbf, 0, 0, 0, 1⟩, ⟨0x95, 0, 0, 0, 0⟩] = .ok true by decide +kernel)
  refine ⟨states, hstates, fun hall => ?_⟩
  obtain ⟨st, hst, hcontains⟩ := hall 0 _ rfl (by decide)
  have hinit : states 0 = some .init := by
    cases hstates
    rfl
  obtain rfl : VState.init = st := Option.some.inj (hinit.symm.trans hst)
  exact absurd (hcontains 10) (by decide)

/-- A `DIV` or `MOD` of either width finds `2 ^ 63` in the whole 64-bit destination register, and
its divisor, the immediate or the whole source register, is `-1`. -/
def EbpfInsn.MinByMinusOne (insn : EbpfInsn) (regs : EbpfRegs) : Prop :=
  insn.isAlu = true ∧ (insn.aluOp = .div ∨ insn.aluOp = .mod) ∧
    regs.r insn.dstReg.toNat = 0x8000000000000000#64 ∧
    if insn.useImm = true then insn.imm = 0xFFFFFFFF#32
    else regs.r insn.srcReg.toNat = 0xFFFFFFFFFFFFFFFF#64

/-- The immediate is extended with its sign, also for the operations on 32 bits. -/
theorem aluPanics_eq_true_iff {insn : EbpfInsn} {regs : EbpfRegs} :
    insn.aluPanics regs = true ↔ insn.MinByMinusOne regs := by
  have himm : insn.imm.signExtend 64 = -1#64 ↔ insn.imm = 0xFFFFFFFF#32 := by
    constructor
    · intro h
      have hint := congrArg BitVec.toInt h
      rw [toInt_signExtend_of_le (by decide)] at hint
      exact eq_of_toInt_eq hint
    · intro h
      rw [h]
      decide
  have hsrc : insn.aluSrc regs = -1#64 ↔
      if insn.useImm = true then insn.imm = 0xFFFFFFFF#32
      else regs.r insn.srcReg.toNat = 0xFFFFFFFFFFFFFFFF#64 := by
    rw [aluSrc]
    split
    · exact himm
    · rfl
  simp only [aluPanics, divOverflows, Bool.and_eq_true, Bool.or_eq_true, beq_iff_eq, hsrc,
    MinByMinusOne]
  constructor
  · rintro ⟨⟨halu, hop⟩, hdst, hdiv⟩
    exact ⟨halu, hop, hdst, hdiv⟩
  · rintro ⟨halu, hop, hdst, hdiv⟩
    exact ⟨⟨halu, hop⟩, hdst, hdiv⟩

/-- No division of a run panics exactly if none divides `2 ^ 63` by `-1` in the 64-bit registers,
whatever its own width is; the zero divisors that `tnum_verify` looks for are harmless. It is
enough that the program divides by immediates other than `-1` only. -/
theorem division_safe_iff (insns : List EbpfInsn) (env : ℕ → HelperEnv) (regs : EbpfRegs)
    (mem : Memory) :
    ((∀ n s, trace (next insns) env (.start regs mem) n = some s →
        step insns (env n) s ≠ .panic) ↔
      ∀ n s, trace (next insns) env (.start regs mem) n = some s →
        ¬ (insnAt insns s.pc).MinByMinusOne s.regs) ∧
    ((∀ insn ∈ insns, insn.isAlu = true → insn.aluOp = .div ∨ insn.aluOp = .mod →
        insn.useImm = true ∧ insn.imm ≠ 0xFFFFFFFF#32) →
      ∀ n s, trace (next insns) env (.start regs mem) n = some s →
        step insns (env n) s ≠ .panic) := by
  constructor
  · simp only [ne_eq, step_eq_panic_iff, aluPanics_eq_true_iff]
  · intro himm n s _ hpanic
    rw [step_eq_panic_iff, aluPanics_eq_true_iff] at hpanic
    obtain ⟨halu, hop, -, hsrc⟩ := hpanic
    have hpc : s.pc < insns.length := by
      by_contra hge
      rw [insnAt_of_ge (Nat.le_of_not_lt hge)] at halu
      cases halu
    have hmem := List.mem_of_getElem? (getElem?_eq_insnAt hpc)
    obtain ⟨huse, hne⟩ := himm _ hmem halu hop
    rw [if_pos huse] at hsrc
    exact hne hsrc

/-- `r1 = 1 << 63; r1 /= -1; r0 = 0; exit`. -/
def overflowProgram : List EbpfInsn :=
  [⟨0xbf, 1, 0, 0, 1⟩, ⟨0x6f, 1, 0, 0, 63⟩, ⟨0x3f, 1, 0, 0, -1⟩, ⟨0xbf, 0, 0, 0, 0⟩,
    ⟨0x95, 0, 0, 0, 0⟩]

/-- The quotient overflows, and both verifiers accept. -/
theorem accepted_division_panics :
    verify overflowProgram = true ∧ tnumVerify overflowProgram = .ok true ∧
    ∃ s, trace (next overflowProgram) (fun _ => .idle)
        (.start (update (fun _ => 0) 10 512) (fun _ => 0)) 2 = some s ∧
      step overflowProgram .idle s = .panic :=
  ⟨by decide, by decide +kernel, _, rfl, by rw [step_eq_panic_iff]; decide⟩

end Vahi.Ebpf
