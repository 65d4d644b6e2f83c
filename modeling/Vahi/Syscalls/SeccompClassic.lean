import Mathlib.Data.List.Forall2
import Vahi.Lib.ClassicBpf
import Vahi.Syscalls.Seccomp

/-!
# Seccomp filters and the classic BPF machine

`check_filter` against `Lib.ClassicBpf`. The interpreter has 64-bit registers, reads `jt` for
unconditional jumps and `k` for returns, and lacks immediate and length loads and register
transfers.
-/

namespace Vahi.Syscalls

open Vahi.Lib Vahi.Types ClassicBpf List Function
open BitVec (toNat_add toNat_setWidth toNat_inj toNat_sub toNat_mul toNat_udiv toNat_umod setWidth_and)

/-- Number, architecture, instruction pointer (always zero) and arguments. -/
def seccompWords (nr : BitVec 64) (args : Fin 6 → BitVec 64) : List (BitVec 32) :=
  [nr.setWidth 32, 0xC000003E, 0, 0] ++
    (List.ofFn args).flatMap fun a : BitVec 64 => [a.setWidth 32, (a >>> 32).setWidth 32]

/-! ### Loads -/

variable {words : List (BitVec 32)} {w : BitVec 32} (v : BitVec 64)

theorem neBytes_four : neBytes 4 v = neBytes 4 (v.setWidth 32) := by
  refine map_congr_left fun i hi => ?_
  have hlt : i < 4 := mem_range.mp hi
  apply BitVec.eq_of_getLsbD_eq
  intro j hj
  have : decide (8 * i + j < 32) = true := by
    simp only [decide_eq_true_eq]
    omega
  simp [this]

theorem neBytes_eight :
    neBytes 8 v = neBytes 4 (v.setWidth 32) ++ neBytes 4 ((v >>> 32).setWidth 32) := by
  rw [← neBytes_four, ← neBytes_four]
  have hrange : List.range 8 = List.range 4 ++ (List.range 4).map (4 + ·) := by decide
  rw [neBytes, hrange, map_append, map_map]
  refine congrArg (neBytes 4 v ++ ·) (map_congr_left fun i _ => ?_)
  rw [comp_apply, ← BitVec.shiftRight_add]
  congr 2
  omega

theorem buildSeccompData_eq (nr : BitVec 64) (args : Fin 6 → BitVec 64) :
    buildSeccompData nr args = (seccompWords nr args).flatMap (neBytes 4) := by
  have hargs : (List.ofFn args).flatMap (neBytes 8) =
      ((List.ofFn args).flatMap fun a : BitVec 64 => [a.setWidth 32, (a >>> 32).setWidth 32]).flatMap
        (neBytes 4) := by
    rw [flatMap_assoc]
    refine flatMap_congr fun a _ => ?_
    rw [neBytes_eight, flatMap_cons, flatMap_singleton]
  rw [buildSeccompData, seccompWords, flatMap_append, hargs, neBytes_four, neBytes_eight]
  rfl

/-- Byte `j` of word `i`. -/
theorem getElem?_flatMap_neBytes {i : ℕ} (hw : words[i]? = some w) {j : ℕ} (hj : j < 4) :
    (words.flatMap (neBytes 4))[4 * i + j]? = some ((w >>> (8 * j)).setWidth 8) := by
  induction words generalizing i with
  | nil => cases hw
  | cons v words ih =>
    rw [flatMap_cons]
    cases i with
    | zero =>
      cases hw
      rw [getElem?_append_left (by rw [length_neBytes]; omega), neBytes, getElem?_map,
        Nat.mul_zero, Nat.zero_add, getElem?_range hj]
      rfl
    | succ i =>
      rw [getElem?_append_right (by rw [length_neBytes]; omega), length_neBytes]
      have hsub : 4 * (i + 1) + j - 4 = 4 * i + j := by omega
      rw [hsub]
      exact ih hw

theorem length_flatMap_neBytes (words : List (BitVec 32)) :
    (words.flatMap (neBytes 4)).length = 4 * words.length := by
  induction words with
  | nil => rfl
  | cons w words ih =>
    rw [flatMap_cons, length_append, length_neBytes, ih, length_cons]
    omega

theorem append_bytes (w : BitVec 32) :
    ((w >>> 24).setWidth 8 ++ (w >>> 16).setWidth 8 ++ (w >>> 8).setWidth 8 ++
      (w >>> 0).setWidth 8 : BitVec 32) = w := by
  apply BitVec.eq_of_getLsbD_eq
  intro j hj
  simp only [BitVec.getLsbD_append, BitVec.getLsbD_setWidth, BitVec.getLsbD_ushiftRight]
  -- one case for each byte
  rcases Nat.lt_or_ge j 8 with h8 | h8
  · simp [h8]
  rcases Nat.lt_or_ge j 16 with h16 | h16
  · simp [h8.not_gt, show j - 8 < 8 by omega, Nat.add_sub_cancel' h8]
  rcases Nat.lt_or_ge j 24 with h24 | h24
  · simp [h8.not_gt, show ¬ j - 8 < 8 by omega, show j - 8 - 8 < 8 by omega,
      show 16 + (j - 8 - 8) = j by omega]
  · simp [h8.not_gt, show ¬ j - 8 < 8 by omega, show ¬ j - 8 - 8 < 8 by omega,
      show j - 8 - 8 - 8 < 8 by omega, show 24 + (j - 8 - 8 - 8) = j by omega]

theorem loadData_word (hlen : words.length = 16) {k : BitVec 32}
    (halign : k.toNat % 4 = 0) (hw : words[k.toNat / 4]? = some w) :
    loadData (words.flatMap (neBytes 4)) 0x00 (k.setWidth 64) = .ok (some (w.setWidth 64)) := by
  have hlt : k.toNat / 4 < 16 := hlen ▸ (List.getElem?_eq_some_iff.mp hw).1
  have hbyte : ∀ j < 4, dataByte (words.flatMap (neBytes 4)) (k.setWidth 64 + BitVec.ofNat 64 j) =
      .ok ((w >>> (8 * j)).setWidth 8) := by
    intro j hj
    have hindex : (k.setWidth 64 + BitVec.ofNat 64 j).toNat = 4 * (k.toNat / 4) + j := by
      rw [toNat_add, toNat_setWidth, BitVec.toNat_ofNat]
      omega
    rw [dataByte, hindex, getElem?_flatMap_neBytes hw hj]
  have hbound : ¬ (words.flatMap (neBytes 4)).length < (k.setWidth 64 + 4 : BitVec 64).toNat := by
    rw [length_flatMap_neBytes, hlen, toNat_add, toNat_setWidth]
    have : (4 : BitVec 64).toNat = 4 := rfl
    omega
  have h0 := hbyte 0 (by omega)
  have h1 := hbyte 1 (by omega)
  have h2 := hbyte 2 (by omega)
  have h3 := hbyte 3 (by omega)
  rw [BitVec.add_zero] at h0
  rw [loadData, if_pos rfl, if_neg hbound, h0]
  change (dataByte _ (k.setWidth 64 + BitVec.ofNat 64 1) >>= fun b1 =>
    dataByte _ (k.setWidth 64 + BitVec.ofNat 64 2) >>= fun b2 =>
      dataByte _ (k.setWidth 64 + BitVec.ofNat 64 3) >>= fun b3 => _) = _
  rw [h1, Outcome.ok_bind, h2, Outcome.ok_bind, h3, Outcome.ok_bind]
  exact congrArg (fun v : BitVec 32 => Outcome.ok (some (v.setWidth 64))) (append_bytes w)

/-! ### Instructions -/

/-- Fields that the instruction does not use are arbitrary. -/
structure Encodes (i : SeccompBpfInstruction) (insn : Insn) : Prop where
  code : i.code = insn.opcode
  imm : ∀ k ∈ insn.imm, i.k = k
  jumps : ∀ j ∈ insn.jumps, (i.jt, i.jf) = j

structure Related (s : BpfState) (c : State) : Prop where
  acc : s.acc = c.a.setWidth 64
  x : s.x = c.x.setWidth 64
  mem : ∀ j, s.mem j = (c.mem j).setWidth 64
  pc : s.pc = c.pc

/-- The same action, and the same data where it is not to kill the process. -/
def SameAction (r : BitVec 64) (v : BitVec 32) : Prop :=
  r &&& seccompRetAction = v.setWidth 64 &&& seccompRetAction ∧
    (v.setWidth 64 &&& seccompRetAction ≠ 0 → r = v.setWidth 64)

/-- The result has 32 bits, and the count of a shift is below 32. -/
def AluFits : AluOp → BitVec 32 → BitVec 32 → Prop
  | .add, a, v => a.toNat + v.toNat < 2 ^ 32
  | .sub, a, v => v.toNat ≤ a.toNat
  | .mul, a, v => a.toNat * v.toNat < 2 ^ 32
  | .lsh, a, v => v.toNat < 32 ∧ a.toNat * 2 ^ v.toNat < 2 ^ 32
  | .rsh, _, v => v.toNat < 32
  | .div, _, _ | .mod, _, _ | .or, _, _ | .and, _, _ | .xor, _, _ => True

/-- The interpreter does what the instruction says: there are no immediate and length loads,
a transfer and a returned accumulator are right only if they make no difference, and so is
the field that an unconditional jump uses. -/
def Faithful (i : SeccompBpfInstruction) (c : State) : Insn → Prop
  | .ldImm _ | .ldLen | .ldxImm _ | .ldxLen => False
  | .alu op src => AluFits op c.a (src.value c)
  | .neg => c.a = 0
  | .ja k => i.jt.toNat = k.toNat
  | .retA => i.k = c.a
  | .tax | .txa => c.x = c.a
  | .ldAbs _ | .ldMem _ | .ldxMem _ | .st _ | .stx _ | .jmp _ _ _ _ | .retK _ => True

def StepRelated : FilterStep → Step → Prop
  | .next s, .next c => Related s c
  | .done r, .ret v => SameAction r v
  | _, _ => False

def alu64 : AluOp → BitVec 64 → BitVec 64 → Option (BitVec 64)
  | .add, a, v => some (a + v)
  | .sub, a, v => some (a - v)
  | .mul, a, v => some (a * v)
  | .div, a, v => if v = 0 then none else some (a / v)
  | .mod, a, v => if v = 0 then none else some (a % v)
  | .or, a, v => some (a ||| v)
  | .and, a, v => some (a &&& v)
  | .xor, a, v => some (a ^^^ v)
  | .lsh, a, v => some (a <<< (v.toNat % 64))
  | .rsh, a, v => some (a >>> (v.toNat % 64))

theorem setWidth_eq_zero_iff (v : BitVec 32) : v.setWidth 64 = 0 ↔ v = 0 := by
  rw [← toNat_inj, ← toNat_inj, toNat_setWidth, Nat.mod_eq_of_lt (by omega)]
  rfl

theorem toNat_extend (v : BitVec 32) : (v.setWidth 64).toNat = v.toNat := by
  rw [toNat_setWidth, Nat.mod_eq_of_lt (by omega)]

theorem some_eq_some_extend {x : BitVec 64} {y : BitVec 32} (h : x.toNat = y.toNat) :
    some x = some (y.setWidth 64) :=
  congrArg some (BitVec.eq_of_toNat_eq (h.trans (toNat_extend y).symm))

theorem alu64_setWidth {op : AluOp} {a v : BitVec 32} (h : AluFits op a v) :
    alu64 op (a.setWidth 64) (v.setWidth 64) = (op.eval a v).map (·.setWidth 64) := by
  cases op with
  | add =>
    refine some_eq_some_extend ?_
    change a.toNat + v.toNat < 2 ^ 32 at h
    rw [toNat_add, toNat_extend, toNat_extend, toNat_add]
    omega
  | sub =>
    refine some_eq_some_extend ?_
    change v.toNat ≤ a.toNat at h
    rw [toNat_sub, toNat_extend, toNat_extend, toNat_sub]
    omega
  | mul =>
    refine some_eq_some_extend ?_
    change a.toNat * v.toNat < 2 ^ 32 at h
    rw [toNat_mul, toNat_extend, toNat_extend, toNat_mul,
      Nat.mod_eq_of_lt (by omega), Nat.mod_eq_of_lt h]
  | div =>
    rw [alu64, AluOp.eval]
    simp only [setWidth_eq_zero_iff]
    split
    · rfl
    · refine some_eq_some_extend ?_
      rw [toNat_udiv, toNat_extend, toNat_extend, toNat_udiv]
  | mod =>
    rw [alu64, AluOp.eval]
    simp only [setWidth_eq_zero_iff]
    split
    · rfl
    · refine some_eq_some_extend ?_
      rw [toNat_umod, toNat_extend, toNat_extend, toNat_umod]
  | or => exact congrArg some BitVec.setWidth_or.symm
  | and => exact congrArg some setWidth_and.symm
  | xor => exact congrArg some BitVec.setWidth_xor.symm
  | lsh =>
    obtain ⟨hcount, hfits⟩ : v.toNat < 32 ∧ a.toNat * 2 ^ v.toNat < 2 ^ 32 := h
    refine some_eq_some_extend ?_
    rw [toNat_extend v, Nat.mod_eq_of_lt (by omega), Nat.mod_eq_of_lt hcount, BitVec.toNat_shiftLeft,
      toNat_extend, BitVec.toNat_shiftLeft, Nat.shiftLeft_eq, Nat.mod_eq_of_lt (by omega),
      Nat.mod_eq_of_lt hfits]
  | rsh =>
    change v.toNat < 32 at h
    refine some_eq_some_extend ?_
    rw [toNat_extend v, Nat.mod_eq_of_lt (by omega), Nat.mod_eq_of_lt h, BitVec.toNat_ushiftRight,
      toNat_extend, BitVec.toNat_ushiftRight]

section Steps

variable {i : SeccompBpfInstruction} {s : BpfState} {c : State}

theorem Related.operand (hrel : Related s c) {src : Src} (hbits : i.code &&& 0x08 = src.bits)
    (himm : ∀ k ∈ src.imm, i.k = k) : operand i s = (src.value c).setWidth 64 := by
  rw [Syscalls.operand, hbits]
  cases src with
  | k v =>
    rw [himm v rfl]
    exact if_pos rfl
  | x =>
    rw [hrel.x]
    exact if_neg (by decide)

theorem aluValue_eq {op : AluOp} (hbits : i.code &&& 0xF0 = op.bits) :
    aluValue i s = alu64 op s.acc (operand i s) := by
  rw [aluValue, hbits]
  cases op <;> rfl

theorem jumpTaken_eq (hrel : Related s c) {op : JmpOp} {v : BitVec 32}
    (hbits : i.code &&& 0xF0 = op.bits) (hv : operand i s = v.setWidth 64) :
    jumpTaken i s = op.eval c.a v := by
  rw [jumpTaken, hbits, hv, hrel.acc]
  cases op with
  | jeq =>
    change decide (c.a.setWidth 64 = v.setWidth 64) = decide (c.a = v)
    rw [decide_eq_decide, ← toNat_inj, toNat_extend, toNat_extend, toNat_inj]
  | jgt =>
    change decide (v.setWidth 64 < c.a.setWidth 64) = decide (v < c.a)
    rw [decide_eq_decide, BitVec.lt_def, toNat_extend, toNat_extend, BitVec.lt_def]
  | jge =>
    change decide (v.setWidth 64 ≤ c.a.setWidth 64) = decide (v ≤ c.a)
    rw [decide_eq_decide, BitVec.le_def, toNat_extend, toNat_extend, BitVec.le_def]
  | jset =>
    change decide (c.a.setWidth 64 &&& v.setWidth 64 ≠ 0) = decide (c.a &&& v ≠ 0)
    rw [decide_eq_decide, ← setWidth_and, ne_eq, setWidth_eq_zero_iff]

/-! One equation of the interpreter for each class. -/

variable (st : SeccompState) (data : List (BitVec 8))

theorem filterStep_ld (hcode : i.code &&& 0x07 = 0x00) {v : BitVec 64}
    (hload : loadValue data i s = .ok (some v)) :
    filterStep st data i s = .ok (.next { s with acc := v, pc := s.pc + 1 }) := by
  rw [filterStep, hcode, if_pos (.inl rfl), hload]
  rfl

theorem filterStep_ldx (hcode : i.code &&& 0x07 = 0x01) {v : BitVec 64}
    (hload : loadValue data i s = .ok (some v)) :
    filterStep st data i s = .ok (.next { s with x := v, pc := s.pc + 1 }) := by
  rw [filterStep, hcode, if_pos (.inr rfl), hload]
  rfl

theorem filterStep_store (hcode : i.code &&& 0x07 = 0x02 ∨ i.code &&& 0x07 = 0x03)
    (hk : i.k.toNat < 16) :
    filterStep st data i s = .ok (.next { s with
      mem := update s.mem ⟨i.k.toNat, hk⟩
        (if i.code &&& 0x07 = 0x02 then s.acc else s.x)
      pc := s.pc + 1 }) := by
  rw [filterStep, if_neg (by rcases hcode with h | h <;> rw [h] <;> decide), if_pos hcode]
  exact dif_pos hk

theorem filterStep_alu (hcode : i.code &&& 0x07 = 0x04) :
    filterStep st data i s = match aluValue i s with
      | none => .ok (.done st.defaultAction)
      | some v => .ok (.next { s with acc := v, pc := s.pc + 1 }) := by
  rw [filterStep, hcode, if_neg (by decide), if_neg (by decide)]
  exact if_pos rfl

theorem filterStep_jmp (hcode : i.code &&& 0x07 = 0x05) :
    filterStep st data i s = .ok (.next { s with
      pc := s.pc + (1 + (if jumpTaken i s then i.jt else i.jf).toNat) }) := by
  rw [filterStep, hcode, if_neg (by decide), if_neg (by decide), if_neg (by decide), if_pos rfl]

theorem filterStep_ret (hcode : i.code &&& 0x07 = 0x06) (hsrc : i.code &&& 0x08 = 0x00) :
    filterStep st data i s = .ok (.done
      (if i.k.setWidth 64 &&& seccompRetAction ≠ 0 then i.k.setWidth 64
        else st.defaultAction)) := by
  rw [filterStep, hcode, hsrc, if_neg (by decide), if_neg (by decide), if_neg (by decide),
    if_neg (by decide), if_pos rfl]
  dsimp only
  rw [if_neg (show ¬(0x00 : BitVec 16) = 0x08 by decide)]
  split <;> rfl

theorem filterStep_misc (hcode : i.code &&& 0x07 = 0x07) :
    filterStep st data i s = .ok (.next { s with pc := s.pc + 1 }) := by
  rw [filterStep, hcode, if_neg (by decide), if_neg (by decide), if_neg (by decide),
    if_neg (by decide), if_neg (by decide)]

theorem sameAction_ret (v : BitVec 32) :
    SameAction (if v.setWidth 64 &&& seccompRetAction ≠ 0 then v.setWidth 64
      else seccompRetKillProcess) v := by
  by_cases h : v.setWidth 64 &&& seccompRetAction = 0
  · rw [if_neg (not_not.mpr h)]
    exact ⟨h.symm, fun hne => absurd h hne⟩
  · rw [if_pos h]
    exact ⟨rfl, fun _ => rfl⟩

end Steps

section Simulation

variable {st : SeccompState} {words : List (BitVec 32)} {i : SeccompBpfInstruction} {s : BpfState}
  {c : State}

variable {v k : BitVec 32}

section

variable (hrel : Related s c)

include hrel

/-- Both machines load a value that is the same. -/
theorem related_setA :
    StepRelated (.next { s with acc := v.setWidth 64, pc := s.pc + 1 }) (c.setA (some v)) :=
  ⟨rfl, hrel.x, hrel.mem, congrArg (· + 1) hrel.pc⟩

theorem related_setX :
    StepRelated (.next { s with x := v.setWidth 64, pc := s.pc + 1 }) (c.setX (some v)) :=
  ⟨hrel.acc, rfl, hrel.mem, congrArg (· + 1) hrel.pc⟩

theorem related_skip (n : ℕ) :
    StepRelated (.next { s with pc := s.pc + (1 + n) }) (.next (c.skip n)) :=
  ⟨hrel.acc, hrel.x, hrel.mem, congrArg (· + (1 + n)) hrel.pc⟩

theorem related_setCell (hk : k.toNat < 16) {u : BitVec 64} (hv : u = v.setWidth 64) :
    StepRelated (.next { s with mem := update s.mem ⟨k.toNat, hk⟩ u, pc := s.pc + 1 })
      (.next ((c.setCell k v).skip 0)) := by
  subst hv
  rw [State.setCell, dif_pos hk]
  refine ⟨hrel.acc, hrel.x, fun j => ?_, congrArg (· + 1) hrel.pc⟩
  change update s.mem ⟨k.toNat, hk⟩ (v.setWidth 64) j =
    (update c.mem ⟨k.toNat, hk⟩ v j).setWidth 64
  by_cases hj : j = ⟨k.toNat, hk⟩
  · subst hj
    rw [update_self, update_self]
  · rw [update_of_ne hj, update_of_ne hj]
    exact hrel.mem j

theorem loadValue_mem (hcode : i.code &&& 0xE0 = 0x60)
    (hk : i.k = k) (hlt : k.toNat < 16) {data : List (BitVec 8)} :
    ∃ v, c.cell k = some v ∧ loadValue data i s = .ok (some (v.setWidth 64)) := by
  subst hk
  refine ⟨c.mem ⟨i.k.toNat, hlt⟩, dif_pos hlt, ?_⟩
  rw [loadValue, hcode, if_neg (by decide), if_neg (by decide), if_pos rfl, dif_pos hlt, hrel.mem]

end

/-- A faithful instruction is executed as the machine says. -/
theorem filterStep_related (hdefault : st.defaultAction = seccompRetKillProcess)
    (hlen : words.length = 16) {insn : Insn} (henc : Encodes i insn) {rest : ℕ}
    (hchecked : insn.Checked words.length rest) (hrel : Related s c) (hfaithful : Faithful i c insn) :
    ∃ out, filterStep st (words.flatMap (neBytes 4)) i s = .ok out ∧
      StepRelated out (insn.exec words c) := by
  obtain ⟨hcode, himm, hjumps⟩ := henc
  cases insn with
  | ldImm | ldLen | ldxImm | ldxLen => exact hfaithful.elim
  | ldAbs k =>
    change i.code = 0x20 at hcode
    obtain ⟨halign, hlt, -⟩ := hchecked
    have hw := getElem?_eq_getElem hlt
    have hload : loadValue (words.flatMap (neBytes 4)) i s =
        .ok (some ((words[k.toNat / 4]).setWidth 64)) := by
      rw [loadValue, hcode, himm k rfl]
      exact (if_pos rfl).trans (loadData_word hlen halign hw)
    refine ⟨_, filterStep_ld st _ (by rw [hcode]; rfl) hload, ?_⟩
    rw [Insn.exec, hw]
    exact related_setA hrel
  | ldMem k =>
    change i.code = 0x60 at hcode
    obtain ⟨v, hcell, hload⟩ := loadValue_mem hrel (by rw [hcode]; rfl) (himm k rfl) hchecked.1
    refine ⟨_, filterStep_ld st _ (by rw [hcode]; rfl) hload, ?_⟩
    rw [Insn.exec, hcell]
    exact related_setA hrel
  | ldxMem k =>
    change i.code = 0x61 at hcode
    obtain ⟨v, hcell, hload⟩ := loadValue_mem hrel (by rw [hcode]; rfl) (himm k rfl) hchecked.1
    refine ⟨_, filterStep_ldx st _ (by rw [hcode]; rfl) hload, ?_⟩
    rw [Insn.exec, hcell]
    exact related_setX hrel
  | st k =>
    change i.code = 0x02 at hcode
    cases himm k rfl
    refine ⟨_, filterStep_store st _ (.inl (by rw [hcode]; rfl)) hchecked.1, ?_⟩
    rw [if_pos (by rw [hcode]; rfl)]
    exact related_setCell hrel hchecked.1 hrel.acc
  | stx k =>
    change i.code = 0x03 at hcode
    cases himm k rfl
    refine ⟨_, filterStep_store st _ (.inr (by rw [hcode]; rfl)) hchecked.1, ?_⟩
    rw [if_neg (by rw [hcode]; decide)]
    exact related_setCell hrel hchecked.1 hrel.x
  | alu op src =>
    obtain ⟨hclass, hop, hsrc⟩ := Insn.opcode_alu op src
    rw [← hcode] at hclass hop hsrc
    have hvalue : aluValue i s = (op.eval c.a (src.value c)).map (·.setWidth 64) := by
      rw [aluValue_eq hop, hrel.operand hsrc himm, hrel.acc]
      exact alu64_setWidth hfaithful
    rw [filterStep_alu st _ hclass, hvalue, Insn.exec]
    cases op.eval c.a (src.value c) with
    | none =>
      refine ⟨_, rfl, ?_⟩
      rw [hdefault]
      exact sameAction_ret 0
    | some v => exact ⟨_, rfl, related_setA hrel⟩
  | neg =>
    have hvalue : aluValue i s = some 0 := by
      rw [aluValue, hcode, hrel.acc, hfaithful]
      rfl
    rw [filterStep_alu st _ (by rw [hcode]; rfl), hvalue, Insn.exec, hfaithful]
    exact ⟨_, rfl, related_setA hrel (v := 0)⟩
  | ja k =>
    change i.code = 0x05 at hcode
    have htaken : jumpTaken i s = true := by
      rw [jumpTaken, hcode]
      rfl
    rw [filterStep_jmp st _ (by rw [hcode]; rfl), htaken, if_pos rfl, hfaithful]
    exact ⟨_, rfl, related_skip hrel k.toNat⟩
  | jmp op src jt jf =>
    obtain ⟨hclass, hop, hsrc⟩ := Insn.opcode_jmp op src jt jf
    rw [← hcode] at hclass hop hsrc
    obtain ⟨rfl, rfl⟩ : i.jt = jt ∧ i.jf = jf := Prod.mk.inj (hjumps (jt, jf) rfl)
    rw [filterStep_jmp st _ hclass, jumpTaken_eq hrel hop (hrel.operand hsrc himm), Insn.exec]
    cases op.eval c.a (src.value c)
    · exact ⟨_, rfl, related_skip hrel i.jf.toNat⟩
    · exact ⟨_, rfl, related_skip hrel i.jt.toNat⟩
  | retK k =>
    change i.code = 0x06 at hcode
    rw [filterStep_ret st _ (by rw [hcode]; rfl) (by rw [hcode]; rfl), hdefault, himm k rfl]
    exact ⟨_, rfl, sameAction_ret k⟩
  | retA =>
    rw [filterStep_ret st _ (by rw [hcode]; rfl) (by rw [hcode]; rfl), hdefault, hfaithful]
    exact ⟨_, rfl, sameAction_ret c.a⟩
  | tax =>
    rw [filterStep_misc st _ (by rw [hcode]; rfl)]
    refine ⟨_, rfl, ⟨hrel.acc, ?_, hrel.mem, congrArg (· + 1) hrel.pc⟩⟩
    exact hrel.x.trans (congrArg (·.setWidth 64) hfaithful)
  | txa =>
    rw [filterStep_misc st _ (by rw [hcode]; rfl)]
    refine ⟨_, rfl, ⟨?_, hrel.x, hrel.mem, congrArg (· + 1) hrel.pc⟩⟩
    exact hrel.acc.trans (congrArg (·.setWidth 64) hfaithful.symm)

end Simulation

/-! ### Programs -/

def EncodesProgram (filter : List SeccompBpfInstruction) (p : List Insn) : Prop :=
  List.Forall₂ Encodes filter p

def FaithfulRun (filter : List SeccompBpfInstruction) (p : List Insn) (words : List (BitVec 32)) :
    Prop :=
  ∀ c, Reaches p words c → ∀ i insn, filter[c.pc]? = some i → p[c.pc]? = some insn →
    Faithful i c insn

theorem filterLoop_sameAction {st : SeccompState}
    (hdefault : st.defaultAction = seccompRetKillProcess) {p : List Insn}
    (henc : EncodesProgram st.filter p) (hlen : words.length = 16)
    (hvalid : Valid words.length p) (hfaithful : FaithfulRun st.filter p words) {fuel : ℕ}
    {s : BpfState} {c : State} (hrel : Related s c) (hreach : Reaches p words c)
    (hpc : c.pc < p.length) (hfuel : p.length ≤ fuel + c.pc) :
    ∃ r v, filterLoop st (words.flatMap (neBytes 4)) (fuel + 1) s = .ok r ∧
      run p words fuel c = some v ∧ SameAction r v := by
  have hlength : st.filter.length = p.length := List.Forall₂.length_eq henc
  induction fuel generalizing s c with
  | zero => omega
  | succ fuel ih =>
    have hp := getElem?_eq_getElem hpc
    have hpc' : c.pc < st.filter.length := by omega
    have hi := getElem?_eq_getElem hpc'
    have hchecked := hvalid.checked _ _ hp
    have hcurrent : Encodes st.filter[c.pc] p[c.pc] := List.Forall₂.get henc hpc' hpc
    obtain ⟨out, hout, hstep⟩ := filterStep_related hdefault hlen hcurrent hchecked hrel
      (hfaithful c hreach _ _ hi hp)
    rw [filterLoop, run, hrel.pc, hi, hp]
    dsimp only
    rw [hout, Outcome.ok_bind]
    cases out with
    | done r =>
      cases hexec : (p[c.pc]).exec words c with
      | next c' => rw [hexec] at hstep; exact hstep.elim
      | ret v =>
        rw [hexec] at hstep
        exact ⟨r, v, rfl, rfl, hstep⟩
    | next s' =>
      cases hexec : (p[c.pc]).exec words c with
      | ret v => rw [hexec] at hstep; exact hstep.elim
      | next c' =>
        rw [hexec] at hstep
        have hrel' : Related s' c' := hstep
        obtain ⟨hlt, hle⟩ := exec_pc hchecked hexec
        have hnext := hrel'.pc
        dsimp only
        rw [if_neg (by omega)]
        exact ih hrel' (hreach.step hp hexec) (by omega) (by omega)

/-- On every valid program whose executed instructions are faithful, `check_filter`
returns the action that the program does. -/
theorem checkFilter_sameAction (st : SeccompState) (p : List Insn)
    (hdefault : st.defaultAction = seccompRetKillProcess) (henc : EncodesProgram st.filter p)
    (hvalid : Valid 16 p) (nr : BitVec 64) (args : Fin 6 → BitVec 64)
    (hfaithful : FaithfulRun st.filter p (seccompWords nr args)) :
    ∃ r v, checkFilter st nr args = .ok r ∧
      run p (seccompWords nr args) p.length .start = some v ∧ SameAction r v := by
  have hlength : st.filter.length = p.length := List.Forall₂.length_eq henc
  have hpos : 0 < p.length := length_pos_of_ne_nil hvalid.nonempty
  have hne : st.filter ≠ [] := ne_nil_of_length_pos (by omega)
  have hwords : (seccompWords nr args).length = 16 := rfl
  rw [checkFilter, if_neg hne, buildSeccompData_eq, hlength]
  exact filterLoop_sameAction hdefault henc hwords (hwords ▸ hvalid) hfaithful
    ⟨rfl, rfl, fun _ => rfl, rfl⟩ .start hpos (Nat.le_refl _)

/-- Kills the process for system call 59, and allows all others. -/
def denyExecve : List Insn :=
  [.ldAbs 0, .jmp .jeq (.k 59) 0 1, .retK 0, .retK 0x7fff0000]

def denyExecveState : SeccompState where
  mode := .filter
  filter := [⟨0x20, 0, 0, 0⟩, ⟨0x15, 0, 1, 59⟩, ⟨0x06, 0, 0, 0⟩, ⟨0x06, 0, 0, 0x7fff0000⟩]
  defaultAction := seccompRetKillProcess

theorem encodes_denyExecve : EncodesProgram denyExecveState.filter denyExecve :=
  .cons ⟨rfl, fun _ h => Option.some.inj h, nofun⟩ <|
  .cons ⟨rfl, fun _ h => Option.some.inj h, fun _ h => Option.some.inj h⟩ <|
  .cons ⟨rfl, fun _ h => Option.some.inj h, nofun⟩ <|
  .cons ⟨rfl, fun _ h => Option.some.inj h, nofun⟩ .nil

theorem valid_denyExecve : Valid 16 denyExecve where
  nonempty := nofun
  checked
    | 0, _, rfl => ⟨rfl, by decide, by decide⟩
    | 1, _, rfl => ⟨by decide, by decide⟩
    | 2, _, rfl => trivial
    | 3, _, rfl => trivial

theorem faithful_denyExecve (words : List (BitVec 32)) :
    FaithfulRun denyExecveState.filter denyExecve words := by
  intro c _ i insn _ hinsn
  have hmem : insn ∈ denyExecve := mem_of_getElem? hinsn
  simp only [denyExecve, mem_cons, not_mem_nil, or_false] at hmem
  rcases hmem with rfl | rfl | rfl | rfl
  all_goals exact trivial

theorem checkFilter_denyExecve :
    ∃ r v, checkFilter denyExecveState 59 (fun _ => 0) = .ok r ∧
      run denyExecve (seccompWords 59 fun _ => 0) 4 .start = some v ∧ SameAction r v :=
  checkFilter_sameAction denyExecveState denyExecve rfl encodes_denyExecve valid_denyExecve 59
    (fun _ => 0) (faithful_denyExecve _)

/-- A filter that jumps over a return to one that allows every system call. -/
def jumpToAllow : List Insn :=
  [.ja 1, .retK 0, .retK 0x7fff0000]

def jumpToAllowState : SeccompState where
  mode := .filter
  filter := [⟨0x05, 0, 0, 1⟩, ⟨0x06, 0, 0, 0⟩, ⟨0x06, 0, 0, 0x7fff0000⟩]
  defaultAction := seccompRetKillProcess

theorem encodes_jumpToAllow : EncodesProgram jumpToAllowState.filter jumpToAllow :=
  .cons ⟨rfl, fun _ h => Option.some.inj h, nofun⟩ <|
  .cons ⟨rfl, fun _ h => Option.some.inj h, nofun⟩ <|
  .cons ⟨rfl, fun _ h => Option.some.inj h, nofun⟩ .nil

theorem valid_jumpToAllow : Valid 16 jumpToAllow where
  nonempty := nofun
  checked
    | 0, _, rfl => Nat.lt_of_sub_eq_succ rfl
    | 1, _, rfl => trivial
    | 2, _, rfl => trivial

/-- The interpreter goes to the next instruction, and kills the process. -/
theorem jumpToAllow_kills :
    EncodesProgram jumpToAllowState.filter jumpToAllow ∧ Valid 16 jumpToAllow ∧
      checkFilter jumpToAllowState 39 (fun _ => 0) = .ok seccompRetKillProcess ∧
      run jumpToAllow (seccompWords 39 fun _ => 0) 3 .start = some 0x7fff0000 ∧
      ¬ SameAction seccompRetKillProcess 0x7fff0000 := by
  refine ⟨encodes_jumpToAllow, valid_jumpToAllow, by decide +kernel, by decide +kernel, ?_⟩
  intro h
  exact absurd h.1 (by decide)

end Vahi.Syscalls
