import Vahi.Ebpf.Vm
import Vahi.Lib.X86

/-!
# The eBPF compiler

`EbpfJit` (`kernel/src/ebpf/jit.rs`). The code buffer grows at its end, so every emitting function
gives the bytes it appends.
-/

namespace Vahi.Ebpf

open Vahi.Lib.X86 List

abbrev Emit := Except String Bytes

def emitPrologue : Bytes :=
  [0x55, 0x48, 0x89, 0xE5, 0x41, 0x54, 0x41, 0x55, 0x41, 0x56, 0x41, 0x57]

def emitEpilogue : Bytes := [0x41, 0x5F, 0x41, 0x5E, 0x41, 0x5D, 0x41, 0x5C, 0x5D]

def x86reg (r : BitVec 8) : Except String (BitVec 8) :=
  match r.toNat with
  | 0 => .ok 0
  | 1 => .ok 7
  | 2 => .ok 6
  | 3 => .ok 2
  | 4 => .ok 1
  | 5 => .ok 0
  | 6 => .ok 1
  | 7 => .ok 2
  | 8 => .ok 3
  | 9 => .ok 4
  | 10 => .ok 5
  | _ => .error "Invalid eBPF register"

def needsRexb (r : BitVec 8) : Bool := 5 ≤ r.toNat

def needsRexr (r : BitVec 8) : Bool := 5 ≤ r.toNat

def emitU32 (v : BitVec 32) : Bytes := leBytes 4 v.toNat

def rexDst (base dst : BitVec 8) : BitVec 8 := if needsRexr dst then base ||| 0x04 else base

def rexDstSrc (base dst src : BitVec 8) : BitVec 8 :=
  if needsRexb src then rexDst base dst ||| 0x01 else rexDst base dst

variable (insn : EbpfInsn) (dst src : BitVec 8) {insns : List EbpfInsn}

def emitMovImm64 (imm : BitVec 64) : Emit := do
  let d ← x86reg dst
  return [rexDst 0x48 dst, 0xB8#8 ||| (d &&& 7)] ++ emitU32 (imm.setWidth 32) ++
    emitU32 ((imm >>> 32).setWidth 32)

def emitRegReg (rex opcode dst src : BitVec 8) : Emit := do
  let d ← x86reg dst
  let s ← x86reg src
  return [rexDstSrc rex dst src, opcode, 0xC0#8 ||| ((s &&& 7) <<< 3) ||| (d &&& 7)]

def emitMovReg64 : Emit := emitRegReg 0x48 0x89 dst src

def emitMovReg32 : Emit := emitRegReg 0x40 0x89 dst src

def emitAluImm32 (imm : BitVec 32) (opcodeExt : BitVec 8) : Emit := do
  let d ← x86reg dst
  return [rexDst 0x48 dst, 0x81, 0xC0#8 ||| ((opcodeExt &&& 7) <<< 3) ||| (d &&& 7)] ++ emitU32 imm

def emitAluReg (opcode : BitVec 8) : Emit := emitRegReg 0x48 opcode dst src

def emitShiftImm (imm opcodeExt : BitVec 8) : Emit := do
  let d ← x86reg dst
  return [rexDst 0x48 dst, 0xC1, 0xE0#8 ||| ((opcodeExt &&& 7) <<< 3) ||| (d &&& 7), imm]

def emitCmpImm (imm : BitVec 32) : Emit := do
  let d ← x86reg dst
  return [rexDst 0x48 dst, 0x81, 0xF8#8 ||| (d &&& 7)] ++ emitU32 imm

def emitCmpReg : Emit := emitRegReg 0x48 0x39 dst src

def emitNeg : Emit := do
  let d ← x86reg dst
  return [rexDst 0x48 dst, 0xF7, 0xD8#8 ||| (d &&& 7)]

/-- `LSH` and `RSH` by a register: the count goes through `ecx`. -/
def emitShiftReg (modrm : BitVec 8) : Emit := do
  let count ← emitMovReg32 4 src
  let d ← x86reg dst
  return count ++ [rexDst 0x48 dst, 0xD3, modrm ||| (d &&& 7)]

def emitMulImm (imm : BitVec 32) : Emit := do
  let d ← x86reg dst
  return [rexDst 0x48 dst, 0x69, 0xC0#8 ||| (d &&& 7) <<< 3 ||| (d &&& 7)] ++ emitU32 imm

def emitMulReg : Emit := do
  let d ← x86reg dst
  let s ← x86reg src
  return [rexDstSrc 0x48 dst src, 0x0F, 0xAF, 0xC0#8 ||| ((s &&& 7) <<< 3) ||| (d &&& 7)]

def emitDivisor : Emit :=
  if insn.useImm then do
    let load ← emitMovImm64 8 (insn.imm.signExtend 64)
    let s ← x86reg 8
    return load ++ [0x49, 0xF7, 0xF0#8 ||| (s &&& 7)]
  else do
    let s ← x86reg insn.srcReg
    let rex : BitVec 8 := if needsRexb insn.srcReg then 0x48#8 ||| 0x01 else 0x48
    return [rex, 0xF7, 0xF0#8 ||| (s &&& 7)]

/-- `rax` is the register 0 of the program, which the dividend overwrites. -/
def emitDivMod : Emit := do
  let load ← emitMovReg64 0 insn.dstReg
  let divide ← emitDivisor insn
  let result ← if insn.aluOp = .mod then emitMovReg64 insn.dstReg 3 else .ok []
  return load ++ [0x48, 0x31, 0xD2] ++ divide ++ result

/-- `ADD`, `SUB`, `AND`, `OR` and `XOR`, the same in both ALU classes. -/
def emitAlu (opcodeExt opcode : BitVec 8) : Emit :=
  if insn.useImm then emitAluImm32 insn.dstReg insn.imm opcodeExt
  else emitAluReg insn.dstReg insn.srcReg opcode

def compileAlu64 : Emit :=
  let dst := insn.dstReg
  let src := insn.srcReg
  let imm := insn.imm
  match insn.aluOp with
  | .add => emitAlu insn 0 0x01
  | .sub => emitAlu insn 5 0x29
  | .and => emitAlu insn 4 0x21
  | .or => emitAlu insn 1 0x09
  | .xor => emitAlu insn 6 0x31
  | .lsh =>
    if insn.useImm then emitShiftImm dst (imm.setWidth 8) 4 else emitShiftReg dst src 0xE4
  | .rsh =>
    if insn.useImm then emitShiftImm dst (imm.setWidth 8) 5 else emitShiftReg dst src 0xEC
  | .neg => emitNeg dst
  | .mov => if insn.useImm then emitMovImm64 dst (imm.signExtend 64) else emitMovReg64 dst src
  | .mul => if insn.useImm then emitMulImm dst imm else emitMulReg dst src
  | .div | .mod => emitDivMod insn
  | .arsh | .undefined => .error "Unsupported ALU64 op in JIT"

def compileAlu32 : Emit :=
  match insn.aluOp with
  | .mov =>
    if insn.useImm then emitMovImm64 insn.dstReg (insn.imm.signExtend 64)
    else emitMovReg32 insn.dstReg insn.srcReg
  | .add => emitAlu insn 0 0x01
  | .sub => emitAlu insn 5 0x29
  | .and => emitAlu insn 4 0x21
  | .or => emitAlu insn 1 0x09
  | .xor => emitAlu insn 6 0x31
  | .mul | .div | .lsh | .rsh | .neg | .mod | .arsh | .undefined =>
    .error "Unsupported ALU32 op in JIT"

/-- `(1 + insn.off as i32) * 8`. -/
def targetBytes : BitVec 32 := (1 + insn.off.signExtend 32) * 8

def condByte : JmpOp → Except String (BitVec 8)
  | .jeq => .ok 0x84
  | .jne => .ok 0x85
  | .jgt => .ok 0x87
  | .jge => .ok 0x8D
  | .jset => .ok 0x85
  | .jsgt => .ok 0x8F
  | .jsge => .ok 0x8D
  | .ja | .call | .exit | .undefined => .error "Unsupported JMP condition"

def emitTest : Emit :=
  if insn.useImm then do
    let d ← x86reg insn.dstReg
    return [rexDst 0x48 insn.dstReg, 0xF7, 0xC0#8 ||| (d &&& 7)] ++ emitU32 insn.imm
  else emitRegReg 0x48 0x85 insn.dstReg insn.srcReg

def emitCmp : Emit :=
  if insn.useImm then emitCmpImm insn.dstReg insn.imm else emitCmpReg insn.dstReg insn.srcReg

/-- `jset` emits a comparison, takes it back and tests instead. -/
def emitCondJmp : Emit := do
  let cmp ← emitCmp insn
  let cc ← condByte insn.jmpOp
  if insn.jmpOp = .jset then
    -- the comparison is taken back
    let rewind := if insn.useImm then 7 else 3
    let test ← emitTest insn
    return cmp.take (cmp.length - rewind) ++ test ++ [0x0F, 0x85] ++ emitU32 (targetBytes insn)
  else return cmp ++ [0x0F, cc] ++ emitU32 (targetBytes insn)

/-- A call is compiled to `nop`. -/
def compileJmp : Emit :=
  match insn.jmpOp with
  | .ja => .ok (0xE9 :: emitU32 (targetBytes insn))
  | .exit => .ok (emitEpilogue ++ [0xC3])
  | .call => .ok [0x90]
  | _ => emitCondJmp insn

/-- `[reg + disp32]`. -/
def memModrm (s d : BitVec 8) : BitVec 8 := 0x80#8 ||| ((s &&& 7) <<< 3) ||| (d &&& 7)

def compileLdx : Emit := do
  let d ← x86reg insn.dstReg
  let s ← x86reg insn.srcReg
  let rex := rexDstSrc 0x48 insn.dstReg insn.srcReg
  let operand := memModrm s d :: emitU32 (insn.off.signExtend 32)
  match (insn.code &&& 0x18#8).toNat with
  | 0x00 => return [rex &&& ~~~0x08, 0x8B] ++ operand
  | 0x08 => return [rex, 0x0F, 0xB7] ++ operand
  | 0x10 => return [rex, 0x0F, 0xB6] ++ operand
  | 0x18 => return [rex, 0x8B] ++ operand
  | _ => .error "Unsupported LDX size"

def compileSt : Emit := do
  let d ← x86reg insn.dstReg
  let rex := rexDst 0x40 insn.dstReg
  let operand := (0x80#8 ||| (d &&& 7)) :: emitU32 (insn.off.signExtend 32)
  match (insn.code &&& 0x18#8).toNat with
  | 0x00 => return [rex, 0xC7] ++ operand ++ emitU32 insn.imm
  | 0x10 => return [rex, 0xC6] ++ operand ++ [insn.imm.setWidth 8]
  | _ => return [rex ||| 0x08, 0xC7] ++ operand ++ emitU32 insn.imm

def compileStx : Emit := do
  let d ← x86reg insn.dstReg
  let s ← x86reg insn.srcReg
  let rex := rexDstSrc 0x48 insn.dstReg insn.srcReg
  let operand := memModrm s d :: emitU32 (insn.off.signExtend 32)
  match (insn.code &&& 0x18#8).toNat with
  | 0x00 => return [rex &&& ~~~0x08, 0x89] ++ operand
  | 0x10 => return [rex &&& ~~~0x08, 0x88] ++ operand
  | _ => return [rex, 0x89] ++ operand

def compileInsn : Emit :=
  match insn.cls with
  | .alu64 => compileAlu64 insn
  | .alu => compileAlu32 insn
  | .jmp | .jmp32 => compileJmp insn
  | .ldx => compileLdx insn
  | .st => compileSt insn
  | .stx => compileStx insn
  | .ld => .error "BPF_LD class not supported in JIT"

def compileInsns : List EbpfInsn → Emit
  | [] => .ok []
  | insn :: insns => do
    let bytes ← compileInsn insn
    let rest ← compileInsns insns
    return bytes ++ rest

/-- Each exit has an epilogue of its own; none is emitted behind the program. -/
def compile (insns : List EbpfInsn) : Emit := do
  let body ← compileInsns insns
  return emitPrologue ++ body

theorem emit_bind {α β : Type} {x : Except String α} {f : α → Except String β} {b : β}
    (h : x >>= f = .ok b) : ∃ a, x = .ok a ∧ f a = .ok b := by
  cases x with
  | error e => cases h
  | ok a => exact ⟨a, rfl, h⟩

/-! ## Where the code of an instruction is -/

def emitted : Bytes := (compileInsn insn).toOption.getD []

def pos (insns : List EbpfInsn) (i : ℕ) : ℕ :=
  emitPrologue.length + ((insns.take i).flatMap emitted).length

theorem compileInsns_eq {body : Bytes} (h : compileInsns insns = .ok body) :
    body = insns.flatMap emitted ∧ ∀ insn ∈ insns, compileInsn insn = .ok (emitted insn) := by
  induction insns generalizing body with
  | nil =>
    cases h
    exact ⟨rfl, fun insn hmem => absurd hmem not_mem_nil⟩
  | cons insn insns ih =>
    obtain ⟨bytes, hinsn, h⟩ := emit_bind h
    obtain ⟨rest, hrest, h⟩ := emit_bind h
    cases h
    obtain ⟨rfl, hmem⟩ := ih hrest
    have hbytes : emitted insn = bytes := by
      rw [emitted, hinsn]
      rfl
    refine ⟨by rw [flatMap_cons, hbytes], fun insn' hinsn' => ?_⟩
    obtain rfl | hinsn' := mem_cons.mp hinsn'
    · rw [hinsn, hbytes]
    · exact hmem insn' hinsn'

section Layout

variable {insns : List EbpfInsn} {code : Bytes} (h : compile insns = .ok code)

include h

theorem compile_eq : code = emitPrologue ++ insns.flatMap emitted ∧
    ∀ insn ∈ insns, compileInsn insn = .ok (emitted insn) := by
  obtain ⟨body, hbody, h⟩ := emit_bind h
  cases h
  obtain ⟨rfl, hmem⟩ := compileInsns_eq hbody
  exact ⟨rfl, hmem⟩

theorem drop_compile {i : ℕ} {insn : EbpfInsn} (hi : insns[i]? = some insn) :
    code.drop (pos insns i) = emitted insn ++ (insns.drop (i + 1)).flatMap emitted := by
  obtain ⟨rfl, -⟩ := compile_eq h
  have hsplit : insns.flatMap emitted = (insns.take i).flatMap emitted ++
      (emitted insn ++ (insns.drop (i + 1)).flatMap emitted) := by
    obtain ⟨hlt, rfl⟩ := List.getElem?_eq_some_iff.mp hi
    rw [← flatMap_cons, ← drop_eq_getElem_cons hlt, ← flatMap_append, take_append_drop]
  rw [pos, ← drop_drop, drop_left, hsplit, drop_left]

end Layout

theorem pos_succ {i : ℕ} {insn : EbpfInsn} (hi : insns[i]? = some insn) :
    pos insns (i + 1) = pos insns i + (emitted insn).length := by
  rw [pos, pos, take_add_one, hi, flatMap_append, length_append, Nat.add_assoc]
  simp

/-! ## Registers -/

def hostReg (i : Fin 11) : Reg :=
  match i.val with
  | 0 => .rax
  | 1 => .rdi
  | 2 => .rsi
  | 3 => .rdx
  | 4 => .rcx
  | 5 => .r8
  | 6 => .r9
  | 7 => .r10
  | 8 => .r11
  | 9 => .r12
  | _ => .r13

theorem hostReg_inj {i j : Fin 11} : hostReg i = hostReg j ↔ i = j := by
  revert i j
  decide

theorem hostReg_ne_rsp (i : Fin 11) : hostReg i ≠ .rsp := by
  revert i
  decide

theorem x86reg_eq_ok {r d : BitVec 8} (h : x86reg r = .ok d) :
    d.toNat < 8 ∧ ∃ i : Fin 11, r.toNat = i ∧ regOf (needsRexb r) d.toNat = hostReg i := by
  have htable : ∀ i : Fin 11, ∀ e, x86reg (BitVec.ofNat 8 i) = .ok e → e.toNat < 8 ∧
      regOf (needsRexb (BitVec.ofNat 8 i)) e.toNat = hostReg i := by
    intro i e he
    match i with
    | 0 | 1 | 2 | 3 | 4 | 5 | 6 | 7 | 8 | 9 | 10 =>
      cases he
      decide
  have hle : r.toNat < 11 := by
    by_contra hout
    rw [x86reg] at h
    split at h <;> first | omega | cases h
  have hr : BitVec.ofNat 8 r.toNat = r := by rw [BitVec.ofNat_toNat, BitVec.setWidth_eq]
  have hentry := htable ⟨r.toNat, hle⟩ d
  rw [hr] at hentry
  exact ⟨(hentry h).1, ⟨r.toNat, hle⟩, rfl, (hentry h).2⟩

theorem rexDst_eq :
    rexDst 0x48 dst = rexByte true (needsRexr dst) false false := by
  rw [rexDst]
  cases needsRexr dst <;> rfl

theorem rexDstSrc_eq :
    rexDstSrc 0x48 dst src = rexByte true (needsRexr dst) false (needsRexb src) := by
  rw [rexDstSrc, rexDst]
  cases needsRexr dst <;> cases needsRexb src <;> rfl

end Vahi.Ebpf
