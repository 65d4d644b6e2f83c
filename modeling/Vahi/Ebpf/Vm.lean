import Vahi.Lib.Outcome
import Vahi.Lib.Run
import Mathlib.Tactic.Ring

/-!
# The eBPF interpreter

`EbpfVm::exec_raw` (`kernel/src/ebpf/vm.rs`) and the helpers it calls (`helpers.rs`). Offsets
`0 .. 511` of memory are the program's stack, the others kernel memory apart from the registers and
the program. What the helpers read may change at every step.
-/

namespace Vahi.Ebpf

open Vahi.Lib

def stackSize : ℕ := 512

structure EbpfInsn where
  code : BitVec 8
  dstReg : BitVec 8
  srcReg : BitVec 8
  off : BitVec 16
  imm : BitVec 32
  deriving DecidableEq, Inhabited

inductive InsnClass where
  | ld | ldx | st | stx | alu | jmp | jmp32 | alu64
  deriving DecidableEq

inductive AluOp where
  | add | sub | mul | div | or | and | lsh | rsh | neg | mod | xor | mov | arsh | undefined
  deriving DecidableEq

inductive JmpOp where
  | ja | jeq | jgt | jge | jset | jne | jsgt | jsge | call | exit | undefined
  deriving DecidableEq

namespace EbpfInsn

variable (insn : EbpfInsn)

def cls : InsnClass :=
  match (insn.code &&& 0x07#8).toNat with
  | 0x00 => .ld
  | 0x01 => .ldx
  | 0x02 => .st
  | 0x03 => .stx
  | 0x04 => .alu
  | 0x05 => .jmp
  | 0x06 => .jmp32
  | _ => .alu64

def aluOp : AluOp :=
  match (insn.code &&& 0xf0#8).toNat with
  | 0x00 => .add
  | 0x10 => .sub
  | 0x20 => .mul
  | 0x30 => .div
  | 0x40 => .or
  | 0x50 => .and
  | 0x60 => .lsh
  | 0x70 => .rsh
  | 0x80 => .neg
  | 0x90 => .mod
  | 0xa0 => .xor
  | 0xb0 => .mov
  | 0xc0 => .arsh
  | _ => .undefined

def jmpOp : JmpOp :=
  match (insn.code &&& 0xf0#8).toNat with
  | 0x00 => .ja
  | 0x10 => .jeq
  | 0x20 => .jgt
  | 0x30 => .jge
  | 0x40 => .jset
  | 0x50 => .jne
  | 0x60 => .jsgt
  | 0x70 => .jsge
  | 0x80 => .call
  | 0x90 => .exit
  | _ => .undefined

def isJmp : Bool :=
  insn.cls == .jmp || insn.cls == .jmp32

def isAlu : Bool :=
  insn.cls == .alu || insn.cls == .alu64

def useImm : Bool :=
  insn.code &&& 0x08#8 != 0#8

def sizeBytes : ℕ :=
  match (insn.code &&& 0x18#8).toNat with
  | 0x00 => 8
  | 0x08 => 4
  | 0x10 => 2
  | 0x18 => 1
  | _ => 0

def isLdDw : Bool :=
  insn.code &&& 0x18#8 == 0x18#8 && insn.code &&& 0xe0#8 == 0#8

end EbpfInsn

/-- `EbpfRegs`: reads outside the file give `0`, writes outside it are dropped. -/
abbrev EbpfRegs := Fin 11 → BitVec 64

namespace EbpfRegs

def r (regs : EbpfRegs) (i : ℕ) : BitVec 64 :=
  if h : i < 11 then regs ⟨i, h⟩ else 0

def setR (regs : EbpfRegs) (i : ℕ) (v : BitVec 64) : EbpfRegs :=
  if h : i < 11 then Function.update regs ⟨i, h⟩ v else regs

end EbpfRegs

abbrev Memory := BitVec 64 → BitVec 8

namespace Memory

variable (mem : Memory) (addr : BitVec 64)

def load (n : ℕ) : BitVec 64 :=
  (List.range n).foldr
    (fun i acc => (acc <<< 8) ||| (mem (addr + BitVec.ofNat 64 i)).setWidth 64) 0

def readBytes (n : ℕ) : List (BitVec 8) :=
  (List.range n).map fun i => mem (addr + BitVec.ofNat 64 i)

def store (n : ℕ) (v : BitVec 64) : Memory := fun a =>
  if (a - addr).toNat < n then (v >>> (8 * (a - addr).toNat)).setWidth 8 else mem a

def writeBytes (bytes : List (BitVec 8)) : Memory := fun a =>
  bytes.getD (a - addr).toNat (mem a)

end Memory

structure MapView where
  keySize : ℕ
  valueSize : ℕ
  lookup : List (BitVec 8) → Option (List (BitVec 8))

/-- What the helpers ask of the kernel. -/
structure HelperEnv where
  getMap : BitVec 64 → Option MapView
  currentPid : BitVec 64
  ticks : BitVec 64
  prandom : BitVec 32
  cpuId : BitVec 64

def HelperEnv.idle : HelperEnv := ⟨fun _ => none, 0, 0, 0, 0⟩

structure Access where
  addr : BitVec 64
  size : ℕ

structure VmState where
  pc : ℕ
  regs : EbpfRegs
  mem : Memory

inductive VmEvent where
  | running (s : VmState)
  | returned (r0 : BitVec 64)

structure Transition where
  event : VmEvent
  accesses : List Access

/-! ### Arithmetic and comparisons -/

/-- The quotient `i64::MIN / -1` is not representable; Rust panics on it. -/
def divOverflows (dst src : BitVec 64) : Bool :=
  dst == BitVec.intMin 64 && src == -1#64

/-- `DIV` and `MOD`: a zero divisor gives `0`. -/
def divide (f : BitVec 64 → BitVec 64 → BitVec 64) (dst src : BitVec 64) : Outcome (BitVec 64) :=
  if src = 0#64 then .ok 0 else if divOverflows dst src then .panic else .ok (f dst src)

def aluResult (op : AluOp) (dst src : BitVec 64) : Outcome (BitVec 64) :=
  match op with
  | .add => .ok (dst + src)
  | .sub => .ok (dst - src)
  | .mul => .ok (dst * src)
  | .div => divide BitVec.sdiv dst src
  | .or => .ok (dst ||| src)
  | .and => .ok (dst &&& src)
  | .lsh => .ok (dst <<< ((src.setWidth 32).toNat % 64))
  | .rsh => .ok (dst >>> ((src.setWidth 32).toNat % 64))
  | .mod => divide BitVec.srem dst src
  | .xor => .ok (dst ^^^ src)
  | .mov => .ok src
  -- the interpreter shifts in zeros here as well
  | .arsh => .ok (dst >>> ((src.setWidth 32).toNat % 64))
  | .neg => .ok (-dst)
  | .undefined => .ok 0

def narrow (v : BitVec 64) : BitVec 64 := (v.setWidth 32).signExtend 64

theorem setWidth_signExtend (v : BitVec 32) : (v.signExtend 64).setWidth 32 = v := by
  apply BitVec.eq_of_getLsbD_eq
  intro i hi
  rw [BitVec.getLsbD_setWidth, BitVec.getLsbD_signExtend, if_pos hi]
  simp [-BitVec.getLsbD_eq_getElem, show i < 64 by omega, hi]

namespace EbpfInsn

def aluSrc (insn : EbpfInsn) (regs : EbpfRegs) : BitVec 64 :=
  if insn.useImm then insn.imm.signExtend 64 else regs.r insn.srcReg.toNat

def jmpVal (insn : EbpfInsn) (v : BitVec 64) : BitVec 64 :=
  if insn.cls = .jmp32 then narrow v else v

/-- Whether a jump instruction leaves the straight line. The second operand is
the source register, also when the immediate bit is set. -/
def taken (insn : EbpfInsn) (regs : EbpfRegs) : Bool :=
  let src := insn.jmpVal (regs.r insn.srcReg.toNat)
  let dst := insn.jmpVal (regs.r insn.dstReg.toNat)
  match insn.jmpOp with
  | .ja => true
  | .jeq => dst == src
  | .jgt => src.ult dst
  | .jge => src.ule dst
  | .jset => dst &&& src != 0#64
  | .jne => dst != src
  | .jsgt => src.slt dst
  | .jsge => src.sle dst
  | .call => false
  | .exit => false
  | .undefined => false

end EbpfInsn

/-! ### Helpers -/

variable (insns : List EbpfInsn) (env : HelperEnv) (insn : EbpfInsn) (s : VmState)

/-- The return code of `bpf_helper_map_lookup_elem`, the memory behind it and
the stack ranges it touches. -/
def mapLookupElem (mem : Memory) (mapFd keyOff valOff : BitVec 64) :
    BitVec 64 × Memory × List Access :=
  match env.getMap mapFd with
  | some m =>
    if keyOff.toNat + m.keySize > stackSize then (-1, mem, [])
    else if valOff.toNat + m.valueSize > stackSize then (-1, mem, [])
    else
      match m.lookup (mem.readBytes keyOff m.keySize) with
      | some val =>
        let copyLen := min val.length m.valueSize
        (0, mem.writeBytes valOff (val.take copyLen), [⟨keyOff, m.keySize⟩, ⟨valOff, copyLen⟩])
      | none => (-1, mem, [⟨keyOff, m.keySize⟩])
  | none => (-2, mem, [])

/-- `bpf_helper_debug_print` only reads; what it prints is not modelled. -/
def debugPrint (msgOff len : BitVec 64) : List Access :=
  if msgOff.toNat + len.toNat > stackSize then [] else [⟨msgOff, len.toNat⟩]

def lockInRange (lockOff : BitVec 64) : Bool :=
  (lockOff + 8#64).toNat ≤ stackSize

/-- The state after a helper: registers, memory and accesses; `none` ends the
program with result `0`. -/
abbrev CallResult := Option (EbpfRegs × Memory × List Access)

/-- Helper 10 ends the program; an unknown number does nothing. -/
def callHelper (imm : BitVec 32) (regs : EbpfRegs) (mem : Memory) : Outcome CallResult :=
  match imm.toNat with
  | 1 =>
    let (ret, mem', accesses) := mapLookupElem env mem (regs.r 1) (regs.r 2) (regs.r 3)
    .ok (some (regs.setR 0 ret, mem', accesses))
  | 2 => .ok (some (regs.setR 0 env.currentPid, mem, []))
  | 3 => .ok (some (regs.setR 0 env.ticks, mem, []))
  | 4 => .ok (some (regs, mem, debugPrint (regs.r 1) (regs.r 2)))
  | 5 => .ok (some (regs.setR 0 (env.ticks * 10000000#64), mem, []))
  | 6 => .ok (some (regs.setR 0 (env.prandom.setWidth 64), mem, []))
  | 7 => .ok (some (regs.setR 0 env.cpuId, mem, []))
  | 8 =>
    if lockInRange (regs.r 1) then
      -- the program's own stack: nobody else can release the lock
      if mem.load (regs.r 1) 8 = 0 then
        .ok (some (regs, mem.store (regs.r 1) 8 1, [⟨regs.r 1, 8⟩]))
      else .hang
    else .ok (some (regs, mem, []))
  | 9 =>
    if lockInRange (regs.r 1) then
      .ok (some (regs, mem.store (regs.r 1) 8 0, [⟨regs.r 1, 8⟩]))
    else .ok (some (regs, mem, []))
  | 10 => .ok none
  | _ => .ok (some (regs, mem, []))

/-! ### The loop body -/

def effAddr (base : BitVec 64) (insn : EbpfInsn) : BitVec 64 :=
  base + insn.off.signExtend 64

/-- The bounds check `addr + size > STACK_SIZE`, with the sum wrapping. -/
def inBounds (addr : BitVec 64) (size : ℕ) : Bool :=
  (addr + BitVec.ofNat 64 size).toNat ≤ stackSize

/-- The program counter behind a taken jump: relative to the jump itself. -/
def jumpTo (pc : ℕ) (off : BitVec 16) : ℕ :=
  if off.toInt < 0 then (pc + 2 ^ 64 - off.toInt.natAbs) % 2 ^ 64 else pc + off.toInt.natAbs

def VmState.advance (n : ℕ) : Transition :=
  ⟨.running { s with pc := s.pc + n }, []⟩

def stepAlu : Outcome Transition := do
  let result ← aluResult insn.aluOp (s.regs.r insn.dstReg.toNat) (insn.aluSrc s.regs)
  let value := if insn.cls = .alu64 then result else narrow result
  return ({ s with regs := s.regs.setR insn.dstReg.toNat value }).advance 1

/-- A taken jump by -1 ends the program. -/
def stepJmp : Outcome Transition :=
  match insn.jmpOp with
  | .call => do
    match ← callHelper env insn.imm s.regs s.mem with
    | some (regs, mem, accesses) =>
      return ⟨.running { pc := s.pc + 1, regs := regs, mem := mem }, accesses⟩
    | none => return ⟨.returned 0, []⟩
  | .exit => .ok ⟨.returned (s.regs.r 0), []⟩
  | _ =>
    if insn.taken s.regs then
      if insn.off.toInt = -1 then .ok ⟨.returned (s.regs.r 0), []⟩
      else .ok ⟨.running { s with pc := jumpTo s.pc insn.off }, []⟩
    else .ok (s.advance 1)

/-- The lower half is sign-extended, so that a negative one sets the upper half. -/
def stepLd : Transition :=
  if insn.isLdDw then
    let nextInsn := insns.getD (s.pc + 1) ⟨0, 0, 0, 0, 0⟩
    let imm64 := insn.imm.signExtend 64 ||| (nextInsn.imm.signExtend 64 <<< 32)
    ({ s with regs := s.regs.setR insn.dstReg.toNat imm64 }).advance 2
  else s.advance 1

/-- A load outside of the stack is skipped. -/
def stepLdx : Transition :=
  let addr := effAddr (s.regs.r insn.srcReg.toNat) insn
  if inBounds addr insn.sizeBytes then
    ⟨.running { s with
      pc := s.pc + 1
      regs := s.regs.setR insn.dstReg.toNat (s.mem.load addr insn.sizeBytes) },
      [⟨addr, insn.sizeBytes⟩]⟩
  else s.advance 1

/-- A store of `size` bytes of `val`: `ST` with eight bytes of the immediate,
`STX` with the low bytes of the source register. -/
def stepStore (size : ℕ) (val : BitVec 64) (s : VmState) : Transition :=
  let addr := effAddr (s.regs.r insn.dstReg.toNat) insn
  if inBounds addr size then
    ⟨.running { s with pc := s.pc + 1, mem := s.mem.store addr size val }, [⟨addr, size⟩]⟩
  else s.advance 1

/-- The arm of the loop for the class of the instruction. -/
def stepInsn : Outcome Transition :=
  match insn.cls with
  | .alu | .alu64 => stepAlu insn s
  | .jmp | .jmp32 => stepJmp env insn s
  | .ld => .ok (stepLd insns insn s)
  | .ldx => .ok (stepLdx insn s)
  | .st => .ok (stepStore insn 8 (insn.imm.signExtend 64) s)
  | .stx => .ok (stepStore insn insn.sizeBytes (s.regs.r insn.srcReg.toNat) s)

/-- One round of the loop of `exec_raw`; past the program's end the loop returns `r0`. -/
def step : Outcome Transition :=
  match insns[s.pc]? with
  | some insn => stepInsn insns env insn s
  | none => .ok ⟨.returned (s.regs.r 0), []⟩

def next : Option VmState :=
  match step insns env s with
  | .ok ⟨.running s', _⟩ => some s'
  | _ => none

def VmState.start (regs : EbpfRegs) (mem : Memory) : VmState := ⟨0, regs, mem⟩

theorem next_eq_some {insns : List EbpfInsn} {env : HelperEnv} {s s' : VmState} :
    next insns env s = some s' ↔ ∃ accesses, step insns env s = .ok ⟨.running s', accesses⟩ := by
  rw [next]
  rcases step insns env s with ⟨⟨t | v, accesses⟩⟩ | _ | _
  · constructor
    · intro h
      obtain rfl : t = s' := Option.some.inj h
      exact ⟨accesses, rfl⟩
    · rintro ⟨accesses', h⟩
      cases h
      rfl
  · simp
  · simp
  · simp

end Vahi.Ebpf
