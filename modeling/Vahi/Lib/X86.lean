import Vahi.Lib.Layout
import Vahi.Lib.Simulation
import Vahi.Lib.WordMemory

/-!
# A subset of x86-64

Decoding and execution of the instructions that simple code generators use. `rip` is an offset into
the code, which is not in memory. An instruction outside the subset, a division that faults and a
jump on unspecified flags have no next state.
-/

namespace Vahi.Lib.X86

open List Function Option

inductive Reg where
  | rax | rcx | rdx | rbx | rsp | rbp | rsi | rdi
  | r8 | r9 | r10 | r11 | r12 | r13 | r14 | r15
  deriving DecidableEq

structure Flags where
  carry : Bool
  zero : Bool
  sign : Bool
  overflow : Bool
  deriving DecidableEq

/-- `flags` is `none` after an instruction that leaves some of them undefined. -/
structure State where
  rip : ℕ
  regs : Reg → BitVec 64
  flags : Option Flags
  mem : ByteMemory

inductive Size where
  | byte | word | dword | qword
  deriving DecidableEq

namespace Size

def bytes : Size → ℕ
  | .byte => 1
  | .word => 2
  | .dword => 4
  | .qword => 8

def bits : Size → ℕ
  | .byte => 8
  | .word => 16
  | .dword => 32
  | .qword => 64

end Size

/-- A register, or memory at `base + index * scale + disp`. -/
inductive Operand where
  | reg (r : Reg)
  | mem (base : Reg) (index : Option (Reg × ℕ)) (disp : BitVec 32)
  deriving DecidableEq

inductive Source where
  | reg (r : Reg)
  | imm (v : BitVec 64)
  deriving DecidableEq

def Source.value (regs : Reg → BitVec 64) : Source → BitVec 64
  | .reg r => regs r
  | .imm v => v

inductive BinOp where
  | add | or | and | sub | xor | cmp | test | mov
  deriving DecidableEq

inductive ShiftOp where
  | shl | shr | sar
  deriving DecidableEq

inductive Cond where
  | e | ne | a | ge | g
  deriving DecidableEq

inductive Insn where
  | bin (op : BinOp) (size : Size) (dst : Operand) (src : Source)
  | shift (op : ShiftOp) (size : Size) (dst : Operand) (count : Source)
  | neg (size : Size) (dst : Operand)
  | imul (size : Size) (dst : Reg) (src : Operand) (factor : Source)
  | div (size : Size) (src : Operand)
  /-- A move to a register with zeros in front. -/
  | load (size : Size) (dst : Reg) (src : Operand)
  | movImm (dst : Reg) (v : BitVec 64)
  | push (r : Reg)
  | pop (r : Reg)
  | nop
  | ret
  | jmp (rel : BitVec 32)
  | jcc (c : Cond) (rel : BitVec 32)
  deriving DecidableEq

/-! ### Decoding -/

abbrev Bytes := List (BitVec 8)

structure Rex where
  present : Bool
  w : Bool
  r : Bool
  x : Bool
  b : Bool
  deriving DecidableEq

def Rex.absent : Rex := ⟨false, false, false, false, false⟩

variable (rex : Rex) (bs : Bytes)

def Rex.size : Size := if rex.w then .qword else .dword

def rexByte (w r x b : Bool) : BitVec 8 :=
  0x40#8 ||| (if w then 8 else 0) ||| (if r then 4 else 0) ||| (if x then 2 else 0) |||
    (if b then 1 else 0)

def rexOf (byte : BitVec 8) : Option Rex :=
  if byte.toNat / 16 = 4 then
    some ⟨true, byte.getLsbD 3, byte.getLsbD 2, byte.getLsbD 1, byte.getLsbD 0⟩
  else none

/-- A register from the bit of the prefix and three bits of the instruction. -/
def regOf (high : Bool) (low : ℕ) : Reg :=
  match low % 8 with
  | 0 => if high then .r8 else .rax
  | 1 => if high then .r9 else .rcx
  | 2 => if high then .r10 else .rdx
  | 3 => if high then .r11 else .rbx
  | 4 => if high then .r12 else .rsp
  | 5 => if high then .r13 else .rbp
  | 6 => if high then .r14 else .rsi
  | _ => if high then .r15 else .rdi

def leBytes (n v : ℕ) : Bytes := (List.range n).map (byteOf v)

def le32 : Option (BitVec 32 × Bytes) :=
  if 4 ≤ bs.length then some (BitVec.ofNat 32 (ofBytes (fun i => bs.getD i 0) 4), bs.drop 4)
  else none

def le64 : Option (BitVec 64 × Bytes) := do
  let (lo, bs) ← le32 bs
  let (hi, bs) ← le32 bs
  return (hi ++ lo, bs)

structure ModRm where
  reg : Reg
  /-- The middle three bits, which may extend the opcode. -/
  ext : ℕ
  rm : Operand

/-- The byte that names a register operand directly. -/
def modRmByte (reg rm : BitVec 8) : BitVec 8 := 0xC0#8 ||| (reg &&& 7) <<< 3 ||| (rm &&& 7)

/-- Operands in registers and in memory with a 32-bit displacement; `rm = 4` stands for a byte
with base, index and scale. -/
def decodeModRm : Bytes → Option (ModRm × Bytes)
  | [] => none
  | b :: bs =>
    let ext := b.toNat / 8 % 8
    let rm := b.toNat % 8
    match b.toNat / 64 with
    | 3 => some (⟨regOf rex.r ext, ext, .reg (regOf rex.b rm)⟩, bs)
    | 2 =>
      if rm = 4 then
        match bs with
        | [] => none
        | sib :: bs => do
          let (disp, bs) ← le32 bs
          let index := regOf rex.x (sib.toNat / 8)
          let index := if index = .rsp then none else some (index, 2 ^ (sib.toNat / 64))
          return (⟨regOf rex.r ext, ext, .mem (regOf rex.b sib.toNat) index disp⟩, bs)
      else do
        let (disp, bs) ← le32 bs
        return (⟨regOf rex.r ext, ext, .mem (regOf rex.b rm) none disp⟩, bs)
    | _ => none

def binOpOf : ℕ → Option BinOp
  | 0x01 => some .add
  | 0x09 => some .or
  | 0x21 => some .and
  | 0x29 => some .sub
  | 0x31 => some .xor
  | 0x39 => some .cmp
  | 0x85 => some .test
  | 0x89 => some .mov
  | _ => none

def binOpOfExt : ℕ → Option BinOp
  | 0 => some .add
  | 1 => some .or
  | 4 => some .and
  | 5 => some .sub
  | 6 => some .xor
  | 7 => some .cmp
  | _ => none

def shiftOpOf : ℕ → Option ShiftOp
  | 4 => some .shl
  | 5 => some .shr
  | 7 => some .sar
  | _ => none

def condOf : ℕ → Option Cond
  | 0x84 => some .e
  | 0x85 => some .ne
  | 0x87 => some .a
  | 0x8D => some .ge
  | 0x8F => some .g
  | _ => none

def decodeOp2 : Bytes → Option (Insn × Bytes)
  | [] => none
  | op :: bs =>
    match op.toNat with
    | 0xAF => (decodeModRm rex bs).map fun (m, bs) => (.imul rex.size m.reg m.rm (.reg m.reg), bs)
    | 0xB6 => (decodeModRm rex bs).map fun (m, bs) => (.load .byte m.reg m.rm, bs)
    | 0xB7 => (decodeModRm rex bs).map fun (m, bs) => (.load .word m.reg m.rm, bs)
    | n => do
      let c ← condOf n
      let (rel, bs) ← le32 bs
      return (.jcc c rel, bs)

def decodeImm (f : ModRm → Option BinOp) : Option (Insn × Bytes) := do
  let (m, bs) ← decodeModRm rex bs
  let op ← f m
  let (v, bs) ← le32 bs
  return (.bin op rex.size m.rm (.imm (v.signExtend 64)), bs)

def decodeUnary : Option (Insn × Bytes) := do
  let (m, bs') ← decodeModRm rex bs
  match m.ext with
  | 0 => decodeImm rex bs fun _ => some .test
  | 3 => return (.neg rex.size m.rm, bs')
  | 6 => return (.div rex.size m.rm, bs')
  | _ => none

def decodeShift (byImm : Bool) : Option (Insn × Bytes) := do
  let (m, bs) ← decodeModRm rex bs
  let op ← shiftOpOf m.ext
  if byImm then
    match bs with
    | [] => none
    | v :: bs => return (.shift op rex.size m.rm (.imm (v.setWidth 64)), bs)
  else return (.shift op rex.size m.rm (.reg .rcx), bs)

def decodeImul : Option (Insn × Bytes) := do
  let (m, bs) ← decodeModRm rex bs
  let (v, bs) ← le32 bs
  return (.imul rex.size m.reg m.rm (.imm (v.signExtend 64)), bs)

/-- Bytes moved to memory. Without a prefix, numbers above 3 name other registers. -/
def decodeByteStore : Option (Insn × Bytes) := do
  let (m, bs) ← decodeModRm rex bs
  if rex.present then return (.bin .mov .byte m.rm (.reg m.reg), bs) else none

def decodeByteImm : Option (Insn × Bytes) := do
  let (m, bs) ← decodeModRm rex bs
  if rex.present ∧ m.ext = 0 then
    match bs with
    | [] => none
    | v :: bs => return (.bin .mov .byte m.rm (.imm (v.setWidth 64)), bs)
  else none

/-- Opcodes that contain a register, and those without operands. -/
def decodeShort (op : ℕ) (bs : Bytes) : Option (Insn × Bytes) :=
  if 0x50 ≤ op ∧ op < 0x58 then some (.push (regOf rex.b op), bs)
  else if 0x58 ≤ op ∧ op < 0x60 then some (.pop (regOf rex.b op), bs)
  else if 0xB8 ≤ op ∧ op < 0xC0 then
    if rex.w then (le64 bs).map fun (v, bs) => (.movImm (regOf rex.b op) v, bs)
    else (le32 bs).map fun (v, bs) => (.movImm (regOf rex.b op) (v.setWidth 64), bs)
  else if op = 0x90 ∧ rex.b = false then some (.nop, bs)
  else if op = 0xC3 then some (.ret, bs)
  else if op = 0xE9 then (le32 bs).map fun (rel, bs) => (.jmp rel, bs)
  else none

def decodeOp : Bytes → Option (Insn × Bytes)
  | [] => none
  | op :: bs =>
    match binOpOf op.toNat with
    | some b => (decodeModRm rex bs).map fun (m, bs) => (.bin b rex.size m.rm (.reg m.reg), bs)
    | none =>
      match op.toNat with
      | 0x0F => decodeOp2 rex bs
      | 0x69 => decodeImul rex bs
      | 0x81 => decodeImm rex bs fun m => binOpOfExt m.ext
      | 0x88 => decodeByteStore rex bs
      | 0x8B => (decodeModRm rex bs).map fun (m, bs) => (.load rex.size m.reg m.rm, bs)
      | 0xC1 => decodeShift rex bs true
      | 0xC6 => decodeByteImm rex bs
      | 0xC7 => decodeImm rex bs fun m => if m.ext = 0 then some .mov else none
      | 0xD3 => decodeShift rex bs false
      | 0xF7 => decodeUnary rex bs
      | n => decodeShort rex n bs

def decode : Bytes → Option (Insn × Bytes)
  | [] => none
  | b :: bs =>
    match rexOf b with
    | some rex => decodeOp rex bs
    | none => decodeOp .absent (b :: bs)

/-! ### Execution -/

def storeBytes (m : ByteMemory) (a : BitVec 64) (n : ℕ) (v : BitVec 64) : ByteMemory := fun x =>
  if (x - a).toNat < n then (v >>> (8 * (x - a).toNat)).setWidth 8 else m x

def binary (op : BinOp) {n : ℕ} (a b : BitVec n) : BitVec n :=
  match op with
  | .add => a + b
  | .or => a ||| b
  | .and | .test => a &&& b
  | .sub | .cmp => a - b
  | .xor => a ^^^ b
  | .mov => b

def flagsOf (op : BinOp) {n : ℕ} (a b : BitVec n) : Flags :=
  let r := binary op a b
  match op with
  | .add => ⟨2 ^ n ≤ a.toNat + b.toNat, r == 0, r.msb, a.msb == b.msb && r.msb != a.msb⟩
  | .sub | .cmp => ⟨a.ult b, r == 0, r.msb, a.msb != b.msb && r.msb != a.msb⟩
  | _ => ⟨false, r == 0, r.msb, false⟩

def Cond.holds (f : Flags) : Cond → Bool
  | .e => f.zero
  | .ne => !f.zero
  | .a => !f.carry && !f.zero
  | .ge => f.sign == f.overflow
  | .g => !f.zero && f.sign == f.overflow

def shifted (op : ShiftOp) {n : ℕ} (a : BitVec n) (c : ℕ) : BitVec n :=
  match op with
  | .shl => a <<< c
  | .shr => a >>> c
  | .sar => a.sshiftRight c

namespace State

def setReg (s : State) (r : Reg) (v : BitVec 64) : State :=
  { s with regs := update s.regs r v }

def address (s : State) (base : Reg) (index : Option (Reg × ℕ)) (disp : BitVec 32) : BitVec 64 :=
  s.regs base + (index.elim 0 fun (r, scale) => s.regs r * BitVec.ofNat 64 scale) +
    disp.signExtend 64

def read (s : State) (size : Size) : Operand → BitVec 64
  | .reg r => ((s.regs r).setWidth size.bits).setWidth 64
  | .mem base index disp => loadBytes s.mem (s.address base index disp) size.bytes

/-- A write of 32 bits clears the upper half of the register, a shorter one leaves the rest. -/
def write (s : State) (size : Size) (v : BitVec 64) : Operand → State
  | .reg r =>
    match size with
    | .qword => s.setReg r v
    | .dword => s.setReg r ((v.setWidth 32).setWidth 64)
    | .word => s.setReg r ((s.regs r >>> 16 <<< 16) ||| (v.setWidth 16).setWidth 64)
    | .byte => s.setReg r ((s.regs r >>> 8 <<< 8) ||| (v.setWidth 8).setWidth 64)
  | .mem base index disp =>
    { s with mem := storeBytes s.mem (s.address base index disp) size.bytes v }

def jump (s : State) (rel : BitVec 32) : Option State :=
  let target := (s.rip : Int) + rel.toInt
  if 0 ≤ target then some { s with rip := target.toNat } else none

end State

inductive Event where
  | running (s : State)
  | returned (target : BitVec 64) (s : State)

def execBin (op : BinOp) (size : Size) (dst : Operand) (src : Source) (s : State) : State :=
  let a := (s.read size dst).setWidth size.bits
  let b := (src.value s.regs).setWidth size.bits
  let value := (binary op a b).setWidth 64
  match op with
  | .mov => s.write size value dst
  | .cmp | .test => { s with flags := some (flagsOf op a b) }
  | _ => { s with flags := some (flagsOf op a b) }.write size value dst

/-- A count of zero leaves the flags alone. -/
def execShift (op : ShiftOp) (size : Size) (dst : Operand) (count : Source) (s : State) : State :=
  let c := (count.value s.regs).toNat % (if size = .qword then 64 else 32)
  let a := (s.read size dst).setWidth size.bits
  { s with flags := if c = 0 then s.flags else none }.write size ((shifted op a c).setWidth 64) dst

/-- The quotient of `rdx:rax`, or nothing if it does not fit or the divisor is zero. -/
def execDiv (size : Size) (src : Operand) (s : State) : Option State :=
  let d := (s.read size src).toNat
  let n := (s.read size (.reg .rdx)).toNat * 2 ^ size.bits + (s.read size (.reg .rax)).toNat
  if d = 0 ∨ 2 ^ size.bits ≤ n / d then none
  else
    some (({ s with flags := none }.write size (BitVec.ofNat 64 (n / d)) (.reg .rax)).write size
      (BitVec.ofNat 64 (n % d)) (.reg .rdx))

/-- One instruction, with `rip` behind it already. -/
def exec (insn : Insn) (s : State) : Option Event :=
  match insn with
  | .bin op size dst src => some (.running (execBin op size dst src s))
  | .shift op size dst count => some (.running (execShift op size dst count s))
  | .neg size dst =>
    let a := (s.read size dst).setWidth size.bits
    some (.running ({ s with flags := some (flagsOf .sub 0 a) }.write size ((-a).setWidth 64) dst))
  | .imul size dst src factor =>
    let a := (s.read size src).setWidth size.bits
    let b := (factor.value s.regs).setWidth size.bits
    some (.running ({ s with flags := none }.write size ((a * b).setWidth 64) (.reg dst)))
  | .div size src => (execDiv size src s).map .running
  | .load size dst src => some (.running (s.setReg dst (s.read size src)))
  | .movImm dst v => some (.running (s.setReg dst v))
  | .push r =>
    let a := s.regs .rsp - 8
    some (.running { s.setReg .rsp a with mem := store64 s.mem a (s.regs r) })
  | .pop r =>
    some (.running ((s.setReg .rsp (s.regs .rsp + 8)).setReg r (load64 s.mem (s.regs .rsp))))
  | .nop => some (.running s)
  | .ret => some (.returned (load64 s.mem (s.regs .rsp)) (s.setReg .rsp (s.regs .rsp + 8)))
  | .jmp rel => (s.jump rel).map .running
  | .jcc c rel =>
    match s.flags with
    | some f => if c.holds f then (s.jump rel).map .running else some (.running s)
    | none => none

def step (code : Bytes) (s : State) : Option Event := do
  let (insn, rest) ← decode (code.drop s.rip)
  exec insn { s with rip := code.length - rest.length }

/-- Code that was called from `ret`: it has ended when it returns there. -/
def machine {ρ : Type*} (code : Bytes) (ret : BitVec 64) (result : State → ρ) (s : State) :
    Progress State ρ :=
  match step code s with
  | some (.running s') => .run s'
  | some (.returned target s') => if target = ret then .done (result s') else .stuck
  | none => .stuck

/-! ### Encodings -/

def Encodes (bytes : Bytes) (insn : Insn) : Prop :=
  ∀ rest, decode (bytes ++ rest) = some (insn, rest)

@[simp]
theorem length_leBytes (n v : ℕ) : (leBytes n v).length = n := by
  rw [leBytes, length_map, length_range]

theorem le32_leBytes (v : BitVec 32) (rest : Bytes) :
    le32 (leBytes 4 v.toNat ++ rest) = some (v, rest) := by
  have hbytes : ofBytes (fun i => (leBytes 4 v.toNat ++ rest).getD i 0) 4 = v.toNat := by
    have hcongr : ∀ i < 4, (leBytes 4 v.toNat ++ rest).getD i 0 = byteOf v.toNat i := by
      intro i hi
      rw [getD_eq_getElem?_getD, getElem?_append_left (by rwa [length_leBytes]), leBytes,
        getElem?_map, getElem?_range hi]
      rfl
    rw [ofBytes_congr hcongr, ofBytes_byteOf]
    exact Nat.mod_eq_of_lt v.isLt
  rw [le32, if_pos (by rw [length_append, length_leBytes]; omega), hbytes,
    BitVec.ofNat_toNat, BitVec.setWidth_eq, drop_append_of_le_length (by rw [length_leBytes]),
    drop_of_length_le (by rw [length_leBytes]), nil_append]

theorem le64_leBytes (v : BitVec 64) (rest : Bytes) :
    le64 (leBytes 4 (v.setWidth 32).toNat ++ (leBytes 4 ((v >>> 32).setWidth 32).toNat ++ rest)) =
      some (v, rest) := by
  have hparts : ((v >>> 32).setWidth 32 ++ v.setWidth 32 : BitVec 64) = v := by
    apply BitVec.eq_of_getLsbD_eq
    intro i hi
    rw [BitVec.getLsbD_append]
    by_cases hlow : i < 32
    · simp [hlow]
    · have hi' : i - 32 < 32 := by omega
      have hsum : 32 + (i - 32) = i := by omega
      simp [hlow, hi', hsum]
  simp only [le64, le32_leBytes, bind_eq_bind, bind_some, hparts]
  rfl

variable {op : BinOp} {code : Bytes} {s t : State} {insn : Insn} (w r x b : Bool)

theorem rexOf_rexByte : rexOf (rexByte w r x b) = some ⟨true, w, r, x, b⟩ := by
  revert w r x b
  decide

theorem decode_rex (bs : Bytes) :
    decode (rexByte w r x b :: bs) = decodeOp ⟨true, w, r, x, b⟩ bs := by
  simp only [decode, rexOf_rexByte]

theorem decodeModRm_direct (rex : Rex) {reg rm : BitVec 8} (hreg : reg.toNat < 8)
    (hrm : rm.toNat < 8) (rest : Bytes) :
    decodeModRm rex (modRmByte reg rm :: rest) =
      some (⟨regOf rex.r reg.toNat, reg.toNat, .reg (regOf rex.b rm.toNat)⟩, rest) := by
  have hbits : ∀ a b : Fin 8, (modRmByte (BitVec.ofNat 8 a) (BitVec.ofNat 8 b)).toNat =
      192 + 8 * a + b := by
    decide
  have hbyte : (modRmByte reg rm).toNat = 192 + 8 * reg.toNat + rm.toNat := by
    simpa using hbits ⟨reg.toNat, hreg⟩ ⟨rm.toNat, hrm⟩
  have hmod : (modRmByte reg rm).toNat / 64 = 3 := by omega
  have hext : (modRmByte reg rm).toNat / 8 % 8 = reg.toNat := by omega
  have hlow : (modRmByte reg rm).toNat % 8 = rm.toNat := by omega
  simp only [decodeModRm, hmod, hext, hlow]

section Direct

variable {reg rm : BitVec 8} (hreg : reg.toNat < 8) (hrm : rm.toNat < 8) (r b : Bool) {bop : BinOp}

include hreg hrm

theorem encodes_bin_reg {op : BitVec 8} (hop : binOpOf op.toNat = some bop) :
    Encodes [rexByte true r false b, op, modRmByte reg rm]
      (.bin bop .qword (.reg (regOf b rm.toNat)) (.reg (regOf r reg.toNat))) := by
  intro rest
  simp only [cons_append, nil_append, decode_rex, decodeOp, hop,
    decodeModRm_direct _ hreg hrm, map_some]
  rfl

theorem encodes_bin_imm (hext : binOpOfExt reg.toNat = some bop) (v : BitVec 32) :
    Encodes ([rexByte true r false b, 0x81, modRmByte reg rm] ++ leBytes 4 v.toNat)
      (.bin bop .qword (.reg (regOf b rm.toNat)) (.imm (v.signExtend 64))) := by
  intro rest
  have hop (rex : Rex) (bs : Bytes) :
    decodeOp rex (0x81 :: bs) = decodeImm rex bs fun m => binOpOfExt m.ext := rfl
  simp only [cons_append, nil_append, decode_rex, hop, decodeImm,
    decodeModRm_direct _ hreg hrm, bind_eq_bind, bind_some, hext, le32_leBytes]
  rfl

theorem encodes_shift_imm {sop : ShiftOp} (hext : shiftOpOf reg.toNat = some sop) (v : BitVec 8) :
    Encodes [rexByte true r false b, 0xC1, modRmByte reg rm, v]
      (.shift sop .qword (.reg (regOf b rm.toNat)) (.imm (v.setWidth 64))) := by
  intro rest
  have hop (rex : Rex) (bs : Bytes) : decodeOp rex (0xC1 :: bs) = decodeShift rex bs true := rfl
  simp only [cons_append, nil_append, decode_rex, hop, decodeShift,
    decodeModRm_direct _ hreg hrm, bind_eq_bind, bind_some, hext, if_true]
  rfl

theorem encodes_neg (hext : reg.toNat = 3) :
    Encodes [rexByte true r false b, 0xF7, modRmByte reg rm]
      (.neg .qword (.reg (regOf b rm.toNat))) := by
  intro rest
  have hop (rex : Rex) (bs : Bytes) : decodeOp rex (0xF7 :: bs) = decodeUnary rex bs := rfl
  simp only [cons_append, nil_append, decode_rex, hop, decodeUnary,
    decodeModRm_direct _ hreg hrm, bind_eq_bind, bind_some, hext]
  rfl

theorem encodes_imul_imm (v : BitVec 32) :
    Encodes ([rexByte true r false b, 0x69, modRmByte reg rm] ++ leBytes 4 v.toNat)
      (.imul .qword (regOf r reg.toNat) (.reg (regOf b rm.toNat)) (.imm (v.signExtend 64))) := by
  intro rest
  have hop (rex : Rex) (bs : Bytes) : decodeOp rex (0x69 :: bs) = decodeImul rex bs := rfl
  simp only [cons_append, nil_append, decode_rex, hop, decodeImul,
    decodeModRm_direct _ hreg hrm, bind_eq_bind, bind_some, le32_leBytes]
  rfl

theorem encodes_imul_reg :
    Encodes [rexByte true r false b, 0x0F, 0xAF, modRmByte reg rm]
      (.imul .qword (regOf r reg.toNat) (.reg (regOf b rm.toNat)) (.reg (regOf r reg.toNat))) := by
  intro rest
  have hop (rex : Rex) (bs : Bytes) : decodeOp rex (0x0F :: 0xAF :: bs) =
    (decodeModRm rex bs).map fun (m, bs) => (.imul rex.size m.reg m.rm (.reg m.reg), bs) := rfl
  simp only [cons_append, nil_append, decode_rex, hop, decodeModRm_direct _ hreg hrm,
    map_some]
  rfl

end Direct

theorem encodes_movImm {low : BitVec 8} (hlow : low.toNat < 8) (v : BitVec 64) :
    Encodes ([rexByte true r false b, 0xB8#8 ||| (low &&& 7)] ++
        leBytes 4 (v.setWidth 32).toNat ++ leBytes 4 ((v >>> 32).setWidth 32).toNat)
      (.movImm (regOf b low.toNat) v) := by
  intro rest
  have hbits : ∀ a : Fin 8, (0xB8#8 ||| (BitVec.ofNat 8 a &&& 7)) = BitVec.ofNat 8 (0xB8 + a) ∧
      regOf b (0xB8 + a) = regOf b a := by
    revert b
    decide
  have hop (rex : Rex) (hw : rex.w = true) (bs : Bytes) : ∀ a : Fin 8,
      decodeOp rex (BitVec.ofNat 8 (0xB8 + a) :: bs) =
        (le64 bs).map fun (v, bs) => (.movImm (regOf rex.b (0xB8 + a)) v, bs) := by
    obtain ⟨present, w, r, x, b⟩ := rex
    obtain rfl : w = true := hw
    intro a
    match a with
    | 0 | 1 | 2 | 3 | 4 | 5 | 6 | 7 => rfl
  obtain ⟨hbyte, hreg⟩ := hbits ⟨low.toNat, hlow⟩
  rw [BitVec.ofNat_toNat, BitVec.setWidth_eq] at hbyte
  simp only [cons_append, nil_append, append_assoc, decode_rex, hbyte]
  rw [hop _ rfl _ ⟨low.toNat, hlow⟩, le64_leBytes, map_some, hreg]

theorem encodes_jmp (rel : BitVec 32) : Encodes (0xE9 :: leBytes 4 rel.toNat) (.jmp rel) := by
  intro rest
  have hop (bs : Bytes) : decode (0xE9 :: bs) = (le32 bs).map fun (rel, bs) => (.jmp rel, bs) := rfl
  rw [cons_append, hop, le32_leBytes, map_some]

theorem encodes_jcc {cc : BitVec 8} {c : Cond} (hc : condOf cc.toNat = some c) (rel : BitVec 32) :
    Encodes (0x0F :: cc :: leBytes 4 rel.toNat) (.jcc c rel) := by
  intro rest
  have hop (bs : Bytes) : decode (0x0F :: bs) = decodeOp2 .absent bs := rfl
  rw [cons_append, cons_append, hop, decodeOp2]
  split
  case h_4 =>
    simp only [hc, le32_leBytes, bind_eq_bind, bind_some]
    rfl
  -- none of the other opcodes is a condition
  all_goals
    rename_i hcc
    rw [hcc] at hc
    cases hc

/-! ### What instructions do -/

/-- The instruction sets a register to a function of the registers, and changes only flags
besides. -/
def Insn.Assigns (insn : Insn) (r : Reg) (f : (Reg → BitVec 64) → BitVec 64) : Prop :=
  ∀ s, ∃ t, exec insn s = some (.running t) ∧ t.rip = s.rip ∧ t.mem = s.mem ∧
    t.regs = update s.regs r (f s.regs)

theorem assigns_bin (hcmp : op ≠ .cmp) (htest : op ≠ .test) (r : Reg) (src : Source) :
    (Insn.bin op .qword (.reg r) src).Assigns r fun regs =>
      binary op (regs r) (src.value regs) := by
  intro s
  cases op with
  | cmp => exact absurd rfl hcmp
  | test => exact absurd rfl htest
  | _ => exact ⟨_, rfl, rfl, rfl, rfl⟩

theorem assigns_shift_imm (op : ShiftOp) (r : Reg) (v : BitVec 64) :
    (Insn.shift op .qword (.reg r) (.imm v)).Assigns r fun regs =>
      shifted op (regs r) (v.toNat % 64) :=
  fun _ => ⟨_, rfl, rfl, rfl, rfl⟩

theorem assigns_neg (r : Reg) :
    (Insn.neg .qword (.reg r)).Assigns r fun regs => -regs r :=
  fun _ => ⟨_, rfl, rfl, rfl, rfl⟩

theorem assigns_imul (dst src : Reg) (factor : Source) :
    (Insn.imul .qword dst (.reg src) factor).Assigns dst fun regs =>
      regs src * factor.value regs :=
  fun _ => ⟨_, rfl, rfl, rfl, rfl⟩

theorem assigns_movImm (r : Reg) (v : BitVec 64) : (Insn.movImm r v).Assigns r fun _ => v :=
  fun s => ⟨s.setReg r v, rfl, rfl, rfl, rfl⟩

/-- Comparisons only set flags. -/
theorem exec_compare (hop : op = .cmp ∨ op = .test) (r r' : Reg) (s : State) :
    exec (.bin op .qword (.reg r) (.reg r')) s =
      some (.running { s with flags := some (flagsOf op (s.regs r) (s.regs r')) }) := by
  obtain rfl | rfl := hop <;> rfl

section Conditions

variable (a b : BitVec 64)

theorem sub_eq_zero_beq : (a - b == 0) = (a == b) := by
  rw [Bool.eq_iff_iff, beq_iff_eq, beq_iff_eq]
  constructor
  · intro h
    rw [← BitVec.sub_add_cancel a b, h]
    exact BitVec.zero_add b
  · rintro rfl
    exact BitVec.sub_self a

theorem holds_e_cmp : Cond.holds (flagsOf .cmp a b) .e = (a == b) := sub_eq_zero_beq a b

theorem holds_ne_cmp : Cond.holds (flagsOf .cmp a b) .ne = (a != b) :=
  congrArg (!·) (sub_eq_zero_beq a b)

theorem holds_a_cmp : Cond.holds (flagsOf .cmp a b) .a = b.ult a := by
  show (!a.ult b && !(a - b == 0)) = b.ult a
  rw [sub_eq_zero_beq, Bool.eq_iff_iff]
  simp only [BitVec.ult, Bool.and_eq_true, Bool.not_eq_true', decide_eq_false_iff_not,
    decide_eq_true_eq, beq_eq_false_iff_ne, ne_eq, ← BitVec.toNat_inj]
  omega

/-- The sign is the right one unless the difference overflows. -/
theorem sign_eq_overflow : ((a - b).msb == (a.msb != b.msb && (a - b).msb != a.msb)) = b.sle a := by
  simp only [BitVec.msb_eq_toInt, BitVec.sle, BitVec.toInt_sub, Int.bmod_def]
  split <;> grind

theorem holds_ge_cmp : Cond.holds (flagsOf .cmp a b) .ge = b.sle a := sign_eq_overflow a b

theorem holds_g_cmp : Cond.holds (flagsOf .cmp a b) .g = b.slt a := by
  show (!(a - b == 0) && _) = b.slt a
  rw [sub_eq_zero_beq]
  show (!(a == b) && ((a - b).msb == (a.msb != b.msb && (a - b).msb != a.msb))) = b.slt a
  rw [sign_eq_overflow, Bool.eq_iff_iff]
  simp only [Bool.and_eq_true, Bool.not_eq_true', beq_eq_false_iff_ne, BitVec.sle_iff_toInt_le,
    BitVec.slt_iff_toInt_lt, ne_eq, ← BitVec.toInt_inj]
  omega

theorem holds_ne_test : Cond.holds (flagsOf .test a b) .ne = (a &&& b != 0) := rfl

end Conditions

/-! ### Straight code -/

theorem step_of_encodes {bytes rest : Bytes}
    (h : Encodes bytes insn) (hcode : code.drop s.rip = bytes ++ rest) :
    step code s = exec insn { s with rip := s.rip + bytes.length } := by
  have hdecode := h rest
  have hrip : s.rip < code.length := by
    by_contra hout
    rw [← hcode, drop_of_length_le (Nat.le_of_not_lt hout)] at hdecode
    cases hdecode
  have hlength : code.length - s.rip = bytes.length + rest.length := by
    rw [← length_drop, hcode, length_append]
  have hnext : code.length - rest.length = s.rip + bytes.length := by omega
  simp only [step, hcode, hdecode, bind_eq_bind, bind_some, hnext]

section Machine

variable {ρ : Type*} {code bytes rest : Bytes} {ret : BitVec 64} {result : State → ρ} {s t : State}

theorem machine_of_encodes (h : Encodes bytes insn) (hcode : code.drop s.rip = bytes ++ rest)
    (hexec : exec insn { s with rip := s.rip + bytes.length } = some (.running t)) :
    machine code ret result s = .run t := by
  rw [machine, step_of_encodes h hcode, hexec]

theorem machine_ret (hcode : code.drop s.rip = [0xC3] ++ rest)
    (htarget : load64 s.mem (s.regs .rsp) = ret) :
    ∃ t, machine code ret result s = .done (result t) ∧ t.mem = s.mem ∧
      ∀ r ≠ Reg.rsp, t.regs r = s.regs r := by
  have hret : Encodes [0xC3] .ret := fun _ => rfl
  let t := { s with rip := s.rip + 1 }.setReg .rsp (s.regs .rsp + 8)
  have hstep : step code s = some (.returned (load64 s.mem (s.regs .rsp)) t) :=
    step_of_encodes hret hcode
  refine ⟨t, ?_, rfl, fun r hr => update_of_ne hr _ _⟩
  rw [machine, hstep]
  exact if_pos htarget

end Machine

def Insn.straight : Insn → Bool
  | .ret | .jmp _ | .jcc _ _ => false
  | _ => true

theorem State.rip_write (s : State) (size : Size) (v : BitVec 64) (dst : Operand) :
    (s.write size v dst).rip = s.rip := by
  cases dst with
  | reg r => cases size <;> rfl
  | mem base index disp => rfl

theorem exec_rip (hstraight : insn.straight)
    (h : exec insn s = some (.running t)) : t.rip = s.rip := by
  cases insn with
  | bin op size dst src =>
    cases h
    cases op <;> first | rfl | exact State.rip_write _ _ _ _
  | shift | neg | imul =>
    cases h
    exact State.rip_write _ _ _ _
  | div size src =>
    obtain ⟨u, hu, htu⟩ := map_eq_some_iff.mp h
    cases htu
    rw [execDiv] at hu
    split at hu
    · cases hu
    · cases hu
      rw [State.rip_write, State.rip_write]
  | load | movImm | push | pop | nop =>
    cases h
    rfl
  | ret | jmp | jcc => cases hstraight

def execAll : List (Bytes × Insn) → State → Option State
  | [], s => some s
  | (bytes, insn) :: block, s =>
    match exec insn { s with rip := s.rip + bytes.length } with
    | some (.running s') => execAll block s'
    | _ => none

theorem reaches_block {ρ : Type*} {tail : Bytes} {ret : BitVec 64} {result : State → ρ}
    {block : List (Bytes × Insn)}
    (hblock : ∀ p ∈ block, Encodes p.1 p.2 ∧ p.2.straight)
    (hcode : code.drop s.rip = block.flatMap Prod.fst ++ tail) (hexec : execAll block s = some t) :
    Reaches (machine code ret result) block.length s t ∧
      t.rip = s.rip + (block.flatMap Prod.fst).length := by
  induction block generalizing s with
  | nil =>
    cases hexec
    exact ⟨.refl, rfl⟩
  | cons p block ih =>
    obtain ⟨bytes, insn⟩ := p
    obtain ⟨hencodes, hstraight⟩ := hblock _ mem_cons_self
    rw [flatMap_cons, append_assoc] at hcode
    rw [execAll] at hexec
    split at hexec
    case h_2 => cases hexec
    case h_1 s' hs' =>
      have hstep : machine code ret result s = .run s' := machine_of_encodes hencodes hcode hs'
      have hrip : s'.rip = s.rip + bytes.length := exec_rip hstraight hs'
      have hnext : code.drop s'.rip = block.flatMap Prod.fst ++ tail := by
        rw [hrip, ← drop_drop, hcode, drop_left]
      obtain ⟨hreach, hend⟩ :=
        ih (fun q hq => hblock q (mem_cons_of_mem _ hq)) hnext hexec
      refine ⟨.head hstep hreach, ?_⟩
      rw [hend, hrip, flatMap_cons, length_append, Nat.add_assoc]

end Vahi.Lib.X86
