import Mathlib.Data.List.Basic
import Mathlib.Tactic.Ring

/-!
# The classic BPF machine

Programs of the classic Berkeley packet filter over a read-only block of words. A program that
passes the checks on its instructions always returns.
-/

namespace Vahi.Lib.ClassicBpf

inductive AluOp where
  | add | sub | mul | div | or | and | lsh | rsh | mod | xor
  deriving DecidableEq

inductive JmpOp where
  | jeq | jgt | jge | jset
  deriving DecidableEq

/-- The operand: an immediate or the index register. -/
inductive Src where
  | k (v : BitVec 32)
  | x
  deriving DecidableEq

inductive Insn where
  | ldAbs (k : BitVec 32) | ldImm (k : BitVec 32) | ldLen | ldMem (k : BitVec 32)
  | ldxImm (k : BitVec 32) | ldxLen | ldxMem (k : BitVec 32)
  | st (k : BitVec 32) | stx (k : BitVec 32)
  | alu (op : AluOp) (src : Src) | neg
  | ja (k : BitVec 32) | jmp (op : JmpOp) (src : Src) (jt jf : BitVec 8)
  | retK (k : BitVec 32) | retA
  | tax | txa
  deriving DecidableEq

/-! ### Encoding -/

def AluOp.bits : AluOp → BitVec 16
  | add => 0x00 | sub => 0x10 | mul => 0x20 | div => 0x30 | or => 0x40 | and => 0x50
  | lsh => 0x60 | rsh => 0x70 | mod => 0x90 | xor => 0xa0

def JmpOp.bits : JmpOp → BitVec 16
  | jeq => 0x10 | jgt => 0x20 | jge => 0x30 | jset => 0x40

def Src.bits : Src → BitVec 16
  | k _ => 0x00
  | x => 0x08

def Src.imm : Src → Option (BitVec 32)
  | k v => some v
  | x => none

namespace Insn

def opcode : Insn → BitVec 16
  | ldAbs _ => 0x20 | ldImm _ => 0x00 | ldLen => 0x80 | ldMem _ => 0x60
  | ldxImm _ => 0x01 | ldxLen => 0x81 | ldxMem _ => 0x61
  | st _ => 0x02 | stx _ => 0x03
  | alu op src => 0x04 ||| op.bits ||| src.bits | neg => 0x84
  | ja _ => 0x05 | jmp op src _ _ => 0x05 ||| op.bits ||| src.bits
  | retK _ => 0x06 | retA => 0x16
  | tax => 0x07 | txa => 0x87

/-- Class, operation and source of an operation are fields of its opcode. -/
theorem opcode_alu (op : AluOp) (src : Src) :
    (alu op src).opcode &&& 0x07 = 0x04 ∧ (alu op src).opcode &&& 0xF0 = op.bits ∧
      (alu op src).opcode &&& 0x08 = src.bits := by
  change (0x04 ||| op.bits ||| src.bits) &&& 0x07 = 0x04 ∧
    (0x04 ||| op.bits ||| src.bits) &&& 0xF0 = op.bits ∧
    (0x04 ||| op.bits ||| src.bits) &&& 0x08 = src.bits
  cases op <;> cases src <;> simp only [AluOp.bits, Src.bits] <;> decide

theorem opcode_jmp (op : JmpOp) (src : Src) (jt jf : BitVec 8) :
    (jmp op src jt jf).opcode &&& 0x07 = 0x05 ∧ (jmp op src jt jf).opcode &&& 0xF0 = op.bits ∧
      (jmp op src jt jf).opcode &&& 0x08 = src.bits := by
  change (0x05 ||| op.bits ||| src.bits) &&& 0x07 = 0x05 ∧
    (0x05 ||| op.bits ||| src.bits) &&& 0xF0 = op.bits ∧
    (0x05 ||| op.bits ||| src.bits) &&& 0x08 = src.bits
  cases op <;> cases src <;> simp only [JmpOp.bits, Src.bits] <;> decide

def imm : Insn → Option (BitVec 32)
  | ldAbs k | ldImm k | ldMem k | ldxImm k | ldxMem k | st k | stx k | ja k | retK k => some k
  | alu _ src | jmp _ src _ _ => src.imm
  | ldLen | ldxLen | neg | retA | tax | txa => none

def jumps : Insn → Option (BitVec 8 × BitVec 8)
  | jmp _ _ jt jf => some (jt, jf)
  | _ => none

end Insn

/-! ### Execution -/

structure State where
  a : BitVec 32
  x : BitVec 32
  mem : Fin 16 → BitVec 32
  pc : ℕ

def State.start : State := ⟨0, 0, fun _ => 0, 0⟩

/-- The result of an operation; none for a division by zero. Shifts use the low
five bits of the count. -/
def AluOp.eval : AluOp → BitVec 32 → BitVec 32 → Option (BitVec 32)
  | add, a, v => some (a + v)
  | sub, a, v => some (a - v)
  | mul, a, v => some (a * v)
  | div, a, v => if v = 0 then none else some (a / v)
  | mod, a, v => if v = 0 then none else some (a % v)
  | or, a, v => some (a ||| v)
  | and, a, v => some (a &&& v)
  | xor, a, v => some (a ^^^ v)
  | lsh, a, v => some (a <<< (v.toNat % 32))
  | rsh, a, v => some (a >>> (v.toNat % 32))

def JmpOp.eval : JmpOp → BitVec 32 → BitVec 32 → Bool
  | jeq, a, v => a = v
  | jgt, a, v => v < a
  | jge, a, v => v ≤ a
  | jset, a, v => a &&& v ≠ 0

def Src.value : Src → State → BitVec 32
  | k v, _ => v
  | x, s => s.x

inductive Step where
  | next (s : State)
  | ret (v : BitVec 32)

def State.cell (s : State) (k : BitVec 32) : Option (BitVec 32) :=
  if h : k.toNat < 16 then some (s.mem ⟨k.toNat, h⟩) else none

def State.setCell (s : State) (k v : BitVec 32) : State :=
  if h : k.toNat < 16 then { s with mem := Function.update s.mem ⟨k.toNat, h⟩ v } else s

def State.setA (s : State) : Option (BitVec 32) → Step
  | some v => .next { s with a := v, pc := s.pc + 1 }
  | none => .ret 0

def State.setX (s : State) : Option (BitVec 32) → Step
  | some v => .next { s with x := v, pc := s.pc + 1 }
  | none => .ret 0

def State.skip (s : State) (n : ℕ) : State := { s with pc := s.pc + (1 + n) }

def Insn.exec (words : List (BitVec 32)) (s : State) : Insn → Step
  | ldAbs k => s.setA words[k.toNat / 4]?
  | ldImm k => s.setA (some k)
  | ldLen => s.setA (some (BitVec.ofNat 32 (4 * words.length)))
  | ldMem k => s.setA (s.cell k)
  | ldxImm k => s.setX (some k)
  | ldxLen => s.setX (some (BitVec.ofNat 32 (4 * words.length)))
  | ldxMem k => s.setX (s.cell k)
  | st k => .next ((s.setCell k s.a).skip 0)
  | stx k => .next ((s.setCell k s.x).skip 0)
  | alu op src => s.setA (op.eval s.a (src.value s))
  | neg => s.setA (some (-s.a))
  | ja k => .next (s.skip k.toNat)
  | jmp op src jt jf =>
    .next (s.skip (if op.eval s.a (src.value s) then jt.toNat else jf.toNat))
  | retK k => .ret k
  | retA => .ret s.a
  | tax => s.setX (some s.a)
  | txa => s.setA (some s.x)

def run (p : List Insn) (words : List (BitVec 32)) : ℕ → State → Option (BitVec 32)
  | 0, _ => none
  | fuel + 1, s =>
    match p[s.pc]? with
    | none => none
    | some insn =>
      match insn.exec words s with
      | .next s => run p words fuel s
      | .ret v => some v

inductive Reaches (p : List Insn) (words : List (BitVec 32)) : State → Prop
  | start : Reaches p words .start
  | step {s s' : State} {insn : Insn} : Reaches p words s → p[s.pc]? = some insn →
      insn.exec words s = .next s' → Reaches p words s'

/-! ### Checks -/

/-- The check of an instruction that `rest` others follow. -/
def Insn.Checked (words rest : ℕ) : Insn → Prop
  | ldAbs k => k.toNat % 4 = 0 ∧ k.toNat / 4 < words ∧ 0 < rest
  | ldMem k | ldxMem k | st k | stx k => k.toNat < 16 ∧ 0 < rest
  | alu op (.k v) => ((op = .div ∨ op = .mod) → v ≠ 0) ∧
      ((op = .lsh ∨ op = .rsh) → v.toNat < 32) ∧ 0 < rest
  | ja k => k.toNat < rest
  | jmp _ _ jt jf => jt.toNat < rest ∧ jf.toNat < rest
  | retK _ | retA => True
  | _ => 0 < rest

structure Valid (words : ℕ) (p : List Insn) : Prop where
  nonempty : p ≠ []
  checked : ∀ (pc : ℕ) (insn : Insn), p[pc]? = some insn → insn.Checked words (p.length - pc - 1)

variable {words : List (BitVec 32)}

/-- An instruction that was checked goes on with one of those that follow it. -/
theorem exec_pc {rest : ℕ} {insn : Insn} (hchecked : insn.Checked words.length rest) {s s' : State}
    (hexec : insn.exec words s = .next s') : s.pc < s'.pc ∧ s'.pc ≤ s.pc + rest := by
  have hset : ∀ v : Option (BitVec 32), 0 < rest →
      (s.setA v = .next s' ∨ s.setX v = .next s') → s.pc < s'.pc ∧ s'.pc ≤ s.pc + rest := by
    intro v hrest h
    cases v with
    | none => rcases h with h | h <;> cases h
    | some v =>
      rcases h with h | h
      all_goals
        cases h
        dsimp only
        omega
  cases insn with
  | ldAbs k => exact hset _ hchecked.2.2 (.inl hexec)
  | ldImm k => exact hset (some k) hchecked (.inl hexec)
  | ldLen => exact hset (some _) hchecked (.inl hexec)
  | ldMem k => exact hset _ hchecked.2 (.inl hexec)
  | ldxImm k => exact hset (some k) hchecked (.inr hexec)
  | ldxLen => exact hset (some _) hchecked (.inr hexec)
  | ldxMem k => exact hset _ hchecked.2 (.inr hexec)
  | st k | stx k =>
    cases hexec
    have hrest := hchecked.2
    rw [State.skip, State.setCell]
    split <;> dsimp only <;> omega
  | alu op src =>
    cases src with
    | k v => exact hset _ hchecked.2.2 (.inl hexec)
    | x => exact hset _ hchecked (.inl hexec)
  | neg => exact hset (some (-s.a)) hchecked (.inl hexec)
  | ja k =>
    cases hexec
    have hrest : k.toNat < rest := hchecked
    rw [State.skip]
    dsimp only
    omega
  | jmp op src jt jf =>
    cases hexec
    obtain ⟨hjt, hjf⟩ : jt.toNat < rest ∧ jf.toNat < rest := hchecked
    rw [State.skip]
    dsimp only
    split <;> omega
  | retK k => cases hexec
  | retA => cases hexec
  | tax => exact hset (some s.a) hchecked (.inr hexec)
  | txa => exact hset (some s.x) hchecked (.inl hexec)

end Vahi.Lib.ClassicBpf
