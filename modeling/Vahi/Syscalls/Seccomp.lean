import Mathlib.Data.Fin.Basic
import Vahi.Lib.Bytes
import Vahi.Lib.Outcome
import Vahi.Types.Errno

/-!
# Seccomp filters

`crates/syscalls/src/seccomp.rs` and the hook `check_syscall` (`kernel/src/syscalls/seccomp.rs`):
the strict list, the classic BPF interpreter, and what an action does to the system call.
-/

namespace Vahi.Syscalls

open Vahi.Lib Vahi.Types

inductive SeccompMode where
  | disabled
  | strict
  | filter
  deriving DecidableEq

structure SeccompBpfInstruction where
  code : BitVec 16
  jt : BitVec 8
  jf : BitVec 8
  k : BitVec 32
  deriving DecidableEq

def seccompRetKillProcess : BitVec 64 := 0x00000000
def seccompRetTrap : BitVec 64 := 0x00020000
def seccompRetErrno : BitVec 64 := 0x00030000
def seccompRetLog : BitVec 64 := 0x7FFC0000
def seccompRetAllow : BitVec 64 := 0x7FFF0000

def seccompRetAction : BitVec 64 := 0xFFFF0000

structure SeccompState where
  mode : SeccompMode
  filter : List SeccompBpfInstruction
  defaultAction : BitVec 64
  deriving DecidableEq

def SeccompState.default : SeccompState where
  mode := .disabled
  filter := []
  defaultAction := seccompRetKillProcess

variable (insn : SeccompBpfInstruction) (st : SeccompState) (data : List (BitVec 8))
  (nr : BitVec 64) (args : Fin 6 → BitVec 64)

/-- The calls are `read`, `write`, `close`, `sigreturn`, `exit` and `exit_group`. -/
def checkStrict : Bool :=
  [0, 1, 3, 15, 60, 231].contains nr

/-- `build_seccomp_data`: number, architecture, instruction pointer, arguments. -/
def buildSeccompData : List (BitVec 8) :=
  neBytes 4 nr ++ neBytes 4 (0xC000003E : BitVec 32) ++ neBytes 8 (0 : BitVec 64) ++
    (List.ofFn args).flatMap (neBytes 8)

structure BpfState where
  acc : BitVec 64
  x : BitVec 64
  mem : Fin 16 → BitVec 64
  pc : ℕ

def BpfState.start : BpfState where
  acc := 0
  x := 0
  mem := fun _ => 0
  pc := 0

def dataByte (i : BitVec 64) : Outcome (BitVec 8) :=
  match data[i.toNat]? with
  | some b => .ok b
  | none => .panic

/-- A load of the size encoded in the instruction; `none` stands for the default
action. The bound is computed with a sum that wraps around. -/
def loadData (size : BitVec 16) (offset : BitVec 64) : Outcome (Option (BitVec 64)) :=
  if size = 0x00 then
    if data.length < (offset + 4).toNat then .ok none
    else do
      let b0 ← dataByte data offset
      let b1 ← dataByte data (offset + 1)
      let b2 ← dataByte data (offset + 2)
      let b3 ← dataByte data (offset + 3)
      .ok (some ((b3 ++ b2 ++ b1 ++ b0).setWidth 64))
  else if size = 0x08 then
    if data.length < (offset + 2).toNat then .ok none
    else do
      let b0 ← dataByte data offset
      let b1 ← dataByte data (offset + 1)
      .ok (some ((b1 ++ b0).setWidth 64))
  else if size = 0x10 then
    if data.length ≤ offset.toNat then .ok none
    else do
      let b0 ← dataByte data offset
      .ok (some (b0.setWidth 64))
  else .ok none

def loadValue (insn : SeccompBpfInstruction) (s : BpfState) : Outcome (Option (BitVec 64)) :=
  let size := insn.code &&& 0x18
  let source := insn.code &&& 0xE0
  if source = 0x20 then loadData data size (insn.k.setWidth 64)
  else if source = 0x40 then loadData data size (s.x + insn.k.setWidth 64)
  else if source = 0x60 then
    if h : insn.k.toNat < 16 then .ok (some (s.mem ⟨insn.k.toNat, h⟩)) else .ok none
  else .ok none

def operand (s : BpfState) : BitVec 64 :=
  if insn.code &&& 0x08 = 0 then insn.k.setWidth 64 else s.x

/-- The arithmetic of an `ALU` instruction; shifts use the count modulo 64. -/
def aluValue (s : BpfState) : Option (BitVec 64) :=
  let op := insn.code &&& 0xF0
  let v := operand insn s
  if op = 0x00 then some (s.acc + v)
  else if op = 0x10 then some (s.acc - v)
  else if op = 0x20 then some (s.acc * v)
  else if op = 0x30 then if v = 0 then none else some (s.acc / v)
  else if op = 0x90 then if v = 0 then none else some (s.acc % v)
  else if op = 0x40 then some (s.acc ||| v)
  else if op = 0x50 then some (s.acc &&& v)
  else if op = 0xA0 then some (s.acc ^^^ v)
  else if op = 0x60 then some (s.acc <<< (v.toNat % 64))
  else if op = 0x70 then some (s.acc >>> (v.toNat % 64))
  else if op = 0x80 then some (-s.acc)
  else none

def jumpTaken (s : BpfState) : Bool :=
  let op := insn.code &&& 0xF0
  let v := operand insn s
  if op = 0x10 then s.acc = v
  else if op = 0x50 then s.acc ≠ v
  else if op = 0x20 then v < s.acc
  else if op = 0x30 then v ≤ s.acc
  else if op = 0xA0 then s.acc < v
  else if op = 0xB0 then s.acc ≤ v
  else if op = 0x40 then s.acc &&& v ≠ 0
  else op = 0x00

inductive FilterStep where
  | next (s : BpfState)
  | done (action : BitVec 64)

def filterStep (insn : SeccompBpfInstruction) (s : BpfState) : Outcome FilterStep :=
  let cls := insn.code &&& 0x07
  if cls = 0x00 ∨ cls = 0x01 then do
    let value ← loadValue data insn s
    match value with
    | none => .ok (.done st.defaultAction)
    | some v =>
      if cls = 0x00 then .ok (.next { s with acc := v, pc := s.pc + 1 })
      else .ok (.next { s with x := v, pc := s.pc + 1 })
  else if cls = 0x02 ∨ cls = 0x03 then
    let v := if cls = 0x02 then s.acc else s.x
    if h : insn.k.toNat < 16 then
      .ok (.next { s with mem := Function.update s.mem ⟨insn.k.toNat, h⟩ v, pc := s.pc + 1 })
    else .ok (.next { s with pc := s.pc + 1 })
  else if cls = 0x04 then
    match aluValue insn s with
    | none => .ok (.done st.defaultAction)
    | some v => .ok (.next { s with acc := v, pc := s.pc + 1 })
  else if cls = 0x05 then
    let jump := if jumpTaken insn s then insn.jt else insn.jf
    .ok (.next { s with pc := s.pc + (1 + jump.toNat) })
  else if cls = 0x06 then
    let retval := if insn.code &&& 0x08 = 0x08 then s.x else insn.k.setWidth 64
    if retval &&& seccompRetAction ≠ 0 then .ok (.done retval) else .ok (.done st.defaultAction)
  else .ok (.next { s with pc := s.pc + 1 })

/-- The interpreter loop of `check_filter`, with a bound on its turns. -/
def filterLoop (st : SeccompState) (data : List (BitVec 8)) : ℕ → BpfState → Outcome (BitVec 64)
  | 0, _ => .hang
  | fuel + 1, s =>
    match st.filter[s.pc]? with
    | none => .ok st.defaultAction
    | some insn => do
      match ← filterStep st data insn s with
      | .done action => .ok action
      | .next s' =>
        if st.filter.length + 10000 < s'.pc then .ok st.defaultAction
        else filterLoop st data fuel s'

def checkFilter : Outcome (BitVec 64) :=
  if st.filter = [] then .ok st.defaultAction
  else filterLoop st (buildSeccompData nr args) (st.filter.length + 1) .start

inductive Verdict where
  | run
  | killed
  | denied (errno : BitVec 64)
  deriving DecidableEq

/-- What the action of the filter does to the call. -/
def checkSyscall : Outcome Verdict :=
  match st.mode with
  | .disabled => .ok .run
  | .strict => .ok (if checkStrict nr then .run else .denied Errno.eperm.asU64)
  | .filter => do
    let action ← checkFilter st nr args
    let kind := action &&& seccompRetAction
    if kind = seccompRetAllow then .ok .run
    else if kind = seccompRetKillProcess then .ok .killed
    else if kind = seccompRetTrap then .ok (.denied Errno.eperm.asU64)
    else if kind = seccompRetErrno then
      let requested := action &&& 0xFFFF
      .ok (.denied (if requested = 0 then Errno.eperm.asU64 else -requested))
    else if kind = seccompRetLog then .ok .run
    else .ok (.denied Errno.eperm.asU64)

def SeccompState.Allows : Prop :=
  checkSyscall st nr args = .ok .run

instance (st : SeccompState) (nr : BitVec 64) (args : Fin 6 → BitVec 64) :
    Decidable (st.Allows nr args) :=
  inferInstanceAs (Decidable (checkSyscall st nr args = .ok .run))

@[simp] theorem default_allows :
    SeccompState.default.Allows nr args := rfl

/-! ### Safety -/

/-- The end of a word or half-word load wraps around, and passes the bounds test. -/
def Wraps (size : BitVec 16) (offset : BitVec 64) : Prop :=
  (size = 0x00 ∧ 2 ^ 64 ≤ offset.toNat + 4) ∨ (size = 0x08 ∧ 2 ^ 64 ≤ offset.toNat + 2)

/-- The instruction loads at an offset from the index register that wraps. -/
def PastEnd (s : BpfState) : Prop :=
  (insn.code &&& 0x07 = 0x00 ∨ insn.code &&& 0x07 = 0x01) ∧ insn.code &&& 0xE0 = 0x40 ∧
    Wraps (insn.code &&& 0x18) (s.x + insn.k.setWidth 64)

/-- The states in which the loop executes an instruction. -/
def filterTrace (st : SeccompState) (data : List (BitVec 8)) : ℕ → BpfState → List BpfState
  | 0, _ => []
  | fuel + 1, s =>
    match st.filter[s.pc]? with
    | none => []
    | some insn => s ::
      match filterStep st data insn s with
      | .ok (.next s') =>
        if st.filter.length + 10000 < s'.pc then [] else filterTrace st data fuel s'
      | _ => []

@[simp] theorem length_buildSeccompData : (buildSeccompData nr args).length = 64 := by
  simp [buildSeccompData, List.ofFn_succ]

variable {insn st data} {s s' : BpfState} {size : BitVec 16} {offset : BitVec 64}

/-- A load returns unless its end wraps around. -/
theorem exists_loadData_eq (h : ¬ Wraps size offset) : ∃ v, loadData data size offset = .ok v := by
  have hbyte : ∀ {i : BitVec 64}, i.toNat < data.length → ∃ b, dataByte data i = .ok b := by
    intro i hi
    simp [dataByte, hi]
  unfold Wraps at h
  unfold loadData
  split_ifs with hword hpast hhalf hpast hbyte' hpast
  · exact ⟨none, rfl⟩
  · obtain ⟨b0, h0⟩ := hbyte (i := offset) (by bv_omega)
    obtain ⟨b1, h1⟩ := hbyte (i := offset + 1) (by bv_omega)
    obtain ⟨b2, h2⟩ := hbyte (i := offset + 2) (by bv_omega)
    obtain ⟨b3, h3⟩ := hbyte (i := offset + 3) (by bv_omega)
    rw [h0, h1, h2, h3]
    exact ⟨_, rfl⟩
  · exact ⟨none, rfl⟩
  · obtain ⟨b0, h0⟩ := hbyte (i := offset) (by bv_omega)
    obtain ⟨b1, h1⟩ := hbyte (i := offset + 1) (by bv_omega)
    rw [h0, h1]
    exact ⟨_, rfl⟩
  · exact ⟨none, rfl⟩
  · obtain ⟨b0, h0⟩ := hbyte (Nat.lt_of_not_le hpast)
    rw [h0]
    exact ⟨_, rfl⟩
  · exact ⟨none, rfl⟩

theorem loadData_eq_panic (hdata : data.length = 64) (h : Wraps size offset) :
    loadData data size offset = .panic := by
  have hfirst : dataByte data offset = .panic := by
    unfold Wraps at h
    rw [dataByte, List.getElem?_eq_none (by omega)]
  unfold loadData
  obtain ⟨rfl, hend⟩ | ⟨rfl, hend⟩ := h
  · rw [if_pos rfl, if_neg (by bv_omega), hfirst, Outcome.panic_bind]
  · rw [if_neg (by decide), if_pos rfl, if_neg (by bv_omega), hfirst, Outcome.panic_bind]

theorem exists_filterStep_eq (h : ¬ PastEnd insn s) : ∃ r, filterStep st data insn s = .ok r := by
  simp only [filterStep]
  split
  · next hload =>
    obtain ⟨value, hvalue⟩ : ∃ v, loadValue data insn s = .ok v := by
      simp only [loadValue]
      split_ifs with habs hind hmem hk
      · exact exists_loadData_eq fun hwraps => by
          have hk := insn.k.isLt
          simp only [Wraps, BitVec.toNat_setWidth] at hwraps
          omega
      · exact exists_loadData_eq fun hwraps => h ⟨hload, hind, hwraps⟩
      all_goals exact ⟨_, rfl⟩
    rw [hvalue, Outcome.ok_bind]
    cases value with
    | none => exact ⟨_, rfl⟩
    | some v =>
      dsimp only
      split <;> exact ⟨_, rfl⟩
  · repeat' split
    all_goals exact ⟨_, rfl⟩

theorem filterStep_eq_panic (hdata : data.length = 64) (h : PastEnd insn s) :
    filterStep st data insn s = .panic := by
  obtain ⟨hload, hind, hwraps⟩ := h
  have hvalue : loadValue data insn s = .panic := by
    simp only [loadValue]
    rw [if_neg (by rw [hind]; decide), if_pos hind, loadData_eq_panic hdata hwraps]
  simp only [filterStep]
  rw [if_pos hload, hvalue, Outcome.panic_bind]

/-- Every instruction that continues moves the program counter forward. -/
theorem filterStep_pc_lt (h : filterStep st data insn s = .ok (.next s')) : s.pc < s'.pc := by
  simp only [filterStep] at h
  split at h
  · obtain ⟨value, -, h⟩ := Outcome.bind_eq_ok.mp h
    cases value with
    | none => simp at h
    | some v => simp only at h; split at h <;> simp at h <;> subst h <;> simp
  · repeat' split at h
    all_goals simp at h
    all_goals subst h; dsimp only; omega

/-- From a state with the program counter in the program the loop stops, and it panics
exactly if it comes to a load that wraps. -/
theorem filterLoop_safe (hdata : data.length = 64) {fuel : ℕ}
    (hfuel : st.filter.length < fuel + s.pc) (hpos : 0 < fuel) :
    filterLoop st data fuel s ≠ .hang ∧
      (filterLoop st data fuel s = .panic ↔
        ∃ s' ∈ filterTrace st data fuel s, ∃ insn ∈ st.filter[s'.pc]?, PastEnd insn s') ∧
      (filterTrace st data fuel s).length ≤ st.filter.length - s.pc := by
  induction fuel generalizing s with
  | zero => cases hpos
  | succ fuel ih =>
    unfold filterLoop filterTrace
    cases hinsn : st.filter[s.pc]? with
    | none => simp
    | some insn =>
      have hpc : s.pc < st.filter.length := (List.getElem?_eq_some_iff.mp hinsn).1
      by_cases hpast : PastEnd insn s
      · simp only [filterStep_eq_panic hdata hpast, Outcome.panic_bind]
        refine ⟨nofun, iff_of_true trivial ⟨s, List.mem_cons_self, insn, hinsn, hpast⟩, ?_⟩
        simp only [List.length_singleton]
        omega
      · obtain ⟨r, hstep⟩ : ∃ r, filterStep st data insn s = .ok r := exists_filterStep_eq hpast
        have hself : ¬ ∃ i ∈ st.filter[s.pc]?, PastEnd i s := by simpa [hinsn] using hpast
        simp only [hstep, Outcome.ok_bind, List.mem_cons, exists_eq_or_imp, hself, false_or,
          List.length_cons]
        cases r with
        | done action => exact ⟨nofun, by simp, Nat.sub_pos_of_lt hpc⟩
        | next s' =>
          have hlt := filterStep_pc_lt hstep
          dsimp only
          split
          · exact ⟨nofun, by simp, Nat.sub_pos_of_lt hpc⟩
          · obtain ⟨hhang, hpanic, hlength⟩ := ih (s := s') (by omega) (by omega)
            exact ⟨hhang, hpanic, by omega⟩

/-- The interpreter stops on every program and every call, executes no instruction twice, and
panics, at a read outside the data, exactly if it comes to a load that wraps. -/
theorem checkFilter_safe (st : SeccompState) (nr : BitVec 64) (args : Fin 6 → BitVec 64) :
    let trace := filterTrace st (buildSeccompData nr args) (st.filter.length + 1) .start
    checkFilter st nr args ≠ .hang ∧ trace.length ≤ st.filter.length ∧
      (checkFilter st nr args = .panic ↔
        ∃ s ∈ trace, ∃ insn ∈ st.filter[s.pc]?, PastEnd insn s) := by
  obtain ⟨hhang, hpanic, hlength⟩ := filterLoop_safe (length_buildSeccompData nr args)
    (by omega : st.filter.length < st.filter.length + 1 + BpfState.start.pc) (by omega)
  unfold checkFilter
  split
  · next hempty => simp [hempty, filterTrace]
  · exact ⟨hhang, hlength, hpanic⟩

/-- `X` is set to `2 ^ 64 - 1` by way of the scratch memory, and the word there is loaded. -/
def wrappingLoad : SeccompState where
  mode := .filter
  filter := [⟨0x14, 0, 0, 1⟩, ⟨0x02, 0, 0, 0⟩, ⟨0x61, 0, 0, 0⟩, ⟨0x40, 0, 0, 0⟩]
  defaultAction := seccompRetKillProcess

theorem wrappingLoad_panics : checkFilter wrappingLoad 0 (fun _ => 0) = .panic := by
  decide +kernel

end Vahi.Syscalls
