import Vahi.Syscalls.Signal
import Vahi.Types.Errno

/-!
# Signal handlers and masks

`sys_rt_sigaction` and `sys_sigprocmask` (`kernel/src/syscalls/process_signal.rs`). Both treat
`SIGKILL` and `SIGSTOP` like any other signal.
-/

namespace Vahi.Syscalls

open Vahi.Types Function

/-- The fields that are read. -/
structure SigAction where
  saHandler : BitVec 64
  saRestorer : BitVec 64

/-- A pointer argument: `none` if it is null, `some none` if its target cannot be copied. -/
abbrev UserArg (α : Type) := Option (Option α)

variable (m : Machine)

def sysRtSigaction (sig : BitVec 64) (act : UserArg SigAction) (oldactFaults : Bool) :
    Except Errno SigAction × Machine :=
  if h : 0 < sig.toNat ∧ sig.toNat ≤ 32 then
    let idx : Fin 32 := ⟨sig.toNat - 1, by omega⟩
    let old : SigAction := ⟨m.signalHandlers idx, m.signalRestorers idx⟩
    if oldactFaults then (.error .efault, m)
    else
      match act with
      | none => (.ok old, m)
      | some none => (.error .efault, m)
      | some (some sa) => (.ok old, { m with
          signalHandlers := update m.signalHandlers idx sa.saHandler
          signalRestorers :=
            if sa.saHandler ≠ 0 ∧ sa.saHandler ≠ 1 ∧ sa.saRestorer ≠ 0 then
              update m.signalRestorers idx sa.saRestorer
            else m.signalRestorers })
  else (.error .einval, m)

def newMask (how : BitVec 32) (blocked val : BitVec 64) : BitVec 64 :=
  if how = 0 then blocked ||| val else if how = 1 then blocked &&& ~~~val else val

/-- No signal is taken out of the new mask. -/
def sysSigprocmask (how : BitVec 32) (set : UserArg (BitVec 64)) (oldsetFaults : Bool) :
    Except Errno (BitVec 64) × Machine :=
  if how ≠ 0 ∧ how ≠ 1 ∧ how ≠ 2 then (.error .einval, m)
  else if set = some none ∨ oldsetFaults then (.error .efault, m)
  else (.ok m.signals.blocked, { m with signals := { m.signals with
    blocked := set.join.elim m.signals.blocked (newMask how m.signals.blocked) } })

inductive MaskCall where
  | sigaction (sig : BitVec 64) (act : UserArg SigAction) (oldactFaults : Bool)
  | sigprocmask (how : BitVec 32) (set : UserArg (BitVec 64)) (oldsetFaults : Bool)

def MaskCall.exec : MaskCall → Machine
  | .sigaction sig act faults => (sysRtSigaction m sig act faults).2
  | .sigprocmask how set faults => (sysSigprocmask m how set faults).2

/-- `SIGKILL` and `SIGSTOP`, by their bits. -/
def Forced (bit : ℕ) : Prop := bit = 8 ∨ bit = 18

/-- The call sets no handler for the two signals and does not add them to the mask. -/
def MaskCall.Spares : MaskCall → Prop
  | .sigaction sig act _ => ∀ sa ∈ act.join, Forced (sig.toNat - 1) → sa.saHandler = 0
  | .sigprocmask how set _ => ∀ val ∈ set.join, how ≠ 1 → ∀ bit, Forced bit → val.getLsbD bit = false

/-- The two signals are neither masked nor handled. -/
structure Unavoidable (m : Machine) : Prop where
  unmasked : ∀ bit, Forced bit → m.signals.blocked.getLsbD bit = false
  unhandled : ∀ i : Fin 32, Forced i → m.signalHandlers i = 0

variable {m}

theorem Unavoidable.exec {c : MaskCall} (h : Unavoidable m) (hc : c.Spares) :
    Unavoidable (c.exec m) := by
  cases c with
  | sigaction sig act faults =>
    simp only [MaskCall.exec, sysRtSigaction]
    split_ifs
    · exact h
    · split
      · exact h
      · exact h
      · next sa =>
        refine ⟨h.unmasked, fun i hi => ?_⟩
        dsimp only
        by_cases hidx : i = ⟨sig.toNat - 1, by omega⟩
        · subst hidx
          rw [update_self]
          exact hc sa rfl hi
        · rw [update_of_ne hidx]
          exact h.unhandled i hi
    · exact h
  | sigprocmask how set faults =>
    simp only [MaskCall.exec, sysSigprocmask]
    split_ifs
    · exact h
    · exact h
    refine ⟨fun bit hbit => ?_, h.unhandled⟩
    have hold := h.unmasked bit hbit
    cases hset : set.join with
    | none => exact hold
    | some val =>
      have hval := fun hhow => hc val hset hhow bit hbit
      simp only [Option.elim_some, newMask]
      split_ifs with hblock hunblock
      · rw [BitVec.getLsbD_or, hold, hval (by rw [hblock]; decide), Bool.false_or]
      · rw [BitVec.getLsbD_and, hold, Bool.false_and]
      · exact hval hunblock

/-- With calls that spare them, the two signals are selected when pending, whatever else is, no
handler is recorded for them, and `SIGKILL` ends the process when it is its turn. -/
theorem unavoidable_of_spares (m : Machine) (hm : Unavoidable m) (calls : List MaskCall)
    (hcalls : ∀ c ∈ calls, c.Spares) (trampoline pending : BitVec 64) :
    let m' := calls.foldl MaskCall.exec m
    let raised := { m' with signals := { m'.signals with pending := pending } }
    (∀ bit, Forced bit → pending.getLsbD bit →
        (pending &&& ~~~raised.signals.blocked).getLsbD bit) ∧
      (∀ i : Fin 32, Forced i → raised.signalHandlers i = 0) ∧
      (pending.getLsbD 8 → sigBit raised.signals = 8 →
        deliver trampoline raised = .ok (.exit raised [] 137)) := by
  intro m' raised
  have h : Unavoidable m' := by
    induction calls generalizing m with
    | nil => exact hm
    | cons c calls ih =>
      exact ih (c.exec m) (hm.exec (hcalls c (by simp))) fun c' hc' => hcalls c' (by simp [hc'])
  have hselected : ∀ bit, Forced bit → pending.getLsbD bit →
      (pending &&& ~~~raised.signals.blocked).getLsbD bit := by
    intro bit hbit hpending
    have hlt : bit < 64 := by
      unfold Forced at hbit
      omega
    have hunmasked : raised.signals.blocked.getLsbD bit = false := h.unmasked bit hbit
    rw [BitVec.getLsbD_and, hpending, BitVec.getLsbD_not, hunmasked, decide_eq_true hlt]
    rfl
  refine ⟨hselected, h.unhandled, fun hpending hbit => ?_⟩
  have havailable : raised.signals.hasUnmaskedPending raised.signals.blocked ≠ false := by
    intro hnone
    have hzero : pending &&& ~~~raised.signals.blocked = 0 := by
      simpa [SignalState.hasUnmaskedPending] using hnone
    have hkill := hselected 8 (.inl rfl) hpending
    rw [hzero] at hkill
    cases hkill
  have hlt : sigBit raised.signals < 32 := by omega
  have hhandler : raised.signalHandlers ⟨sigBit raised.signals, hlt⟩ = 0 :=
    h.unhandled _ (.inl hbit)
  rw [deliver, if_neg havailable, dif_pos hlt]
  dsimp only
  rw [hhandler, if_neg (by decide), if_pos rfl, hbit]

/-- A process whose signals are all unmasked and have no handlers. -/
def freshSignals : Machine where
  regs := fun _ => 0
  fpu := []
  signals := ⟨0, 0, none⟩
  signalHandlers := fun _ => 0
  signalRestorers := fun _ => 0
  pages := fun _ => none
  memory := fun _ => 0

/-- `SIGUSR1` is masked, and `SIGKILL` is delivered. -/
theorem unavoidable_of_spares_usr1 :
    deliver 0 { freshSignals with signals := ⟨0x300, 0x200, none⟩ } =
      .ok (.exit { freshSignals with signals := ⟨0x300, 0x200, none⟩ } [] 137) := by
  refine (unavoidable_of_spares freshSignals ⟨fun bit _ => ?_, fun _ _ => rfl⟩
    [.sigprocmask 0 (some (some 0x200)) false] ?_ 0 0x300).2.2 (by decide) (by decide +kernel)
  · simp [freshSignals]
  · intro c hc
    obtain rfl := List.mem_singleton.mp hc
    rintro val ⟨⟩ - bit (rfl | rfl)
    · decide
    · decide

/-- A process sets a handler for `SIGKILL` and masks it, and it is not delivered. -/
theorem sigkill_hidden :
    let m := [.sigaction 9 (some (some ⟨0x401000, 0⟩)) false,
      .sigprocmask 0 (some (some 0x100)) false].foldl MaskCall.exec freshSignals
    m.signalHandlers 8 = 0x401000 ∧
      ({ m.signals with pending := 0x100 }).hasUnmaskedPending m.signals.blocked = false := by
  decide

end Vahi.Syscalls
