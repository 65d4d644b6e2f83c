import Vahi.Syscalls.Signal

/-!
# Delivery and return as a pair

Runs of one thread. The contexts interrupted so far are kept on a stack, so that each `rt_sigreturn`
has the delivery it answers.
-/

namespace Vahi.Syscalls

open Vahi.Lib Vahi.Memory

inductive SignalEvent where
  /-- User code, signals raised, mask changes, other system calls: anything may
  change but the saved context, which only delivery and return touch. -/
  | other (m : Machine)
  /-- The end of a system call, where signals are delivered. -/
  | syscallReturn
  | sigreturn

structure Tracked where
  machine : Machine
  interrupted : List Machine

/-- One event; `none` when the process is gone or a return answers no delivery. -/
def Tracked.step (trampoline : BitVec 64) (s : Tracked) : SignalEvent → Option Tracked
  | .other m =>
    let signals := { m.signals with savedContext := s.machine.signals.savedContext }
    some { s with machine := { m with signals := signals } }
  | .syscallReturn =>
    match deliver trampoline s.machine with
    | .ok (.quiet m) => some { s with machine := m }
    | .ok (.handler m _) => some ⟨m, s.machine :: s.interrupted⟩
    | _ => none
  | .sigreturn =>
    match s.interrupted with
    | [] => none
    | _ :: rest => some ⟨sysRtSigreturn s.machine, rest⟩

def runEvents (trampoline : BitVec 64) (s : Tracked) : List SignalEvent → Option Tracked
  | [] => some s
  | e :: es => (s.step trampoline e).bind fun s' => runEvents trampoline s' es

def Restored (before after : Machine) : Prop :=
  after.regs = before.regs ∧ after.signals.blocked = before.signals.blocked

def EveryReturnRestores (trampoline : BitVec 64) (s : Tracked) : List SignalEvent → Prop
  | [] => True
  | e :: es =>
    (e = .sigreturn → ∀ m rest, s.interrupted = m :: rest → Restored m (sysRtSigreturn s.machine)) ∧
    ∀ s', s.step trampoline e = some s' → EveryReturnRestores trampoline s' es

/-- The saved context belongs to the innermost delivery. -/
def SavedOfTop (s : Tracked) : Prop :=
  ∀ m rest, s.interrupted = m :: rest → ∃ fpu, s.machine.signals.savedContext =
    some ⟨Function.update m.regs .rsp (newRsp (m.regs .rsp)), fpu⟩

variable {trampoline : BitVec 64} {s s' : Tracked}

/-- Until the first return, the saved context follows the deliveries. -/
theorem savedOfTop_step {e : SignalEvent}
    (hs : SavedOfTop s) (he : e ≠ .sigreturn) (h : s.step trampoline e = some s') :
    SavedOfTop s' := by
  cases e with
  | sigreturn => exact absurd rfl he
  | other m =>
    cases h
    exact hs
  | syscallReturn =>
    simp only [Tracked.step] at h
    split at h
    · next m hm =>
      cases h
      intro m₀ rest htop
      obtain ⟨fpu, hfpu⟩ := hs m₀ rest htop
      obtain ⟨m', hq, hsaved⟩ | ⟨_, _, _, hd⟩ | ⟨_, _, hd, -⟩ := deliver_savedContext hm
      · cases hq
        exact ⟨fpu, hsaved.trans hfpu⟩
      · cases hd
      · cases hd
    · next m writes hm =>
      cases h
      intro m₀ rest htop
      cases htop
      obtain ⟨_, hd, -⟩ | ⟨_, _, _, hd⟩ | ⟨m', _, hd, hsaved⟩ := deliver_savedContext hm
      · cases hd
      · cases hd
      · cases hd
        exact ⟨_, hsaved⟩
    · cases h

/-- The return from the innermost handler leaves the stack pointer at the frame. -/
theorem SavedOfTop.not_restored {m : Machine} {rest : List Machine}
    (hs : SavedOfTop s) (htop : s.interrupted = m :: rest) :
    ¬ Restored m (sysRtSigreturn s.machine) := by
  obtain ⟨fpu, hsaved⟩ := hs m rest htop
  rintro ⟨hregs, -⟩
  have hrsp := congrFun hregs .rsp
  simp only [sysRtSigreturn, hsaved, Function.update_self] at hrsp
  exact newRsp_ne _ hrsp

theorem everyReturnRestores_of_savedOfTop {events : List SignalEvent} (hs : SavedOfTop s)
    (h : runEvents trampoline s events = some s') :
    EveryReturnRestores trampoline s events ↔ .sigreturn ∉ events := by
  induction events generalizing s with
  | nil => simp [EveryReturnRestores]
  | cons e es ih =>
    obtain ⟨s₁, hstep, hrun⟩ := Option.bind_eq_some_iff.mp h
    by_cases he : e = .sigreturn
    · -- the first return of the run already fails
      subst he
      simp only [List.mem_cons, true_or, not_true_eq_false, iff_false]
      rintro ⟨hrestores, -⟩
      cases htop : s.interrupted with
      | nil => simp [Tracked.step, htop] at hstep
      | cons m rest => exact hs.not_restored htop (hrestores rfl m rest htop)
    · have hiff := ih (savedOfTop_step hs he hstep) hrun
      simp only [EveryReturnRestores, he, false_implies, true_and, hstep, Option.some.injEq,
        forall_eq', List.mem_cons, Ne.symm he, false_or]
      exact hiff

/-- In a nested run every return restores the context only if no handler ever
returns. -/
theorem everyReturnRestores_iff {trampoline : BitVec 64} {m : Machine} {s' : Tracked}
    {events : List SignalEvent} (h : runEvents trampoline ⟨m, []⟩ events = some s') :
    EveryReturnRestores trampoline ⟨m, []⟩ events ↔ .sigreturn ∉ events :=
  everyReturnRestores_of_savedOfTop (fun _ _ htop => by cases htop) h

/-- A machine with signal 2 pending, a handler for it, and one page of user stack. -/
def onePending : Machine where
  regs := fun r => if r = .rsp then 0x8000 else 0
  fpu := []
  signals := ⟨2, 0, none⟩
  signalHandlers := fun _ => 0x401000
  signalRestorers := fun _ => 0
  pages := fun page => if page = 7 then some ⟨3, 7⟩ else none
  memory := fun _ => 0

theorem everyReturnRestores_iff_onePending :
    ∃ s', runEvents 0 ⟨onePending, []⟩ [.syscallReturn, .sigreturn] = some s' ∧
      (EveryReturnRestores 0 ⟨onePending, []⟩ [.syscallReturn, .sigreturn] ↔
        .sigreturn ∉ [SignalEvent.syscallReturn, .sigreturn]) := by
  obtain ⟨s', h⟩ := Option.isSome_iff_exists.mp
    (show (runEvents 0 ⟨onePending, []⟩ [.syscallReturn, .sigreturn]).isSome by decide +kernel)
  exact ⟨s', h, everyReturnRestores_iff h⟩

/-- The handler of the only signal returns, and the stack pointer stays 160 bytes below
where it was. -/
theorem sigreturn_leaves_stack_pointer :
    (onePending.regs .rsp = 0x8000 ∧
      (runEvents 0 ⟨onePending, []⟩ [.syscallReturn, .sigreturn]).map
        (fun s => s.machine.regs .rsp) = some 0x7F60) ∧
      ¬ EveryReturnRestores 0 ⟨onePending, []⟩ [.syscallReturn, .sigreturn] := by
  refine ⟨by decide +kernel, fun hrestores => ?_⟩
  obtain ⟨s', h⟩ := Option.isSome_iff_exists.mp
    (show (runEvents 0 ⟨onePending, []⟩ [.syscallReturn, .sigreturn]).isSome by decide +kernel)
  have hnone := (everyReturnRestores_of_savedOfTop (fun _ _ htop => by cases htop) h).mp hrestores
  exact hnone (by simp)

end Vahi.Syscalls
