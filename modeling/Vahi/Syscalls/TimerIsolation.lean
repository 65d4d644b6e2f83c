import Vahi.Lib.Noninterference
import Vahi.Syscalls.PosixTimers

/-!
# Timers of different processes

What the calls and the timer interrupt do to a timer depends on that timer alone. Of another
process's calls a process sees only those that name one of its own timers.
-/

namespace Vahi.Syscalls

open Vahi.Lib List Function TimerTable

variable {T : TimerTable} {s t : TimerState} {P Q : BitVec 64}

/-! ### The timers of a process in a changed table -/

namespace TimerTable

theorem of_change {g : BitVec 32 → PosixTimer → PosixTimer}
    (hg : ∀ k t, (g k t).ownerPid = t.ownerPid) :
    (T.change g).of P = (T.of P).map fun e => (e.1, g e.1 e.2) := by
  rw [of, of, change, filter_map]
  congr 2
  funext e
  simp only [comp_apply, hg]

theorem of_remove (id : BitVec 32) : (T.remove id).of P = (T.of P).filter fun e => e.1 ≠ id := by
  rw [of, of, remove, filter_comm]

theorem of_insert (id : BitVec 32) (t : PosixTimer) :
    (T.insert id t).of P =
      ((T.of P).filter fun e => e.1 ≠ id) ++ if t.ownerPid = P then [(id, t)] else [] := by
  rw [← of_remove, of, of, insert, filter_append]
  by_cases ht : t.ownerPid = P
  · rw [if_pos ht, filter_cons_of_pos (by simpa using ht), filter_nil]
  · rw [if_neg ht, filter_cons_of_neg (by simpa using ht), filter_nil]

theorem get_eq_some_of_mem {e : BitVec 32 × PosixTimer} (he : e ∈ T.entries) :
    T.get e.1 = some e.2 := by
  have hfind : T.entries.find? (fun e' => e'.1 = e.1) = some e := by
    obtain ⟨e', he'⟩ : ∃ e', T.entries.find? (fun e' => e'.1 = e.1) = some e' := by
      rw [← Option.isSome_iff_exists, find?_isSome]
      exact ⟨e, he, by simp⟩
    have hkey : e'.1 = e.1 := by simpa using find?_some he'
    rw [he', inj_on_of_nodup_map T.nodup (mem_of_find?_eq_some he') he hkey]
  rw [get, hfind, Option.map_some]

variable {id : BitVec 32}

/-- A change of a timer that is not of the process. -/
theorem of_modify_of_ne (f : PosixTimer → PosixTimer) (hf : ∀ t, (f t).ownerPid = t.ownerPid)
    (hne : ∀ t, T.get id = some t → t.ownerPid ≠ P) : (T.modify id f).of P = T.of P := by
  rw [modify, of_change (fun k t => by split <;> simp only [hf])]
  refine (map_congr_left fun e he => ?_).trans (map_id _)
  obtain ⟨hmem, howner⟩ := mem_filter.1 he
  have hid : e.1 ≠ id := by
    rintro rfl
    exact hne e.2 (get_eq_some_of_mem hmem) (by simpa using howner)
  rw [if_neg hid]
  rfl

theorem of_remove_of_ne (hne : ∀ t, T.get id = some t → t.ownerPid ≠ P) :
    (T.remove id).of P = T.of P := by
  rw [of_remove]
  refine filter_eq_self.2 fun e he => ?_
  obtain ⟨hmem, howner⟩ := mem_filter.1 he
  refine decide_eq_true ?_
  rintro rfl
  exact hne e.2 (get_eq_some_of_mem hmem) (by simpa using howner)

/-- Where there is no timer, `modify` and `remove` do nothing. -/
theorem ne_of_get_eq_none (h : T.get id = none) {t : PosixTimer} :
    T.get id = some t → t.ownerPid ≠ P := by
  rw [h]
  intro hnone
  cases hnone

end TimerTable

/-! ### What a process sees -/

def TimerState.view (P : BitVec 64) (s : TimerState) :
    List (BitVec 32 × PosixTimer) × BitVec 64 :=
  (s.timers.of P, s.pending P)

open TimerState

/-- Two states that look the same to a process, also when it creates timers. -/
structure LooksSame (P : BitVec 64) (s t : TimerState) : Prop where
  nextId : s.nextId = t.nextId
  timers : s.timers.of P = t.timers.of P
  pending : s.pending P = t.pending P

theorem PosixTimer.ownerPid_settime (flags : BitVec 32) (new : Itimerspec) (now : BitVec 64)
    (t : PosixTimer) : (t.settime flags new now).ownerPid = t.ownerPid := by
  rw [PosixTimer.settime]
  split
  · rfl
  · split
    · rfl
    · rfl

theorem PosixTimer.ownerPid_fire (now : BitVec 64) (t : PosixTimer) :
    (t.fire now).ownerPid = t.ownerPid := by
  rw [PosixTimer.fire]
  split
  · simp only
    split
    · split <;> rfl
    · split <;> rfl
  · rfl

def TimerCall.edit (now : BitVec 64) : TimerCall → TimerTable → TimerTable
  | .settime timerid flags (.ok new) oldValue, T =>
    if oldValue = .fault then T else T.modify timerid (PosixTimer.settime flags new now)
  | .getoverrun timerid, T => T.modify timerid fun t => { t with overrun := 0 }
  | .delete timerid, T => T.remove timerid
  | _, T => T

def TimerCall.isCreate : TimerCall → Bool
  | .create _ _ _ => true
  | _ => false

/-- To a process a call on an existing timer looks like its edit of the table, whether or not there
is such a timer. -/
theorem timerCall_access {c : TimerCall} (hc : c.isCreate = false) (pid now : BitVec 64) :
    (timerCall s pid now c).1.nextId = s.nextId ∧
      (timerCall s pid now c).1.timers.of P = (c.edit now s.timers).of P ∧
      (timerCall s pid now c).1.pending = s.pending := by
  cases c with
  | create clockid sevp timerid => cases hc
  | gettime timerid currValue => exact ⟨rfl, rfl, rfl⟩
  | settime timerid flags newValue oldValue =>
    rw [timerCall, sysTimerSettime]
    split
    · rename_i hnone
      refine ⟨rfl, ?_, rfl⟩
      cases newValue with
      | null => rfl
      | fault => rfl
      | ok new =>
        rw [TimerCall.edit]
        split
        · rfl
        · exact (of_modify_of_ne _ (PosixTimer.ownerPid_settime flags new now)
            fun _ => ne_of_get_eq_none hnone).symm
    · split
      · rename_i hfault
        cases newValue with
        | null | fault => exact ⟨rfl, rfl, rfl⟩
        | ok new =>
          rw [TimerCall.edit, if_pos hfault]
          exact ⟨rfl, rfl, rfl⟩
      · rename_i hfault
        cases newValue with
        | null | fault => exact ⟨rfl, rfl, rfl⟩
        | ok new =>
          rw [TimerCall.edit, if_neg hfault]
          exact ⟨rfl, rfl, rfl⟩
  | getoverrun timerid =>
    rw [timerCall, sysTimerGetoverrun]
    split
    · rename_i hnone
      exact ⟨rfl, (of_modify_of_ne (fun t => { t with overrun := 0 }) (fun _ => rfl)
        fun _ => ne_of_get_eq_none hnone).symm, rfl⟩
    · exact ⟨rfl, rfl, rfl⟩
  | delete timerid =>
    rw [timerCall, sysTimerDelete]
    split
    · rename_i hnone
      exact ⟨rfl, (of_remove_of_ne
        fun _ => ne_of_get_eq_none hnone).symm, rfl⟩
    · exact ⟨rfl, rfl, rfl⟩

/-- The timers of a process in the edited table depend on its timers only. -/
theorem of_edit {T' : TimerTable} (c : TimerCall) (now : BitVec 64) (h : T.of P = T'.of P) :
    (c.edit now T).of P = (c.edit now T').of P := by
  have hmodify {id : BitVec 32} {f : PosixTimer → PosixTimer}
      (hf : ∀ t, (f t).ownerPid = t.ownerPid) : (T.modify id f).of P = (T'.modify id f).of P := by
    rw [TimerTable.modify, TimerTable.modify, of_change, of_change, h]
    all_goals
      intro k t
      split <;> simp only [hf]
  cases c with
  | create clockid sevp timerid => exact h
  | gettime timerid currValue => exact h
  | settime timerid flags newValue oldValue =>
    cases newValue with
    | null => exact h
    | fault => exact h
    | ok new =>
      rw [TimerCall.edit, TimerCall.edit]
      split
      · exact h
      · exact hmodify (PosixTimer.ownerPid_settime flags new now)
  | getoverrun timerid => exact hmodify fun _ => rfl
  | delete timerid =>
    rw [TimerCall.edit, TimerCall.edit, of_remove, of_remove, h]

theorem create_looksSame (h : LooksSame P s t) (pid : BitVec 64) (clockid : BitVec 32)
    (sevp : UserPtr Sigevent) (timerid : UserPtr Unit) :
    LooksSame P (sysTimerCreate s pid clockid sevp timerid).1
      (sysTimerCreate t pid clockid sevp timerid).1 := by
  rw [sysTimerCreate, sysTimerCreate, h.nextId]
  split
  · exact h
  split
  · exact h
  split
  · exact h
  split
  · exact ⟨rfl, by simp only [of_insert, h.timers], h.pending⟩
  · exact ⟨rfl, by simp only [of_remove, of_insert, h.timers], h.pending⟩

/-- The signals that one pass over the timers raises for a process come from its own timers. -/
theorem pending_foldl (now : BitVec 64) (reached : BitVec 32 → Bool)
    (entries : List (BitVec 32 × PosixTimer)) (pending : BitVec 64 → BitVec 64) :
    entries.foldl
        (fun pending e =>
          if reached e.1 then
            update pending e.2.ownerPid (pending e.2.ownerPid ||| e.2.signalBit now)
          else pending)
        pending P =
      (entries.filter fun e => e.2.ownerPid = P).foldl
        (fun mask e => if reached e.1 then mask ||| e.2.signalBit now else mask) (pending P) := by
  induction entries generalizing pending with
  | nil => rfl
  | cons e entries ih =>
    rw [foldl_cons, ih]
    by_cases howner : e.2.ownerPid = P
    · rw [filter_cons_of_pos (by simpa using howner), foldl_cons]
      split
      · rw [howner, update_self]
      · rfl
    · rw [filter_cons_of_neg (by simpa using howner)]
      congr 1
      split
      · exact update_of_ne (Ne.symm howner) _ _
      · rfl

theorem check_looksSame (h : LooksSame P s t) (now : BitVec 64) (reached : BitVec 32 → Bool) :
    LooksSame P (checkPosixTimers s now reached) (checkPosixTimers t now reached) where
  nextId := h.nextId
  timers := by
    rw [checkPosixTimers, checkPosixTimers,
      of_change fun _ => PosixTimer.ownerPid_fire now,
      of_change fun _ => PosixTimer.ownerPid_fire now, h.timers]
  pending := by
    have htimers := h.timers
    rw [TimerTable.of, TimerTable.of] at htimers
    simp only [checkPosixTimers]
    rw [pending_foldl, pending_foldl, h.pending, htimers]

/-- Every event takes states that look the same to such states. -/
theorem step_looksSame (h : LooksSame P s t) (e : TimerEvent) : LooksSame P (s.step e) (t.step e) := by
  cases e with
  | call pid c now =>
    cases hc : c.isCreate with
    | true =>
      cases c with
      | create clockid sevp timerid => exact create_looksSame h pid clockid sevp timerid
      | _ => cases hc
    | false =>
      obtain ⟨hid, htimers, hpending⟩ := timerCall_access (s := s) (P := P) hc pid now
      obtain ⟨hid', htimers', hpending'⟩ := timerCall_access (s := t) (P := P) hc pid now
      exact ⟨hid.trans (h.nextId.trans hid'.symm),
        htimers.trans ((of_edit c now h.timers).trans htimers'.symm),
        by rw [step, step, hpending, hpending', h.pending]⟩
  | tick now skipped reached =>
    cases skipped with
    | true => exact h
    | false => exact check_looksSame h now reached
  | deliver pid signals =>
    refine ⟨h.nextId, h.timers, ?_⟩
    simp only [step]
    by_cases hpid : P = pid
    · rw [← hpid, update_self, update_self, h.pending]
    · rw [update_of_ne hpid, update_of_ne hpid, h.pending]

/-! ### Calls of another process -/

def TimerEvent.isAccess (Q : BitVec 64) : TimerEvent → Bool
  | .call pid c _ => decide (pid = Q) && !c.isCreate
  | _ => false

def NotOf (P : BitVec 64) (s : TimerState) (timerid : BitVec 32) : Prop :=
  ∀ t, s.timers.get timerid = some t → t.ownerPid ≠ P

/-- The calls of `Q` that could change a timer name no timer of `P`. -/
def Spares (P Q : BitVec 64) (s : TimerState) : TimerEvent → Prop
  | .call pid (.settime timerid _ (.ok _) _) _ => pid = Q → NotOf P s timerid
  | .call pid (.getoverrun timerid) _ => pid = Q → NotOf P s timerid
  | .call pid (.delete timerid) _ => pid = Q → NotOf P s timerid
  | _ => True

theorem access_looksSame (h : LooksSame P s t) {e : TimerEvent} (he : e.isAccess Q = true)
    (hspares : Spares P Q s e) : LooksSame P (s.step e) t := by
  cases e with
  | call pid c now =>
    simp only [TimerEvent.isAccess, Bool.and_eq_true, decide_eq_true_eq, Bool.not_eq_true'] at he
    obtain ⟨hpid, hc⟩ := he
    have hedit : (c.edit now s.timers).of P = s.timers.of P := by
      cases c with
      | create clockid sevp timerid => rfl
      | gettime timerid currValue => rfl
      | settime timerid flags newValue oldValue =>
        cases newValue with
        | null => rfl
        | fault => rfl
        | ok new =>
          rw [TimerCall.edit]
          split
          · rfl
          · exact of_modify_of_ne _ (PosixTimer.ownerPid_settime flags new now)
              (hspares hpid)
      | getoverrun timerid => exact of_modify_of_ne _ (fun _ => rfl) (hspares hpid)
      | delete timerid => exact of_remove_of_ne (hspares hpid)
    obtain ⟨hid, htimers, hpending⟩ := timerCall_access (s := s) (P := P) hc pid now
    exact ⟨hid.trans h.nextId, htimers.trans (hedit.trans h.timers),
      by rw [step, hpending, h.pending]⟩
  | tick now skipped reached => cases he
  | deliver pid signals => cases he

/-- In every run of calls of all processes, timer interrupts and deliveries in which `Q` spares
the timers of `P`, what `P` sees of its timers and signals after each event is what it sees in the
run without the calls of `Q`. -/
theorem timers_noninterference (s : TimerState) (events : List TimerEvent)
    (h : Along step (Spares P Q) s events) :
    observed step (TimerEvent.isAccess Q) (view P) s events =
      observed step (TimerEvent.isAccess Q) (view P) s
        (events.filter fun e => !e.isAccess Q) :=
  observed_filter (R := LooksSame P)
    (fun _ _ hst => Prod.ext hst.timers hst.pending)
    (fun _ _ e _ hst => step_looksSame hst e)
    (fun _ _ _ he hspares hst => access_looksSame hst he hspares)
    ⟨rfl, rfl, rfl⟩ h

def TimerState.init : TimerState := ⟨.empty, 1, fun _ => 0⟩

/-- Processes 1 and 2 create a timer each, and process 2 arms its own. -/
def ownTimers : List TimerEvent :=
  [.call 1 (.create 0 .null (.ok ())) 0, .call 2 (.create 0 .null (.ok ())) 0,
    .call 2 (.settime 2 0 (.ok ⟨⟨0, 0⟩, ⟨1, 0⟩⟩) .null) 0, .tick 2000000000 false fun _ => true]

theorem timers_noninterference_ownTimers :
    observed step (TimerEvent.isAccess 2) (view 1) .init ownTimers =
      observed step (TimerEvent.isAccess 2) (view 1) .init
        (ownTimers.filter fun e => !e.isAccess 2) := by
  refine timers_noninterference .init ownTimers ⟨trivial, trivial, fun _ t ht => ?_, trivial, trivial⟩
  cases ht
  decide

/-- Process 1 creates a timer and arms it for one second; process 2 guesses its id and deletes it.
The signal never comes. -/
def deletedTimer : List TimerEvent :=
  [.call 1 (.create 0 .null (.ok ())) 0, .call 1 (.settime 1 0 (.ok ⟨⟨0, 0⟩, ⟨1, 0⟩⟩) .null) 0,
    .call 2 (.delete 1) 0, .tick 2000000000 false fun _ => true]

theorem deletedTimer_silent :
    observed step (TimerEvent.isAccess 2) (view 1) .init deletedTimer ≠
      observed step (TimerEvent.isAccess 2) (view 1) .init
        (deletedTimer.filter fun e => !e.isAccess 2) := by
  decide +kernel

end Vahi.Syscalls
