import Vahi.Types.Errno
import Mathlib.Data.List.Nodup
import Mathlib.Tactic.Ring

/-!
# POSIX timers

`kernel/src/syscalls/posix_timers.rs`: the table of timers that all processes share. The calls find
a timer by its id and do not look at its owner. Sums of times wrap around.
-/

namespace Vahi.Syscalls

open Vahi.Types

structure PosixTimer where
  tid : BitVec 32
  sigevSigno : BitVec 32
  sigevValue : BitVec 64
  sigevNotify : BitVec 32
  clockId : BitVec 32
  interval : BitVec 64
  value : BitVec 64
  overrun : BitVec 32
  ownerPid : BitVec 64
  active : Bool
  deriving DecidableEq

structure Sigevent where
  sigevValue : BitVec 64
  sigevSigno : BitVec 32
  sigevNotify : BitVec 32
  deriving DecidableEq

structure Timespec where
  tvSec : BitVec 64
  tvNsec : BitVec 64
  deriving DecidableEq

structure Itimerspec where
  itInterval : Timespec
  itValue : Timespec
  deriving DecidableEq

/-- A pointer argument: null, not accessible, or to a value. -/
inductive UserPtr (α : Type) where
  | null
  | fault
  | ok (a : α)
  deriving DecidableEq

/-! ### Times -/

def nsPerSec : BitVec 64 := 1000000000

def saturatingMul (a b : BitVec 64) : BitVec 64 :=
  if a.toNat * b.toNat < 2 ^ 64 then a * b else BitVec.allOnes 64

def saturatingAdd (a b : BitVec 64) : BitVec 64 :=
  if a.toNat + b.toNat < 2 ^ 64 then a + b else BitVec.allOnes 64

def timespecToNs (ts : Timespec) : BitVec 64 :=
  if ts.tvSec.toInt < 0 || ts.tvNsec.toInt < 0 then 0
  else saturatingAdd (saturatingMul ts.tvSec nsPerSec) ts.tvNsec

def nsToTimespec (ns : BitVec 64) : Timespec := ⟨ns / nsPerSec, ns % nsPerSec⟩

namespace PosixTimer

variable (t : PosixTimer) (now : BitVec 64)

def remaining : Timespec :=
  if t.active && decide (0 < t.value) then
    if t.value ≤ now then ⟨0, 0⟩ else nsToTimespec (t.value - now)
  else ⟨0, 0⟩

def itimerspec : Itimerspec :=
  ⟨nsToTimespec t.interval, t.remaining now⟩

def settime (flags : BitVec 32) (new : Itimerspec) (now : BitVec 64) (t : PosixTimer) :
    PosixTimer :=
  let interval := timespecToNs new.itInterval
  let valueNs := timespecToNs new.itValue
  if valueNs = 0 ∧ (new.itValue.tvSec ≠ 0 ∨ new.itValue.tvNsec ≠ 0) then
    { t with active := false, value := 0 }
  else if valueNs = 0 then { t with active := false, value := 0 }
  else
    { t with
      -- `TIMER_ABSTIME`
      value := if flags &&& 1 ≠ 0 then valueNs else now + valueNs
      interval := interval
      overrun := 0
      active := true }

def expired : Bool :=
  t.active && t.value != 0 && decide (t.value ≤ now)

/-- The body of the loop of `check_posix_timers`, as far as the timer itself is changed. -/
def fire (t : PosixTimer) : PosixTimer :=
  if t.expired now then
    let t := if t.overrun.toInt < 2147483647 then { t with overrun := t.overrun + 1 } else t
    if 0 < t.interval then { t with value := now + t.interval, overrun := 0 }
    else { t with active := false }
  else t

/-- The bit it sets in the pending signals of its owner. -/
def signalBit : BitVec 64 :=
  -- `SIGEV_SIGNAL`
  if t.expired now && t.sigevNotify == 0 && decide ((t.sigevSigno - 1).toNat < 64) then
    1#64 <<< (t.sigevSigno - 1).toNat
  else 0

end PosixTimer

/-! ### The table -/

structure TimerTable where
  entries : List (BitVec 32 × PosixTimer)
  nodup : (entries.map Prod.fst).Nodup

namespace TimerTable

def empty : TimerTable := ⟨[], List.nodup_nil⟩

variable (T : TimerTable) (id : BitVec 32)

def get : Option PosixTimer :=
  (T.entries.find? fun e => e.1 = id).map Prod.snd

def change (g : BitVec 32 → PosixTimer → PosixTimer) : TimerTable where
  entries := T.entries.map fun e => (e.1, g e.1 e.2)
  nodup := by
    rw [List.map_map]
    exact T.nodup

def modify (f : PosixTimer → PosixTimer) : TimerTable :=
  T.change fun k t => if k = id then f t else t

def remove : TimerTable where
  entries := T.entries.filter fun e => e.1 ≠ id
  nodup := T.nodup.sublist (List.filter_sublist.map Prod.fst)

def insert (t : PosixTimer) : TimerTable where
  entries := (T.remove id).entries ++ [(id, t)]
  nodup := by
    rw [List.map_append]
    refine List.Nodup.append (T.remove id).nodup (List.nodup_singleton id) ?_
    intro k hk hk'
    obtain rfl : k = id := List.mem_singleton.1 hk'
    obtain ⟨e, he, rfl⟩ := List.mem_map.1 hk
    simp [remove] at he

def of (pid : BitVec 64) : List (BitVec 32 × PosixTimer) :=
  T.entries.filter fun e => e.2.ownerPid = pid

end TimerTable

/-- The table, `NEXT_TIMER_ID` and the pending signals of all processes. -/
structure TimerState where
  timers : TimerTable
  nextId : BitVec 32
  pending : BitVec 64 → BitVec 64

/-! ### The system calls -/

structure TimerResult where
  ret : BitVec 64
  tid : Option (BitVec 32)
  its : Option Itimerspec
  deriving DecidableEq

def TimerResult.error (e : Errno) : TimerResult := ⟨e.asU64, none, none⟩

def TimerResult.success : TimerResult := ⟨0, none, none⟩

/-- The checks on the `sigevent` argument; `SIGALRM` without one. -/
def sigeventArg : UserPtr Sigevent → Except Errno Sigevent
  | .null => .ok ⟨0, 14, 0⟩
  | .fault => .error .efault
  | .ok ev =>
    if ev.sigevNotify = 2 then .error .enosys
    else if ev.sigevNotify ≠ 0 ∧ ev.sigevNotify ≠ 1 then .error .einval
    else if ev.sigevSigno.toInt < 1 ∨ ev.sigevSigno.toInt > 32 then .error .einval
    else .ok ev

def newTimer (pid : BitVec 64) (clockid : BitVec 32) (ev : Sigevent) (tid : BitVec 32) :
    PosixTimer where
  tid := tid
  sigevSigno := ev.sigevSigno
  sigevValue := ev.sigevValue
  sigevNotify := ev.sigevNotify
  clockId := clockid
  interval := 0
  value := 0
  overrun := 0
  ownerPid := pid
  active := false

variable (s : TimerState) (timerid : BitVec 32)

/-- A number that cannot be handed to the caller is not used again. -/
def sysTimerCreate (pid : BitVec 64) (clockid : BitVec 32)
    (sevp : UserPtr Sigevent) (timerid : UserPtr Unit) : TimerState × TimerResult :=
  if clockid ≠ 0 ∧ clockid ≠ 1 then (s, .error .einval)
  else
    match sigeventArg sevp with
    | .error e => (s, .error e)
    | .ok ev =>
      if pid = 0 then (s, .error .esrch)
      else
        let tid := s.nextId
        let timers := s.timers.insert tid (newTimer pid clockid ev tid)
        match timerid with
        | .ok () => ({ s with timers := timers, nextId := tid + 1 }, ⟨0, some tid, none⟩)
        | _ => ({ s with timers := timers.remove tid, nextId := tid + 1 }, .error .efault)

/-- The owner of the timer is not compared with the caller. -/
def sysTimerSettime (flags : BitVec 32) (newValue : UserPtr Itimerspec)
    (oldValue : UserPtr Unit) (now : BitVec 64) : TimerState × TimerResult :=
  match s.timers.get timerid with
  | none => (s, .error .einval)
  | some timer =>
    if oldValue = .fault then (s, .error .efault)
    else
      let old := if oldValue = .null then none else some (timer.itimerspec now)
      match newValue with
      | .null => (s, ⟨0, none, old⟩)
      | .fault => (s, ⟨Errno.efault.asU64, none, old⟩)
      | .ok new =>
        ({ s with timers := s.timers.modify timerid (PosixTimer.settime flags new now) },
          ⟨0, none, old⟩)

/-- A null pointer is not accessible here. -/
def sysTimerGettime (currValue : UserPtr Unit) (now : BitVec 64) : TimerResult :=
  match s.timers.get timerid with
  | none => .error .einval
  | some timer =>
    match currValue with
    | .ok () => ⟨0, none, some (timer.itimerspec now)⟩
    | _ => .error .efault

def sysTimerGetoverrun : TimerState × TimerResult :=
  match s.timers.get timerid with
  | none => (s, .error .einval)
  | some timer =>
    ({ s with timers := s.timers.modify timerid fun t => { t with overrun := 0 } },
      ⟨timer.overrun.signExtend 64, none, none⟩)

/-- The owner of the timer is not compared with the caller. -/
def sysTimerDelete : TimerState × TimerResult :=
  match s.timers.get timerid with
  | none => (s, .error .einval)
  | some _ => ({ s with timers := s.timers.remove timerid }, .success)

/-- One pass over all timers. `reached` says for which of them the owner is in the process table
and its signals can be locked. -/
def checkPosixTimers (now : BitVec 64) (reached : BitVec 32 → Bool) : TimerState where
  timers := s.timers.change fun _ t => t.fire now
  nextId := s.nextId
  pending := s.timers.entries.foldl
    (fun pending e =>
      if reached e.1 then
        Function.update pending e.2.ownerPid (pending e.2.ownerPid ||| e.2.signalBit now)
      else pending)
    s.pending

inductive TimerCall where
  | create (clockid : BitVec 32) (sevp : UserPtr Sigevent) (timerid : UserPtr Unit)
  | settime (timerid flags : BitVec 32) (newValue : UserPtr Itimerspec) (oldValue : UserPtr Unit)
  | gettime (timerid : BitVec 32) (currValue : UserPtr Unit)
  | getoverrun (timerid : BitVec 32)
  | delete (timerid : BitVec 32)
  deriving DecidableEq

inductive TimerEvent where
  | call (pid : BitVec 64) (c : TimerCall) (now : BitVec 64)
  /-- The timer interrupt. It skips the pass when it finds a lock taken. -/
  | tick (now : BitVec 64) (skipped : Bool) (reached : BitVec 32 → Bool)
  /-- Pending signals of a process are taken from it. -/
  | deliver (pid : BitVec 64) (signals : BitVec 64)

def timerCall (pid : BitVec 64) (now : BitVec 64) : TimerCall → TimerState × TimerResult
  | .create clockid sevp timerid => sysTimerCreate s pid clockid sevp timerid
  | .settime timerid flags newValue oldValue =>
    sysTimerSettime s timerid flags newValue oldValue now
  | .gettime timerid currValue => (s, sysTimerGettime s timerid currValue now)
  | .getoverrun timerid => sysTimerGetoverrun s timerid
  | .delete timerid => sysTimerDelete s timerid

def TimerState.step : TimerEvent → TimerState
  | .call pid c now => (timerCall s pid now c).1
  | .tick now skipped reached => if skipped then s else checkPosixTimers s now reached
  | .deliver pid signals =>
    { s with pending := Function.update s.pending pid (s.pending pid &&& ~~~signals) }

end Vahi.Syscalls
