import Vahi.Lib.Run
import Vahi.Types.Errno

/-!
# Exit and wait

`sys_exit`, `sys_wait4` and the registration of a forked child
(`kernel/src/syscalls/process_lifecycle.rs`). An exit stores its code first and settles the lists of
children later, a wait finds an exited child first and takes it out later.
-/

namespace Vahi.Task

open Vahi.Lib Vahi.Types

/-! ## The process table -/

def notExited : BitVec 32 := 0x80000000

structure ProcEntry where
  parentId : Option ℕ
  children : List ℕ
  exitCode : BitVec 32
  deriving DecidableEq

/-- An exit that has stored its code, with the parent it has read. -/
structure Exiting where
  pid : ℕ
  parent : Option ℕ
  deriving DecidableEq

structure Reaping where
  waiter : ℕ
  pid : Int
  child : ℕ
  status : BitVec 32
  deriving DecidableEq

structure ProcTable where
  table : ℕ → Option ProcEntry
  nextId : ℕ
  running : List ℕ
  exiting : List Exiting
  reaping : List Reaping

namespace ProcTable

/-- Before the first fork there is only process 1; numbers are given out from 100 on. -/
def init : ProcTable where
  table := fun n => if n = 1 then some ⟨none, [], notExited⟩ else none
  nextId := 100
  running := [1]
  exiting := []
  reaping := []

def set (s : ProcTable) (n : ℕ) (e : Option ProcEntry) : ProcTable :=
  { s with table := Function.update s.table n e }

end ProcTable

def Selects (pid : Int) (child : ℕ) : Prop := pid = -1 ∨ (child : Int) = pid

instance (pid : Int) (child : ℕ) : Decidable (Selects pid child) :=
  inferInstanceAs (Decidable (_ ∨ _))

/-! ## The calls -/

/-- The sections of the calls. Whether a signal is pending, whether the status could be copied
to the user, and which process objects are referred to by the table alone, is part of the
step. -/
inductive ProcStep where
  | fork (p : ℕ)
  | exitBegin (p : ℕ) (status : BitVec 64)
  | exitEnd (p : ℕ) (unique : ℕ → Bool)
  | waitScan (p : ℕ) (pid : Int) (options : BitVec 32) (signal : Bool)
  | waitReap (r : Reaping) (copied : Bool)

inductive ProcOutcome where
  /-- Nobody is there to make the step. -/
  | idle
  | done
  | forked (child : ℕ)
  | found (child : ℕ) (status : BitVec 32)
  | returned (child : ℕ) (status : BitVec 32)
  /-- The call returns 0. -/
  | nothing
  | error (e : Errno)
  /-- The caller sleeps for a tick and scans again. -/
  | blocked
  deriving DecidableEq

namespace ProcTable

variable (s : ProcTable)

/-- The tail of `sys_fork`: the child is put on the list of its parent and registered. -/
def fork (p : ℕ) : ProcOutcome × ProcTable :=
  match s.table p with
  | none => (.idle, s)
  | some e =>
    let child := s.nextId
    (.forked child, { (s.set p (some { e with children := e.children ++ [child] })).set child
          (some ⟨some p, [], notExited⟩) with
        nextId := child + 1
        running := s.running ++ [child] })

/-- The first part of `sys_exit`. Process 1 does not get here: its exit halts the system. -/
def exitBegin (p : ℕ) (status : BitVec 64) : ProcOutcome × ProcTable :=
  match s.table p with
  | none => (.idle, s)
  | some e =>
    if p = 1 then (.idle, s)
    else
      (.done, { s.set p (some { e with exitCode := status.setWidth 32 }) with
          running := s.running.filter (· ≠ p)
          exiting := ⟨p, e.parentId⟩ :: s.exiting })

/-- What the second part of an exit does to the entry of process `n`: the children of the
exiting process are drained, those of them whose object is not shared get process 1 as their
parent, and the exiting process is taken off the list of its own parent. -/
def settle (x : Exiting) (orphans : List ℕ) (unique : ℕ → Bool) (n : ℕ) (e : ProcEntry) :
    ProcEntry where
  parentId := if n ∈ orphans ∧ unique n then some 1 else e.parentId
  children :=
    let children := if n = x.pid then [] else e.children
    if x.parent = some n then children.filter (· ≠ x.pid) else children
  exitCode := e.exitCode

def exitEnd (p : ℕ) (unique : ℕ → Bool) : ProcOutcome × ProcTable :=
  match s.exiting.find? (·.pid = p) with
  | none => (.idle, s)
  | some x =>
    let orphans := ((s.table p).map ProcEntry.children).getD []
    (.done, { s with
        table := fun n => (s.table n).map (settle x orphans unique n)
        exiting := s.exiting.erase x })

def exited (c : ℕ) : Option (BitVec 32) :=
  match s.table c with
  | some e => if e.exitCode ≠ notExited then some e.exitCode else none
  | none => none

/-- The first child on the list that is asked for and has exited. -/
def exitedChild (pid : Int) (children : List ℕ) : Option (ℕ × BitVec 32) :=
  children.findSome? fun c =>
    if Selects pid c then (s.exited c).map fun status => (c, status) else none

def WNOHANG : BitVec 32 := 1

/-- One round of the loop of `sys_wait4`, up to the copying of the status. -/
def waitScan (p : ℕ) (pid : Int) (options : BitVec 32) (signal : Bool) : ProcOutcome × ProcTable :=
  match s.table p with
  | none => (.nothing, s)
  | some e =>
    match s.exitedChild pid e.children with
    | some (child, status) =>
      (.found child status, { s with reaping := ⟨p, pid, child, status⟩ :: s.reaping })
    | none =>
      if signal then (.error .eintr, s)
      else if options &&& WNOHANG ≠ 0 then (.nothing, s)
      else (.blocked, s)

/-- The rest of `sys_wait4` for a child that was found. -/
def waitReap (r : Reaping) (copied : Bool) : ProcOutcome × ProcTable :=
  let s := { s with reaping := s.reaping.erase r }
  if !copied then (.error .efault, s)
  else
    match s.table r.waiter with
    | none => (.error .echild, s)
    | some e =>
      if r.child ∈ e.children then
        (.returned r.child r.status,
          (s.set r.waiter (some { e with children := e.children.erase r.child })).set r.child none)
      else (.error .echild, s)

def exec : ProcStep → ProcOutcome × ProcTable
  | .fork p => if p ∈ s.running then s.fork p else (.idle, s)
  | .exitBegin p status => if p ∈ s.running then s.exitBegin p status else (.idle, s)
  | .exitEnd p unique => s.exitEnd p unique
  | .waitScan p pid options signal =>
    if p ∈ s.running then s.waitScan p pid options signal else (.idle, s)
  | .waitReap r copied => if r ∈ s.reaping then s.waitReap r copied else (.idle, s)

end ProcTable

/-! ## What a wait should see -/

/-- The family tree by the calls that were made: parents, the statuses passed to `exit`, and
the children that a `wait4` has returned. -/
structure Family where
  parent : ℕ → Option ℕ
  status : ℕ → Option (BitVec 32)
  returned : List ℕ

namespace Family

def init : Family := ⟨fun _ => none, fun _ => none, []⟩

/-- A process that has exited and is done leaves its children to process 1. -/
def next (f : Family) : ProcStep → ProcOutcome → Family
  | .fork p, .forked child => { f with parent := Function.update f.parent child (some p) }
  | .exitBegin p status, .done =>
    { f with status := Function.update f.status p (some (status.setWidth 32)) }
  | .exitEnd p _, .done =>
    { f with parent := fun c => if f.parent c = some p then some 1 else f.parent c }
  | .waitReap _ _, .returned child _ => { f with returned := child :: f.returned }
  | _, _ => f

def Child (f : Family) (p c : ℕ) : Prop := f.parent c = some p ∧ c ∉ f.returned

end Family

/-- Every child of a running process is where its `wait4` looks for it, with its status once
it has exited. -/
def Offers (s : ProcTable) (f : Family) : Prop :=
  ∀ p ∈ s.running, ∀ c, f.Child p c →
    ∃ e, s.table p = some e ∧ c ∈ e.children ∧ s.exited c = f.status c

/-- The outcome `o` is one that a section of `wait4` should have: without a child to wait for
it is `ECHILD`, if one has exited it is found, and what is found and returned is a child that
was asked for, with its status. -/
def RightOutcome (s : ProcTable) (f : Family) (step : ProcStep) (o : ProcOutcome) : Prop :=
  match step with
  | .waitScan p pid _ _ => p ∈ s.running →
      ((∀ c, f.Child p c → ¬ Selects pid c) → o = .error .echild) ∧
      (∀ c, f.Child p c → Selects pid c → f.status c ≠ none → ∃ c' status, o = .found c' status) ∧
      (∀ c status, o = .found c status → f.Child p c ∧ Selects pid c ∧ f.status c = some status)
  | .waitReap r copied =>
      (∀ c status, o = .returned c status →
        f.Child r.waiter c ∧ Selects r.pid c ∧ f.status c = some status) ∧
      (r ∈ s.reaping → copied = true → r.waiter ∈ s.running → f.Child r.waiter r.child →
        o = .returned r.child r.status)
  | _ => True

def reapStep (sf : ProcTable × Family) (step : ProcStep) : ProcTable × Family :=
  ((sf.1.exec step).2, sf.2.next step (sf.1.exec step).1)

structure Reaps (sf : ProcTable × Family) (step : ProcStep) : Prop where
  outcome : RightOutcome sf.1 sf.2 step (sf.1.exec step).1
  offers : Offers (reapStep sf step).1 (reapStep sf step).2

/-- When a step does so: an exit status can be told from `i32::MIN` if there is somebody to
wait for it; an exit that settles the lists has been waited for already, if there was somebody
to do so, and leaves no children; a `wait4` has a child to wait for. -/
def ReapsWhen (sf : ProcTable × Family) (step : ProcStep) : Prop :=
  match step with
  | .exitBegin p status => p ∈ sf.1.running → p ≠ 1 →
      (∃ q ∈ sf.1.running, q ≠ p ∧ sf.2.Child q p) → status.setWidth 32 ≠ notExited
  | .exitEnd p _ => (∃ x ∈ sf.1.exiting, x.pid = p) →
      (∀ q ∈ sf.1.running, ¬ sf.2.Child q p) ∧ ∀ c, ¬ sf.2.Child p c
  | .waitScan p pid _ _ => p ∈ sf.1.running → ∃ c, sf.2.Child p c ∧ Selects pid c
  | _ => True

end Vahi.Task
