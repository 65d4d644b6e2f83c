import Mathlib.Data.List.Basic

/-!
# The locks of Unix sockets

The locks that the operations of `crates/net/src/unix.rs` take: the table of paths, the table of
sockets and the lock of one socket. `cleanup_unix_socket` takes the table of paths last, and so
against the order of `bind_unix`.
-/

namespace Vahi.Net

inductive UnixLock where
  | bound
  | sockets
  | inner (handle : ℕ)
  deriving DecidableEq

inductive LockStep where
  | acquire (l : UnixLock)
  | release (l : UnixLock)

/-- A guard that lives as long as `body` runs. -/
def within (l : UnixLock) (body : List LockStep) : List LockStep :=
  .acquire l :: body ++ [.release l]

/-- Under the lock of the socket table, the locks of the sockets that are found there in turn. -/
def table (handles : List ℕ) : List LockStep :=
  within .sockets (handles.flatMap fun h => within (.inner h) [])

/-- An operation with what its lookups give: `found` has the sockets that it locks each time it
goes to the socket table. -/
inductive LockCall where
  | bind (handle : ℕ) (inUse known : Bool)
  | connect (found : List (List ℕ))
  | accept (found : List (List ℕ))
  | send (own : List ℕ) (byPath : Bool) (found : List (List ℕ))
  | recv (found : List (List ℕ))
  | close (handle : ℕ) (known isBound : Bool) (peer : Option ℕ)

def LockCall.steps : LockCall → List LockStep
  | .bind handle inUse known =>
    within .bound (if inUse then [] else
      within .sockets (if known then within (.inner handle) [] else []))
  | .connect found => within .bound [] ++ found.flatMap table
  | .accept found | .recv found => found.flatMap table
  | .send own byPath found =>
    table own ++ ((if byPath then within .bound [] else []) ++ found.flatMap table)
  | .close handle known isBound peer =>
    within .sockets (if known then
      within (.inner handle) (if isBound then within .bound [] else []) ++
        peer.toList.flatMap fun h => within (.inner h) []
      else [])

/-! ### Two CPUs -/

structure LockCpu where
  held : List UnixLock
  rest : List LockStep

/-- The next step of a CPU while the other one has the locks `other`. -/
def LockCpu.next (other : List UnixLock) : LockCpu → Option LockCpu
  | ⟨held, .acquire l :: rest⟩ => if l ∈ other then none else some ⟨l :: held, rest⟩
  | ⟨held, .release l :: rest⟩ => some ⟨held.erase l, rest⟩
  | ⟨_, []⟩ => none

inductive Interleaves (a b : LockCpu) : LockCpu → LockCpu → Prop where
  | start : Interleaves a b a b
  | left {x x' y : LockCpu} (h : Interleaves a b x y) (hx : x.next y.held = some x') :
    Interleaves a b x' y
  | right {x y y' : LockCpu} (h : Interleaves a b x y) (hy : y.next x.held = some y') :
    Interleaves a b x y'

/-- Each CPU waits for a lock that the other one has. -/
def Deadlocked (x y : LockCpu) : Prop :=
  ∃ l ∈ y.held, ∃ m ∈ x.held,
    x.rest.head? = some (.acquire l) ∧ y.rest.head? = some (.acquire m)

def Deadlocks (a b : LockCall) : Prop :=
  ∃ x y, Interleaves ⟨[], a.steps⟩ ⟨[], b.steps⟩ x y ∧ Deadlocked x y

/-- The socket table comes before its sockets; `p` is the place of the table of paths. -/
def UnixLock.rank (p : ℕ) : UnixLock → ℕ
  | .bound => p
  | .sockets => 1
  | .inner _ => 2

/-- Every lock is taken above all that are held. -/
def Ascends (p : ℕ) : List UnixLock → List LockStep → Prop
  | _, [] => True
  | held, .acquire l :: rest => (∀ m ∈ held, m.rank p < l.rank p) ∧ Ascends p (l :: held) rest
  | held, .release l :: rest => Ascends p (held.erase l) rest

section Order

variable {p : ℕ} {a b x x' y : LockCpu} {other : List UnixLock} {rest : List LockStep}

theorem Ascends.next (h : Ascends p x.held x.rest) (hx : x.next other = some x') :
    Ascends p x'.held x'.rest := by
  obtain ⟨held, _ | ⟨l | l, rest⟩⟩ := x
  · cases hx
  · obtain ⟨-, hx⟩ := Option.ite_none_left_eq_some.1 hx
    cases hx
    exact h.2
  cases hx
  exact h

/-- Two CPUs that follow one order do not wait for each other. -/
theorem not_deadlocked_of_ascends (ha : Ascends p a.held a.rest) (hb : Ascends p b.held b.rest)
    (h : Interleaves a b x y) : ¬ Deadlocked x y := by
  have hboth : Ascends p x.held x.rest ∧ Ascends p y.held y.rest := by
    induction h with
    | start => exact ⟨ha, hb⟩
    | left _ hx ih => exact ⟨ih.1.next hx, ih.2⟩
    | right _ hy ih => exact ⟨ih.1, ih.2.next hy⟩
  rintro ⟨l, hl, m, hm, hx, hy⟩
  obtain ⟨xs, hxs⟩ := List.head?_eq_some_iff.1 hx
  obtain ⟨ys, hys⟩ := List.head?_eq_some_iff.1 hy
  rw [hxs, hys] at hboth
  exact Nat.lt_asymm (hboth.1.1 m hm) (hboth.2.1 l hl)

theorem ascends_inners (handles : List ℕ) (hrest : Ascends p [.sockets] rest) :
    Ascends p [.sockets] (handles.flatMap (fun n => within (.inner n) []) ++ rest) := by
  induction handles with
  | nil => exact hrest
  | cons n handles ih => simpa [within, Ascends, UnixLock.rank] using ih

theorem ascends_table (handles : List ℕ) (hrest : Ascends p [] rest) :
    Ascends p [] (table handles ++ rest) := by
  have hlast : Ascends p [.sockets] (.release .sockets :: rest) := by simpa [Ascends] using hrest
  simpa [table, within, Ascends] using ascends_inners handles hlast

theorem ascends_tables (found : List (List ℕ)) : Ascends p [] (found.flatMap table) := by
  induction found with
  | nil => trivial
  | cons handles found ih => exact ascends_table handles ih

end Order

/-! ### The operations -/

namespace LockCall

/-- `bind` of a path that is not in use. -/
def BindsNew : LockCall → Prop
  | .bind _ inUse _ => inUse = false
  | _ => False

/-- The close of a bound socket. -/
def ClosesBound : LockCall → Prop
  | .close _ known isBound _ => known = true ∧ isBound = true
  | _ => False

/-- `bind` needs the table of paths first, and the close of a bound socket needs it last. -/
theorem ascends {p : ℕ} (c : LockCall) (hb : c.BindsNew → p = 0) (hc : c.ClosesBound → p = 3) :
    Ascends p [] c.steps := by
  cases c with
  | bind handle inUse known =>
    cases inUse
    · rw [hb rfl]
      cases known <;> simp [steps, within, Ascends, UnixLock.rank]
    · simp [steps, within, Ascends]
  | connect found => simpa [steps, within, Ascends] using ascends_tables found
  | accept found | recv found => exact ascends_tables found
  | send own byPath found =>
    refine ascends_table own ?_
    cases byPath <;> simpa [within, Ascends] using ascends_tables found
  | close handle known isBound peer =>
    have hlast : Ascends p [.sockets] [.release .sockets] := trivial
    have hpeer := ascends_inners peer.toList hlast
    cases known
    · simp [steps, within, Ascends]
    cases isBound
    · simpa [steps, within, Ascends, UnixLock.rank] using hpeer
    · rw [hc ⟨rfl, rfl⟩] at hpeer ⊢
      simpa [steps, within, Ascends, UnixLock.rank] using hpeer

theorem not_bindsNew_of_closesBound {c : LockCall} (h : c.ClosesBound) : ¬ c.BindsNew := by
  cases c <;> first | exact id | cases h

/-- `bind` has the table of paths and waits for the sockets, the close has these and waits for the
table of paths. -/
theorem deadlocks_of_bindsNew {a b : LockCall} (ha : a.BindsNew) (hb : b.ClosesBound) :
    Deadlocks a b ∧ Deadlocks b a := by
  cases a with
  | bind handle inUse known =>
    cases b with
    | close target known' isBound peer =>
      obtain rfl : inUse = false := ha
      obtain ⟨rfl, rfl⟩ := hb
      exact ⟨⟨_, _, .right (.right (.left .start rfl) rfl) rfl,
        .sockets, by simp, .bound, by simp, rfl, rfl⟩,
        ⟨_, _, .left (.left (.right .start rfl) rfl) rfl,
        .bound, by simp, .sockets, by simp, rfl, rfl⟩⟩
    | _ => cases hb
  | _ => cases ha

/-- Two operations can end up waiting for each other exactly if one binds a new path and the other
closes a bound socket. -/
theorem deadlocks_iff (a b : LockCall) :
    Deadlocks a b ↔ a.BindsNew ∧ b.ClosesBound ∨ b.BindsNew ∧ a.ClosesBound := by
  constructor
  · rintro ⟨x, y, hrun, hdead⟩
    by_contra hnot
    have ha : a.ClosesBound → ¬ a.BindsNew := not_bindsNew_of_closesBound
    have hb : b.ClosesBound → ¬ b.BindsNew := not_bindsNew_of_closesBound
    by_cases hclose : a.ClosesBound ∨ b.ClosesBound
    · exact not_deadlocked_of_ascends (p := 3) (a.ascends (by tauto) fun _ => rfl)
        (b.ascends (by tauto) fun _ => rfl) hrun hdead
    · exact not_deadlocked_of_ascends (p := 0) (a.ascends (fun _ => rfl) (by tauto))
        (b.ascends (fun _ => rfl) (by tauto)) hrun hdead
  · rintro (⟨ha, hb⟩ | ⟨hb, ha⟩)
    · exact (deadlocks_of_bindsNew ha hb).1
    · exact (deadlocks_of_bindsNew hb ha).2

theorem deadlocks_bind_close : Deadlocks (.bind 1 false true) (.close 2 true true none) :=
  (deadlocks_of_bindsNew (a := .bind 1 false true) (b := .close 2 true true none) rfl
    ⟨rfl, rfl⟩).1

end LockCall

end Vahi.Net
