import Mathlib.Data.List.Nodup
import Vahi.Task.Reaping

/-!
# What waits return

However their sections interleave, what `wait4` returns is a child of the caller that was asked for,
once only, with the status of its exit.
-/

namespace Vahi.Task

open Vahi.Lib Vahi.Types List Function ProcTable

variable {s : ProcTable} {f : Family}

/-! ## The invariant of every run -/

structure Sound (s : ProcTable) (f : Family) : Prop where
  /-- The lists hold children that were not returned. -/
  children : ∀ p e, s.table p = some e → ∀ c ∈ e.children, f.Child p c
  nodup : ∀ p e, s.table p = some e → e.children.Nodup
  status : ∀ c st, s.exited c = some st → f.status c = some st
  reaping : ∀ r ∈ s.reaping, Selects r.pid r.child ∧ f.status r.child = some r.status
  returned : ∀ c ∈ f.returned, s.table c = none
  running : ∀ p ∈ s.running, (∃ e, s.table p = some e) ∧ f.status p = none
  /-- Numbers not yet given out are unknown. -/
  fresh : ∀ n, s.nextId ≤ n →
    s.table n = none ∧ f.parent n = none ∧ f.status n = none ∧ n ∉ f.returned
  /-- Parents have a number, and so has process 1. -/
  parents : 1 < s.nextId ∧ ∀ c p, f.parent c = some p → p < s.nextId

theorem ProcTable.set_table (s : ProcTable) (n m : ℕ) (e : Option ProcEntry) :
    (s.set n e).table m = if m = n then e else s.table m :=
  update_apply ..

variable {c p n q : ℕ} {st : BitVec 32} {e : ProcEntry} {x : Exiting} {unique : ℕ → Bool}
  {pid : Int} {children : List ℕ} {r : Reaping}

theorem ProcTable.exited_eq_some_iff :
    s.exited c = some st ↔ ∃ e, s.table c = some e ∧ e.exitCode = st ∧ st ≠ notExited := by
  rw [ProcTable.exited]
  cases s.table c with
  | none => simp
  | some e =>
    simp only [Option.ite_none_right_eq_some, Option.some.injEq, exists_eq_left']
    exact ⟨fun h => ⟨h.2, h.2 ▸ h.1⟩, fun h => ⟨h.1 ▸ h.2, h.1⟩⟩

/-- Whether a process has exited depends on its exit code alone. -/
theorem ProcTable.exited_congr {s s' : ProcTable}
    (h : (s'.table c).map ProcEntry.exitCode = (s.table c).map ProcEntry.exitCode) :
    s'.exited c = s.exited c := by
  rw [ProcTable.exited, ProcTable.exited]
  cases hc : s.table c with
  | none =>
    rw [hc, Option.map_none, Option.map_eq_none_iff] at h
    rw [h]
  | some e =>
    rw [hc, Option.map_some, Option.map_eq_some_iff] at h
    obtain ⟨e', he', hcode⟩ := h
    simp only [he', hcode]

/-- What the table says of one process. -/
structure EntrySound (f : Family) (p : ℕ) (e : ProcEntry) : Prop where
  children : ∀ c ∈ e.children, f.Child p c
  nodup : e.children.Nodup
  status : e.exitCode ≠ notExited → f.status p = some e.exitCode

theorem Sound.entry (hs : Sound s f) (he : s.table p = some e) : EntrySound f p e :=
  ⟨hs.children p e he, hs.nodup p e he, fun hne =>
    hs.status p _ (exited_eq_some_iff.mpr ⟨e, he, rfl, hne⟩)⟩

theorem status_of_entries (h : ∀ p e, s.table p = some e → EntrySound f p e)
    (hst : s.exited c = some st) : f.status c = some st := by
  obtain ⟨e, he, rfl, hne⟩ := exited_eq_some_iff.mp hst
  exact (h c e he).status hne

theorem ProcTable.init_table (he : ProcTable.init.table p = some e) : e = ⟨none, [], notExited⟩ := by
  simp only [ProcTable.init] at he
  split_ifs at he
  exact (Option.some.inj he).symm

theorem Sound.init : Sound ProcTable.init Family.init := by
  have hentry (p e) (he : ProcTable.init.table p = some e) : EntrySound Family.init p e := by
    rw [init_table he]
    exact ⟨nofun, nodup_nil, fun hne => absurd rfl hne⟩
  refine ⟨fun p e he => (hentry p e he).children, fun p e he => (hentry p e he).nodup,
    fun c st => status_of_entries hentry, nofun, nofun, ?_, ?_, by decide, nofun⟩
  · intro p hp
    obtain rfl := mem_singleton.mp hp
    exact ⟨⟨_, rfl⟩, rfl⟩
  · intro n hn
    have hn : n ≠ 1 := by
      rintro rfl
      exact absurd hn (by decide)
    exact ⟨if_neg hn, rfl, rfl, not_mem_nil⟩

theorem Sound.lt_nextId (hs : Sound s f) (he : s.table p = some e) :
    p < s.nextId := by
  by_contra hp
  cases (hs.fresh p (Nat.le_of_not_lt hp)).1.symm.trans he

theorem Sound.ne_of_fresh (hs : Sound s f) (he : s.table p = some e) (hn : s.nextId ≤ n) : n ≠ p :=
  (Nat.ne_of_lt (Nat.lt_of_lt_of_le (hs.lt_nextId he) hn)).symm

theorem Sound.ne_of_returned (hs : Sound s f) (he : s.table p = some e) (hc : c ∈ f.returned) :
    c ≠ p := by
  rintro rfl
  cases (hs.returned c hc).symm.trans he

theorem Sound.ne_of_running (hs : Sound s f) (hp : p ∈ s.running) (hst : f.status c = some st) :
    p ≠ c := by
  rintro rfl
  cases (hs.running p hp).2.symm.trans hst

/-! ## Fork -/

def ProcTable.forked (s : ProcTable) (p : ℕ) (e : ProcEntry) : ProcTable :=
  { (s.set p (some { e with children := e.children ++ [s.nextId] })).set s.nextId
      (some ⟨some p, [], notExited⟩) with
    nextId := s.nextId + 1
    running := s.running ++ [s.nextId] }

open ProcTable

theorem ProcTable.fork_eq (he : s.table p = some e) :
    s.fork p = (.forked s.nextId, s.forked p e) := by
  simp only [fork, he]
  rfl

theorem ProcTable.forked_table (s : ProcTable) (p : ℕ) (e : ProcEntry) (m : ℕ) :
    (s.forked p e).table m =
      if m = s.nextId then some ⟨some p, [], notExited⟩
      else if m = p then some { e with children := e.children ++ [s.nextId] }
      else s.table m := by
  change ((s.set p _).set s.nextId _).table m = _
  rw [set_table, set_table]

def Family.forked (f : Family) (p n : ℕ) : Family :=
  { f with parent := update f.parent n (some p) }

theorem Family.forked_child_iff (hret : n ∉ f.returned) :
    (f.forked p n).Child q c ↔ if c = n then q = p else f.Child q c := by
  change update f.parent n (some p) c = some q ∧ c ∉ f.returned ↔ _
  by_cases hc : c = n
  · subst hc
    rw [update_self, if_pos rfl, Option.some.injEq]
    exact ⟨fun h => h.1.symm, fun h => ⟨h.symm, hret⟩⟩
  · rw [update_of_ne hc, if_neg hc]
    exact Iff.rfl

theorem ProcTable.forked_exited (hs : Sound s f) (he : s.table p = some e)
    (c : ℕ) : (s.forked p e).exited c = s.exited c := by
  by_cases hc : c = s.nextId
  · have hnone : s.exited c = none := by
      rw [exited, hc, (hs.fresh s.nextId (Nat.le_refl _)).1]
    rw [hnone, exited, forked_table, if_pos hc]
    rfl
  · apply exited_congr
    rw [forked_table, if_neg hc]
    by_cases hp : c = p
    · subst hp
      rw [if_pos rfl, he]
      rfl
    · rw [if_neg hp]

theorem Sound.fork (hs : Sound s f) (he : s.table p = some e) :
    Sound (s.forked p e) (f.forked p s.nextId) := by
  obtain ⟨htable, hparent, hstatus, hret⟩ := hs.fresh s.nextId (Nat.le_refl _)
  -- the new number is nobody's child
  have hnew (q) : ¬f.Child q s.nextId := by
    intro h
    cases hparent.symm.trans h.1
  have hkeep (q d) (hd : s.table q = some d) (c) (hc : c ∈ d.children) :
      (f.forked p s.nextId).Child q c := by
    have hchild := hs.children q d hd c hc
    rw [Family.forked_child_iff hret, if_neg]
    · exact hchild
    · rintro rfl
      exact hnew q hchild
  have hentry (q d) (hd : (s.forked p e).table q = some d) :
      EntrySound (f.forked p s.nextId) q d := by
    rw [forked_table] at hd
    split_ifs at hd with hq hp
    · cases hd
      exact ⟨nofun, nodup_nil, fun hne => absurd rfl hne⟩
    · cases hd
      subst hp
      refine ⟨fun c hc => ?_, ?_, (hs.entry he).status⟩
      · rcases mem_append.mp hc with hc | hc
        · exact hkeep q e he c hc
        · rw [Family.forked_child_iff hret, if_pos (mem_singleton.mp hc)]
      · exact concat_eq_append ▸ (hs.nodup q e he).concat fun hmem =>
          hnew q (hs.children q e he _ hmem)
    · exact ⟨hkeep q d hd, hs.nodup q d hd, (hs.entry hd).status⟩
  refine ⟨fun q d hd => (hentry q d hd).children, fun q d hd => (hentry q d hd).nodup,
    fun c st => status_of_entries hentry, hs.reaping, ?_, ?_, ?_,
    Nat.lt_succ_of_lt hs.parents.1, ?_⟩
  · intro c hc
    rw [forked_table, if_neg (ne_of_mem_of_not_mem hc hret), if_neg (hs.ne_of_returned he hc)]
    exact hs.returned c hc
  · intro q hq
    rw [forked_table]
    rcases mem_append.mp hq with hq | hq
    · obtain ⟨⟨d, hd⟩, hnone⟩ := hs.running q hq
      refine ⟨?_, hnone⟩
      split_ifs
      · exact ⟨_, rfl⟩
      · exact ⟨_, rfl⟩
      · exact ⟨d, hd⟩
    · rw [mem_singleton] at hq
      rw [if_pos hq]
      exact ⟨⟨_, rfl⟩, hq ▸ hstatus⟩
  · intro n hn
    have hn' : s.nextId ≤ n := Nat.le_of_succ_le hn
    have hne : n ≠ s.nextId := (Nat.ne_of_lt hn).symm
    obtain ⟨h₁, h₂, h₃⟩ := hs.fresh n hn'
    rw [forked_table, if_neg hne, if_neg (hs.ne_of_fresh he hn')]
    exact ⟨h₁, (update_of_ne hne _ _).trans h₂, h₃⟩
  · intro c q hq
    change update f.parent s.nextId (some p) c = some q at hq
    rw [update_apply] at hq
    split_ifs at hq with hc
    · cases hq
      exact Nat.lt_succ_of_lt (hs.lt_nextId he)
    · exact Nat.lt_succ_of_lt (hs.parents.2 c q hq)

/-! ## Exit -/

def ProcTable.left (s : ProcTable) (p : ℕ) (e : ProcEntry) (status : BitVec 32) : ProcTable :=
  { s.set p (some { e with exitCode := status }) with
    running := s.running.filter (· ≠ p)
    exiting := ⟨p, e.parentId⟩ :: s.exiting }

theorem ProcTable.exitBegin_eq (he : s.table p = some e) (hp : p ≠ 1)
    (status : BitVec 64) : s.exitBegin p status = (.done, s.left p e (status.setWidth 32)) := by
  simp only [exitBegin, he, if_neg hp]
  rfl

theorem ProcTable.left_table (s : ProcTable) (p : ℕ) (e : ProcEntry) (status : BitVec 32) (m : ℕ) :
    (s.left p e status).table m =
      if m = p then some { e with exitCode := status } else s.table m :=
  set_table ..

theorem ProcTable.left_exited_of_ne (e : ProcEntry) (status : BitVec 32) (hc : c ≠ p) :
    (s.left p e status).exited c = s.exited c := by
  apply exited_congr
  rw [left_table, if_neg hc]

def Family.left (f : Family) (p : ℕ) (status : BitVec 32) : Family :=
  { f with status := update f.status p (some status) }

theorem Sound.exitBegin (hs : Sound s f) (he : s.table p = some e)
    (hp : p ∈ s.running) (status : BitVec 32) :
    Sound (s.left p e status) (f.left p status) := by
  have hstatus : ∀ c, c ≠ p → (f.left p status).status c = f.status c :=
    fun c hc => update_of_ne hc _ _
  have hentry (q d) (hd : (s.left p e status).table q = some d) :
      EntrySound (f.left p status) q d := by
    rw [left_table] at hd
    split_ifs at hd with hq
    · cases hd
      subst hq
      exact ⟨hs.children q e he, hs.nodup q e he, fun _ => update_self ..⟩
    · exact ⟨hs.children q d hd, hs.nodup q d hd, hstatus q hq ▸ (hs.entry hd).status⟩
  refine ⟨fun q d hd => (hentry q d hd).children, fun q d hd => (hentry q d hd).nodup,
    fun c st => status_of_entries hentry, ?_, ?_, ?_, ?_, hs.parents⟩
  · intro r hr
    obtain ⟨hsel, hst⟩ := hs.reaping r hr
    -- the child of a wait in progress has exited before
    exact ⟨hsel, (hstatus r.child (hs.ne_of_running hp hst).symm).trans hst⟩
  · intro c hc
    rw [left_table, if_neg (hs.ne_of_returned he hc)]
    exact hs.returned c hc
  · intro q hq
    obtain ⟨hq, hne⟩ := mem_filter.mp hq
    have hne : q ≠ p := by simpa using hne
    rw [left_table, if_neg hne, hstatus q hne]
    exact hs.running q hq
  · intro n hn
    have hne := hs.ne_of_fresh he hn
    rw [left_table, if_neg hne, hstatus n hne]
    exact hs.fresh n hn

def ProcTable.orphans (s : ProcTable) (p : ℕ) : List ℕ :=
  ((s.table p).map ProcEntry.children).getD []

def ProcTable.settled (s : ProcTable) (x : Exiting) (unique : ℕ → Bool) : ProcTable :=
  { s with
    table := fun n => (s.table n).map (settle x (s.orphans x.pid) unique n)
    exiting := s.exiting.erase x }

theorem ProcTable.exitEnd_cases (s : ProcTable) (p : ℕ) (unique : ℕ → Bool) :
    ((¬ ∃ x ∈ s.exiting, x.pid = p) ∧ s.exitEnd p unique = (.idle, s)) ∨
      ∃ x ∈ s.exiting, x.pid = p ∧ s.exitEnd p unique = (.done, s.settled x unique) := by
  rw [exitEnd]
  cases hfind : s.exiting.find? (·.pid = p) with
  | none =>
    refine Or.inl ⟨?_, rfl⟩
    rintro ⟨x, hx, rfl⟩
    simpa using find?_eq_none.mp hfind x hx
  | some x =>
    have hx : x.pid = p := by simpa using find?_some hfind
    subst hx
    exact Or.inr ⟨x, mem_of_find?_eq_some hfind, rfl, rfl⟩

theorem ProcTable.settled_table_eq_some {e' : ProcEntry} : (s.settled x unique).table n = some e' ↔
      ∃ e, s.table n = some e ∧ settle x (s.orphans x.pid) unique n e = e' :=
  Option.map_eq_some_iff

theorem ProcTable.mem_settle_children {orphans : List ℕ} :
    c ∈ (settle x orphans unique n e).children ↔
      n ≠ x.pid ∧ c ∈ e.children ∧ (x.parent = some n → c ≠ x.pid) := by
  rw [settle]
  by_cases hn : n = x.pid
  · simp [hn]
  · by_cases hparent : x.parent = some n
    all_goals simp [hn, hparent]

theorem ProcTable.settled_exited (s : ProcTable) (x : Exiting) (unique : ℕ → Bool) (c : ℕ) :
    (s.settled x unique).exited c = s.exited c := by
  apply exited_congr
  change ((s.table c).map _).map ProcEntry.exitCode = _
  rw [Option.map_map]
  rfl

def Family.settled (f : Family) (p : ℕ) : Family :=
  { f with parent := fun c => if f.parent c = some p then some 1 else f.parent c }

theorem Family.settled_child_of_ne (hq : q ≠ p) (h : f.Child q c) : (f.settled p).Child q c := by
  refine ⟨?_, h.2⟩
  have hne : f.parent c ≠ some p := by
    rw [h.1]
    exact fun h => hq (Option.some.inj h)
  exact (if_neg hne).trans h.1

theorem Sound.exitEnd (hs : Sound s f) (x : Exiting) (unique : ℕ → Bool) :
    Sound (s.settled x unique) (f.settled x.pid) := by
  refine ⟨?_, ?_, ?_, hs.reaping, ?_, ?_, ?_, hs.parents.1, ?_⟩
  · intro q d hd c hc
    obtain ⟨e, he, rfl⟩ := settled_table_eq_some.mp hd
    obtain ⟨hq, hc, -⟩ := mem_settle_children.mp hc
    exact Family.settled_child_of_ne hq (hs.children q e he c hc)
  · intro q d hd
    obtain ⟨e, he, rfl⟩ := settled_table_eq_some.mp hd
    have hnodup := hs.nodup q e he
    rw [settle]
    dsimp only
    split_ifs
    · exact nodup_nil
    · exact hnodup.filter _
    · exact nodup_nil
    · exact hnodup
  · intro c st hst
    rw [settled_exited] at hst
    exact hs.status c st hst
  · intro c hc
    exact Option.map_eq_none_iff.mpr (hs.returned c hc)
  · intro q hq
    obtain ⟨⟨e, he⟩, hnone⟩ := hs.running q hq
    exact ⟨⟨_, settled_table_eq_some.mpr ⟨e, he, rfl⟩⟩, hnone⟩
  · intro n hn
    obtain ⟨h₁, h₂, h₃⟩ := hs.fresh n hn
    refine ⟨Option.map_eq_none_iff.mpr h₁, ?_, h₃⟩
    change (if f.parent n = some x.pid then some 1 else f.parent n) = none
    rw [h₂]
    rfl
  · intro c q hq
    change (if f.parent c = some x.pid then some 1 else f.parent c) = some q at hq
    split_ifs at hq
    · cases hq
      exact hs.parents.1
    · exact hs.parents.2 c q hq

/-! ## Wait -/

theorem ProcTable.exitedChild_eq_some (h : s.exitedChild pid children = some (c, st)) :
    c ∈ children ∧ Selects pid c ∧ s.exited c = some st := by
  obtain ⟨c', hc', h⟩ := exists_of_findSome?_eq_some h
  split_ifs at h with hsel
  obtain ⟨st', hst', heq⟩ := Option.map_eq_some_iff.mp h
  cases heq
  exact ⟨hc', hsel, hst'⟩

theorem ProcTable.exitedChild_isSome
    (hc : c ∈ children) (hsel : Selects pid c) (hst : s.exited c = some st) :
    ∃ c' st', s.exitedChild pid children = some (c', st') := by
  cases h : s.exitedChild pid children with
  | some r => exact ⟨r.1, r.2, rfl⟩
  | none =>
    have := findSome?_eq_none_iff.mp h c hc
    simp [hsel, hst] at this

/-- A scan finds an exited child on the list, or gives up without ever saying that there is
no child. -/
theorem ProcTable.waitScan_cases (s : ProcTable) (p : ℕ) (pid : Int) (options : BitVec 32)
    (signal : Bool) :
    (∃ e c st, s.table p = some e ∧ s.exitedChild pid e.children = some (c, st) ∧
      s.waitScan p pid options signal =
        (.found c st, { s with reaping := ⟨p, pid, c, st⟩ :: s.reaping })) ∨
    ((∀ e, s.table p = some e → s.exitedChild pid e.children = none) ∧
      ∃ o, s.waitScan p pid options signal = (o, s) ∧ o ≠ .error .echild ∧
        ∀ c st, o ≠ .found c st) := by
  cases htable : s.table p with
  | none =>
    exact Or.inr ⟨by simp, .nothing, by simp only [waitScan, htable], by simp, by simp⟩
  | some e =>
    cases hchild : s.exitedChild pid e.children with
    | some r =>
      obtain ⟨c, st⟩ := r
      exact Or.inl ⟨e, c, st, rfl, hchild, by simp only [waitScan, htable, hchild]⟩
    | none =>
      refine Or.inr ⟨by simp [hchild], ?_⟩
      simp only [waitScan, htable, hchild]
      split_ifs
      · exact ⟨.error .eintr, rfl, by simp, by simp⟩
      · exact ⟨.nothing, rfl, by simp, by simp⟩
      · exact ⟨.blocked, rfl, by simp, by simp⟩

theorem Sound.waitScan (hs : Sound s f) (hchild : s.exitedChild pid e.children = some (c, st)) :
    Sound { s with reaping := ⟨p, pid, c, st⟩ :: s.reaping } f := by
  obtain ⟨-, hsel, hst⟩ := exitedChild_eq_some hchild
  refine ⟨hs.children, hs.nodup, hs.status, ?_, hs.returned, hs.running, hs.fresh, hs.parents⟩
  intro r hr
  rcases mem_cons.mp hr with rfl | hr
  · exact ⟨hsel, hs.status c st hst⟩
  · exact hs.reaping r hr

/-- A wait in progress is given up. -/
theorem Sound.dropReaping (hs : Sound s f) (r : Reaping) :
    Sound { s with reaping := s.reaping.erase r } f :=
  ⟨hs.children, hs.nodup, hs.status, fun r' hr' => hs.reaping r' (mem_of_mem_erase hr'),
    hs.returned, hs.running, hs.fresh, hs.parents⟩

def ProcTable.reaped (s : ProcTable) (r : Reaping) (e : ProcEntry) : ProcTable :=
  ({ s with reaping := s.reaping.erase r }.set r.waiter
    (some { e with children := e.children.erase r.child })).set r.child none

theorem ProcTable.waitReap_cases (s : ProcTable) (r : Reaping) (copied : Bool) :
    (∃ e, copied = true ∧ s.table r.waiter = some e ∧ r.child ∈ e.children ∧
      s.waitReap r copied = (.returned r.child r.status, s.reaped r e)) ∨
    ((copied = true → ∀ e, s.table r.waiter = some e → r.child ∉ e.children) ∧
      ∃ err, s.waitReap r copied = (.error err, { s with reaping := s.reaping.erase r })) := by
  rw [waitReap]
  cases copied with
  | false => exact Or.inr ⟨by simp, .efault, rfl⟩
  | true =>
    cases htable : s.table r.waiter with
    | none => exact Or.inr ⟨by simp, .echild, by simp⟩
    | some e =>
      by_cases hmem : r.child ∈ e.children
      · refine Or.inl ⟨e, rfl, rfl, hmem, ?_⟩
        simp only [Bool.not_true, Bool.false_eq_true, if_false, if_pos hmem]
        rfl
      refine Or.inr ⟨?_, .echild, by simp [hmem]⟩
      intro _ e' he'
      cases he'
      exact hmem

theorem ProcTable.reaped_table (s : ProcTable) (r : Reaping) (e : ProcEntry) (m : ℕ) :
    (s.reaped r e).table m =
      if m = r.child then none
      else if m = r.waiter then some { e with children := e.children.erase r.child }
      else s.table m := by
  rw [reaped, set_table, set_table]

theorem ProcTable.reaped_exited_of_ne (he : s.table r.waiter = some e) (hc : c ≠ r.child) :
    (s.reaped r e).exited c = s.exited c := by
  apply exited_congr
  rw [reaped_table, if_neg hc]
  by_cases hw : c = r.waiter
  · rw [if_pos hw, hw, he]
    rfl
  · rw [if_neg hw]

def Family.reaped (f : Family) (c : ℕ) : Family := { f with returned := c :: f.returned }

theorem Family.reaped_child_iff {c' : ℕ} : (f.reaped c).Child p c' ↔ f.Child p c' ∧ c' ≠ c := by
  change f.parent c' = some p ∧ c' ∉ c :: f.returned ↔ (f.parent c' = some p ∧ c' ∉ f.returned) ∧ _
  rw [mem_cons, not_or]
  exact ⟨fun h => ⟨⟨h.1, h.2.2⟩, h.2.1⟩, fun h => ⟨h.1.1, h.2, h.1.2⟩⟩

theorem Sound.waitReap (hs : Sound s f) (hr : r ∈ s.reaping)
    (he : s.table r.waiter = some e) (hmem : r.child ∈ e.children) :
    Sound (s.reaped r e) (f.reaped r.child) := by
  have hchild := hs.children r.waiter e he r.child hmem
  have hstatus := (hs.reaping r hr).2
  have hentry (q d) (hd : (s.reaped r e).table q = some d) :
      EntrySound (f.reaped r.child) q d := by
    rw [reaped_table] at hd
    split_ifs at hd with hq hw
    · cases hd
      subst hw
      refine ⟨fun c hc => ?_, (hs.nodup _ e he).erase _, (hs.entry he).status⟩
      obtain ⟨hne, hc⟩ := (hs.nodup _ e he).mem_erase_iff.mp hc
      exact Family.reaped_child_iff.mpr ⟨hs.children _ e he c hc, hne⟩
    · refine ⟨fun c hc => ?_, hs.nodup q d hd, (hs.entry hd).status⟩
      have hc := hs.children q d hd c hc
      refine Family.reaped_child_iff.mpr ⟨hc, ?_⟩
      -- the child is on the list of its own parent only
      rintro rfl
      exact hw (Option.some.inj (hc.1.symm.trans hchild.1))
  refine ⟨fun q d hd => (hentry q d hd).children, fun q d hd => (hentry q d hd).nodup,
    fun c st => status_of_entries hentry, fun r' hr' => hs.reaping r' (mem_of_mem_erase hr'),
    ?_, ?_, ?_, hs.parents⟩
  · intro c hc
    rw [reaped_table]
    rcases mem_cons.mp hc with hc | hc
    · rw [if_pos hc]
    · rw [if_neg (hs.ne_of_returned he hc), hs.returned c hc, ite_self]
  · intro q hq
    obtain ⟨⟨d, hd⟩, hnone⟩ := hs.running q hq
    rw [reaped_table, if_neg (hs.ne_of_running hq hstatus)]
    refine ⟨?_, hnone⟩
    split_ifs
    · exact ⟨_, rfl⟩
    · exact ⟨d, hd⟩
  · intro n hn
    obtain ⟨h₁, h₂, h₃, h₄⟩ := hs.fresh n hn
    have hc : n ≠ r.child := by
      rintro rfl
      cases h₃.symm.trans hstatus
    rw [reaped_table, if_neg hc, if_neg (hs.ne_of_fresh he hn)]
    exact ⟨h₁, h₂, h₃, not_mem_cons_of_ne_of_not_mem hc h₄⟩

/-! ## Steps -/

/-- The step has nobody to make it. -/
def Idle (s : ProcTable) : ProcStep → Prop
  | .fork p => p ∉ s.running
  | .exitBegin p _ => p ∉ s.running ∨ p = 1
  | .exitEnd p _ => ¬ ∃ x ∈ s.exiting, x.pid = p
  | .waitScan p _ _ _ => p ∉ s.running
  | .waitReap r _ => r ∉ s.reaping

/-- Everything a step can do to the table and the family tree. -/
inductive Transition (s : ProcTable) (f : Family) :
    ProcStep → ProcOutcome → ProcTable → Family → Prop
  | idle (step : ProcStep) (h : Idle s step) : Transition s f step .idle s f
  | fork (p : ℕ) (e : ProcEntry) (hp : p ∈ s.running) (he : s.table p = some e) :
      Transition s f (.fork p) (.forked s.nextId) (s.forked p e) (f.forked p s.nextId)
  | exitBegin (p : ℕ) (status : BitVec 64) (e : ProcEntry) (hp : p ∈ s.running) (hone : p ≠ 1)
      (he : s.table p = some e) :
      Transition s f (.exitBegin p status) .done (s.left p e (status.setWidth 32))
        (f.left p (status.setWidth 32))
  | exitEnd (x : Exiting) (unique : ℕ → Bool) (hx : x ∈ s.exiting) :
      Transition s f (.exitEnd x.pid unique) .done (s.settled x unique) (f.settled x.pid)
  | found (p : ℕ) (pid : Int) (options : BitVec 32) (signal : Bool) (e : ProcEntry) (c : ℕ)
      (st : BitVec 32) (hp : p ∈ s.running) (he : s.table p = some e)
      (hc : s.exitedChild pid e.children = some (c, st)) :
      Transition s f (.waitScan p pid options signal) (.found c st)
        { s with reaping := ⟨p, pid, c, st⟩ :: s.reaping } f
  | unfound (p : ℕ) (pid : Int) (options : BitVec 32) (signal : Bool) (o : ProcOutcome)
      (hp : p ∈ s.running) (hnone : ∀ e, s.table p = some e → s.exitedChild pid e.children = none)
      (hechild : o ≠ .error .echild) (hfound : ∀ c st, o ≠ .found c st) :
      Transition s f (.waitScan p pid options signal) o s f
  | returned (r : Reaping) (e : ProcEntry) (hr : r ∈ s.reaping) (he : s.table r.waiter = some e)
      (hc : r.child ∈ e.children) :
      Transition s f (.waitReap r true) (.returned r.child r.status) (s.reaped r e)
        (f.reaped r.child)
  | failed (r : Reaping) (copied : Bool) (err : Errno) (hr : r ∈ s.reaping)
      (hnone : copied = true → ∀ e, s.table r.waiter = some e → r.child ∉ e.children) :
      Transition s f (.waitReap r copied) (.error err) { s with reaping := s.reaping.erase r } f

theorem Sound.transition (hs : Sound s f) (step : ProcStep) :
    Transition s f step (s.exec step).1 (reapStep (s, f) step).1 (reapStep (s, f) step).2 := by
  have hidle : Idle s step → s.exec step = (.idle, s) →
      Transition s f step (s.exec step).1 (reapStep (s, f) step).1 (reapStep (s, f) step).2 := by
    intro h hexec
    have hnext : f.next step .idle = f := by
      cases step <;> rfl
    rw [reapStep, hexec, hnext]
    exact .idle step h
  cases step with
  | fork p =>
    by_cases hp : p ∈ s.running
    · obtain ⟨⟨e, he⟩, -⟩ := hs.running p hp
      have hexec : s.exec (.fork p) = (.forked s.nextId, s.forked p e) := by
        rw [exec, if_pos hp, fork_eq he]
      rw [reapStep, hexec]
      exact .fork p e hp he
    · exact hidle hp (if_neg hp)
  | exitBegin p status =>
    by_cases hp : p ∈ s.running
    · obtain ⟨⟨e, he⟩, -⟩ := hs.running p hp
      by_cases hone : p = 1
      · refine hidle (Or.inr hone) ?_
        rw [exec, if_pos hp]
        simp only [ProcTable.exitBegin, he, if_pos hone]
      have hexec : s.exec (.exitBegin p status) = (.done, s.left p e (status.setWidth 32)) := by
        rw [exec, if_pos hp, exitBegin_eq he hone]
      rw [reapStep, hexec]
      exact .exitBegin p status e hp hone he
    · exact hidle (Or.inl hp) (if_neg hp)
  | exitEnd p unique =>
    rcases s.exitEnd_cases p unique with ⟨hnone, hexec⟩ | ⟨x, hx, rfl, hexec⟩
    · exact hidle hnone hexec
    · rw [reapStep, exec, hexec]
      exact .exitEnd x unique hx
  | waitScan p pid options signal =>
    by_cases hp : p ∈ s.running
    · rw [reapStep, exec, if_pos hp]
      rcases s.waitScan_cases p pid options signal with
        ⟨e, c, st, he, hc, hexec⟩ | ⟨hnone, o, hexec, hechild, hfound⟩
      · rw [hexec]
        exact .found p pid options signal e c st hp he hc
      · rw [hexec]
        exact .unfound p pid options signal o hp hnone hechild hfound
    · exact hidle hp (if_neg hp)
  | waitReap r copied =>
    by_cases hr : r ∈ s.reaping
    · rw [reapStep, exec, if_pos hr]
      rcases s.waitReap_cases r copied with ⟨e, rfl, he, hc, hexec⟩ | ⟨hnone, err, hexec⟩
      · rw [hexec]
        exact .returned r e hr he hc
      · rw [hexec]
        exact .failed r copied err hr hnone
    · exact hidle hr (if_neg hr)

variable {step : ProcStep} {o : ProcOutcome} {s' : ProcTable} {f' : Family}

theorem Transition.sound (t : Transition s f step o s' f') (hs : Sound s f) : Sound s' f' := by
  cases t with
  | idle _ _ => exact hs
  | fork p e hp he => exact hs.fork he
  | exitBegin p status e hp hone he => exact hs.exitBegin he hp _
  | exitEnd x unique hx => exact hs.exitEnd x unique
  | found p pid options signal e c st hp he hc => exact hs.waitScan hc
  | unfound p pid options signal _ hp hnone hechild hfound => exact hs
  | returned r e hr he hc => exact hs.waitReap hr he hc
  | failed r copied err hr hnone => exact hs.dropReaping r

theorem Transition.returned_right {copied : Bool}
    (t : Transition s f (.waitReap r copied) (.returned c st) s' f') (hs : Sound s f) :
    f.Child r.waiter c ∧ Selects r.pid c ∧ f.status c = some st := by
  cases t with
  | returned _ e hr he hc =>
    obtain ⟨hsel, hst⟩ := hs.reaping r hr
    exact ⟨hs.children r.waiter e he r.child hc, hsel, hst⟩

/-- Whatever the run, what a wait returns is a child of the caller that was asked for and not
returned before, with the status of its exit. -/
theorem returned_sound (steps : List ProcStep) :
    Along reapStep (fun sf step => ∀ r copied c st, step = .waitReap r copied →
      (sf.1.exec step).1 = .returned c st →
        sf.2.Child r.waiter c ∧ Selects r.pid c ∧ sf.2.status c = some st)
      (init, Family.init) steps := by
  refine along_of_inv (I := fun sf => Sound sf.1 sf.2) (C := fun _ _ => True) ?_ Sound.init
    (along_of_forall (fun _ _ => trivial) _ _)
  rintro ⟨s, f⟩ step hs -
  have t := hs.transition step
  refine ⟨?_, t.sound hs⟩
  rintro r copied c st rfl ho
  exact Transition.returned_right (ho ▸ t) hs

end Vahi.Task
