import Vahi.Task.ReapingSound

/-!
# Which exits are waited for

The second part of an exit takes the process off the list on which `wait4` looks for it, and leaves
its children on no list; and `wait4` never reports that there is nothing to wait for.
-/

namespace Vahi.Task

open Vahi.Lib Vahi.Types List Function ProcTable

variable {s s' : ProcTable} {f f' : Family} {step : ProcStep} {o : ProcOutcome}

/-! ## Children within reach -/

structure InReach (s : ProcTable) (f : Family) : Prop extends Sound s f where
  offers : Offers s f
  parentId : ∀ c e, s.table c = some e → e.parentId = f.parent c
  exiting : ∀ x ∈ s.exiting, x.pid ≠ 1 ∧ f.status x.pid ≠ none ∧
    (x.pid ∉ f.returned → x.parent = f.parent x.pid)
  one : 1 ∈ s.running

theorem InReach.init : InReach init Family.init := by
  refine ⟨Sound.init, ?_, ?_, ?_, mem_singleton.mpr rfl⟩
  · intro p _ c hc
    cases hc.1
  · intro c e he
    rw [ProcTable.init] at he
    by_cases hc : c = 1
    · simp only [if_pos hc, Option.some.injEq] at he
      subst he
      rfl
    · simp [hc] at he
  · intro x hx
    cases hx

variable {p : ℕ} {e : ProcEntry} {x : Exiting} {r : Reaping}

section

variable (h : InReach s f)

include h

theorem Offers.fork (he : s.table p = some e) :
    Offers (s.forked p e) (f.forked p s.nextId) := by
  obtain ⟨htable, -, hstatus, hret⟩ := h.fresh s.nextId (Nat.le_refl _)
  have hp : p ≠ s.nextId := Nat.ne_of_lt (h.lt_nextId he)
  intro q hq c hc
  rw [Family.forked_child_iff hret] at hc
  by_cases hnew : c = s.nextId
  · rw [if_pos hnew] at hc
    subst hc hnew
    refine ⟨{ e with children := e.children ++ [s.nextId] }, ?_, ?_, ?_⟩
    · rw [forked_table, if_neg hp, if_pos rfl]
    · exact mem_append_right _ (mem_singleton.mpr rfl)
    · rw [forked_exited h.toSound he, exited, htable]
      exact hstatus.symm
  · rw [if_neg hnew] at hc
    have hq' : q ∈ s.running := by
      rcases mem_append.mp hq with hq | hq
      · exact hq
      · have hlt := h.parents.2 c q hc.1
        rw [mem_singleton] at hq
        omega
    obtain ⟨d, hd, hmem, hcode⟩ := h.offers q hq' c hc
    have hqn : q ≠ s.nextId := Nat.ne_of_lt (h.lt_nextId hd)
    have hmember : ∃ d', (s.forked p e).table q = some d' ∧ c ∈ d'.children := by
      rw [forked_table, if_neg hqn]
      by_cases hqp : q = p
      · subst hqp
        rw [he] at hd
        cases hd
        exact ⟨_, if_pos rfl, mem_append_left _ hmem⟩
      · rw [if_neg hqp]
        exact ⟨d, hd, hmem⟩
    obtain ⟨d', hd', hmem'⟩ := hmember
    refine ⟨d', hd', hmem', ?_⟩
    rw [forked_exited h.toSound he]
    exact hcode

/-- After the first part of an exit, the status must be told from that of a running process
if somebody can wait for it. -/
theorem offers_left_iff (he : s.table p = some e) (hp : p ∈ s.running) (status : BitVec 32) :
    Offers (s.left p e status) (f.left p status) ↔
      ((∃ q ∈ s.running, q ≠ p ∧ f.Child q p) → status ≠ notExited) := by
  have hexited : (s.left p e status).exited p = if status ≠ notExited then some status else none := by
    rw [exited, left_table, if_pos rfl]
  have hself : (f.left p status).status p = some status := update_self ..
  constructor
  · rintro hoffers ⟨q, hq, hne, hchild⟩ hstatus
    have hq' : q ∈ (s.left p e status).running := mem_filter.mpr ⟨hq, by simpa using hne⟩
    obtain ⟨d, -, -, hcode⟩ := hoffers q hq' p hchild
    rw [hself, hexited, if_neg (not_not.mpr hstatus)] at hcode
    cases hcode
  · intro hstatus q hq' c hchild
    obtain ⟨hq, hne⟩ := mem_filter.mp hq'
    have hne : q ≠ p := by simpa using hne
    obtain ⟨d, hd, hmem, hcode⟩ := h.offers q hq c hchild
    refine ⟨d, ?_, hmem, ?_⟩
    · rw [left_table, if_neg hne]
      exact hd
    · by_cases hc : c = p
      · subst hc
        rw [hself, hexited, if_pos (hstatus ⟨q, hq, hne, hchild⟩)]
      · rw [left_exited_of_ne e status hc, hcode]
        exact (update_of_ne hc _ _).symm

/-- The second part of an exit must find the process waited for, and without children. -/
theorem offers_settled_iff (hx : x ∈ s.exiting) (unique : ℕ → Bool) :
    Offers (s.settled x unique) (f.settled x.pid) ↔
      (∀ q ∈ s.running, ¬ f.Child q x.pid) ∧ ∀ c, ¬ f.Child x.pid c := by
  obtain ⟨hone, hexit, hparent⟩ := h.exiting x hx
  have hrunning : ∀ q ∈ s.running, q ≠ x.pid := by
    rintro q hq rfl
    exact hexit (h.running _ hq).2
  constructor
  · intro hoffers
    constructor
    · -- the process is no longer on the list of its parent
      intro q hq hchild
      obtain ⟨d, hd, hmem, -⟩ :=
        hoffers q hq x.pid (Family.settled_child_of_ne (hrunning q hq) hchild)
      obtain ⟨e, -, rfl⟩ := settled_table_eq_some.mp hd
      have hx' : x.parent = some q := (hparent hchild.2).trans hchild.1
      exact (mem_settle_children.mp hmem).2.2 hx' rfl
    · -- a child left over is on the list of its old parent, not on that of process 1
      intro c hchild
      have hchild' : (f.settled x.pid).Child 1 c := ⟨if_pos hchild.1, hchild.2⟩
      obtain ⟨d, hd, hmem, -⟩ := hoffers 1 h.one c hchild'
      obtain ⟨e, he, rfl⟩ := settled_table_eq_some.mp hd
      have hold := (h.children 1 e he c (mem_settle_children.mp hmem).2.1).1
      rw [hchild.1] at hold
      exact hone (Option.some.inj hold)
  · rintro ⟨hnobody, hnone⟩ q hq c ⟨hpar, hret⟩
    have hc : f.parent c ≠ some x.pid := fun hc => hnone c ⟨hc, hret⟩
    have hchild : f.Child q c := ⟨(if_neg hc).symm.trans hpar, hret⟩
    obtain ⟨e, he, hmem, hcode⟩ := h.offers q hq c hchild
    refine ⟨_, settled_table_eq_some.mpr ⟨e, he, rfl⟩, ?_, ?_⟩
    · refine mem_settle_children.mpr ⟨hrunning q hq, hmem, fun _ hcx => ?_⟩
      exact hnobody q hq (hcx ▸ hchild)
    · rw [settled_exited]
      exact hcode

theorem Offers.reaped (hr : r ∈ s.reaping)
    (he : s.table r.waiter = some e) : Offers (s.reaped r e) (f.reaped r.child) := by
  intro q hq c hchild
  obtain ⟨hchild, hne⟩ := Family.reaped_child_iff.mp hchild
  have hq' : q ≠ r.child := by
    rintro rfl
    have := (h.reaping r hr).2
    rw [(h.running _ hq).2] at this
    cases this
  obtain ⟨d, hd, hmem, hcode⟩ := h.offers q hq c hchild
  have hmember : ∃ d', (s.reaped r e).table q = some d' ∧ c ∈ d'.children := by
    rw [reaped_table, if_neg hq']
    by_cases hw : q = r.waiter
    · subst hw
      rw [he] at hd
      cases hd
      exact ⟨_, if_pos rfl, (mem_erase_of_ne hne).mpr hmem⟩
    · rw [if_neg hw]
      exact ⟨d, hd, hmem⟩
  obtain ⟨d', hd', hmem'⟩ := hmember
  refine ⟨d', hd', hmem', ?_⟩
  rw [reaped_exited_of_ne he hne]
  exact hcode

/-- A scan of the list of a process finds a child that has exited. -/
theorem InReach.exitedChild_isSome {c : ℕ} {pid : Int}
    (hp : p ∈ s.running) (he : s.table p = some e) (hchild : f.Child p c) (hsel : Selects pid c)
    (hst : f.status c ≠ none) : ∃ c' st, s.exitedChild pid e.children = some (c', st) := by
  obtain ⟨d, hd, hmem, hcode⟩ := h.offers p hp c hchild
  rw [he] at hd
  cases hd
  obtain ⟨st, hst⟩ := Option.ne_none_iff_exists'.mp hst
  exact ProcTable.exitedChild_isSome hmem hsel (hcode.trans hst)

omit h in
/-- A step leaves everything within reach, and a wait has the right outcome, exactly under
the condition on the step. -/
theorem Transition.right_iff (t : Transition s f step o s' f') (h : InReach s f) :
    RightOutcome s f step o ∧ Offers s' f' ↔ ReapsWhen (s, f) step := by
  cases t with
  | idle _ hidle =>
    cases step with
    | fork p => exact ⟨fun _ => trivial, fun _ => ⟨trivial, h.offers⟩⟩
    | exitBegin p status =>
      refine ⟨fun _ hp hone => ?_, fun _ => ⟨trivial, h.offers⟩⟩
      exact absurd hidle (not_or.mpr ⟨not_not.mpr hp, hone⟩)
    | exitEnd p unique => exact ⟨fun _ hx => absurd hx hidle, fun _ => ⟨trivial, h.offers⟩⟩
    | waitScan p pid options signal =>
      exact ⟨fun _ hp => absurd hp hidle, fun _ => ⟨fun hp => absurd hp hidle, h.offers⟩⟩
    | waitReap r copied =>
      refine ⟨fun _ => trivial, fun _ => ⟨⟨?_, fun hr => absurd hr hidle⟩, h.offers⟩⟩
      intro c st ho
      cases ho
  | fork p e hp he => exact ⟨fun _ => trivial, fun _ => ⟨trivial, Offers.fork h he⟩⟩
  | exitBegin p status e hp hone he =>
    rw [offers_left_iff h he hp]
    exact ⟨fun hright _ _ => hright.2, fun hwhen => ⟨trivial, hwhen hp hone⟩⟩
  | exitEnd x unique hx =>
    rw [offers_settled_iff h hx]
    exact ⟨fun hright _ => hright.2, fun hwhen => ⟨trivial, hwhen ⟨x, hx, rfl⟩⟩⟩
  | found p pid options signal e c st hp he hc =>
    obtain ⟨hmem, hsel, hst⟩ := exitedChild_eq_some hc
    have hchild := h.children p e he c hmem
    refine ⟨fun _ _ => ⟨c, hchild, hsel⟩, fun _ => ⟨fun _ => ⟨?_, ?_, ?_⟩, h.offers⟩⟩
    · exact fun hnone => absurd hsel (hnone c hchild)
    · exact fun _ _ _ _ => ⟨c, st, rfl⟩
    · intro c' st' heq
      cases heq
      exact ⟨hchild, hsel, h.status c st hst⟩
  | unfound p pid options signal _ hp hnone hechild hfound =>
    constructor
    · rintro ⟨hright, -⟩ _
      by_contra hall
      exact hechild ((hright hp).1 fun c hc hsel => hall ⟨c, hc, hsel⟩)
    · intro hwhen
      obtain ⟨c₀, hc₀, hsel₀⟩ := hwhen hp
      refine ⟨fun _ => ⟨fun hall => absurd hsel₀ (hall c₀ hc₀), ?_, ?_⟩, h.offers⟩
      · intro c hc hsel hst
        obtain ⟨⟨e, he⟩, -⟩ := h.running p hp
        obtain ⟨c', st', hsome⟩ := h.exitedChild_isSome hp he hc hsel hst
        rw [hnone e he] at hsome
        cases hsome
      · exact fun c st heq => absurd heq (hfound c st)
  | returned r e hr he hc =>
    obtain ⟨hsel, hst⟩ := h.reaping r hr
    refine ⟨fun _ => trivial, fun _ => ⟨⟨?_, fun _ _ _ _ => rfl⟩, Offers.reaped h hr he⟩⟩
    intro c st heq
    cases heq
    exact ⟨h.children r.waiter e he r.child hc, hsel, hst⟩
  | failed r copied err hr hnone =>
    refine ⟨fun _ => trivial, fun _ => ⟨⟨?_, ?_⟩, h.offers⟩⟩
    · intro c st heq
      cases heq
    · intro _ hcopied hw hchild
      obtain ⟨e, he, hmem, -⟩ := h.offers r.waiter hw r.child hchild
      exact absurd hmem (hnone hcopied e he)

theorem InReach.fork (he : s.table p = some e) :
    InReach (s.forked p e) (f.forked p s.nextId) := by
  have hparent : ∀ c, c ≠ s.nextId → (f.forked p s.nextId).parent c = f.parent c :=
    fun c hc => update_of_ne hc _ _
  refine ⟨h.toSound.fork he, Offers.fork h he, ?_, ?_, mem_append_left _ h.one⟩
  · intro c d hd
    rw [forked_table] at hd
    split_ifs at hd with hc hcp
    · cases hd
      subst hc
      change some p = update f.parent s.nextId (some p) s.nextId
      rw [update_self]
    · cases hd
      subst hcp
      rw [hparent c hc]
      exact h.parentId c e he
    · rw [hparent c hc]
      exact h.parentId c d hd
  · intro x hx
    obtain ⟨hone, hexit, hpar⟩ := h.exiting x hx
    have hne : x.pid ≠ s.nextId := by
      intro heq
      exact hexit (heq ▸ (h.fresh s.nextId (Nat.le_refl _)).2.2.1)
    rw [hparent x.pid hne]
    exact ⟨hone, hexit, hpar⟩

theorem InReach.exitBegin (he : s.table p = some e)
    (hp : p ∈ s.running) (hone : p ≠ 1) {status : BitVec 32}
    (hoffers : Offers (s.left p e status) (f.left p status)) :
    InReach (s.left p e status) (f.left p status) := by
  refine ⟨h.toSound.exitBegin he hp status, hoffers, ?_, ?_, ?_⟩
  · intro c d hd
    rw [left_table] at hd
    split_ifs at hd with hc
    · cases hd
      subst hc
      exact h.parentId c e he
    · exact h.parentId c d hd
  · intro x hx
    rcases mem_cons.mp hx with rfl | hx
    · refine ⟨hone, ?_, fun _ => h.parentId p e he⟩
      change update f.status p (some status) p ≠ none
      rw [update_self]
      exact Option.some_ne_none _
    · obtain ⟨hone, hexit, hpar⟩ := h.exiting x hx
      have hne : x.pid ≠ p := by
        rintro rfl
        exact hexit (h.running _ hp).2
      refine ⟨hone, ?_, hpar⟩
      change update f.status p (some status) x.pid ≠ none
      rw [update_of_ne hne]
      exact hexit
  · exact mem_filter.mpr ⟨h.one, by simpa using hone.symm⟩

theorem InReach.exitEnd {unique : ℕ → Bool}
    (hoffers : Offers (s.settled x unique) (f.settled x.pid)) (hnone : ∀ c, ¬ f.Child x.pid c) :
    InReach (s.settled x unique) (f.settled x.pid) := by
  have hparent : ∀ c, c ∉ f.returned → (f.settled x.pid).parent c = f.parent c :=
    fun c hc => if_neg fun hpar => hnone c ⟨hpar, hc⟩
  refine ⟨h.toSound.exitEnd x unique, hoffers, ?_, ?_, h.one⟩
  · intro c d hd
    obtain ⟨e, he, rfl⟩ := settled_table_eq_some.mp hd
    have hret : c ∉ f.returned := by
      intro hret
      rw [h.returned c hret] at he
      cases he
    have horphan : c ∉ s.orphans x.pid := by
      intro hc
      rw [orphans] at hc
      cases hx : s.table x.pid with
      | none => simp [hx] at hc
      | some d =>
        rw [hx] at hc
        exact hnone c (h.children x.pid d hx c hc)
    rw [hparent c hret, ← h.parentId c e he]
    exact if_neg fun hc => horphan hc.1
  · intro x' hx'
    obtain ⟨hone, hexit, hpar⟩ := h.exiting x' (mem_of_mem_erase hx')
    refine ⟨hone, hexit, fun hret => ?_⟩
    rw [hparent x'.pid hret]
    exact hpar hret

theorem InReach.waitReap (hr : r ∈ s.reaping)
    (he : s.table r.waiter = some e) (hmem : r.child ∈ e.children) :
    InReach (s.reaped r e) (f.reaped r.child) := by
  refine ⟨h.toSound.waitReap hr he hmem, Offers.reaped h hr he, ?_, ?_, h.one⟩
  · intro c d hd
    rw [reaped_table] at hd
    split_ifs at hd with hc hw
    · cases hd
      subst hw
      exact h.parentId _ e he
    · exact h.parentId c d hd
  · intro x hx
    obtain ⟨hone, hexit, hpar⟩ := h.exiting x hx
    exact ⟨hone, hexit, fun hret => hpar fun hmem => hret (mem_cons_of_mem _ hmem)⟩

end

theorem Transition.inReach (t : Transition s f step o s' f') (h : InReach s f)
    (hwhen : ReapsWhen (s, f) step) : InReach s' f' := by
  have hoffers := ((t.right_iff h).mpr hwhen).2
  cases t with
  | idle _ _ => exact h
  | fork p e hp he => exact h.fork he
  | exitBegin p status e hp hone he => exact h.exitBegin he hp hone hoffers
  | exitEnd x unique hx => exact h.exitEnd hoffers (hwhen ⟨x, hx, rfl⟩).2
  | found p pid options signal e c st hp he hc =>
    exact ⟨h.toSound.waitScan hc, h.offers, h.parentId, h.exiting, h.one⟩
  | unfound p pid options signal _ hp hnone hechild hfound => exact h
  | returned r e hr he hc => exact h.waitReap hr he hc
  | failed r copied err hr hnone =>
    exact ⟨h.toSound.dropReaping r, h.offers, h.parentId, h.exiting, h.one⟩

/-! ## Runs -/

/-- In every run of forks, exits and waits, however their sections interleave, every wait gives
what it should and every child stays within reach, exactly when every step meets its condition. -/
theorem reaping_iff (steps : List ProcStep) :
    Along reapStep Reaps (init, Family.init) steps ↔
      Along reapStep ReapsWhen (init, Family.init) steps := by
  refine along_iff_of_inv (I := fun sf => InReach sf.1 sf.2) ?_ ?_ InReach.init
  · rintro ⟨s, f⟩ step h
    have hiff := (h.toSound.transition step).right_iff h
    exact ⟨fun hr => hiff.mp ⟨hr.outcome, hr.offers⟩, fun hw => ⟨(hiff.mpr hw).1, (hiff.mpr hw).2⟩⟩
  · rintro ⟨s, f⟩ step h hwhen
    exact (h.toSound.transition step).inReach h hwhen

/-- Process 1 has forked a child that exits with status 7 before process 1 waits for it. -/
def forkedAndLeft : List ProcStep :=
  [.fork 1, .exitBegin 100 7, .exitEnd 100 fun _ => false]

/-- Process 1 then sleeps and scans again without end, although its child has exited and
was never returned. -/
theorem exitedChild_neverFound :
    let sf := forkedAndLeft.foldl reapStep (init, Family.init)
    let wait : ProcStep := .waitScan 1 (-1) 0 false
    sf.2.Child 1 100 ∧ sf.2.status 100 = some 7 ∧ sf.1.exec wait = (.blocked, sf.1) ∧
      ¬ Along reapStep Reaps (init, Family.init) (forkedAndLeft ++ [wait]) := by
  intro sf wait
  have hchild : sf.2.Child 1 100 := ⟨by decide +kernel, by decide +kernel⟩
  have hwait : sf.1.exec wait = (.blocked, sf.1) := rfl
  refine ⟨hchild, by decide +kernel, hwait, ?_⟩
  rintro ⟨-, -, -, h, -⟩
  have h : RightOutcome sf.1 sf.2 wait (sf.1.exec wait).1 := h.outcome
  obtain ⟨-, hfinds, -⟩ := h (by decide +kernel)
  obtain ⟨c, st, hfound⟩ := hfinds 100 hchild (Or.inl rfl) (by decide +kernel)
  cases hfound

end Vahi.Task
