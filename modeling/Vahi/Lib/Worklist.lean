import Vahi.Lib.Outcome

/-!
# Worklist iteration with a budget

A data-flow analysis over numbered nodes: a node is put back on the worklist whenever a join changes
its state. When the list is empty, the receivers have absorbed whatever a node sends.
-/

namespace Vahi.Lib

open List Function

variable {σ : Type u}

/-- Joining is absorbed by its result, and stays absorbed under further joins. -/
structure JoinLaws (join : σ → σ → σ) : Prop where
  self : ∀ a, join a a = a
  absorbed : ∀ a b, join (join a b) b = join a b
  keeps : ∀ a b c, join a b = a → join (join a c) b = join a c

structure WorkState (σ : Type u) where
  states : ℕ → Option σ
  worklist : List ℕ

/-- A transfer function: it may panic, reject the whole analysis, or send states. -/
abbrev Transfer (σ : Type u) := ℕ → σ → Outcome (Option (List (ℕ × σ)))

section Iteration

variable [DecidableEq σ] (join : σ → σ → σ) (transfer : Transfer σ)

/-- Send a state to a node, and queue the node if that changes its state. -/
def pushMerged (w : WorkState σ) (target : ℕ) (new : σ) : WorkState σ :=
  match w.states target with
  | some existing =>
    if existing = join existing new then w
    else ⟨update w.states target (some (join existing new)), target :: w.worklist⟩
  | none => ⟨update w.states target (some new), target :: w.worklist⟩

def pushAll (w : WorkState σ) : List (ℕ × σ) → WorkState σ
  | [] => w
  | p :: outs => pushAll (pushMerged join w p.1 p.2) outs

/-- The iteration. It returns the final states, or `none` when the transfer
function rejects or the budget runs out. -/
def solve : ℕ → WorkState σ → Outcome (Option (ℕ → Option σ))
  | _, ⟨states, []⟩ => .ok (some states)
  | 0, ⟨_, _ :: _⟩ => .ok none
  | budget + 1, ⟨states, cur :: worklist⟩ =>
    match states cur with
    | none => solve budget ⟨states, worklist⟩
    | some pre => do
      match ← transfer cur pre with
      | none => .ok none
      | some outs => solve budget (pushAll join ⟨states, worklist⟩ outs)

end Iteration

/-- The node has a state that does not change when the given one is joined in. -/
def Absorbs (join : σ → σ → σ) (states : ℕ → Option σ) (p : ℕ × σ) : Prop :=
  ∃ e, states p.1 = some e ∧ join e p.2 = e

def Stable (join : σ → σ → σ) (transfer : Transfer σ) (states : ℕ → Option σ) (cur : ℕ)
    (pre : σ) : Prop :=
  ∃ outs, transfer cur pre = .ok (some outs) ∧ ∀ p ∈ outs, Absorbs join states p

structure PostFixpoint (join : σ → σ → σ) (transfer : Transfer σ) (entry : ℕ × σ)
    (states : ℕ → Option σ) : Prop where
  entry : Absorbs join states entry
  stable : ∀ cur pre, states cur = some pre → Stable join transfer states cur pre

/-- The loop invariant: a node that is not queued is stable. -/
structure WorkInv (join : σ → σ → σ) (transfer : Transfer σ) (entry : ℕ × σ)
    (w : WorkState σ) : Prop where
  entry : Absorbs join w.states entry
  stable : ∀ cur pre, w.states cur = some pre → cur ∈ w.worklist ∨
    Stable join transfer w.states cur pre

inductive Loop [DecidableEq σ] (join : σ → σ → σ) (transfer : Transfer σ) (w₀ : WorkState σ) :
    WorkState σ → Prop
  | start : Loop join transfer w₀ w₀
  | skip {states cur worklist} : Loop join transfer w₀ ⟨states, cur :: worklist⟩ →
      states cur = none → Loop join transfer w₀ ⟨states, worklist⟩
  | round {states cur worklist pre outs} : Loop join transfer w₀ ⟨states, cur :: worklist⟩ →
      states cur = some pre → transfer cur pre = .ok (some outs) →
      Loop join transfer w₀ (pushAll join ⟨states, worklist⟩ outs)

/-- The transfer function returns on these nodes and sends to none outside. -/
def Closed (transfer : Transfer σ) (P : ℕ → Prop) : Prop :=
  ∀ cur pre, P cur → ∃ res, transfer cur pre = .ok res ∧
    ∀ outs, res = some outs → ∀ p ∈ outs, P p.1

section Correct

variable [DecidableEq σ] {join : σ → σ → σ} {transfer : Transfer σ} {entry : ℕ × σ}
  {w : WorkState σ}

/-- The two effects of sending one state. -/
theorem pushMerged_cases (join : σ → σ → σ) (w : WorkState σ) (target : ℕ) (new : σ) :
    (pushMerged join w target new = w ∧ Absorbs join w.states (target, new)) ∨
      pushMerged join w target new =
        ⟨update w.states target (some ((w.states target).elim new (join · new))),
          target :: w.worklist⟩ := by
  rw [pushMerged]
  cases hw : w.states target with
  | none => exact Or.inr rfl
  | some e =>
    by_cases heq : e = join e new
    · exact Or.inl ⟨if_pos heq, e, hw, heq.symm⟩
    · exact Or.inr (if_neg heq)

theorem absorbs_pushMerged_self (hj : JoinLaws join) (w : WorkState σ) (target : ℕ) (new : σ) :
    Absorbs join (pushMerged join w target new).states (target, new) := by
  obtain ⟨heq, habs⟩ | heq := pushMerged_cases join w target new
  · rwa [heq]
  · rw [heq]
    refine ⟨_, update_self _ _ _, ?_⟩
    cases w.states target with
    | none => exact hj.self new
    | some e => exact hj.absorbed e new

/-- What is absorbed stays absorbed when further states are sent. -/
theorem absorbs_pushMerged (hj : JoinLaws join) {p : ℕ × σ} (h : Absorbs join w.states p)
    (target : ℕ) (new : σ) : Absorbs join (pushMerged join w target new).states p := by
  obtain ⟨heq, -⟩ | heq := pushMerged_cases join w target new
  · rwa [heq]
  rw [heq]
  obtain ⟨e, he, hjoin⟩ := h
  by_cases hp : p.1 = target
  · subst hp
    exact ⟨join e new, by simp [he], hj.keeps e p.2 new hjoin⟩
  · exact ⟨e, by simpa [update_of_ne hp] using he, hjoin⟩

variable {cur : ℕ} {pre : σ} {states : ℕ → Option σ} {P : σ → Prop}

/-- Sending a state changes a node only by queueing it. -/
theorem pushMerged_state {target : ℕ} {new : σ}
    (h : (pushMerged join w target new).states cur = some pre) :
    cur ∈ (pushMerged join w target new).worklist ∨ w.states cur = some pre := by
  obtain ⟨heq, -⟩ | heq := pushMerged_cases join w target new
  · rw [heq] at h
    exact Or.inr h
  rw [heq] at h ⊢
  by_cases hcur : cur = target
  · exact Or.inl (by simp [hcur])
  · exact Or.inr (by simpa [update_of_ne hcur] using h)

theorem pushMerged_worklist (w : WorkState σ) (target : ℕ) (new : σ)
    (h : cur ∈ w.worklist) : cur ∈ (pushMerged join w target new).worklist := by
  obtain ⟨heq, -⟩ | heq := pushMerged_cases join w target new
  · rwa [heq]
  · rw [heq]
    exact mem_cons_of_mem _ h

/-- Sending a list of states keeps the invariant of all nodes and makes the
sender's list absorbed. -/
theorem pushAll_inv (hj : JoinLaws join) (outs : List (ℕ × σ)) (w : WorkState σ) :
    (∀ p, Absorbs join w.states p → Absorbs join (pushAll join w outs).states p) ∧
    (∀ p ∈ outs, Absorbs join (pushAll join w outs).states p) ∧
    (∀ cur ∈ w.worklist, cur ∈ (pushAll join w outs).worklist) ∧
    ∀ cur pre, (pushAll join w outs).states cur = some pre →
      cur ∈ (pushAll join w outs).worklist ∨ w.states cur = some pre := by
  induction outs generalizing w with
  | nil => exact ⟨fun _ h => h, nofun, fun _ h => h, fun _ _ h => Or.inr h⟩
  | cons q outs ih =>
    obtain ⟨hkeep, hall, hwork, hstate⟩ := ih (Lib.pushMerged join w q.1 q.2)
    refine ⟨fun p hp => hkeep p (absorbs_pushMerged hj hp q.1 q.2),
      forall_mem_cons.2 ⟨hkeep q (absorbs_pushMerged_self hj w q.1 q.2), hall⟩,
      fun cur hcur => hwork cur (pushMerged_worklist w q.1 q.2 hcur), fun cur pre hcur => ?_⟩
    obtain hq | hold := hstate cur pre hcur
    · exact Or.inl hq
    · exact (pushMerged_state hold).imp_left (hwork cur)

/-- One round: the popped node becomes stable, or is queued again because its
own state changed. -/
theorem WorkInv.round (hj : JoinLaws join) {worklist : List ℕ} {outs : List (ℕ × σ)}
    (h : WorkInv join transfer entry ⟨states, cur :: worklist⟩) (hpre : states cur = some pre)
    (htr : transfer cur pre = .ok (some outs)) :
    WorkInv join transfer entry (pushAll join ⟨states, worklist⟩ outs) := by
  obtain ⟨hkeep, hall, hwork, hstate⟩ := pushAll_inv hj outs ⟨states, worklist⟩
  refine ⟨hkeep _ h.entry, ?_⟩
  intro c p hc
  cases hstate c p hc with
  | inl hq =>
    exact Or.inl hq
  | inr hold =>
    rcases h.stable c p hold with hq | ⟨outs', htr', habs'⟩
    · rcases mem_cons.1 hq with rfl | hq
      · obtain rfl : pre = p := Option.some.inj (hpre.symm.trans hold)
        exact Or.inr ⟨outs, htr, hall⟩
      · exact Or.inl (hwork c hq)
    · exact Or.inr ⟨outs', htr', fun q hq => hkeep q (habs' q hq)⟩

/-- A finished iteration has gone through the loop until nothing was queued. -/
theorem solve_loop {w₀ : WorkState σ} (budget : ℕ) (h : Loop join transfer w₀ w)
    (hsolve : solve join transfer budget w = .ok (some states)) :
    Loop join transfer w₀ ⟨states, []⟩ := by
  induction budget generalizing w with
  | zero =>
    obtain ⟨st, _ | ⟨cur, worklist⟩⟩ := w
    · obtain rfl : st = states := by simpa [solve] using hsolve
      exact h
    · simp [solve] at hsolve
  | succ budget ih =>
    obtain ⟨st, _ | ⟨cur, worklist⟩⟩ := w
    · obtain rfl : st = states := by simpa [solve] using hsolve
      exact h
    rw [solve] at hsolve
    cases hcur : st cur with
    | none =>
      rw [hcur] at hsolve
      exact ih (h.skip hcur) hsolve
    | some pre =>
      rw [hcur] at hsolve
      obtain ⟨res, htr, hsolve⟩ := Outcome.bind_eq_ok.1 hsolve
      cases res with
      | none => simp at hsolve
      | some outs => exact ih (h.round hcur htr) hsolve

/-- A finished iteration ends in a post-fixpoint. -/
theorem solve_postFixpoint (hj : JoinLaws join) (budget : ℕ) (h : WorkInv join transfer entry w)
    (hsolve : solve join transfer budget w = .ok (some states)) :
    PostFixpoint join transfer entry states := by
  have hinv : ∀ w', Loop join transfer w w' → WorkInv join transfer entry w' := by
    intro w' hw'
    induction hw' with
    | start => exact h
    | skip _ hcur ih =>
      refine ⟨ih.entry, fun c p hc => ?_⟩
      cases ih.stable c p hc with
      | inl hq =>
        rcases mem_cons.1 hq with rfl | hq
        · exact absurd (hcur.symm.trans hc) (by simp)
        · exact Or.inl hq
      | inr hst => exact Or.inr hst
    | round _ hcur htr ih => exact ih.round hj hcur htr
  have hend := hinv _ (solve_loop budget .start hsolve)
  exact ⟨hend.entry, fun c p hc => (hend.stable c p hc).resolve_left (by simp)⟩

theorem pushAll_forall (hjoin : ∀ a b, P a → P b → P (join a b)) (outs : List (ℕ × σ))
    (h : ∀ c s, w.states c = some s → P s) (houts : ∀ p ∈ outs, P p.2) :
    ∀ c s, (pushAll join w outs).states c = some s → P s := by
  induction outs generalizing w with
  | nil => exact h
  | cons q outs ih =>
    obtain ⟨hq, houts⟩ := forall_mem_cons.1 houts
    refine ih (fun c s hc => ?_) houts
    obtain ⟨heq, -⟩ | heq := pushMerged_cases join w q.1 q.2
    · rw [heq] at hc
      exact h c s hc
    rw [heq] at hc
    by_cases hcq : c = q.1
    · obtain rfl : (w.states q.1).elim q.2 (join · q.2) = s := by simpa [hcq] using hc
      cases he : w.states q.1 with
      | none => exact hq
      | some e => exact hjoin e q.2 (h q.1 e he) hq
    · exact h c s (by simpa [update_of_ne hcq] using hc)

/-- A property of the first states that joins and the transfer function keep
holds of all final states. -/
theorem solve_forall (hjoin : ∀ a b, P a → P b → P (join a b))
    (htransfer : ∀ cur pre outs, P pre → transfer cur pre = .ok (some outs) →
      ∀ p ∈ outs, P p.2)
    (budget : ℕ) (h : ∀ c s, w.states c = some s → P s)
    (hsolve : solve join transfer budget w = .ok (some states)) :
    ∀ c s, states c = some s → P s := by
  have hinv : ∀ w', Loop join transfer w w' → ∀ c s, w'.states c = some s → P s := by
    intro w' hw'
    induction hw' with
    | start => exact h
    | skip _ _ ih => exact ih
    | round _ hcur htr ih =>
      exact pushAll_forall hjoin _ ih (htransfer _ _ _ (ih _ _ hcur) htr)
  exact hinv _ (solve_loop budget .start hsolve)

theorem mem_pushAll_worklist {c : ℕ} (outs : List (ℕ × σ))
    (h : c ∈ (pushAll join w outs).worklist) : c ∈ w.worklist ∨ ∃ p ∈ outs, p.1 = c := by
  induction outs generalizing w with
  | nil => exact Or.inl h
  | cons q outs ih =>
    rcases ih h with hc | ⟨p, hp, rfl⟩
    · obtain ⟨heq, -⟩ | heq := pushMerged_cases join w q.1 q.2
      all_goals rw [heq] at hc
      · exact Or.inl hc
      rcases mem_cons.1 hc with rfl | hc
      · exact Or.inr ⟨q, mem_cons_self, rfl⟩
      · exact Or.inl hc
    · exact Or.inr ⟨p, mem_cons_of_mem _ hp, rfl⟩

section Closed

variable {P : ℕ → Prop} (hc : Closed transfer P)

include hc

theorem Closed.pushAll {worklist : List ℕ} {outs : List (ℕ × σ)} (h : ∀ c ∈ cur :: worklist, P c)
    (htr : transfer cur pre = .ok (some outs)) :
    ∀ c ∈ (pushAll join ⟨states, worklist⟩ outs).worklist, P c := by
  obtain ⟨res, hres, hsent⟩ := hc cur pre (h cur mem_cons_self)
  obtain rfl : some outs = res := Outcome.ok.inj (htr.symm.trans hres)
  intro c hmem
  rcases mem_pushAll_worklist outs hmem with hold | ⟨p, hp, rfl⟩
  · exact h c (mem_cons_of_mem _ hold)
  · exact hsent outs rfl p hp

/-- Only such nodes are ever queued. -/
theorem Closed.loop {w₀ : WorkState σ} (h₀ : ∀ c ∈ w₀.worklist, P c)
    (h : Loop join transfer w₀ w) : ∀ c ∈ w.worklist, P c := by
  induction h with
  | start => exact h₀
  | skip _ _ ih => exact fun c hmem => ih c (mem_cons_of_mem _ hmem)
  | round _ _ htr ih => exact hc.pushAll ih htr

theorem Closed.solve_returns (budget : ℕ) (h : ∀ c ∈ w.worklist, P c) :
    ∃ res, solve join transfer budget w = .ok res := by
  induction budget generalizing w with
  | zero => obtain ⟨st, _ | ⟨cur, worklist⟩⟩ := w <;> exact ⟨_, rfl⟩
  | succ budget ih =>
    obtain ⟨st, _ | ⟨cur, worklist⟩⟩ := w
    · exact ⟨_, rfl⟩
    rw [solve]
    cases st cur with
    | none => exact ih fun c hmem => h c (mem_cons_of_mem _ hmem)
    | some pre =>
      obtain ⟨res, htr, -⟩ := hc cur pre (h cur mem_cons_self)
      simp only [htr, Outcome.ok_bind]
      cases res with
      | none => exact ⟨_, rfl⟩
      | some outs => exact ih (hc.pushAll h htr)

end Closed

end Correct

end Vahi.Lib
