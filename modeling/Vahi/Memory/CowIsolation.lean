import Vahi.Lib.Run
import Vahi.Memory.BuddyFrames
import Vahi.Memory.Cow

/-!
# Isolation of copy-on-write address spaces

Runs of forks, write faults, stores, exits and drains. A write fault makes the page writable in
place when the count of its frame is at most one. `handle_cow` does not count the frame of a copy,
so the next fork of that address space undercounts it.
-/

namespace Vahi.Memory

open Vahi.Lib List Function

variable {σ α : Type}

/-- The address spaces, by number; `none` for one that was destroyed. -/
structure CowState (σ α : Type) where
  spaces : List (Option AddressSpace)
  frames : Frames σ
  memory : ℕ → α

inductive CowOp (α : Type) where
  | fork (i : ℕ)
  | fault (i : ℕ) (path : List ℕ)
  | store (i : ℕ) (path : List ℕ) (write : α → α)
  | exit (i : ℕ)
  | drain

def CowOp.actor : CowOp α → Option ℕ
  | .fork i | .fault i _ | .store i _ _ | .exit i => some i
  | .drain => none

namespace CowState

variable (s : CowState σ α)

def space (i : ℕ) : Option AddressSpace := s.spaces[i]?.join

def entry (i : ℕ) (path : List ℕ) : Option PageEntry :=
  (s.space i).bind (Radix.get 4 · path)

def view (i : ℕ) (path : List ℕ) : Option α :=
  ((s.entry i path).filter (·.present)).map fun e => s.memory e.frame

def mapped : List ℕ :=
  collect (fun t => mappedFrames (Radix.leaves 4 t)) s.spaces

def tables : List ℕ := collect (Radix.tags 4) s.spaces

/-- A store goes through where the page is present and writable. -/
def step (A : FrameAllocator σ) (s : CowState σ α) : CowOp α → CowState σ α
  | .fork i =>
    match s.space i with
    | none => s
    | some t =>
      let r := cloneCow A t s.frames
      { s with
        spaces := s.spaces.set i (some r.parent) ++ r.child.toList.map some
        frames := r.frames }
  | .fault i path =>
    match (s.space i).bind (handleCow A · path s.frames s.memory) with
    | none => s
    | some r => ⟨s.spaces.set i (some r.space), r.frames, r.memory⟩
  | .store i path write =>
    match (s.entry i path).filter fun e => e.present && e.writable with
    | none => s
    | some e => { s with memory := update s.memory e.frame (write (s.memory e.frame)) }
  | .exit i =>
    match s.space i with
    | none => s
    | some t => { s with spaces := s.spaces.set i none, frames := destroy A t s.frames }
  | .drain => { s with frames := s.frames.drainDeferred A }

end CowState

open CowState

open Radix (leaves tags)

/-- The frames that an address space maps. -/
abbrev spaceFrames (t : AddressSpace) : List ℕ := mappedFrames (leaves 4 t)

/-- The frames of a state are accounted for. -/
abbrev CowState.Accounts (A : FrameAllocator σ) (s : CowState σ α) : Prop :=
  Accounted A s.mapped s.tables s.frames

def Apart (t u : AddressSpace) : Prop :=
  ∀ e ∈ leaves 4 t, e.present → e.writable →
    ∀ e' ∈ leaves 4 u, e'.present → e'.frame ≠ e.frame

/-- What one address space can write, no other maps. -/
def Exclusive (spaces : List (Option AddressSpace)) : Prop :=
  ∀ (i j : ℕ) t u, i ≠ j → spaces[i]?.join = some t → spaces[j]?.join = some u → Apart t u

/-- A state to start from: the frames in use came from the allocator and have one use each,
the count of each mapped frame is the number of entries that map it, and shared frames
are read-only. -/
structure CowStart (A : FrameAllocator σ) (s : CowState σ α) : Prop where
  valid : A.Valid s.frames.alloc
  held : ∀ f, f ∈ s.frames.deferred ∨ f ∈ s.tables ∨ (f ∈ s.mapped ∧ f < s.frames.managed) →
    A.Held s.frames.alloc f
  once : ∀ f, A.free s.frames.alloc f + s.frames.deferred.count f + s.tables.count f +
    min 1 (s.mapped.count f) ≤ 1
  counts : ∀ f ∈ s.mapped, (s.frames.count f).toNat = s.mapped.count f
  exclusive : Exclusive s.spaces

/-- Before a fork the counts of the frames that are mapped by the address space are right
and have room. -/
def ForkSafe (s : CowState σ α) : CowOp α → Prop
  | .fork i => ∀ t ∈ s.space i, Forkable s.mapped (leaves 4 t) s.frames
  | _ => True

/-- The other address spaces show the same before and after a step. -/
def Unseen (A : FrameAllocator σ) (s : CowState σ α) (op : CowOp α) : Prop :=
  ∀ j < s.spaces.length, op.actor ≠ some j →
    ∀ path, (step A s op).view j path = s.view j path

instance (s : CowState σ α) (op : CowOp α) : Decidable (ForkSafe s op) :=
  match op with
  | .fork i => inferInstanceAs (Decidable (∀ t ∈ s.space i, _))
  | .fault .. | .store .. | .exit _ | .drain => inferInstanceAs (Decidable True)

/-- No other address space sees the step, and if it makes a page writable in place, no
other address space maps the frame. -/
structure Isolates (A : FrameAllocator σ) (s : CowState σ α) (op : CowOp α) : Prop where
  unseen : Unseen A s op
  alone : ∀ i path e, op = .fault i path → s.entry i path = some e → e.cow → e.isFrame →
    ¬ 1 < s.frames.count e.frame →
    ∀ j ≠ i, ∀ path' e', s.entry j path' = some e' → e'.present → e'.frame ≠ e.frame

structure CowInv (A : FrameAllocator σ) (s : CowState σ α) : Prop where
  accounted : Accounted A s.mapped s.tables s.frames
  exclusive : Exclusive s.spaces

theorem CowStart.inv {A : FrameAllocator σ} {s : CowState σ α} (h : CowStart A s) :
    CowInv A s := by
  refine ⟨⟨h.valid, h.held, h.once, fun f => ?_⟩, h.exclusive⟩
  by_cases hf : f ∈ s.mapped
  · have hcount := h.counts f hf
    by_cases hmanaged : f < s.frames.managed
    · rw [Frames.count_of_managed hmanaged] at hcount
      exact .inr ⟨hmanaged, hcount.ge⟩
    · rw [Frames.count, if_neg hmanaged] at hcount
      exact .inl hcount.ge
  · exact .inl (by rw [count_eq_zero.mpr hf]; exact Nat.zero_le 1)

section Exclusive

variable {spaces : List (Option AddressSpace)} {i : ℕ} {t : AddressSpace}

theorem join_set (h : spaces[i]?.join = some t) (slot : Option AddressSpace) (j : ℕ) :
    (spaces.set i slot)[j]?.join = if i = j then slot else spaces[j]?.join := by
  rw [join_getElem?_set]
  simp only [lt_length_of_join h, and_true]

/-- Replacing an address space by none, or by one that is apart from all others. -/
theorem Exclusive.set {slot : Option AddressSpace} (h : Exclusive spaces)
    (hi : spaces[i]?.join = some t)
    (ht : ∀ t' ∈ slot, ∀ j u, j ≠ i → spaces[j]?.join = some u → Apart t' u ∧ Apart u t') :
    Exclusive (spaces.set i slot) := by
  intro j k u v hjk hu hv
  rw [join_set hi] at hu hv
  by_cases hj : i = j
  · subst hj
    rw [if_pos rfl] at hu
    rw [if_neg hjk] at hv
    exact (ht u hu k v (Ne.symm hjk) hv).1
  · rw [if_neg hj] at hu
    by_cases hk : i = k
    · subst hk
      rw [if_pos rfl] at hv
      exact (ht v hv j u hjk hu).2
    · rw [if_neg hk] at hv
      exact h j k u v hjk hu hv

theorem Exclusive.append (h : Exclusive spaces)
    (ht : ∀ (j : ℕ) u, spaces[j]?.join = some u → Apart t u ∧ Apart u t) :
    Exclusive (spaces ++ [some t]) := by
  have hcases : ∀ (j : ℕ) u, (spaces ++ [some t])[j]?.join = some u →
      spaces[j]?.join = some u ∨ (j = spaces.length ∧ u = t) := by
    intro j u hu
    rcases lt_trichotomy j spaces.length with hj | rfl | hj
    · rw [getElem?_append_left hj] at hu
      exact .inl hu
    · rw [getElem?_concat_length] at hu
      exact .inr ⟨rfl, (Option.some.inj hu).symm⟩
    · rw [getElem?_eq_none (by rw [length_append]; exact hj)] at hu
      cases hu
  intro j k u v hjk hu hv
  rcases hcases j u hu with hu' | ⟨rfl, rfl⟩
  · rcases hcases k v hv with hv' | ⟨-, rfl⟩
    · exact h j k u v hjk hu' hv'
    · exact (ht j u hu').2
  · rcases hcases k v hv with hv' | ⟨rfl, -⟩
    · exact (ht k v hv').1
    · exact absurd rfl hjk

end Exclusive

section Apart

variable {t t' u : AddressSpace}

/-- Every page of `t'` is one of `t`, and writable only if that is. -/
def Weaker (t' t : AddressSpace) : Prop :=
  ∀ e' ∈ leaves 4 t', ∃ e ∈ leaves 4 t,
    e.frame = e'.frame ∧ e.present = e'.present ∧ (e'.writable → e.writable)

theorem Apart.weaken_left (h : Apart t u) (ht : Weaker t' t) : Apart t' u := by
  intro e' he' hp hw x hx hxp
  obtain ⟨e, he, hframe, hpresent, hwritable⟩ := ht e' he'
  rw [← hframe]
  exact h e he (hpresent.trans hp) (hwritable hw) x hx hxp

theorem Apart.weaken_right (h : Apart u t) (ht : Weaker t' t) : Apart u t' := by
  intro x hx hxp hxw e' he' hp
  obtain ⟨e, he, hframe, hpresent, -⟩ := ht e' he'
  rw [← hframe]
  exact h x hx hxp hxw e he (hpresent.trans hp)

/-- A page moved to a frame that the other address space does not map. -/
theorem Apart.set {path : List ℕ} {e e₀ : PageEntry} (hget : Radix.get 4 t path = some e₀)
    (hfresh : ∀ x ∈ leaves 4 u, x.present → x.frame ≠ e.frame)
    (h : Apart t u ∧ Apart u t) :
    Apart (Radix.set e 4 t path) u ∧ Apart u (Radix.set e 4 t path) := by
  obtain ⟨l₁, l₂, hl, hl', -⟩ := Radix.leaves_split hget
  have hmem : ∀ x ∈ leaves 4 (Radix.set e 4 t path), x = e ∨ x ∈ leaves 4 t := by
    intro x hx
    rw [hl'] at hx
    rw [hl]
    simp only [mem_append, mem_cons] at hx ⊢
    tauto
  constructor
  · intro x hx hp hw y hy hyp
    rcases hmem x hx with rfl | hx
    · exact hfresh y hy hyp
    · exact h.1 x hx hp hw y hy hyp
  · intro y hy hyp hw x hx hp
    rcases hmem x hx with rfl | hx
    · exact (hfresh y hy hyp).symm
    · exact h.2 y hy hyp hw x hx hp

/-- Sharing some of the leaves takes rights away. -/
theorem weaker_of_shared {done todo : List PageEntry} (ht : leaves 4 t = done ++ todo)
    (ht' : leaves 4 t' = done.map PageEntry.shared ++ todo) : Weaker t' t := by
  intro e' he'
  rw [ht'] at he'
  rw [ht]
  cases mem_append.mp he' with
  | inl he' =>
    obtain ⟨e, he, rfl⟩ := mem_map.mp he'
    exact ⟨e, mem_append_left _ he, by simp⟩
  | inr he' =>
    exact ⟨e', mem_append_right _ he', rfl, rfl, id⟩

/-- Where all leaves are shared nothing can be written. -/
theorem apart_of_shared {l : List PageEntry} (ht : leaves 4 t = l.map PageEntry.shared)
    (u : AddressSpace) : Apart t u := by
  intro e he _ hw
  rw [ht] at he
  obtain ⟨e, -, rfl⟩ := mem_map.mp he
  rw [PageEntry.shared_writable] at hw
  cases hw

end Apart

/-- Nothing that an address space shows has changed. -/
theorem CowState.view_congr {s s' : CowState σ α} {j : ℕ} (hspace : s'.space j = s.space j)
    (hmem : ∀ t, s.space j = some t → ∀ e ∈ leaves 4 t, e.present →
      s'.memory e.frame = s.memory e.frame) (path : List ℕ) :
    s'.view j path = s.view j path := by
  have hentry : s'.entry j path = s.entry j path := by rw [entry, entry, hspace]
  rw [view, view, hentry]
  apply Option.map_congr
  intro e he
  obtain ⟨he, hp⟩ := Option.filter_eq_some_iff.mp he
  obtain ⟨t, ht, hget⟩ := Option.bind_eq_some_iff.mp he
  exact hmem t ht e (Radix.mem_leaves_of_get hget) hp

theorem mem_mappedFrames {e : PageEntry} {l : List PageEntry} (he : e ∈ l) (hp : e.present) :
    e.frame ∈ mappedFrames l :=
  mem_map_of_mem (mem_filter.mpr ⟨he, hp⟩)

namespace Accounted

variable {A : FrameAllocator σ} {s : CowState σ α} {i : ℕ} {t : AddressSpace}

section

variable (h : s.Accounts A)

include h

/-- The tables and mapped frames of an address space that is replaced. -/
theorem exit (i : ℕ) : (step A s (.exit i)).Accounts A := by
  cases ht : s.space i with
  | none => simpa only [CowState.step, ht] using h
  | some t =>
    simp only [CowState.step, ht]
    apply Accounted.destroyTable (t := t)
    exact h.perm (collect_perm _ ht) (collect_perm _ ht)

theorem fault (i : ℕ) (path : List ℕ) : (step A s (.fault i path)).Accounts A := by
  cases hr : (s.space i).bind (Memory.handleCow A · path s.frames s.memory) with
  | none => simpa only [CowState.step, hr] using h
  | some r =>
    simp only [CowState.step, hr]
    obtain ⟨t, ht, hr⟩ := Option.bind_eq_some_iff.mp hr
    obtain ⟨e, -, -, -, hcases⟩ := handleCow_eq_some hr
    have hbefore := h.perm (collect_perm _ ht) (List.Perm.refl _)
    have hafter := Accounted.handleCow hr hbefore
    have hnew : (s.spaces.set i (some r.space))[i]?.join = some r.space := by
      rw [join_set ht, if_pos rfl]
    have hperm := collect_perm spaceFrames hnew
    rw [set_set] at hperm
    have htags : tags 4 r.space = tags 4 t := by
      rcases hcases with ⟨g, fr, -, -, rfl⟩ | ⟨-, rfl⟩ <;> exact Radix.tags_set t path _
    exact hafter.perm hperm.symm (.of_eq (collect_set_eq ht htags).symm)

theorem clone {r : Cloned σ AddressSpace} (ht : s.space i = some t)
    (hfork : Forkable s.mapped (leaves 4 t) s.frames)
    (hok : CloneOk A (leaves 4) (tags 4) t s.frames r) :
    Accounts A { s with
      spaces := s.spaces.set i (some r.parent) ++ r.child.toList.map some, frames := r.frames } := by
  have hmapped := collect_set_eq (f := spaceFrames) ht hok.mappedFrames_parent
  have htables := collect_set_eq ht hok.tables
  have hready : Ready A s.mapped s.tables (leaves 4 t ++ []) s.frames := by
    rw [append_nil]
    exact ⟨h, hfork, fun e he hp => mem_collect (f := spaceFrames) ht (mem_mappedFrames he hp)⟩
  rw [Accounts, mapped, tables, collect_append, collect_append, hmapped, htables]
  cases hc : r.child with
  | none =>
    simpa [collect, mapped, tables] using hok.failed hc _ _ [] hready
  | some c =>
    refine (hok.cloned c hc _ _ [] hready).accounted.perm ?_ ?_
    · simpa [collect, mapped] using perm_append_comm
    · simpa [collect, tables] using perm_append_comm

/-- Every step keeps the frames accounted for, if counts are right before a fork. -/
theorem step {op : CowOp α} (hsafe : ForkSafe s op) : (step A s op).Accounts A := by
  cases op with
  | fork i =>
    cases ht : s.space i with
    | none => simpa only [CowState.step, ht] using h
    | some t =>
      simp only [CowState.step, ht]
      exact h.clone ht (hsafe t ht) (cloneCow_ok A t s.frames)
  | fault i path => exact h.fault i path
  | store i path write =>
    simp only [CowState.step]
    split <;> exact h
  | exit i => exact h.exit i
  | drain => exact h.drainDeferred

end

end Accounted

namespace CowInv

variable {A : FrameAllocator σ} {s : CowState σ α} {i : ℕ} {t : AddressSpace} {op : CowOp α}

/-- A frame that two address spaces map has two entries. -/
theorem two_le_count (ht : s.space i = some t) {j : ℕ} {u : AddressSpace} (hj : j ≠ i)
    (hu : s.space j = some u) {f : ℕ} (hf : f ∈ spaceFrames t) (hf' : f ∈ spaceFrames u) :
    2 ≤ s.mapped.count f := by
  have hother : (s.spaces.set i none)[j]?.join = some u := by
    rw [join_set ht, if_neg (Ne.symm hj)]
    exact hu
  have hmem := mem_collect (f := spaceFrames) hother hf'
  have hperm := collect_perm spaceFrames ht
  rw [mapped, hperm.count_eq, count_append]
  have := count_pos_iff.mpr hf
  have := count_pos_iff.mpr hmem
  omega

/-- What a step has to keep: the address spaces of the others and the frames they map. -/
theorem unseen_of_step (s' : CowState σ α) (hstep : CowState.step A s op = s')
    (hview : ∀ j < s.spaces.length, op.actor ≠ some j → s'.space j = s.space j ∧
      ∀ t, s.space j = some t → ∀ e ∈ leaves 4 t, e.present →
        s'.memory e.frame = s.memory e.frame) (hexclusive : Exclusive s'.spaces) :
    Unseen A s op ∧ Exclusive (CowState.step A s op).spaces := by
  subst hstep
  exact ⟨fun j hj hactor => view_congr (hview j hj hactor).1 (hview j hj hactor).2, hexclusive⟩

section

variable (h : CowInv A s) {j : ℕ}

include h

theorem unchanged (hstep : CowState.step A s op = s) :
    Unseen A s op ∧ Exclusive (CowState.step A s op).spaces :=
  unseen_of_step s hstep (fun _ _ _ => ⟨rfl, fun _ _ _ _ _ => rfl⟩) h.exclusive

/-- A frame whose count is at most one is mapped by one address space. -/
theorem sole (ht : s.space i = some t) {e : PageEntry}
    (he : e ∈ leaves 4 t) (hp : e.present) (hcount : ¬ 1 < s.frames.count e.frame)
    {u : AddressSpace} (hj : j ≠ i) (hu : s.space j = some u) :
    ∀ x ∈ leaves 4 u, x.present → x.frame ≠ e.frame := by
  intro x hx hxp heq
  have htwo := two_le_count ht hj hu (mem_mappedFrames he hp)
    (heq ▸ mem_mappedFrames hx hxp)
  rcases h.accounted.counted e.frame with hone | ⟨hmanaged, hle⟩
  · omega
  rw [← Frames.count_of_managed hmanaged] at hle
  have hone : (1 : BitVec 16).toNat = 1 := rfl
  rw [BitVec.lt_def] at hcount
  omega

/-- A frame that the allocator hands out is mapped by no address space. -/
theorem fresh {g : ℕ} {fr : Frames σ}
    (ha : s.frames.allocateFrame A = some (g, fr)) {u : AddressSpace}
    (hu : s.space j = some u) : ∀ x ∈ leaves 4 u, x.present → x.frame ≠ g := by
  intro x hx hxp heq
  have hmem : g ∈ s.mapped :=
    mem_collect (f := spaceFrames) hu (heq ▸ mem_mappedFrames hx hxp)
  have honce := (h.accounted.allocateFrame ha).once g
  rw [count_cons_self] at honce
  have := count_pos_iff.mpr hmem
  omega

theorem exit (i : ℕ) : Unseen A s (.exit i) ∧ Exclusive (step A s (.exit i)).spaces := by
  cases ht : s.space i with
  | none => exact h.unchanged (by simp only [step, ht])
  | some t =>
    refine unseen_of_step { s with spaces := s.spaces.set i none, frames := destroy A t s.frames }
      (by simp only [step, ht]) (fun j _ hj => ⟨?_, fun _ _ _ _ _ => rfl⟩) (h.exclusive.set ht nofun)
    exact (join_set ht none j).trans (if_neg fun hij => hj (congrArg some hij))

theorem store (i : ℕ) (path : List ℕ) (write : α → α) :
    Unseen A s (.store i path write) ∧ Exclusive (step A s (.store i path write)).spaces := by
  cases he : (s.entry i path).filter fun e => e.present && e.writable with
  | none => exact h.unchanged (by simp only [step, he])
  | some e =>
    obtain ⟨hentry, hflags⟩ := Option.filter_eq_some_iff.mp he
    obtain ⟨t, ht, hget⟩ := Option.bind_eq_some_iff.mp hentry
    obtain ⟨hp, hw⟩ := Bool.and_eq_true_iff.mp hflags
    refine unseen_of_step { s with memory := update s.memory e.frame (write (s.memory e.frame)) }
      (by simp only [step, he]) (fun j _ hj => ⟨rfl, fun u hu x hx hxp => ?_⟩) h.exclusive
    have hapart : Apart t u := h.exclusive i j t u (fun hij => hj (congrArg some hij)) ht hu
    exact update_of_ne (hapart e (Radix.mem_leaves_of_get hget) hp hw x hx hxp) _ _

/-- A resolved fault puts the page on a frame that no other address space maps, and
changes no other frame. -/
theorem resolved (ht : s.space i = some t) {path : List ℕ} {r : Resolved σ α}
    (hr : handleCow A t path s.frames s.memory = some r) :
    ∃ e₀ e, Radix.get 4 t path = some e₀ ∧ r.space = Radix.set e 4 t path ∧
      (∀ j u, j ≠ i → s.space j = some u →
        ∀ x ∈ leaves 4 u, x.present → x.frame ≠ e.frame) ∧
      ∀ f ≠ e.frame, r.memory f = s.memory f := by
  obtain ⟨e₀, hget, -, hframe, hr⟩ := handleCow_eq_some hr
  rcases hr with ⟨g, fr, -, ha, rfl⟩ | ⟨hcount, rfl⟩
  · refine ⟨e₀, ⟨g, e₀.writableFlags⟩, hget, rfl, ?_, ?_⟩
    · exact fun j u _ hu => h.fresh ha hu
    · exact fun f hf => update_of_ne hf _ _
  · refine ⟨e₀, ⟨e₀.frame, e₀.writableFlags⟩, hget, rfl, ?_, fun _ _ => rfl⟩
    have hp : e₀.present = true := (Bool.and_eq_true_iff.mp hframe).1
    exact fun j u hj hu => h.sole ht (Radix.mem_leaves_of_get hget) hp hcount hj hu

theorem fault (i : ℕ) (path : List ℕ) :
    Unseen A s (.fault i path) ∧ Exclusive (step A s (.fault i path)).spaces := by
  cases hr : (s.space i).bind (handleCow A · path s.frames s.memory) with
  | none => exact h.unchanged (by simp only [step, hr])
  | some r =>
    obtain ⟨t, ht, hcow⟩ := Option.bind_eq_some_iff.mp hr
    obtain ⟨e₀, e, hget, hspace, hunmapped, hmemory⟩ := h.resolved ht hcow
    refine unseen_of_step ⟨s.spaces.set i (some r.space), r.frames, r.memory⟩
      (by simp only [step, hr]) (fun j _ hj => ?_) ?_
    · have hij : i ≠ j := fun hij => hj (congrArg some hij)
      refine ⟨(join_set ht _ j).trans (if_neg hij), fun u hu x hx hxp => ?_⟩
      exact hmemory x.frame (hunmapped j u (Ne.symm hij) hu x hx hxp)
    · refine h.exclusive.set ht fun t' ht' j u hj hu => ?_
      rw [← Option.some.inj ht', hspace]
      exact Apart.set hget (hunmapped j u hj hu)
        ⟨h.exclusive i j t u (Ne.symm hj) ht hu, h.exclusive j i u t hj hu ht⟩

end

section Fork

variable {r : Cloned σ AddressSpace}

theorem exclusive_clone (h : CowInv A s) (ht : s.space i = some t)
    (hok : CloneOk A (leaves 4) (tags 4) t s.frames r) :
    Exclusive (s.spaces.set i (some r.parent) ++ r.child.toList.map some) := by
  obtain ⟨done, todo, hdone, hparent, hchild⟩ := hok.parent
  have hothers : ∀ t', Weaker t' t → ∀ j u, j ≠ i → s.space j = some u →
      Apart t' u ∧ Apart u t' := by
    intro t' ht' j u hj hu
    exact ⟨(h.exclusive i j t u (Ne.symm hj) ht hu).weaken_left ht',
      (h.exclusive j i u t hj hu ht).weaken_right ht'⟩
  have hset : Exclusive (s.spaces.set i (some r.parent)) :=
    h.exclusive.set ht fun _ ht' => Option.some.inj ht' ▸ hothers _ (weaker_of_shared hdone hparent)
  cases hc : r.child with
  | none =>
    rw [Option.toList_none, map_nil, append_nil]
    exact hset
  | some c =>
    obtain ⟨rfl, hshared⟩ := hchild c hc
    have hweaker : Weaker c t := weaker_of_shared hdone (by rw [hshared, append_nil])
    rw [append_nil] at hparent
    refine hset.append fun j u hu => ?_
    rw [join_set ht] at hu
    by_cases hij : i = j
    · -- parent and child share all frames, and neither can write
      rw [if_pos hij] at hu
      cases hu
      exact ⟨apart_of_shared hshared _, apart_of_shared hparent _⟩
    · rw [if_neg hij] at hu
      exact hothers c hweaker j u (Ne.symm hij) hu

end Fork

theorem fork (h : CowInv A s) (i : ℕ) :
    Unseen A s (.fork i) ∧ Exclusive (step A s (.fork i)).spaces := by
  cases ht : s.space i with
  | none => exact h.unchanged (by simp only [step, ht])
  | some t =>
    refine unseen_of_step { s with
        spaces := s.spaces.set i (some (cloneCow A t s.frames).parent) ++
          (cloneCow A t s.frames).child.toList.map some
        frames := (cloneCow A t s.frames).frames }
      (by simp only [step, ht]) (fun j hj hactor => ⟨?_, fun _ _ _ _ _ => rfl⟩)
      (h.exclusive_clone ht (cloneCow_ok A t s.frames))
    rw [space, getElem?_append_left (by rwa [length_set])]
    exact (join_set ht _ j).trans (if_neg fun hij => hactor (congrArg some hij))

/-- One step of a run. -/
theorem step (h : CowInv A s) (hsafe : ForkSafe s op) :
    Unseen A s op ∧ CowInv A (step A s op) := by
  have hkeeps : Unseen A s op ∧ Exclusive (CowState.step A s op).spaces := by
    cases op with
    | fork i => exact h.fork i
    | fault i path => exact h.fault i path
    | store i path write => exact h.store i path write
    | exit i => exact h.exit i
    | drain => exact ⟨fun _ _ _ _ => rfl, h.exclusive⟩
  exact ⟨hkeeps.1, h.accounted.step hsafe, hkeeps.2⟩

theorem isolates (h : CowInv A s) (hunseen : Unseen A s op) : Isolates A s op := by
  refine ⟨hunseen, ?_⟩
  intro i path e _ he _ hframe hcount j hj path' e' he' hp'
  obtain ⟨t, ht, hget⟩ := Option.bind_eq_some_iff.mp he
  obtain ⟨u, hu, hget'⟩ := Option.bind_eq_some_iff.mp he'
  have hp : e.present = true := (Bool.and_eq_true_iff.mp hframe).1
  exact h.sole ht (Radix.mem_leaves_of_get hget) hp hcount hj hu e' (Radix.mem_leaves_of_get hget')
    hp'

end CowInv

/-- In every run from counts that equal the number of entries, if the counts are right before
each fork then every step is isolated. -/
theorem isolates_of_forkSafe (A : FrameAllocator σ) {s : CowState σ α} (hstart : CowStart A s)
    {ops : List (CowOp α)} (hsafe : Along (step A) ForkSafe s ops) :
    Along (step A) (Isolates A) s ops := by
  refine along_of_inv (I := CowInv A) ?_ hstart.inv hsafe
  intro s op hinv hop
  obtain ⟨hunseen, hnext⟩ := hinv.step hop
  exact ⟨hinv.isolates hunseen, hnext⟩

section OnePage

def bootOps : List BuddyOp :=
  [.addRegion 0x1000 0x20000, .allocate 0, .allocate 0, .allocate 0, .allocate 0, .allocate 0]

def bootArena : Arena :=
  match (Arena.new fun _ => 0).run bootOps with
  | .ok a => a
  | _ => Arena.new fun _ => 0

/-- One address space with one writable page, which is stored in frame 5. -/
def onePage : CowState Arena ℕ where
  spaces := [some ⟨1, [some ⟨2, [some ⟨3, [some ⟨4, [some ⟨5, 7⟩]⟩]⟩]⟩]⟩]
  frames := ⟨fun f => if f = 5 then 1 else 0, 32, [], bootArena⟩
  memory := fun _ => 0

/-- The five allocations out of one region succeed whatever its size is. -/
theorem run_boot_inv (stop : ℕ)
    (hregion : (Arena.new fun _ => 0).Permits (.addRegion 0x1000 stop)) :
    ∃ a, (Arena.new fun _ => 0).run (.addRegion 0x1000 stop :: bootOps.tail) = .ok a ∧
      ArenaInv a :=
  run_inv _ (arenaInv_new _)
    ⟨hregion, fun _ _ => ⟨trivial, fun _ _ => ⟨trivial, fun _ _ => ⟨trivial, fun _ _ =>
      ⟨trivial, fun _ _ => ⟨trivial, fun _ _ => trivial⟩⟩⟩⟩⟩⟩

theorem bootArena_inv : ArenaInv bootArena := by
  obtain ⟨a, hrun, hinv⟩ := run_boot_inv 0x20000
    ⟨by decide, by decide, by decide, by decide, fun r hr => by cases hr⟩
  rwa [bootArena, show bootOps = .addRegion 0x1000 0x20000 :: bootOps.tail from rfl, hrun]

theorem onePage_start : CowStart buddyFrameAllocator onePage := by
  have hheld : ∀ f ∈ onePage.tables ++ onePage.mapped, ⟨4096 * f, 0⟩ ∈ bootArena.live := by
    decide +kernel
  have hnodup : (onePage.tables ++ onePage.mapped).Nodup := by decide +kernel
  refine ⟨bootArena_inv, ?_, ?_, by decide +kernel, ?_⟩
  · rintro f (hf | hf | hf)
    · cases hf
    · exact hheld f (mem_append_left _ hf)
    · exact hheld f (mem_append_right _ hf.1)
  · intro f
    have hcount := nodup_iff_count_le_one.mp hnodup f
    have hqueue : onePage.frames.deferred.count f = 0 := rfl
    by_cases hf : f ∈ onePage.tables ++ onePage.mapped
    · have hfree : buddyFrameAllocator.free onePage.frames.alloc f = 0 :=
        freeCount_eq_zero bootArena_inv (hheld f hf)
      rw [count_append] at hcount
      omega
    · have hfree : buddyFrameAllocator.free onePage.frames.alloc f ≤ 1 :=
        freeCount_le_one bootArena_inv f
      have hnone := count_eq_zero.mpr hf
      rw [count_append] at hnone
      omega
  · intro i j t u hij ht hu
    have hone : ∀ (k : ℕ) v, onePage.spaces[k]?.join = some v → k = 0 := by
      intro k v hk
      cases k with
      | zero => rfl
      | succ k => cases hk
    exact absurd ((hone i t ht).trans (hone j u hu).symm) hij

theorem isolates_of_forkSafe_onePage :
    CowStart buddyFrameAllocator onePage ∧
      Along (step buddyFrameAllocator) (Isolates buddyFrameAllocator) onePage
        [.fork 0, .fault 1 [0, 0, 0, 0], .store 1 [0, 0, 0, 0] (· + 1), .fork 0, .exit 0, .drain,
          .fault 2 [0, 0, 0, 0]] :=
  ⟨onePage_start, isolates_of_forkSafe buddyFrameAllocator onePage_start (by decide +kernel)⟩

/-- The child copies the page and forks. Its own child then gets the copy in place,
although both map it, and the store shows in the address space it was forked from. -/
theorem copied_page_shared :
    CowStart buddyFrameAllocator onePage ∧
      ∃ s : CowState Arena ℕ,
        s = [CowOp.fork 0, .fault 1 [0, 0, 0, 0], .fork 1, .fault 2 [0, 0, 0, 0]].foldl
          (step buddyFrameAllocator) onePage ∧
        s.view 1 [0, 0, 0, 0] = some 0 ∧
        (step buddyFrameAllocator s (.store 2 [0, 0, 0, 0] fun _ => 9)).view 1 [0, 0, 0, 0] =
          some 9 := by
  refine ⟨onePage_start, _, rfl, ?_, ?_⟩
  · decide +kernel
  · decide +kernel

end OnePage

section FailedFork

variable {σ β : Type} {A : FrameAllocator σ} {fr fr' : Frames σ} {space : AddressSpace}

/-- The allocator stays valid and gets no frame back. -/
def TakesFrames (A : FrameAllocator σ) (fr fr' : Frames σ) : Prop :=
  A.Valid fr.alloc → A.Valid fr'.alloc ∧ ∀ f, A.free fr'.alloc f ≤ A.free fr.alloc f

theorem TakesFrames.trans {fr'' : Frames σ} (h : TakesFrames A fr fr')
    (h' : TakesFrames A fr' fr'') : TakesFrames A fr fr'' := by
  intro hv
  obtain ⟨hv', hle⟩ := h hv
  obtain ⟨hv'', hle'⟩ := h' hv'
  exact ⟨hv'', fun f => (hle' f).trans (hle f)⟩

/-- The frame that was handed out is listed once less. -/
theorem free_allocateFrame {f : ℕ} (hv : A.Valid fr.alloc)
    (ha : fr.allocateFrame A = some (f, fr')) :
    A.Valid fr'.alloc ∧ ∀ x, A.free fr.alloc x = A.free fr'.alloc x + [f].count x := by
  obtain ⟨⟨g, alloc⟩, halloc, heq⟩ := Option.map_eq_some_iff.mp ha
  cases heq
  exact ⟨A.valid_allocate hv halloc, A.free_allocate hv halloc⟩

theorem takesFrames_cloneSlots {clone : β → Frames σ → Cloned σ β}
    (hclone : ∀ b fr, TakesFrames A fr (clone b fr).frames) (slots : List (Option β))
    (fr : Frames σ) : TakesFrames A fr (cloneSlots clone slots fr).frames := by
  induction slots generalizing fr with
  | nil => exact fun hv => ⟨hv, fun _ => Nat.le_refl _⟩
  | cons slot slots ih =>
    cases slot with
    | none => exact ih fr
    | some b =>
      cases hb : (clone b fr).child with
      | none =>
        rw [cloneSlots_of_none hb]
        exact hclone b fr
      | some c =>
        rw [cloneSlots_of_some hb]
        exact (hclone b fr).trans (ih _)

theorem takesFrames_cloneRecursive (n : ℕ) (t : Table n) (fr : Frames σ) :
    TakesFrames A fr (cloneRecursive A n t fr).frames := by
  induction n generalizing fr with
  | zero =>
    intro hv
    rw [cloneRecursive, Frames.increment_alloc]
    exact ⟨hv, fun _ => Nat.le_refl _⟩
  | succ n ih =>
    rw [cloneRecursive]
    cases ha : fr.allocateFrame A with
    | none => exact fun hv => ⟨hv, fun _ => Nat.le_refl _⟩
    | some a =>
      refine TakesFrames.trans (fun hv => ?_) (takesFrames_cloneSlots ih _ a.2)
      obtain ⟨hv', hfree⟩ := free_allocateFrame hv ha
      exact ⟨hv', fun f => by rw [hfree f]; exact Nat.le_add_right _ _⟩

/-- What a failed fork should leave: counts and free frames as they were, and every page the
parent could write still in its frame, writable or with a fault that resolves in place. -/
structure Untouched (A : FrameAllocator σ) (space : AddressSpace) (fr : Frames σ)
    (r : Cloned σ AddressSpace) : Prop where
  counts : ∀ f, r.frames.count f = fr.count f
  free : ∀ f, A.free r.frames.alloc f = A.free fr.alloc f
  writable : ∀ path e, Radix.get 4 space path = some e → e.writable = true →
    ∃ e', Radix.get 4 r.parent path = some e' ∧ e'.frame = e.frame ∧
      (e'.writable = true ∨ e'.cow = true ∧ e'.isFrame = true ∧ ¬ 1 < r.frames.count e'.frame)

/-- A clone has no effect exactly if it fails at its first frame: when it fails later, the frames
of the tables that were copied before are lost. -/
theorem untouched_iff_noFrame (hv : A.Valid fr.alloc) :
    Untouched A space fr (cloneCow A space fr) ↔ fr.allocateFrame A = none := by
  constructor
  · intro h
    cases ha : fr.allocateFrame A with
    | none => rfl
    | some a =>
      obtain ⟨hv', hfree⟩ := free_allocateFrame hv ha
      have hframes : (cloneCow A space fr).frames =
          (cloneSlots (cloneRecursive A 3) (Node.slots space) a.2).frames := by
        simp only [cloneCow, cloneRecursive, ha]
      have hle :=
        (takesFrames_cloneSlots (takesFrames_cloneRecursive 3) (Node.slots space) _ hv').2 a.1
      have heq := h.free a.1
      have hone := hfree a.1
      rw [count_singleton_self] at hone
      rw [hframes] at heq
      exact absurd (hle.trans_lt (Nat.lt_of_lt_of_eq (Nat.lt_succ_self _) hone.symm))
        (Nat.not_lt.mpr heq.ge)
  · intro hnone
    have hsame : cloneCow A space fr = ⟨space, none, fr⟩ := by
      simp only [cloneCow, cloneRecursive, hnone]
    rw [hsame]
    exact ⟨fun _ => rfl, fun _ => rfl, fun path e he hw => ⟨e, he, rfl, .inl hw⟩⟩

end FailedFork

/-- The five frames of the machine are in use, four for tables and one for a page. -/
def fullArena : Arena :=
  match (Arena.new fun _ => 0).run (.addRegion 0x1000 0x6000 :: bootOps.tail) with
  | .ok a => a
  | _ => Arena.new fun _ => 0

theorem fullArena_inv : ArenaInv fullArena := by
  obtain ⟨a, hrun, hinv⟩ := run_boot_inv 0x6000
    ⟨by decide, by decide, by decide, by decide, fun r hr => by cases hr⟩
  rwa [fullArena, hrun]

def fullFrames : Frames Arena := ⟨fun f => if f = 5 then 1 else 0, 32, [], fullArena⟩

/-- The page in frame 5 stays writable when the fork finds no frame. -/
theorem untouched_iff_noFrame_full :
    let space : AddressSpace := ⟨1, [some ⟨2, [some ⟨3, [some ⟨4, [some ⟨5, 7⟩]⟩]⟩]⟩]⟩
    Radix.get 4 space [0, 0, 0, 0] = some ⟨5, 7⟩ ∧
      (cloneCow buddyFrameAllocator space fullFrames).child = none ∧
      Untouched buddyFrameAllocator space fullFrames
        (cloneCow buddyFrameAllocator space fullFrames) :=
  ⟨rfl, by decide +kernel, (untouched_iff_noFrame fullArena_inv).mpr (by decide +kernel)⟩

def tightArena : Arena :=
  match (Arena.new fun _ => 0).run (.addRegion 0x1000 0x7000 :: bootOps.tail) with
  | .ok a => a
  | _ => Arena.new fun _ => 0

/-- The fork takes the last frame for the PML4, fails, and does not give it back. -/
theorem failed_fork_loses_frame :
    ∃ r, cloneCow buddyFrameAllocator ⟨1, [some ⟨2, [some ⟨4, [some ⟨6, [some ⟨5, 7⟩]⟩]⟩]⟩]⟩
        ⟨fun f => if f = 5 then 1 else 0, 32, [], tightArena⟩ = r ∧
      r.child = none ∧ tightArena.freeCount 3 = 1 ∧ r.frames.alloc.freeCount 3 = 0 := by
  refine ⟨_, rfl, ?_⟩
  decide +kernel

end Vahi.Memory
