import Vahi.Lib.Radix
import Vahi.Memory.FrameInfo

/-!
# Copy-on-write address spaces

`clone_cow`, `destroy` and `handle_cow` (`crates/memory/src/paging.rs`). The user half of an address
space is a radix tree of page tables, tagged with their frames. The contents of the frames of user
pages are of any type.
-/

namespace Vahi.Memory

open Vahi.Lib List
open Option (bind_eq_some_iff forall_mem_map map_eq_none_iff)

namespace PageEntry

def writableBit : BitVec 64 := 1 <<< 1

/-- Bit 9 is free for software and marks a copy-on-write page. -/
def cowBit : BitVec 64 := 1 <<< 9

def cow (e : PageEntry) : Bool := e.flags.getLsbD 9

def isFrame (e : PageEntry) : Bool := e.present && !e.huge

/-- What `clone_recursive` writes to both sides for a leaf. -/
def shared (e : PageEntry) : PageEntry :=
  if e.writable then { e with flags := e.flags &&& ~~~writableBit ||| cowBit } else e

def writableFlags (e : PageEntry) : BitVec 64 := (e.flags ||| writableBit) &&& ~~~cowBit

variable (e : PageEntry)

@[simp]
theorem shared_frame : e.shared.frame = e.frame := by
  unfold shared
  split <;> rfl

@[simp]
theorem shared_present : e.shared.present = e.present := by
  unfold shared
  split <;> simp [present, writableBit, cowBit]

@[simp]
theorem shared_writable : e.shared.writable = false := by
  unfold shared
  split
  · simp [writable, writableBit, cowBit]
  · next h => exact Bool.eq_false_iff.mpr h

theorem writableFlags_present (frame : ℕ) :
    (PageEntry.mk frame e.writableFlags).present = e.present := by
  simp [present, writableFlags, writableBit, cowBit]

end PageEntry

open PageEntry

abbrev Table (level : ℕ) := Radix ℕ PageEntry level

abbrev AddressSpace := Table 4

variable {σ β : Type}

/-- What a clone leaves: the source it has changed, the copy unless it ran out
of frames, and the frames. -/
structure Cloned (σ β : Type) where
  parent : β
  child : Option β
  frames : Frames σ

/-- The loop of `clone_recursive` over the entries of a table; the first failure ends it. -/
def cloneSlots (clone : β → Frames σ → Cloned σ β) :
    List (Option β) → Frames σ → Cloned σ (List (Option β))
  | [], fr => ⟨[], some [], fr⟩
  | none :: slots, fr =>
    let r := cloneSlots clone slots fr
    ⟨none :: r.parent, r.child.map (none :: ·), r.frames⟩
  | some b :: slots, fr =>
    let first := clone b fr
    match first.child with
    | none => ⟨some first.parent :: slots, none, first.frames⟩
    | some c =>
      let r := cloneSlots clone slots first.frames
      ⟨some first.parent :: r.parent, r.child.map (some c :: ·), r.frames⟩

/-- Pages are shared by both sides and counted; each table is copied. -/
def cloneRecursive (A : FrameAllocator σ) : (n : ℕ) → Table n → Frames σ → Cloned σ (Table n)
  | 0, e, fr => ⟨shared e, some (shared e), fr.increment (frame e)⟩
  | n + 1, t, fr =>
    match fr.allocateFrame A with
    | none => ⟨t, none, fr⟩
    | some (f, fr) =>
      let r := cloneSlots (cloneRecursive A n) (Node.slots t) fr
      ⟨Node.mk (Node.tag t) r.parent, r.child.map (Node.mk f), r.frames⟩

variable (A : FrameAllocator σ) (space : AddressSpace)

/-- `clone_cow`: the PML4 is cloned like the tables below it. -/
def cloneCow (fr : Frames σ) : Cloned σ AddressSpace :=
  cloneRecursive A 4 space fr

/-- Pages lose one count, tables are freed at once. -/
def destroyTable (A : FrameAllocator σ) : (n : ℕ) → Table n → Frames σ → Frames σ
  | 0, e, fr => if isFrame e then fr.decrement (frame e) else fr
  | n + 1, t, fr =>
    ((Node.slots t).foldl (fun fr slot => slot.elim fr (destroyTable A n · fr)) fr).deallocateFrame A
      (Node.tag t)

/-- `destroy`: the PML4 goes last, as each table does after what it points to. -/
def destroy (fr : Frames σ) : Frames σ :=
  destroyTable A 4 space fr

structure Resolved (σ α : Type) where
  space : AddressSpace
  frames : Frames σ
  memory : ℕ → α

variable {α : Type}

/-- `handle_cow` for the page at a path; `none` leaves everything as it is. -/
def handleCow (A : FrameAllocator σ) (space : AddressSpace) (path : List ℕ) (fr : Frames σ)
    (memory : ℕ → α) : Option (Resolved σ α) := do
  let e ← Radix.get 4 space path
  guard e.cow
  guard e.isFrame
  if 1 < fr.count e.frame then
    let (g, fr) ← fr.allocateFrame A
    -- nothing counts the reference of the new entry to its frame
    return ⟨Radix.set ⟨g, e.writableFlags⟩ 4 space path, fr.decrement e.frame,
      Function.update memory g (memory e.frame)⟩
  else
    return ⟨Radix.set ⟨e.frame, e.writableFlags⟩ 4 space path, fr, memory⟩

variable {space : AddressSpace} {path mapped tables : List ℕ} {memory : ℕ → α} {r : Resolved σ α}
  {n : ℕ} {e : PageEntry}

variable {fr : Frames σ}

theorem handleCow_eq_some {A : FrameAllocator σ} (h : handleCow A space path fr memory = some r) :
    ∃ e, Radix.get 4 space path = some e ∧ e.cow ∧ e.isFrame ∧
      ((∃ g fr', 1 < fr.count e.frame ∧ fr.allocateFrame A = some (g, fr') ∧
          r = ⟨Radix.set ⟨g, e.writableFlags⟩ 4 space path, fr'.decrement e.frame,
            Function.update memory g (memory e.frame)⟩) ∨
        (¬ 1 < fr.count e.frame ∧
          r = ⟨Radix.set ⟨e.frame, e.writableFlags⟩ 4 space path, fr, memory⟩)) := by
  obtain ⟨e, hget, h⟩ := bind_eq_some_iff.mp h
  obtain ⟨_, hcow, h⟩ := bind_eq_some_iff.mp h
  obtain ⟨_, hframe, h⟩ := bind_eq_some_iff.mp h
  refine ⟨e, hget, (Option.guard_eq_some' _).mp hcow, (Option.guard_eq_some' _).mp hframe, ?_⟩
  split at h
  · next hcount =>
    obtain ⟨⟨g, fr'⟩, halloc, h⟩ := bind_eq_some_iff.mp h
    exact .inl ⟨g, fr', hcount, halloc, (Option.some.inj h).symm⟩
  · next hcount => exact .inr ⟨hcount, (Option.some.inj h).symm⟩

theorem mappedFrames_map_shared (l : List PageEntry) :
    mappedFrames (l.map shared) = mappedFrames l := by
  simp [mappedFrames, filter_map, Function.comp_def]

/-- A clone `r` of something with leaves `lv` and tables `tg` has gone through some of the
leaves in order, through all of them if it succeeds. The frames stay accounted for, with
the copy if there is one; what it has counted and allocated before a failure is lost. -/
structure CloneOk (A : FrameAllocator σ) (lv : β → List PageEntry) (tg : β → List ℕ) (b : β)
    (fr : Frames σ) (r : Cloned σ β) : Prop where
  parent : ∃ done todo, lv b = done ++ todo ∧ lv r.parent = done.map shared ++ todo ∧
    ∀ c, r.child = some c → todo = [] ∧ lv c = done.map shared
  tables : tg r.parent = tg b
  failed : r.child = none → ∀ mapped tables rest, Ready A mapped tables (lv b ++ rest) fr →
    Accounted A mapped tables r.frames
  cloned : ∀ c, r.child = some c → ∀ mapped tables rest, Ready A mapped tables (lv b ++ rest) fr →
    Ready A (mappedFrames (lv c) ++ mapped) (tg c ++ tables) rest r.frames

section Clone

variable {A : FrameAllocator σ} {lv : β → List PageEntry} {tg : β → List ℕ}
  {clone : β → Frames σ → Cloned σ β} {b c : β} {slots : List (Option β)} {fr : Frames σ}

theorem cloneSlots_of_none (hb : (clone b fr).child = none) :
    cloneSlots clone (some b :: slots) fr =
      ⟨some (clone b fr).parent :: slots, none, (clone b fr).frames⟩ := by
  simp only [cloneSlots, hb]

theorem cloneSlots_of_some (hb : (clone b fr).child = some c) :
    cloneSlots clone (some b :: slots) fr =
      ⟨some (clone b fr).parent :: (cloneSlots clone slots (clone b fr).frames).parent,
        (cloneSlots clone slots (clone b fr).frames).child.map (some c :: ·),
        (cloneSlots clone slots (clone b fr).frames).frames⟩ := by
  simp only [cloneSlots, hb]

/-- A failure in the first entry ends the loop. -/
theorem CloneOk.stop {r : Cloned σ β} (h : CloneOk A lv tg b fr r) (hr : r.child = none) :
    CloneOk A (collect lv) (collect tg) (some b :: slots) fr
      ⟨some r.parent :: slots, none, r.frames⟩ := by
  obtain ⟨done, todo, hdone, hparent, -⟩ := h.parent
  refine ⟨⟨done, todo ++ collect lv slots, ?_, ?_, ?_⟩, ?_, ?_, ?_⟩
  · simp [collect, hdone]
  · simp [collect, hparent]
  · rintro c ⟨⟩
  · simp [collect, h.tables]
  · intro _ mapped tables rest hready
    rw [collect, append_assoc] at hready
    exact h.failed hr mapped tables _ hready
  · rintro c ⟨⟩

/-- The first entry is cloned, and the loop continues with the frames this leaves. -/
theorem CloneOk.continue {r : Cloned σ β} {rs : Cloned σ (List (Option β))}
    (h : CloneOk A lv tg b fr r) (hr : r.child = some c)
    (hs : CloneOk A (collect lv) (collect tg) slots r.frames rs) :
    CloneOk A (collect lv) (collect tg) (some b :: slots) fr
      ⟨some r.parent :: rs.parent, rs.child.map (some c :: ·), rs.frames⟩ := by
  obtain ⟨done, todo, hdone, hparent, hchild⟩ := h.parent
  obtain ⟨done', todo', hdone', hparent', hchild'⟩ := hs.parent
  obtain ⟨rfl, hc⟩ := hchild c hr
  refine ⟨⟨done ++ done', todo', ?_, ?_, ?_⟩, ?_, ?_, ?_⟩
  · simp [collect, hdone, hdone']
  · simp [collect, hparent, hparent']
  · refine forall_mem_map.mpr fun d hd => ?_
    obtain ⟨rfl, hlv⟩ := hchild' d hd
    exact ⟨rfl, by simp [collect, hc, hlv]⟩
  · simp [collect, h.tables, hs.tables]
  · intro hnone mapped tables rest hready
    rw [collect, append_assoc] at hready
    have hacc := hs.failed (map_eq_none_iff.mp hnone) _ _ rest
      (h.cloned c hr mapped tables _ hready)
    exact hacc.mono (fun f => by simp) (fun f => by simp)
  · refine forall_mem_map.mpr fun d hd mapped tables rest hready => ?_
    rw [collect, append_assoc] at hready
    have hrest := hs.cloned d hd _ _ rest (h.cloned c hr mapped tables _ hready)
    rw [collect, collect, mappedFrames_append, append_assoc, append_assoc]
    exact hrest.perm (perm_append_comm_assoc ..) (perm_append_comm_assoc ..)

theorem cloneSlots_ok (h : ∀ b fr, CloneOk A lv tg b fr (clone b fr)) (slots : List (Option β))
    (fr : Frames σ) :
    CloneOk A (collect lv) (collect tg) slots fr (cloneSlots clone slots fr) := by
  induction slots generalizing fr with
  | nil =>
    refine ⟨⟨[], [], rfl, rfl, ?_⟩, rfl, ?_, ?_⟩
    · rintro c ⟨⟩
      exact ⟨rfl, rfl⟩
    · rintro ⟨⟩
    · rintro c ⟨⟩ mapped tables rest hready
      exact hready
  | cons slot slots ih =>
    cases slot with
    | none =>
      obtain ⟨⟨done, todo, hdone, hparent, hchild⟩, htables, hfailed, hcloned⟩ := ih fr
      exact ⟨⟨done, todo, hdone, hparent, forall_mem_map.mpr hchild⟩, htables,
        fun hnone => hfailed (map_eq_none_iff.mp hnone), forall_mem_map.mpr hcloned⟩
    | some b =>
      cases hb : (clone b fr).child with
      | none =>
        rw [cloneSlots_of_none hb]
        exact (h b fr).stop hb
      | some c =>
        rw [cloneSlots_of_some hb]
        exact (h b fr).continue hb (ih _)

/-- A table is allocated for the copy of the slots. -/
theorem CloneOk.table {n f : ℕ} {t : Table (n + 1)} {fr' : Frames σ}
    {rs : Cloned σ (List (Option (Table n)))} (ha : fr.allocateFrame A = some (f, fr'))
    (hs : CloneOk A (collect (Radix.leaves n)) (collect (Radix.tags n)) (Node.slots t) fr' rs) :
    CloneOk A (Radix.leaves (n + 1)) (Radix.tags (n + 1)) t fr
      ⟨Node.mk (Node.tag t) rs.parent, rs.child.map (Node.mk f), rs.frames⟩ := by
  obtain ⟨⟨done, todo, hdone, hparent, hchild⟩, htables, hfailed, hcloned⟩ := hs
  refine ⟨⟨done, todo, hdone, hparent, forall_mem_map.mpr hchild⟩,
    congrArg (Node.tag t :: ·) htables, ?_, forall_mem_map.mpr ?_⟩
  · intro hnone mapped tables rest hready
    have hacc := hfailed (map_eq_none_iff.mp hnone) mapped (f :: tables) rest
      (hready.allocateFrame ha)
    exact hacc.mono (fun x => Nat.le_refl _) (fun x => count_le_count_cons)
  · intro slots hslots mapped tables rest hready
    have hrest := hcloned slots hslots mapped (f :: tables) rest (hready.allocateFrame ha)
    exact hrest.perm (List.Perm.refl _) perm_middle

end Clone

theorem cloneRecursive_ok (n : ℕ) (t : Table n) (fr : Frames σ) :
    CloneOk A (Radix.leaves n) (Radix.tags n) t fr (cloneRecursive A n t fr) := by
  induction n generalizing fr with
  | zero =>
    refine ⟨⟨[t], [], rfl, rfl, ?_⟩, rfl, ?_, ?_⟩
    · rintro c ⟨⟩
      exact ⟨rfl, rfl⟩
    · rintro ⟨⟩
    · rintro c ⟨⟩ mapped tables rest hready
      rw [show mappedFrames (Radix.leaves 0 (shared t : Table 0)) = mappedFrames [t] from
        mappedFrames_map_shared [t]]
      exact hready.increment
  | succ n ih =>
    cases ha : fr.allocateFrame A with
    | none =>
      simp only [cloneRecursive, ha]
      refine ⟨⟨[], Radix.leaves (n + 1) t, rfl, rfl, ?_⟩, rfl, ?_, ?_⟩
      · rintro c ⟨⟩
      · exact fun _ mapped tables rest hready => hready.accounted
      · rintro c ⟨⟩
    | some a =>
      simp only [cloneRecursive, ha]
      exact CloneOk.table ha (cloneSlots_ok ih (Node.slots t) a.2)

theorem cloneCow_ok (space : AddressSpace) (fr : Frames σ) :
    CloneOk A (Radix.leaves 4) (Radix.tags 4) space fr (cloneCow A space fr) :=
  cloneRecursive_ok A 4 space fr

/-- The leaves of a source after its slots were cloned, and those of the copy. -/
theorem get_cloneSlots {clone : Table n → Frames σ → Cloned σ (Table n)}
    (hclone : ∀ b fr path e, Radix.get n b path = some e →
      (∃ e', Radix.get n (clone b fr).parent path = some e' ∧ (e' = e ∨ e' = e.shared)) ∧
        ∀ c ∈ (clone b fr).child, Radix.get n c path = some e.shared)
    {slots : List (Option (Table n))} {i : ℕ} {b : Table n} (hb : slots[i]?.join = some b)
    (he : Radix.get n b path = some e) (fr : Frames σ) :
    (∃ e', (cloneSlots clone slots fr).parent[i]?.join.bind (Radix.get n · path) = some e' ∧
        (e' = e ∨ e' = e.shared)) ∧
      ∀ cs ∈ (cloneSlots clone slots fr).child,
        cs[i]?.join.bind (Radix.get n · path) = some e.shared := by
  induction slots generalizing i fr with
  | nil => cases hb
  | cons slot slots ih =>
    cases slot with
    | none =>
      cases i with
      | zero => cases hb
      | succ i =>
        obtain ⟨hparent, hchild⟩ := ih hb fr
        exact ⟨hparent, forall_mem_map.mpr hchild⟩
    | some b₀ =>
      cases hc : (clone b₀ fr).child with
      | none =>
        rw [cloneSlots_of_none hc]
        refine ⟨?_, nofun⟩
        cases i with
        | zero =>
          cases hb
          exact (hclone b fr path e he).1
        | succ i => exact ⟨e, bind_eq_some_iff.mpr ⟨b, hb, he⟩, .inl rfl⟩
      | some c =>
        rw [cloneSlots_of_some hc]
        cases i with
        | zero =>
          cases hb
          obtain ⟨hparent, hchild⟩ := hclone b fr path e he
          exact ⟨hparent, forall_mem_map.mpr fun _ _ => hchild c hc⟩
        | succ i =>
          obtain ⟨hparent, hchild⟩ := ih hb (clone b₀ fr).frames
          exact ⟨hparent, forall_mem_map.mpr hchild⟩

/-- A clone keeps every leaf of the source or makes it read-only, and the copy has all of them
read-only. -/
theorem get_cloneRecursive (n : ℕ) (t : Table n) (fr : Frames σ)
    (he : Radix.get n t path = some e) :
    (∃ e', Radix.get n (cloneRecursive A n t fr).parent path = some e' ∧
        (e' = e ∨ e' = e.shared)) ∧
      ∀ c ∈ (cloneRecursive A n t fr).child, Radix.get n c path = some e.shared := by
  induction n generalizing fr path e with
  | zero =>
    cases path with
    | nil =>
      cases he
      refine ⟨⟨_, rfl, .inr rfl⟩, ?_⟩
      rintro c ⟨⟩
      rfl
    | cons i path => cases he
  | succ n ih =>
    cases path with
    | nil => cases he
    | cons i path =>
      obtain ⟨b, hb, hget⟩ := bind_eq_some_iff.mp he
      rw [cloneRecursive]
      cases fr.allocateFrame A with
      | none => exact ⟨⟨e, he, .inl rfl⟩, nofun⟩
      | some a =>
        obtain ⟨hparent, hchild⟩ := get_cloneSlots (fun b fr path e he => ih b fr he) hb hget a.2
        exact ⟨hparent, forall_mem_map.mpr hchild⟩

/-- The source maps the same frames as before. -/
theorem CloneOk.mappedFrames_parent {A : FrameAllocator σ} {lv : β → List PageEntry}
    {tg : β → List ℕ} {b : β} {r : Cloned σ β} (h : CloneOk A lv tg b fr r) :
    mappedFrames (lv r.parent) = mappedFrames (lv b) := by
  obtain ⟨done, todo, hdone, hparent, -⟩ := h.parent
  rw [hdone, hparent, mappedFrames_append, mappedFrames_append, mappedFrames_map_shared]

theorem Accounted.destroyTable {A : FrameAllocator σ} {t : Table n}
    (h : Accounted A (mappedFrames (Radix.leaves n t) ++ mapped) (Radix.tags n t ++ tables) fr) :
    Accounted A mapped tables (destroyTable A n t fr) := by
  induction n generalizing mapped tables fr with
  | zero =>
    have hone : Accounted A (mappedFrames [t] ++ mapped) tables fr := h
    rw [Memory.destroyTable]
    split
    · next hframe =>
      have hpresent : present t = true := (Bool.and_eq_true_iff.mp hframe).1
      rw [mappedFrames_singleton, if_pos hpresent] at hone
      exact hone.decrement
    · exact hone.mono (fun f => by simp) (fun f => Nat.le_refl _)
  | succ n ih =>
    rw [Memory.destroyTable]
    refine Accounted.deallocateFrame ?_
    replace h := h.perm (List.Perm.refl _) perm_middle.symm
    change Accounted A (mappedFrames (collect (Radix.leaves n) (Node.slots t)) ++ mapped) _ fr at h
    generalize Node.slots t = slots at h ⊢
    induction slots generalizing fr with
    | nil => exact h
    | cons slot slots ihs =>
      cases slot with
      | none => exact ihs h
      | some b =>
        rw [collect, collect, mappedFrames_append, append_assoc, append_assoc] at h
        exact ihs (ih h)

theorem Accounted.handleCow {A : FrameAllocator σ} (hr : handleCow A space path fr memory = some r)
    (h : Accounted A (mappedFrames (Radix.leaves 4 space) ++ mapped) tables fr) :
    Accounted A (mappedFrames (Radix.leaves 4 r.space) ++ mapped) tables r.frames := by
  obtain ⟨e, hget, -, hframe, hr⟩ := handleCow_eq_some hr
  have hpresent : e.present = true := (Bool.and_eq_true_iff.mp hframe).1
  have hset : ∀ g f, (mappedFrames (Radix.leaves 4 (Radix.set ⟨g, e.writableFlags⟩ 4 space path))).count f +
      [e.frame].count f = (mappedFrames (Radix.leaves 4 space)).count f + [g].count f := by
    intro g f
    obtain ⟨l₁, l₂, hl, hl', -⟩ := Radix.leaves_split hget
    rw [hl, hl']
    simp only [mappedFrames, filter_append, filter_cons, hpresent,
      writableFlags_present, if_true, map_append, map_cons, count_append,
      count_cons, count_nil]
    omega
  rcases hr with ⟨g, fr', -, halloc, rfl⟩ | ⟨-, rfl⟩
  · -- the new frame is mapped first, then the old one loses this entry
    have hnew := (h.allocateFrame halloc).retype
    apply Accounted.decrement
    refine hnew.mono (fun f => ?_) (fun f => Nat.le_refl _)
    have := hset g f
    simp only [count_append, count_cons, count_nil] at this ⊢
    omega
  · refine h.mono (fun f => ?_) (fun f => Nat.le_refl _)
    have := hset e.frame f
    simp only [count_append] at this ⊢
    omega

end Vahi.Memory
