import Vahi.Syscalls.FileAccess
import Vahi.Vfs.Location

/-!
# Landlock and the file that is opened

`open_file` asks Landlock about the string, and opens the node that the string leads to. A rule for
`/a` covers `/a/../b`, `/ab` and a link in `/a`. A new file is created without asking.
-/

namespace Vahi.Syscalls

open Vahi.Types Vahi.Task Vahi.Vfs

/-! ### Rules for a string -/

variable {path : Path} {rs : LandlockRuleset} {access : BitVec 64}

theorem bestMatch_spec {rules : List LandlockPathRule}
    {best : Option LandlockPathRule × ℕ} {rule : LandlockPathRule}
    (h : (rules.foldl (bestMatch path) best).1 = some rule) :
    best.1 = some rule ∨ (rule ∈ rules ∧ rule.matchesPath path = true) := by
  induction rules generalizing best with
  | nil => exact .inl h
  | cons r rules ih =>
    rcases ih h with hbest | ⟨hmem, hmatch⟩
    · rw [bestMatch] at hbest
      split at hbest
      · next hr =>
        cases hbest
        exact .inr ⟨List.mem_cons_self, (Bool.and_eq_true_iff.mp hr).1⟩
      · exact .inl hbest
    · exact .inr ⟨List.mem_cons_of_mem r hmem, hmatch⟩

/-- A ruleset that handles the access and allows it has a rule for the string with all of the
access. -/
theorem checkAccess_rule
    (hallowed : rs.checkAccess path access = true) (hhandled : access &&& rs.handledAccessFs ≠ 0) :
    ∃ rule ∈ rs.rules, rule.matchesPath path = true ∧
      access &&& rs.handledAccessFs &&& rule.allowedAccess = access &&& rs.handledAccessFs := by
  rw [LandlockRuleset.checkAccess] at hallowed
  rw [if_neg hhandled] at hallowed
  cases hbest : (rs.rules.foldl (bestMatch path) (none, 0)).1 with
  | none =>
    rw [hbest] at hallowed
    exact absurd (of_decide_eq_true hallowed) hhandled
  | some rule =>
    rw [hbest] at hallowed
    rcases bestMatch_spec hbest with hnone | ⟨hmem, hmatch⟩
    · cases hnone
    · exact ⟨rule, hmem, hmatch, of_decide_eq_true hallowed⟩

theorem LandlockState.checkAccess_ruleset {st : LandlockState}
    (hallowed : st.checkAccess path access = true) (hactive : st.active = true)
    (hrs : rs ∈ st.rulesets) : rs.checkAccess path access = true := by
  have hne : st.rulesets.isEmpty = false := by
    cases h : st.rulesets with
    | nil =>
      rw [h] at hrs
      cases hrs
    | cons r rest => rfl
  rw [LandlockState.checkAccess, hactive, hne] at hallowed
  exact List.all_eq_true.mp hallowed rs hrs

/-! ### The file that is opened -/

section Confined

variable {σ : Type} (F : FileSystem σ)

/-- Where the file is that an `open` of the path returns: where the path leads, or else the last
name of the path in the directory where it is made. -/
def openedAt (s : FileState σ) (path : Path) : Option Location :=
  match locate F s.fs s.mounts path with
  | some (loc, _) => some loc
  | none =>
    let (parentPath, name) := splitAtLastSlash path
    (locate F s.fs s.mounts parentPath).map fun r => r.1 ++ [name]

/-- The rule's path leads to this place or to a directory above it. -/
def LandlockPathRule.Covers (s : FileState σ) (rule : LandlockPathRule) (loc : Location) : Prop :=
  ∃ r, locate F s.fs s.mounts rule.pathPrefix = some r ∧ r.1 <+: loc

/-- Each ruleset enforced on the process that handles the access has a rule that grants it and
covers the place. -/
def Covered (s : FileState σ) (p : FileProcess) (flags : BitVec 32) (loc : Location) : Prop :=
  ∀ rs ∈ p.landlock.rulesets, landlockAccess flags &&& rs.handledAccessFs ≠ 0 →
    ∃ rule ∈ rs.rules, rule.Covers F s loc ∧
      landlockAccess flags &&& rs.handledAccessFs &&& rule.allowedAccess =
        landlockAccess flags &&& rs.handledAccessFs

/-- If the call succeeds, the file is covered. -/
def Confined (s : FileState σ) (i : ℕ) (path : Path) (flags mode : BitVec 32) : Prop :=
  ∀ p, s.procs[i]? = some p → p.landlock.active = true →
    Succeeds (s.exec F i (.open path flags mode)).1 →
    ∃ loc, openedAt F s path = some loc ∧ Covered F s p flags loc

/-- Where the path leads is covered, or the string is refused, or a directory was asked for that it
is not. If it leads nowhere, no file is made, or its new place is covered. -/
def RefusedOrCovered (s : FileState σ) (i : ℕ) (path : Path) (flags : BitVec 32) : Prop :=
  ∀ p, s.procs[i]? = some p → p.landlock.active = true →
    match locate F s.fs s.mounts path with
    | some (loc, node) => p.landlock.checkAccess path (landlockAccess flags) = false ∨
        flags &&& O_DIRECTORY ≠ 0 ∧ F.isDir s.fs node = false ∨ Covered F s p flags loc
    | none => flags &&& O_CREAT = 0 ∨
        ∀ r, locate F s.fs s.mounts (splitAtLastSlash path).1 = some r →
          p.mayAccess F s.fs r.2 3 = false ∨
            (F.create s.fs r.2 (splitAtLastSlash path).2).1 = none ∨
              Covered F s p flags (r.1 ++ [(splitAtLastSlash path).2])

/-- The path leads to a file without a symbolic link, and each rule whose string matches is one
that the path continues, on the same mount. -/
structure PlainPath (s : FileState σ) (i : ℕ) (path : Path) : Prop where
  direct : locateWithin F s.fs s.mounts 1 path ≠ none
  continues : ∀ p, s.procs[i]? = some p → ∀ rs ∈ p.landlock.rulesets, ∀ rule ∈ rs.rules,
    rule.matchesPath path = true →
      Continues path rule.pathPrefix ∧ mountOf s.mounts rule.pathPrefix = mountOf s.mounts path

end Confined

section Succeed

variable {σ : Type} {F : FileSystem σ} {s : FileState σ} {p : FileProcess} {i : ℕ}
  {flags mode : BitVec 32}

/-- An `open` of a path that leads nowhere succeeds if it may make the file. -/
theorem exec_open_creating_succeeds_iff (hp : s.procs[i]? = some p)
    (hnone : resolvePath F s.fs s.mounts path = none) :
    Succeeds (s.exec F i (.open path flags mode)).1 ↔ flags &&& O_CREAT ≠ 0 ∧
      ∃ parent, resolvePath F s.fs s.mounts (splitAtLastSlash path).1 = some parent ∧
        p.mayAccess F s.fs parent 3 = true ∧
          (F.create s.fs parent (splitAtLastSlash path).2).1 ≠ none := by
  have herror {e : Errno} : ¬ Succeeds (.error e : Except Errno (ℕ × FileProcess)) := by
    rintro ⟨_, h⟩
    cases h
  simp only [FileState.exec, hp, openFile, hnone]
  split
  · next hcreat =>
    rw [succeeds_installed_iff, openCreating]
    dsimp only
    cases hparent : resolvePath F s.fs s.mounts (splitAtLastSlash path).1 with
    | none =>
      refine iff_of_false herror ?_
      rintro ⟨-, _, h, -⟩
      cases h
    | some parent =>
      dsimp only
      rcases hcreate : F.create s.fs parent (splitAtLastSlash path).2 with ⟨node?, fs⟩
      cases hmay : p.mayAccess F s.fs parent 3 with
      | false =>
        refine iff_of_false herror ?_
        rintro ⟨-, _, ⟨⟩, hmay', -⟩
        exact Bool.false_ne_true (hmay.symm.trans hmay')
      | true =>
        have hiff : (flags &&& O_CREAT ≠ 0 ∧ ∃ parent', some parent = some parent' ∧
            p.mayAccess F s.fs parent' 3 = true ∧
              (F.create s.fs parent' (splitAtLastSlash path).2).1 ≠ none) ↔ node? ≠ none := by
          constructor
          · rintro ⟨-, _, ⟨⟩, -, h⟩
            rwa [hcreate] at h
          · exact fun h => ⟨hcreat, parent, rfl, hmay, by rwa [hcreate]⟩
        rw [hiff]
        cases node? with
        | none => exact iff_of_false herror fun h => h rfl
        | some node => exact iff_of_true (addFd_succeeds p node flags) (by simp)
  · next hcreat =>
    rw [succeeds_installed_iff]
    exact iff_of_false herror fun h => hcreat h.1

theorem confined_iff : Confined F s i path flags mode ↔ RefusedOrCovered F s i path flags := by
  refine forall_congr' fun p => forall_congr' fun hp => forall_congr' fun _ => ?_
  have hresolve := locate_node F s.fs s.mounts path
  rw [openedAt]
  cases hloc : locate F s.fs s.mounts path with
  | some r =>
    rw [hloc] at hresolve
    rw [exec_open_succeeds_iff hp hresolve.symm]
    simp only [Option.some.injEq, exists_eq_left', and_imp, ← Bool.not_eq_true]
    exact ⟨fun h => or_iff_not_imp_left.mpr fun hcheck => or_iff_not_imp_left.mpr fun hdir =>
      h (not_not.mp hcheck) hdir, fun h hcheck hdir =>
        (h.resolve_left (not_not_intro hcheck)).resolve_left hdir⟩
  | none =>
    rw [hloc] at hresolve
    rw [exec_open_creating_succeeds_iff hp hresolve.symm]
    have hparent := locate_node F s.fs s.mounts (splitAtLastSlash path).1
    dsimp only
    cases hr : locate F s.fs s.mounts (splitAtLastSlash path).1 with
    | none =>
      rw [hr] at hparent
      rw [← hparent]
      refine iff_of_true ?_ (.inr nofun)
      rintro ⟨-, _, ⟨⟩, -⟩
    | some r =>
      rw [hr] at hparent
      rw [← hparent]
      constructor
      · intro h
        refine or_iff_not_imp_left.mpr fun hcreat r' hr' => ?_
        cases hr'
        refine or_iff_not_imp_left.mpr fun hmay => or_iff_not_imp_left.mpr fun hcreate => ?_
        obtain ⟨loc, hloc, hcovered⟩ :=
          h ⟨hcreat, r.2, rfl, Bool.not_eq_false _ ▸ hmay, hcreate⟩
        cases hloc
        exact hcovered
      · rintro h ⟨hcreat, _, ⟨⟩, hmay, hcreate⟩
        have hcovered := (h.resolve_left hcreat r rfl).resolve_left
          (fun hfalse => Bool.false_ne_true (hfalse.symm.trans hmay))
        exact ⟨_, rfl, hcovered.resolve_left hcreate⟩

theorem confined_of_plain (hplain : PlainPath F s i path) : Confined F s i path flags mode := by
  intro p hp hactive hsucceeds
  obtain ⟨⟨loc, node⟩, hdirect⟩ := Option.ne_none_iff_exists'.mp hplain.direct
  have hloc := locate_of_direct hdirect
  have hnode : resolvePath F s.fs s.mounts path = some node := by
    rw [← locate_node, hloc]
    rfl
  have hallowed := ((exec_open_succeeds_iff hp hnode).mp hsucceeds).1
  refine ⟨loc, by rw [openedAt, hloc], fun rs hrs hhandled => ?_⟩
  obtain ⟨rule, hrule, hmatch, hgrants⟩ :=
    checkAccess_rule (LandlockState.checkAccess_ruleset hallowed hactive hrs) hhandled
  obtain ⟨hcontinues, hmount⟩ := hplain.continues p hp rs hrs rule hrule hmatch
  exact ⟨rule, hrule, locate_beneath hdirect hcontinues hmount, hgrants⟩

end Succeed

/-! ### A confined process -/

/-- The directory `/a` with the link `l` to `/b`, and the files `/b` and `/ab`. -/
def confinedNodes : List TmpNode :=
  [{ TmpNode.file [] with isDir := true, children := [1, 2, 3] },
    { TmpNode.file [0x61] with isDir := true, children := [4, 5] },
    TmpNode.file [0x62], TmpNode.file [0x61, 0x62],
    { TmpNode.file [0x6C] with isSymlink := true, linkTarget := some [slash, 0x62] },
    TmpNode.file [0x66]]

/-- A rule that grants reading and writing in `/a`, for a ruleset that handles both. -/
def confinedRule : LandlockPathRule := ⟨[slash, 0x61], 6, 6⟩

def confinedProcess : FileProcess where
  creds := Credentials.default
  umask := 0o022
  landlock := ⟨[⟨[confinedRule], 6⟩], true⟩
  files := ⟨[], [], [slash], []⟩
  handleTable := []

def confinedState : FileState (List TmpNode) where
  fs := confinedNodes
  mounts := [⟨[slash], some 0⟩]
  procs := [confinedProcess]

/-- The file `/a/f`. -/
theorem plainPath_confinedState :
    PlainPath ramfs confinedState 0 [slash, 0x61, slash, 0x66] where
  direct := by decide +kernel
  continues p hp rs hrs rule hrule _ := by
    cases hp
    obtain rfl := List.mem_singleton.mp hrs
    obtain rfl := List.mem_singleton.mp hrule
    exact ⟨⟨[0x66, slash], by decide +kernel, by decide +kernel⟩, by decide +kernel⟩

theorem not_confined {flags : BitVec 32} (fd : ℕ) (loc : Location)
    (hopen : (confinedState.exec ramfs 0 (.open path flags 0)).1 = .ok (.value fd))
    (hloc : openedAt ramfs confinedState path = some loc)
    (haccess : landlockAccess flags &&& 6 ≠ 0) (hnot : ¬ [[0x61]] <+: loc) :
    ¬ Confined ramfs confinedState 0 path flags 0 := by
  intro h
  obtain ⟨loc', hloc', hrules⟩ := h confinedProcess rfl rfl ⟨_, hopen⟩
  cases hloc.symm.trans hloc'
  obtain ⟨rule, hrule, ⟨r, hr, hbeneath⟩, -⟩ := hrules _ List.mem_cons_self haccess
  obtain rfl := List.mem_singleton.mp hrule
  have hrule : locate ramfs confinedState.fs confinedState.mounts confinedRule.pathPrefix =
      some ([[0x61]], 1) := by decide +kernel
  cases hrule.symm.trans hr
  exact hnot hbeneath

end Vahi.Syscalls
