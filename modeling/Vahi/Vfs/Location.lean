import Vahi.Vfs.Node

/-!
# Where a path leads

`resolve_path` with the place of the node that it returns. The place of a path that continues
another one is beneath it, as long as it does not go up and meets no link.
-/

namespace Vahi.Vfs

open Vahi.Syscalls List

abbrev Location := List Path

def mountOf (mounts : List MountPoint) (path : Path) : Option MountPoint :=
  mounts.find? (·.covers (normalizePath path))

variable {m : MountPoint} (path : Path)

theorem mountOf_covers {mounts : List MountPoint} {path : Path}
    (h : mountOf mounts path = some m) : m.covers (normalizePath path) = true :=
  find?_some (p := fun m : MountPoint => m.covers (normalizePath path)) h

def MountPoint.relPath (m : MountPoint) (path : Path) : Path :=
  if m.path = [slash] then path.drop 1 else path.drop m.path.length

section Locate

variable {σ : Type} (F : FileSystem σ) (fs : σ)

def locateWithin (mounts : List MountPoint) : ℕ → Path → Option (Location × ℕ)
  | 0, _ => none
  | fuel + 1, path =>
    match mountOf mounts path with
    | none => none
    | some mount =>
      match mount.root with
      | none => none
      | some root =>
        let components := pathComponents (mount.relPath (normalizePath path))
        match walk F fs mount.path components (normalizeDots components) root with
        | .found node => some (pathComponents mount.path ++ normalizeDots components, node)
        | .missing => none
        | .link path => locateWithin mounts fuel path

def locate (mounts : List MountPoint) (path : Path) : Option (Location × ℕ) :=
  locateWithin F fs mounts (MAX_SYMLINK_DEPTH + 1) path

theorem locateWithin_node (mounts : List MountPoint) (fuel : ℕ) (path : Path) :
    (locateWithin F fs mounts fuel path).map Prod.snd = resolveWithin F fs mounts fuel path := by
  induction fuel generalizing path with
  | zero => rfl
  | succ fuel ih =>
    rw [locateWithin, resolveWithin, mountOf]
    cases mounts.find? (·.covers (normalizePath path)) with
    | none => rfl
    | some mount =>
      dsimp only
      cases mount.root with
      | none => rfl
      | some root =>
        dsimp only [MountPoint.relPath]
        cases walk F fs mount.path _ _ root with
        | found node => rfl
        | missing => rfl
        | link path => exact ih path

/-- The place belongs to the node that `resolve_path` returns. -/
theorem locate_node (mounts : List MountPoint) (path : Path) :
    (locate F fs mounts path).map Prod.snd = resolvePath F fs mounts path :=
  locateWithin_node F fs mounts _ path

end Locate

/-! ### The names of a path -/

theorem pathComponents_append_slash (xs ys : Path) :
    pathComponents (xs ++ slash :: ys) = pathComponents xs ++ pathComponents ys := by
  have hsplit : (xs ++ slash :: ys).splitOn slash = xs.splitOn slash ++ ys.splitOn slash :=
    splitOnP_append_cons xs ys (p := (· == slash)) (beq_self_eq_true slash)
  rw [pathComponents, hsplit, filter_append]
  rfl

theorem pathComponents_nil : pathComponents [] = [] := rfl

theorem pathComponents_slash_cons : pathComponents (slash :: path) = pathComponents path := by
  have h := pathComponents_append_slash [] path
  rwa [pathComponents_nil, nil_append, nil_append] at h

theorem pathComponents_concat_slash : pathComponents (path ++ [slash]) = pathComponents path := by
  rw [pathComponents_append_slash, pathComponents_nil, append_nil]

theorem pathComponents_normalizePath :
    pathComponents (normalizePath path) = pathComponents path := by
  have hlead : pathComponents (if path.head? = some slash then path else slash :: path) =
      pathComponents path := by
    split
    · rfl
    · exact pathComponents_slash_cons path
  rw [normalizePath]
  generalize (if path.head? = some slash then path else slash :: path) = abs at hlead ⊢
  split
  · next h =>
    have hlast : abs = abs.dropLast ++ [slash] := by
      rw [dropLast_append_getLast?]
      exact h.2
    rw [← hlead]
    conv_rhs => rw [hlast]
    rw [pathComponents_concat_slash]
  · exact hlead

theorem pathComponents_trimEndSlashes :
    pathComponents (trimEndSlashes path) = pathComponents path := by
  induction path using List.reverseRecOn with
  | nil => rfl
  | append_singleton path b ih =>
    rw [trimEndSlashes, rdropWhile_concat]
    split
    · next h =>
      have hb : b = slash := of_decide_eq_true h
      rw [hb, pathComponents_concat_slash]
      exact ih
    · rfl

theorem exists_normalizePath_eq : ∃ rest, normalizePath path = slash :: rest := by
  have hlead : ∃ rest, (if path.head? = some slash then path else slash :: path) = slash :: rest := by
    split
    · next h => exact ⟨path.tail, (cons_head?_tail h).symm⟩
    · exact ⟨path, rfl⟩
  obtain ⟨rest, hrest⟩ := hlead
  rw [normalizePath, hrest]
  split
  · next h =>
    cases rest with
    | nil => exact absurd h.1 (by decide)
    | cons b rest => exact ⟨(b :: rest).dropLast, rfl⟩
  · exact ⟨rest, rfl⟩

/-- A path on a mount has the names of the mount point, then those behind it. -/
theorem pathComponents_eq_append {path : Path} (hcovers : m.covers (normalizePath path) = true) :
    pathComponents path =
      pathComponents m.path ++ pathComponents (m.relPath (normalizePath path)) := by
  rw [← pathComponents_normalizePath path]
  obtain ⟨rest, hrest⟩ := exists_normalizePath_eq path
  generalize normalizePath path = x at hcovers hrest ⊢
  rw [MountPoint.relPath]
  split
  · next hroot =>
    rw [hroot, hrest, pathComponents_slash_cons]
    rfl
  next hroot =>
  simp only [MountPoint.covers, hroot, decide_false, Bool.false_or, Bool.or_eq_true,
    Bool.and_eq_true, decide_eq_true_eq, isPrefixOf_iff_prefix] at hcovers
  rcases hcovers with hx | ⟨⟨t, ht⟩, hslash⟩
  · rw [hx, drop_length, pathComponents_nil, append_nil]
  subst ht
  rw [drop_left]
  cases t with
  | nil =>
    rw [append_nil, getD_eq_getElem?_getD, getElem?_eq_none (Nat.le_refl _)]
      at hslash
    exact absurd hslash (by decide)
  | cons b t =>
    have hb : b = slash := by
      rwa [getD_eq_getElem?_getD, getElem?_append_right (Nat.le_refl _), Nat.sub_self] at hslash
    rw [hb, pathComponents_append_slash, pathComponents_slash_cons]

/-- Names without `..` are added to those before, other than `.`. -/
theorem normalizeDots_append (xs : List Path) {ys : List Path} (hys : dotDot ∉ ys) :
    ∃ names, normalizeDots (xs ++ ys) = normalizeDots xs ++ names := by
  rw [normalizeDots, foldl_append]
  change ∃ names, ys.foldl _ (normalizeDots xs) = normalizeDots xs ++ names
  generalize normalizeDots xs = start
  induction ys generalizing start with
  | nil => exact ⟨[], (append_nil start).symm⟩
  | cons comp ys ih =>
    have hcomp : comp ≠ dotDot := fun h => hys (h ▸ mem_cons_self)
    have hys : dotDot ∉ ys := fun h => hys (mem_cons_of_mem comp h)
    rw [foldl_cons, if_neg hcomp]
    split
    · exact ih hys start
    · obtain ⟨names, hnames⟩ := ih hys (start ++ [comp])
      exact ⟨comp :: names, by rw [hnames, append_assoc]; rfl⟩

/-! ### Paths that continue a path -/

section Beneath

variable {σ : Type} {F : FileSystem σ} {fs : σ}

variable {mounts : List MountPoint} {path start : Path} {root node : ℕ} {r : Location × ℕ}

theorem exists_walk_of_direct (h : locateWithin F fs mounts 1 path = some r) :
    ∃ m root node, mountOf mounts path = some m ∧ m.root = some root ∧
      walk F fs m.path (pathComponents (m.relPath (normalizePath path)))
        (normalizeDots (pathComponents (m.relPath (normalizePath path)))) root = .found node ∧
      r = (pathComponents m.path ++
        normalizeDots (pathComponents (m.relPath (normalizePath path))), node) := by
  rw [locateWithin] at h
  split at h
  · cases h
  next m hm =>
  split at h
  · cases h
  next root hroot =>
  dsimp only at h
  split at h
  · next node hwalk =>
    cases h
    exact ⟨m, root, node, hm, hroot, hwalk, rfl⟩
  · cases h
  · cases h

theorem locate_of_walk (hm : mountOf mounts path = some m) (hroot : m.root = some root)
    (hwalk : walk F fs m.path (pathComponents (m.relPath (normalizePath path)))
      (normalizeDots (pathComponents (m.relPath (normalizePath path)))) root = .found node) :
    locate F fs mounts path = some (pathComponents m.path ++
      normalizeDots (pathComponents (m.relPath (normalizePath path))), node) := by
  rw [locate, locateWithin, hm]
  dsimp only
  rw [hroot]
  dsimp only
  rw [hwalk]

/-- Without a link the first walk finds the file. -/
theorem locate_of_direct (h : locateWithin F fs mounts 1 path = some r) :
    locate F fs mounts path = some r := by
  obtain ⟨m, root, node, hm, hroot, hwalk, rfl⟩ := exists_walk_of_direct h
  exact locate_of_walk hm hroot hwalk

/-- What is found along names does not depend on the path that they are from. -/
theorem walk_found_append {mount mount' : Path} {components components' names rest : List Path}
    (hwalk : walk F fs mount components (names ++ rest) root = .found node) :
    ∃ mid, walk F fs mount' components' names root = .found mid := by
  induction names generalizing root with
  | nil => exact ⟨root, rfl⟩
  | cons comp names ih =>
    rw [cons_append, walk] at hwalk
    rw [walk]
    split at hwalk
    · cases hwalk
    next hdir =>
    rw [if_neg hdir]
    cases hchild : F.findChild fs root comp with
    | none =>
      rw [hchild] at hwalk
      cases hwalk
    | some next =>
      rw [hchild] at hwalk
      dsimp only at hwalk ⊢
      cases hlink : linkTarget F fs next with
      | some target =>
        rw [hlink] at hwalk
        cases hwalk
      | none =>
        rw [hlink] at hwalk
        exact ih hwalk

/-- The path goes through `start` and does not go up behind it. -/
def Continues (path start : Path) : Prop :=
  ∃ rest, path ++ [slash] = trimEndSlashes start ++ slash :: rest ∧ dotDot ∉ pathComponents rest

theorem locate_beneath {loc : Location}
    (hpath : locateWithin F fs mounts 1 path = some (loc, node)) (hcont : Continues path start)
    (hmount : mountOf mounts start = mountOf mounts path) :
    ∃ r, locate F fs mounts start = some r ∧ r.1 <+: loc := by
  obtain ⟨m, root, node, hm, hroot, hwalk, heq⟩ := exists_walk_of_direct hpath
  have hm' := hmount.trans hm
  -- the names behind the mount point continue as the path does
  obtain ⟨rest, hrest, hup⟩ := hcont
  have hnames : pathComponents path = pathComponents start ++ pathComponents rest := by
    rw [← pathComponents_concat_slash path, hrest, pathComponents_append_slash,
      pathComponents_trimEndSlashes]
  rw [pathComponents_eq_append (mountOf_covers hm), pathComponents_eq_append (mountOf_covers hm'),
    append_assoc, append_cancel_left_eq] at hnames
  obtain ⟨names, hdots⟩ := normalizeDots_append (pathComponents (m.relPath (normalizePath start))) hup
  rw [← hnames] at hdots
  rw [hdots] at hwalk heq
  obtain ⟨mid, hmid⟩ := walk_found_append hwalk
  refine ⟨_, locate_of_walk hm' hroot hmid, ?_⟩
  rw [(Prod.mk.inj heq).1, ← append_assoc]
  exact prefix_append _ _

end Beneath

end Vahi.Vfs
