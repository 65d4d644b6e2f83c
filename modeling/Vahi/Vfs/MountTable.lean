import Mathlib.Data.List.Infix
import Mathlib.Logic.Equiv.List
import Vahi.Lib.StableSort
import Vahi.Vfs.Location

/-!
# The mount table

`VfsManager` (`crates/vfs/src/defs.rs`). The mount of a path is the longest that its text begins
with, the older one of two at the same place. `statfs_mount` compares the texts without the slash
behind a mount point.
-/

namespace Vahi.Vfs

open Vahi.Lib Vahi.Syscalls List

variable {m : MountPoint} {mounts : List MountPoint} {path p q : Path} {names : List Path}
  {root : Option ℕ} {c : Path} {σ : Type} {F : FileSystem σ} {fs : σ}

theorem resolveWithin_succ (fuel : ℕ) : resolveWithin F fs mounts (fuel + 1) path =
    match mountOf mounts path with
    | none => none
    | some m =>
      match m.root with
      | none => none
      | some root =>
        let components := pathComponents (m.relPath (normalizePath path))
        match walk F fs m.path components (normalizeDots components) root with
        | .found node => some node
        | .missing => none
        | .link path => resolveWithin F fs mounts fuel path := rfl

theorem prefix_of_covers (h : m.covers (normalizePath path) = true) :
    m.path <+: normalizePath path := by
  obtain ⟨rest, hrest⟩ := exists_normalizePath_eq path
  simp only [MountPoint.covers, Bool.or_eq_true, Bool.and_eq_true, decide_eq_true_eq,
    isPrefixOf_iff_prefix] at h
  obtain (hroot | heq) | ⟨hpre, -⟩ := h
  · rw [hroot, hrest]
    exact prefix_append [slash] rest
  · rw [heq]
  · exact hpre

/-! ### Dots -/

/-- The path without empty names and dots, each `..` with the name before it. -/
def lexical (path : Path) : Path :=
  slash :: [slash].intercalate (normalizeDots (pathComponents path))

theorem normalizeDots_concat (names : List Path) (comp : Path) :
    normalizeDots (names ++ [comp]) =
      if comp = dotDot then (normalizeDots names).dropLast
      else if comp = dot then normalizeDots names else normalizeDots names ++ [comp] := by
  rw [normalizeDots, foldl_append]
  rfl

section

variable (hlinks : ∀ node, linkTarget F fs node = none)

include hlinks

/-- Without links a walk depends on the names only. -/
theorem walk_congr (mount mount' : Path) (components components' names : List Path) (node : ℕ) :
    walk F fs mount components names node = walk F fs mount' components' names node := by
  induction names generalizing node with
  | nil => rfl
  | cons comp names ih => simp only [walk, hlinks, ih]

theorem walk_ne_link (mount : Path) (components names : List Path) (node : ℕ) (target : Path) :
    walk F fs mount components names node ≠ .link target := by
  induction names generalizing node with
  | nil => rintro ⟨⟩
  | cons comp names ih =>
    simp only [walk, hlinks]
    split
    · rintro ⟨⟩
    split
    · rintro ⟨⟩
    · exact ih _

end

/-- Where the walk along a path begins, and the names it goes along. -/
def start (mounts : List MountPoint) (path : Path) : Option (ℕ × List Path) :=
  (mountOf mounts path).bind fun m =>
    m.root.map (·, normalizeDots (pathComponents (m.relPath (normalizePath path))))

def Walk.node? : Walk → Option ℕ
  | .found node => some node
  | _ => none

theorem resolvePath_eq_walk (hlinks : ∀ node, linkTarget F fs node = none) :
    resolvePath F fs mounts path =
      (start mounts path).bind fun s => (walk F fs [] [] s.2 s.1).node? := by
  rw [resolvePath, resolveWithin_succ, start]
  cases mountOf mounts path with
  | none => rfl
  | some m =>
    dsimp only [Option.bind_some]
    cases m.root with
    | none => rfl
    | some root =>
      dsimp only [Option.map_some, Option.bind_some]
      rw [walk_congr hlinks [] m.path [] (pathComponents (m.relPath (normalizePath path)))]
      split
      · next hfound => rw [hfound]; rfl
      · next hmissing => rw [hmissing]; rfl
      · next hlink => exact absurd hlink (walk_ne_link hlinks _ _ _ _ _)

/-- The number of a child, above those of the roots. -/
def child (top node : ℕ) (name : Path) : ℕ :=
  top + Nat.pair node (Encodable.encode (name.map BitVec.toNat))

/-- The tree where every directory has a directory of every name. -/
def fullTree (top : ℕ) : FileSystem Unit where
  isDir _ _ := true
  stat _ _ := none
  read _ _ _ := none
  write _ _ _ := (false, ())
  findChild _ node name := some (child top node name)
  readlink _ _ := none
  create _ _ _ := (none, ())
  chmod _ _ _ := ()
  chown _ _ _ _ := ()

theorem walk_fullTree (top : ℕ) (names : List Path) (node : ℕ) :
    walk (fullTree top) () [] [] names node = .found (names.foldl (child top) node) := by
  induction names generalizing node with
  | nil => rfl
  | cons name names ih => exact ih (child top node name)

/-- In the full tree no two walks end at the same node. -/
theorem foldl_child_injective {top root root' : ℕ} {names' : List Path} (hroot : root < top)
    (hroot' : root' < top) (h : names.foldl (child top) root = names'.foldl (child top) root') :
    root = root' ∧ names = names' := by
  have hpair : Function.Injective fun name : Path =>
      Encodable.encode (name.map BitVec.toNat) :=
    Encodable.encode_injective.comp (map_injective_iff.mpr fun _ _ => BitVec.eq_of_toNat_eq)
  induction names using List.reverseRecOn generalizing names' with
  | nil =>
    cases names' using List.reverseRecOn with
    | nil => exact ⟨h, rfl⟩
    | append_singleton names' name' =>
      simp only [foldl_append, foldl_cons, foldl_nil, child] at h
      omega
  | append_singleton names name ih =>
    cases names' using List.reverseRecOn with
    | nil =>
      simp only [foldl_append, foldl_cons, foldl_nil, child] at h
      omega
    | append_singleton names' name' =>
      simp only [foldl_append, foldl_cons, foldl_nil, child, Nat.add_left_cancel_iff,
        Nat.pair_eq_pair] at h
      obtain ⟨rfl, rfl⟩ := ih h.1
      exact ⟨rfl, by rw [hpair h.2]⟩

/-- Two file systems: directories `a` and `b` in the first, nothing in the second. -/
def twoTrees : List TmpNode :=
  [{ TmpNode.file [] with isDir := true, children := [1, 2] },
    { TmpNode.file [0x61] with isDir := true }, { TmpNode.file [0x62] with isDir := true },
    { TmpNode.file [] with isDir := true }]

theorem linkTarget_twoTrees (node : ℕ) : linkTarget ramfs twoTrees node = none :=
  match node with
  | 0 | 1 | 2 | 3 => by decide
  | _ + 4 => rfl

/-- The second file system is at `/a`. -/
def twoMounts : List MountPoint := [⟨[slash, 0x61], some 3⟩, ⟨[slash], some 0⟩]

structure VfsManager where
  mounts : List MountPoint
  mountCache : List (Path × ℕ)

/-- `max_by_key` of the length: the last of the longest. -/
def longest : List MountPoint → Option MountPoint
  | [] => none
  | m :: mounts =>
    match longest mounts with
    | none => some m
    | some best => if best.path.length < m.path.length then some m else some best

namespace VfsManager

variable {v : VfsManager}

def new : VfsManager := ⟨[], []⟩

/-- Longer paths first; the sort is stable, and the cache is emptied. -/
def mount (v : VfsManager) (path : Path) (root : Option ℕ) : VfsManager where
  mounts := (v.mounts ++ [MountPoint.mk (normalizePath path) root]).insertionSort
    fun a b => b.path.length ≤ a.path.length
  mountCache := []

/-- The cache is cleared also if nothing is mounted there. -/
def umount (v : VfsManager) (path : Path) : Bool × VfsManager :=
  (v.mounts.any (·.path = normalizePath path),
    ⟨v.mounts.eraseP (·.path = normalizePath path), []⟩)

/-- The mount that `statfs_mount` takes. -/
def selected (mounts : List MountPoint) (path : Path) : Option MountPoint :=
  longest (mounts.filter fun m => path = m.path || m.path.isPrefixOf path)

def select (mounts : List MountPoint) (path : Path) : Option ℕ :=
  (selected mounts path).bind (·.root)

/-- What the search finds is kept until the next `mount` or `umount`. -/
def statfsMount (v : VfsManager) (path : Path) : Option ℕ × VfsManager :=
  match v.mountCache.lookup path with
  | some cached => (some cached, v)
  | none =>
    match select v.mounts path with
    | some node => (some node, { v with mountCache := (path, node) :: v.mountCache })
    | none => (none, v)

inductive MountOp where
  | mount (path : Path) (root : Option ℕ)
  | umount (path : Path)
  | statfsMount (path : Path)

def step (v : VfsManager) : MountOp → VfsManager
  | .mount path root => v.mount path root
  | .umount path => (v.umount path).2
  | .statfsMount path => (v.statfsMount path).2

/-- The longest paths come first, all begin with a slash, and the cache has what a search would
find. -/
structure Ok (v : VfsManager) : Prop where
  sorted : v.mounts.Pairwise fun a b => b.path.length ≤ a.path.length
  slashed : ∀ m ∈ v.mounts, [slash] <+: m.path
  cached : ∀ path node, v.mountCache.lookup path = some node → select v.mounts path = some node

theorem ok_new : new.Ok := ⟨.nil, nofun, nofun⟩

section

variable (h : v.Ok)

include h

theorem Ok.mount (path : Path) (root : Option ℕ) : (v.mount path root).Ok := by
  refine ⟨pairwise_insertionSort _ _, fun m hm => ?_, nofun⟩
  obtain hm | hm := mem_append.mp ((mem_insertionSort _).mp hm)
  · exact h.slashed m hm
  · obtain rfl := mem_singleton.mp hm
    obtain ⟨rest, hrest⟩ := exists_normalizePath_eq path
    exact ⟨rest, hrest.symm⟩

theorem Ok.umount (path : Path) : (v.umount path).2.Ok :=
  ⟨h.sorted.sublist eraseP_sublist, fun m hm => h.slashed m (mem_of_mem_eraseP hm), nofun⟩

theorem Ok.statfsMount (path : Path) :
    (v.statfsMount path).1 = select v.mounts path ∧ (v.statfsMount path).2.Ok := by
  rw [VfsManager.statfsMount]
  split
  · next hcached => exact ⟨(h.cached path _ hcached).symm, h⟩
  split
  · next node hnode =>
    refine ⟨hnode.symm, h.sorted, h.slashed, fun q found hq => ?_⟩
    rw [lookup_cons] at hq
    split at hq
    · next heq =>
      rw [eq_of_beq heq, ← hq]
      exact hnode
    · exact h.cached q found hq
  · next hnone => exact ⟨hnone.symm, h⟩

omit h in
/-- Whatever was mounted, unmounted and looked up before, the cache answers as a search does. -/
theorem statfsMount_foldl (ops : List MountOp) (path : Path) :
    ((ops.foldl step new).statfsMount path).1 = select (ops.foldl step new).mounts path := by
  have hok : (ops.foldl step new).Ok := by
    refine foldlRecOn ops step ok_new fun v h op _ => ?_
    cases op with
    | mount path root => exact h.mount path root
    | umount path => exact h.umount path
    | statfsMount path => exact (h.statfsMount path).2
  exact (hok.statfsMount path).1

/-- The place of a new mount: behind all that are not shorter. -/
theorem Ok.exists_mount_eq (path : Path) (root : Option ℕ) :
    ∃ before after, v.mounts = before ++ after ∧
      (∀ m ∈ before, (normalizePath path).length ≤ m.path.length) ∧
      (∀ m ∈ after, m.path.length < (normalizePath path).length) ∧
      (v.mount path root).mounts = before ++ ⟨normalizePath path, root⟩ :: after := by
  obtain ⟨before, after, hsplit, hbefore, hafter, hsort⟩ :=
    exists_insertionSort_eq h.sorted ⟨normalizePath path, root⟩
  exact ⟨before, after, hsplit, hbefore, fun m hm => Nat.not_le.mp (hafter m hm), hsort⟩

/-- The mount of `p` is taken for the path from now on: it covers it, and no longer one does. -/
def Captured (v : VfsManager) (p path : Path) : Prop :=
  MountPoint.covers ⟨normalizePath p, none⟩ (normalizePath path) = true ∧
    ∀ m ∈ v.mounts, m.covers (normalizePath path) = true →
      m.path.length < (normalizePath p).length

omit h in
theorem Captured.isPrefix (h : v.Captured p path) : pathComponents p <+: pathComponents path := by
  rw [pathComponents_eq_append h.1, pathComponents_normalizePath]
  exact prefix_append _ _

theorem Ok.mountOf_mount (p path : Path) (root : Option ℕ) :
    (v.Captured p path → mountOf (v.mount p root).mounts path = some ⟨normalizePath p, root⟩) ∧
      (¬ v.Captured p path → mountOf (v.mount p root).mounts path = mountOf v.mounts path) := by
  obtain ⟨before, after, hsplit, hbefore, hafter, hmount⟩ := h.exists_mount_eq p root
  rw [mountOf, mountOf, hmount, hsplit, find?_append, find?_append]
  constructor
  · rintro ⟨hcovers, hshort⟩
    have hnone : before.find? (·.covers (normalizePath path)) = none :=
      find?_eq_none.mpr fun m hm hm' =>
        Nat.not_lt.mpr (hbefore m hm) (hshort m (hsplit ▸ mem_append_left _ hm) hm')
    rw [hnone, Option.none_or]
    exact find?_cons_of_pos hcovers
  · intro hfree
    by_cases hcovers : MountPoint.covers ⟨normalizePath p, none⟩ (normalizePath path) = true
    · -- a mount that is not shorter is in front
      have hex : ∃ m ∈ before, m.covers (normalizePath path) = true := by
        by_contra hno
        refine hfree ⟨hcovers, fun m hm hm' => ?_⟩
        obtain hm | hm := mem_append.mp (hsplit ▸ hm)
        · exact absurd ⟨m, hm, hm'⟩ hno
        · exact hafter m hm
      obtain ⟨m, hm⟩ := Option.isSome_iff_exists.mp (find?_isSome.mpr hex)
      rw [hm, Option.some_or, Option.some_or]
    · rw [find?_cons_of_neg (a := MountPoint.mk (normalizePath p) root) hcovers]

/-- The paths that the resolution of a path goes through over links. -/
def passes (F : FileSystem σ) (fs : σ) (mounts : List MountPoint) : ℕ → Path → List Path
  | 0, _ => []
  | fuel + 1, path =>
    path :: match start mounts path, mountOf mounts path with
      | some (root, names), some m =>
        match walk F fs m.path (pathComponents (m.relPath (normalizePath path))) names root with
        | .link target => passes F fs mounts fuel target
        | _ => []
      | _, _ => []

theorem Ok.resolveWithin_mount {fuel : ℕ}
    (hq : ∀ path ∈ passes F fs v.mounts fuel q, ¬ v.Captured p path) :
    resolveWithin F fs (v.mount p root).mounts fuel q = resolveWithin F fs v.mounts fuel q := by
  induction fuel generalizing q with
  | zero => rfl
  | succ fuel ih =>
    rw [passes, start] at hq
    rw [resolveWithin_succ, resolveWithin_succ, (h.mountOf_mount p q root).2 (hq q mem_cons_self)]
    cases hm : mountOf v.mounts q with
    | none => rfl
    | some m =>
      dsimp only
      cases hroot : m.root with
      | none => rfl
      | some node =>
        dsimp only
        cases hwalk : walk F fs m.path _ _ node with
        | found node => rfl
        | missing => rfl
        | link target =>
          refine ih fun path hpath => hq path (mem_cons_of_mem _ ?_)
          simp only [hm, Option.bind_some, hroot, Option.map_some, hwalk]
          exact hpath

/-- A path that leads to a node no longer does when a file system without a root is mounted over
a path that it goes through. -/
theorem Ok.resolveWithin_mount_none {fuel : ℕ} (hcaptured : ∃ path ∈ passes F fs v.mounts fuel q,
      v.Captured p path) (hq : resolveWithin F fs v.mounts fuel q ≠ none) :
    resolveWithin F fs (v.mount p none).mounts fuel q = none := by
  induction fuel generalizing q with
  | zero => rfl
  | succ fuel ih =>
    rw [resolveWithin_succ]
    by_cases hfirst : v.Captured p q
    · rw [(h.mountOf_mount p q none).1 hfirst]
    obtain ⟨path, hpath, hcaptured⟩ := hcaptured
    rw [passes, start] at hpath
    rw [resolveWithin_succ] at hq
    rw [(h.mountOf_mount p q none).2 hfirst]
    obtain rfl | hpath := mem_cons.mp hpath
    · exact absurd hcaptured hfirst
    cases hm : mountOf v.mounts q with
    | none => rfl
    | some m =>
      cases hroot : m.root with
      | none => simp only [hroot]
      | some node =>
        simp only [hm, hroot, Option.bind_some, Option.map_some] at hpath hq ⊢
        cases hwalk : walk F fs m.path _ _ node with
        | found node => simp [hwalk] at hpath
        | missing => rfl
        | link target =>
          rw [hwalk] at hpath hq
          exact ih ⟨path, hpath, hcaptured⟩ hq

omit h in
theorem resolvePath_place (hm : mountOf mounts p = some m) (hpath : m.path = normalizePath p) :
    resolvePath F fs mounts p = m.root := by
  have hrel : m.relPath (normalizePath p) = [] := by
    rw [MountPoint.relPath, hpath]
    split
    · next hroot => rw [hroot]; rfl
    · exact drop_length
  rw [resolvePath, resolveWithin_succ, hm]
  dsimp only
  rw [hrel]
  cases m.root with
  | none => rfl
  | some root => rfl

/-! ### The mounts at one place -/

/-- The mounts at a path, the oldest first. -/
def mountsAt (mounts : List MountPoint) (p : Path) : List MountPoint :=
  mounts.filter (·.path = p)

theorem Ok.mountsAt_mount (p q : Path) (root : Option ℕ) :
    mountsAt (v.mount p root).mounts q =
      mountsAt v.mounts q ++ if normalizePath p = q then [⟨normalizePath p, root⟩] else [] := by
  obtain ⟨before, after, hsplit, -, hafter, hmount⟩ := h.exists_mount_eq p root
  rw [hmount, hsplit, mountsAt, mountsAt, filter_append, filter_append, append_assoc]
  by_cases hq : normalizePath p = q
  · have hnone : after.filter (·.path = q) = [] := by
      refine filter_eq_nil_iff.mpr fun m hm hm' => absurd (hafter m hm) ?_
      rw [of_decide_eq_true hm', hq]
      exact Nat.lt_irrefl _
    rw [filter_cons, if_pos (decide_eq_true hq), hnone, if_pos hq]
    rfl
  · rw [filter_cons, if_neg (mt of_decide_eq_true hq), if_neg hq, append_nil]

omit h in
theorem mountsAt_umount (v : VfsManager) (p q : Path) :
    mountsAt (v.umount p).2.mounts q =
      if normalizePath p = q then (mountsAt v.mounts q).tail else mountsAt v.mounts q := by
  obtain ⟨mounts, cache⟩ := v
  dsimp only [umount, mountsAt]
  induction mounts with
  | nil => split <;> rfl
  | cons m mounts ih =>
    by_cases hm : m.path = normalizePath p
    · rw [eraseP_cons, decide_eq_true hm, cond_true, filter_cons, hm]
      by_cases hq : normalizePath p = q
      · rw [if_pos hq, if_pos (decide_eq_true hq), tail_cons]
      · rw [if_neg hq, if_neg (mt of_decide_eq_true hq)]
    · rw [eraseP_cons, decide_eq_false hm, cond_false, filter_cons, filter_cons, ih]
      by_cases hmq : m.path = q
      · have hne : normalizePath p ≠ q := fun hp => hm (hmq.trans hp.symm)
        rw [if_neg hne, if_neg hne]
      · simp only [hmq, decide_false, Bool.false_eq_true, if_false]

omit h in
theorem exists_mountOf (hm : m ∈ mounts) (hcovers : m.covers (normalizePath path) = true) :
    ∃ m', mountOf mounts path = some m' :=
  Option.isSome_iff_exists.mp
    (find?_isSome (p := fun m : MountPoint => m.covers (normalizePath path)) |>.mpr
      ⟨m, hm, hcovers⟩)

omit h in
theorem head?_mountsAt (hm : mountOf mounts path = some m) :
    (mountsAt mounts m.path).head? = some m := by
  obtain ⟨hcovers, before, after, rfl, hbefore⟩ := find?_eq_some_iff_append.mp hm
  rw [mountsAt, head?_filter, find?_append, find?_eq_none.mpr, Option.none_or]
  · exact find?_cons_of_pos (decide_eq_true rfl)
  · intro m' hm' hpath
    have := hbefore m' hm'
    rw [MountPoint.covers, of_decide_eq_true hpath, ← MountPoint.covers, hcovers] at this
    cases this

omit h in
theorem length_le_of_mountOf (hs : mounts.Pairwise fun a b => b.path.length ≤ a.path.length)
    (hm : mountOf mounts path = some m) {m' : MountPoint} (hm' : m' ∈ mounts)
    (hcovers : m'.covers (normalizePath path) = true) : m'.path.length ≤ m.path.length := by
  obtain ⟨-, before, after, rfl, hbefore⟩ := find?_eq_some_iff_append.mp hm
  obtain hm' | hm' := mem_append.mp hm'
  · have := hbefore m' hm'
    rw [hcovers] at this
    cases this
  · obtain rfl | hm' := mem_cons.mp hm'
    · exact Nat.le_refl _
    · exact (pairwise_cons.mp (pairwise_append.mp hs).2.1).1 m' hm'

omit h in
theorem mountOf_of_head? {mounts' : List MountPoint}
    (hs : mounts.Pairwise fun a b => b.path.length ≤ a.path.length)
    (hs' : mounts'.Pairwise fun a b => b.path.length ≤ a.path.length)
    (hat : ∀ p, (mountsAt mounts p).head? = (mountsAt mounts' p).head?)
    (hm : mountOf mounts path = some m) : mountOf mounts' path = some m := by
  have hmem {l l' : List MountPoint} {x : MountPoint}
      (hat : ∀ p, (mountsAt l p).head? = (mountsAt l' p).head?) (hx : mountOf l path = some x) :
      x ∈ l' := by
    refine (mem_filter.mp (mem_of_mem_head? (l := mountsAt l' x.path) ?_)).1
    rw [← hat, head?_mountsAt hx]
    rfl
  have hm' := hmem hat hm
  obtain ⟨y, hy⟩ := exists_mountOf hm' (mountOf_covers hm)
  have hlen : m.path.length = y.path.length :=
    le_antisymm (length_le_of_mountOf hs' hy hm' (mountOf_covers hm))
      (length_le_of_mountOf hs hm (hmem (fun p => (hat p).symm) hy) (mountOf_covers hy))
  have hpath : m.path = y.path :=
    (prefix_of_prefix_length_le (prefix_of_covers (mountOf_covers hm))
      (prefix_of_covers (mountOf_covers hy)) hlen.le).eq_of_length hlen
  have hhead := head?_mountsAt hm
  rw [hat, hpath, head?_mountsAt hy] at hhead
  exact hy.trans hhead

/-- The mount of a path depends on the oldest mount at each place only. -/
theorem Ok.mountOf_congr {v' : VfsManager} (h' : v'.Ok)
    (hat : ∀ p, (mountsAt v.mounts p).head? = (mountsAt v'.mounts p).head?) (path : Path) :
    mountOf v.mounts path = mountOf v'.mounts path :=
  Option.ext fun _ => ⟨mountOf_of_head? h.sorted h'.sorted hat,
    mountOf_of_head? h'.sorted h.sorted fun p => (hat p).symm⟩

theorem Ok.mountOf_place (hm : (mountsAt v.mounts (normalizePath p)).head? = some m) :
    mountOf v.mounts p = some m ∧ m.path = normalizePath p := by
  obtain ⟨hmem, hpath⟩ := mem_filter.mp (mem_of_mem_head? (Option.mem_def.mpr hm))
  have hpath : m.path = normalizePath p := of_decide_eq_true hpath
  have hcovers : m.covers (normalizePath p) = true := by simp [MountPoint.covers, hpath]
  obtain ⟨y, hy⟩ := exists_mountOf hmem hcovers
  have hlen := length_le_of_mountOf h.sorted hy hmem hcovers
  have hyp : y.path = normalizePath p :=
    (prefix_of_covers (mountOf_covers hy)).eq_of_length_le (hpath ▸ hlen)
  have hhead := head?_mountsAt hy
  rw [hyp, hm] at hhead
  exact ⟨hy.trans hhead.symm, hpath⟩

omit h in
theorem resolvePath_congr {mounts' : List MountPoint}
    (hmount : ∀ path, mountOf mounts path = mountOf mounts' path) (path : Path) :
    resolvePath F fs mounts path = resolvePath F fs mounts' path := by
  rw [resolvePath, resolvePath]
  generalize MAX_SYMLINK_DEPTH + 1 = fuel
  induction fuel generalizing path with
  | zero => rfl
  | succ fuel ih => simp only [resolveWithin_succ, hmount, ih]

/-- Mounting finds the new root and unmounting restores every path, just when the two oldest mounts
that are at the place already have that root. -/
theorem Ok.restored_iff_sameRoot :
    (resolvePath F fs (v.mount p root).mounts p = root ∧
        ∀ q, resolvePath F fs ((v.mount p root).umount p).2.mounts q =
          resolvePath F fs v.mounts q) ↔
      ∀ m ∈ (mountsAt v.mounts (normalizePath p)).take 2, m.root = root := by
  have hmount := h.mount p root
  have hplace := h.mountsAt_mount p (normalizePath p) root
  rw [if_pos rfl] at hplace
  have htail := mountsAt_umount (v.mount p root) p (normalizePath p)
  rw [if_pos rfl, hplace] at htail
  have hrestored (hhead : (mountsAt v.mounts (normalizePath p) ++
        [MountPoint.mk (normalizePath p) root]).tail.head? =
      (mountsAt v.mounts (normalizePath p)).head?) (q : Path) :
      resolvePath F fs ((v.mount p root).umount p).2.mounts q = resolvePath F fs v.mounts q := by
    refine resolvePath_congr ((hmount.umount p).mountOf_congr h fun q => ?_) q
    by_cases hq : normalizePath p = q
    · rw [← hq, htail, hhead]
    · rw [mountsAt_umount, if_neg hq, h.mountsAt_mount, if_neg hq, append_nil]
  cases hat : mountsAt v.mounts (normalizePath p) with
  | nil =>
    rw [hat] at hplace hrestored
    refine iff_of_true ⟨?_, hrestored rfl⟩ nofun
    obtain ⟨hm, hpath⟩ := hmount.mountOf_place (congrArg head? hplace)
    exact resolvePath_place hm hpath
  | cons m rest =>
    rw [hat] at hplace htail hrestored
    obtain ⟨hm, hpath⟩ := hmount.mountOf_place (congrArg head? hplace)
    obtain ⟨hbefore, -⟩ := h.mountOf_place (congrArg head? hat)
    -- the one that comes to light when the oldest is taken away
    obtain ⟨next, hnext, htwo⟩ : ∃ next,
        (rest ++ [MountPoint.mk (normalizePath p) root]).head? = some next ∧
        ((∀ x ∈ (m :: rest).take 2, x.root = root) ↔ m.root = root ∧ next.root = root) := by
      cases rest with
      | nil => exact ⟨_, rfl, by simp⟩
      | cons m' rest => exact ⟨_, rfl, by simp⟩
    obtain ⟨hafter, hpath'⟩ := (hmount.umount p).mountOf_place ((congrArg head? htail).trans hnext)
    rw [resolvePath_place hm hpath, htwo]
    refine and_congr_right fun hroot => ⟨fun hq => ?_, fun hroot' => hrestored ?_⟩
    · rw [← resolvePath_place hafter hpath', hq p, resolvePath_place hbefore hpath, hroot]
    · have heq : next = m := by
        obtain ⟨path, root⟩ := next
        obtain ⟨path', root'⟩ := m
        simp_all
      exact hnext.trans (congrArg some heq)

/-! ### The mount of `statfs_mount` -/

omit h in
theorem exists_longest (hm : m ∈ mounts) : ∃ best, longest mounts = some best := by
  cases mounts with
  | nil => cases hm
  | cons a mounts =>
    rw [longest]
    split
    · exact ⟨a, rfl⟩
    split
    · exact ⟨a, rfl⟩
    · exact ⟨_, rfl⟩

omit h in
theorem longest_eq_some (hm : longest mounts = some m) : ∃ before after,
    mounts = before ++ m :: after ∧ (∀ a ∈ before, a.path.length ≤ m.path.length) ∧
      ∀ a ∈ after, a.path.length < m.path.length := by
  induction mounts generalizing m with
  | nil => cases hm
  | cons a mounts ih =>
    rw [longest] at hm
    split at hm
    · next hnone =>
      obtain rfl := Option.some.inj hm
      have hnil : mounts = [] := eq_nil_iff_forall_not_mem.mpr fun b hb => by
        obtain ⟨best, hbest⟩ := exists_longest hb
        rw [hnone] at hbest
        cases hbest
      exact ⟨[], mounts, rfl, nofun, hnil ▸ nofun⟩
    · next best hbest =>
      obtain ⟨before, after, hsplit, hbefore, hafter⟩ := ih hbest
      split at hm
      · next hlt =>
        obtain rfl := Option.some.inj hm
        refine ⟨[], mounts, rfl, nofun, fun b hb => ?_⟩
        obtain hb | hb := mem_append.mp (hsplit ▸ hb)
        · exact Nat.lt_of_le_of_lt (hbefore b hb) hlt
        · obtain rfl | hb := mem_cons.mp hb
          · exact hlt
          · exact (hafter b hb).trans hlt
      · next hle =>
        obtain rfl := Option.some.inj hm
        refine ⟨a :: before, after, by rw [hsplit, cons_append], fun b hb => ?_, hafter⟩
        obtain rfl | hb := mem_cons.mp hb
        · exact Nat.not_lt.mp hle
        · exact hbefore b hb

omit h in
theorem textual_iff :
    (path = m.path || m.path.isPrefixOf path) = true ↔ m.path <+: path := by
  rw [Bool.or_eq_true_iff, decide_eq_true_iff, isPrefixOf_iff_prefix]
  exact or_iff_right_of_imp fun heq => heq ▸ prefix_refl _

omit h in
theorem exists_selected (hm : m ∈ mounts) (hpre : m.path <+: path) :
    ∃ best, selected mounts path = some best :=
  exists_longest (mem_filter.mpr ⟨hm, textual_iff.mpr hpre⟩)

omit h in
/-- The newest of the longest mounts that the text of the path begins with. -/
theorem selected_spec (hm : selected mounts path = some m) :
    m ∈ mounts ∧ m.path <+: path ∧
      (∀ a ∈ mounts, a.path <+: path → a.path.length ≤ m.path.length) ∧
      (mountsAt mounts m.path).getLast? = some m := by
  obtain ⟨before, after, hsplit, hbefore, hafter⟩ := longest_eq_some hm
  have hmem := mem_filter.mp (hsplit ▸ mem_append_right before mem_cons_self)
  have hpre := textual_iff.mp hmem.2
  refine ⟨hmem.1, hpre, fun a ha hpre => ?_, ?_⟩
  · have ha : a ∈ before ++ m :: after := hsplit ▸ mem_filter.mpr ⟨ha, textual_iff.mpr hpre⟩
    obtain ha | ha := mem_append.mp ha
    · exact hbefore a ha
    · obtain rfl | ha := mem_cons.mp ha
      · exact Nat.le_refl _
      · exact (hafter a ha).le
  · have hat : mountsAt mounts m.path = mountsAt (before ++ m :: after) m.path := by
      rw [← hsplit, mountsAt, mountsAt, filter_filter]
      refine filter_congr fun a _ => ?_
      by_cases ha : a.path = m.path
      · rw [textual_iff.mpr (ha ▸ hpre), Bool.and_true]
      · rw [decide_eq_false ha, Bool.false_and]
    have hnone : after.filter (·.path = m.path) = [] :=
      filter_eq_nil_iff.mpr fun a ha ha' =>
        (hafter a ha).ne (congrArg length (of_decide_eq_true ha'))
    rw [hat, mountsAt, filter_append, filter_cons, if_pos (decide_eq_true rfl), hnone]
    exact getLast?_concat

omit h in
theorem normalizePath_isPrefix (hslash : [slash] <+: path) : normalizePath path <+: path := by
  obtain ⟨rest, rfl⟩ := hslash
  have hhead : ([slash] ++ rest).head? = some slash := rfl
  simp only [normalizePath, if_pos hhead]
  split
  · exact dropLast_prefix _
  · exact prefix_refl _

/-- `statfs_mount` takes the mount of `resolve_path`, just when the longest mounts that the text as
it is begins with are as long as those that cover the path, and the oldest of them is the newest. -/
theorem Ok.selected_eq_iff :
    selected v.mounts path = mountOf v.mounts path ↔
      (∀ m ∈ v.mounts, m.path <+: path → ∃ m' ∈ v.mounts,
        m'.covers (normalizePath path) ∧ m.path.length ≤ m'.path.length) ∧
      (∀ m ∈ v.mounts, m.covers (normalizePath path) → ∃ m' ∈ v.mounts,
        m'.path <+: path ∧ m.path.length ≤ m'.path.length) ∧
      ∀ m ∈ mountOf v.mounts path, (mountsAt v.mounts m.path).getLast? = some m := by
  constructor
  · intro heq
    refine ⟨fun m hm hpre => ?_, fun m hm hcovers => ?_, fun m hm => ?_⟩
    · obtain ⟨s, hs⟩ := exists_selected hm hpre
      exact ⟨s, (selected_spec hs).1, mountOf_covers (heq ▸ hs),
        (selected_spec hs).2.2.1 m hm hpre⟩
    · obtain ⟨c, hc⟩ := exists_mountOf hm hcovers
      have hs := selected_spec (heq.trans hc)
      exact ⟨c, hs.1, hs.2.1, length_le_of_mountOf h.sorted hc hm hcovers⟩
    · exact (selected_spec (heq.trans hm)).2.2.2
  · intro ⟨htext, hcover, hnewest⟩
    cases hs : selected v.mounts path with
    | none =>
      cases hc : mountOf v.mounts path with
      | none => rfl
      | some c =>
        obtain ⟨m, hm, hpre, -⟩ := hcover c (mem_of_find?_eq_some hc) (mountOf_covers hc)
        obtain ⟨s, hs'⟩ := exists_selected hm hpre
        rw [hs] at hs'
        cases hs'
    | some s =>
      obtain ⟨hmem, hpre, hlongest, hlast⟩ := selected_spec hs
      obtain ⟨m, hm, hcovers, hsm⟩ := htext s hmem hpre
      obtain ⟨c, hc⟩ := exists_mountOf hm hcovers
      obtain ⟨m', hm', hpre', hcm⟩ := hcover c (mem_of_find?_eq_some hc) (mountOf_covers hc)
      have hlen : s.path.length = c.path.length :=
        Nat.le_antisymm (hsm.trans (length_le_of_mountOf h.sorted hc hm hcovers))
          (hcm.trans (hlongest m' hm' hpre'))
      have hslash : [slash] <+: path := (h.slashed s hmem).trans hpre
      have hpath : s.path = c.path :=
        (prefix_of_prefix_length_le hpre ((prefix_of_covers (mountOf_covers hc)).trans
          (normalizePath_isPrefix hslash)) hlen.le).eq_of_length hlen
      rw [hc, ← hlast, hpath]
      exact hnewest c hc

/-- Mounting and unmounting. The new root is found and all paths come back just when the two oldest
mounts at the place have that root; a path keeps its node if it goes through none that the new mount
takes, and if it has one, only then whatever is mounted; `statfs_mount` answers with the mount of
`resolve_path` just when both take the same. -/
theorem mount_umount_iff (F : FileSystem σ) (fs : σ) (p : Path) (root : Option ℕ) :
    ((resolvePath F fs (v.mount p root).mounts p = root ∧
        ∀ q, resolvePath F fs ((v.mount p root).umount p).2.mounts q =
          resolvePath F fs v.mounts q) ↔
      ∀ m ∈ (mountsAt v.mounts (normalizePath p)).take 2, m.root = root) ∧
    (∀ q, (∀ path ∈ passes F fs v.mounts (MAX_SYMLINK_DEPTH + 1) q, ¬ v.Captured p path) →
      resolvePath F fs (v.mount p root).mounts q = resolvePath F fs v.mounts q) ∧
    (∀ q, resolvePath F fs v.mounts q ≠ none →
      ((∀ root, resolvePath F fs (v.mount p root).mounts q = resolvePath F fs v.mounts q) ↔
        ∀ path ∈ passes F fs v.mounts (MAX_SYMLINK_DEPTH + 1) q, ¬ v.Captured p path)) ∧
    (∀ q, ¬ pathComponents p <+: pathComponents q → ¬ v.Captured p q) ∧
    ∀ path, (v.statfsMount path).1 = (selected v.mounts path).bind (·.root) ∧
      (selected v.mounts path = mountOf v.mounts path ↔
        (∀ m ∈ v.mounts, m.path <+: path → ∃ m' ∈ v.mounts,
          m'.covers (normalizePath path) ∧ m.path.length ≤ m'.path.length) ∧
        (∀ m ∈ v.mounts, m.covers (normalizePath path) → ∃ m' ∈ v.mounts,
          m'.path <+: path ∧ m.path.length ≤ m'.path.length) ∧
        ∀ m ∈ mountOf v.mounts path, (mountsAt v.mounts m.path).getLast? = some m) := by
  refine ⟨h.restored_iff_sameRoot, fun q hq => h.resolveWithin_mount hq, fun q hnode => ?_,
    fun q hq hcaptured => hq hcaptured.isPrefix,
    fun path => ⟨(h.statfsMount path).1, h.selected_eq_iff⟩⟩
  refine ⟨fun hall path hpath hcaptured => hnode ?_, fun hq root => h.resolveWithin_mount hq⟩
  rw [← hall none]
  exact h.resolveWithin_mount_none ⟨path, hpath, hcaptured⟩ hnode

end

def bareRoot : VfsManager := new.mount [slash] (some 0)

theorem mount_umount_iff_bareRoot :
    resolvePath ramfs twoTrees (bareRoot.mount [slash, 0x61] (some 3)).mounts [slash, 0x61] =
        some 3 ∧
      resolvePath ramfs twoTrees (bareRoot.mount [slash, 0x61] (some 3)).mounts [slash, 0x62] =
        some 2 := by
  have hok : bareRoot.Ok := ok_new.mount _ _
  obtain ⟨hroot, -, helse, hfree, -⟩ :=
    mount_umount_iff hok ramfs twoTrees [slash, 0x61] (some 3)
  refine ⟨(hroot.mpr (by decide)).1, ?_⟩
  refine ((helse [slash, 0x62] (by decide)).mpr (fun path hpath => ?_) _).trans (by decide)
  obtain rfl := mem_singleton.mp (show path ∈ [[slash, 0x62]] from hpath)
  exact hfree _ (by decide)

/-- A second mount at `/a` is not found there, unmounting takes the first away, and `statfs_mount`
takes `/ab` for a path on the mount at `/a`. -/
theorem second_mount_hidden :
    let first := bareRoot.mount [slash, 0x61] (some 3)
    let second := first.mount [slash, 0x61] (some 2)
    resolvePath ramfs twoTrees second.mounts [slash, 0x61] = some 3 ∧
      resolvePath ramfs twoTrees (second.umount [slash, 0x61]).2.mounts [slash, 0x61] = some 2 ∧
      (first.statfsMount [slash, 0x61, 0x62]).1 = some 3 ∧
      mountOf first.mounts [slash, 0x61, 0x62] = some ⟨[slash], some 0⟩ := by
  decide

end VfsManager

/-! ### Slices -/

/-- `&s[p.len()..]`, which panics unless `p.len()` is in range and the end of a character of `s`.
It is both if `s` begins with `p`, and only that is counted on. -/
def sliceBehind (s p : Path) : Outcome Path :=
  if p.isPrefixOf s then .ok (s.drop p.length) else .panic

section Checked

variable (F : FileSystem σ) (fs : σ)

/-- The walk with the slice of the names walked so far, for a relative target. -/
def walkChecked (mount : Path) (components : List Path) : List Path → ℕ → Outcome Walk
  | [], current => .ok (.found current)
  | comp :: rest, current =>
    if !F.isDir fs current then .ok .missing
    else
      match F.findChild fs current comp with
      | none => .ok .missing
      | some next =>
        match linkTarget F fs next with
        | some target =>
          if target.head? ≠ some slash ∧ components.length < rest.length + 1 then .panic
          else
            .ok (.link (linkPath mount (components.take (components.length - rest.length - 1))
              target rest))
        | none => walkChecked mount components rest next

/-- `resolve_path_with_depth` with its slices. -/
def resolveChecked (mounts : List MountPoint) : ℕ → Path → Outcome (Option ℕ)
  | 0, _ => .ok none
  | fuel + 1, path =>
    let path := normalizePath path
    match mounts.find? (·.covers path) with
    | none => .ok none
    | some mount =>
      match mount.root with
      | none => .ok none
      | some root => do
        let relPath ← sliceBehind path (if mount.path = [slash] then [slash] else mount.path)
        let components := pathComponents relPath
        match ← walkChecked F fs mount.path components (normalizeDots components) root with
        | .found node => return some node
        | .missing => return none
        | .link path => resolveChecked mounts fuel path

theorem sliceBehind_eq_ok (hcovers : m.covers (normalizePath path) = true) :
    sliceBehind (normalizePath path) (if m.path = [slash] then [slash] else m.path) =
      .ok (m.relPath (normalizePath path)) := by
  have hpre : m.path <+: normalizePath path := prefix_of_covers hcovers
  rw [MountPoint.relPath]
  split
  · next hroot =>
    rw [hroot] at hpre
    exact if_pos <| isPrefixOf_iff_prefix.mpr hpre
  · exact if_pos <| isPrefixOf_iff_prefix.mpr hpre

theorem walkChecked_eq_ok {mount : Path} {components : List Path} {node : ℕ}
    (hlen : names.length ≤ components.length) :
    walkChecked F fs mount components names node = .ok (walk F fs mount components names node) := by
  induction names generalizing node with
  | nil => rfl
  | cons comp names ih =>
    have hlen' : ¬ components.length < names.length + 1 := Nat.not_lt.mpr hlen
    rw [walkChecked, walk]
    split
    · rfl
    cases F.findChild fs node comp with
    | none => rfl
    | some next =>
      dsimp only
      cases linkTarget F fs next with
      | some target => exact if_neg fun h => hlen' h.2
      | none => exact ih (Nat.le_of_succ_le hlen)

theorem length_normalizeDots_le (names : List Path) :
    (normalizeDots names).length ≤ names.length := by
  induction names using List.reverseRecOn with
  | nil => rfl
  | append_singleton names comp ih =>
    rw [normalizeDots_concat, length_append, length_singleton]
    split
    · rw [length_dropLast]
      omega
    split
    · omega
    · rw [length_append, length_singleton]
      omega

/-- Resolution is total: no slice is out of range, whatever the mounts, the nodes and the links. -/
theorem resolveChecked_eq_ok (mounts : List MountPoint) (path : Path) :
    resolveChecked F fs mounts (MAX_SYMLINK_DEPTH + 1) path = .ok (resolvePath F fs mounts path) := by
  rw [resolvePath]
  generalize MAX_SYMLINK_DEPTH + 1 = fuel
  induction fuel generalizing path with
  | zero => rfl
  | succ fuel ih =>
    rw [resolveChecked, resolveWithin_succ, mountOf]
    cases hm : mounts.find? (·.covers (normalizePath path)) with
    | none => rfl
    | some m =>
      dsimp only
      cases m.root with
      | none => rfl
      | some root =>
        dsimp only
        rw [sliceBehind_eq_ok (mountOf_covers hm), Outcome.ok_bind,
          walkChecked_eq_ok F fs (length_normalizeDots_le _), Outcome.ok_bind]
        cases walk F fs m.path _ _ root with
        | found node => rfl
        | missing => rfl
        | link target => exact ih target

end Checked

end Vahi.Vfs
