import Vahi.Task.Process

/-!
# File nodes and path resolution

The trait `VfsNode`, `VfsManager::resolve_path` (`crates/vfs/src/defs.rs`) and the file system of
`crates/vfs/src/ramfs.rs`. Nodes are numbers, as the source refers to them by `Arc`.
-/

namespace Vahi.Vfs

open Vahi.Syscalls Vahi.Task

structure NodeStat extends Stat where
  size : BitVec 64
  deriving DecidableEq

/-- The methods of `VfsNode`, with `none` for `Err(())`. A failed write may have changed
the state. -/
structure FileSystem (σ : Type) where
  isDir : σ → ℕ → Bool
  stat : σ → ℕ → Option NodeStat
  read : σ → ℕ → BitVec 64 → Option (List (BitVec 8))
  write : σ → ℕ → List (BitVec 8) → Bool × σ
  findChild : σ → ℕ → Path → Option ℕ
  readlink : σ → ℕ → Option Path
  create : σ → ℕ → Path → Option ℕ × σ
  chmod : σ → ℕ → BitVec 32 → σ
  chown : σ → ℕ → BitVec 32 → BitVec 32 → σ

def S_IFDIR : BitVec 32 := 0o040000

def S_IFREG : BitVec 32 := 0o100000

def S_IFLNK : BitVec 32 := 0o120000

/-! ## Path resolution -/

structure MountPoint where
  path : Path
  root : Option ℕ
  deriving DecidableEq

/-- A leading slash is added, a trailing one removed. -/
def normalizePath (path : Path) : Path :=
  let path := if path.head? = some slash then path else slash :: path
  if 1 < path.length ∧ path.getLast? = some slash then path.dropLast else path

def MountPoint.covers (m : MountPoint) (path : Path) : Bool :=
  m.path = [slash] || path = m.path ||
    (m.path.isPrefixOf path && path.getD m.path.length 0 = slash)

def dotDot : Path := [0x2E, 0x2E]

def dot : Path := [0x2E]

def pathComponents (path : Path) : List Path :=
  (path.splitOn slash).filter (· ≠ [])

/-- `..` takes the last name away, `.` nothing. -/
def normalizeDots (components : List Path) : List Path :=
  components.foldl (fun names comp =>
    if comp = dotDot then names.dropLast else if comp = dot then names else names ++ [comp]) []

/-- The path to go on with behind a symbolic link: an absolute target as it is, a
relative one behind the names walked so far. -/
def linkPath (mount : Path) (walked : List Path) (target : Path) (rest : List Path) : Path :=
  let base :=
    if target.head? = some slash then target
    else (if mount = [slash] then [slash] else mount ++ [slash]) ++
      walked.flatMap (· ++ [slash]) ++ target
  base ++ rest.flatMap (slash :: ·)

inductive Walk where
  | found (node : ℕ)
  | missing
  | link (path : Path)
  deriving DecidableEq

section Resolve

variable {σ : Type} (F : FileSystem σ) (fs : σ)

/-- The target, for a node whose mode has a bit of `S_IFLNK` and which is a link. -/
def linkTarget (node : ℕ) : Option Path :=
  match F.stat fs node with
  | some st => if st.mode &&& S_IFLNK ≠ 0 then F.readlink fs node else none
  | none => none

/-- The walk from a node along names. The names before the current one are taken from
`components`, as the source does, which still has the `.` and `..` of the path. -/
def walk (mount : Path) (components : List Path) : List Path → ℕ → Walk
  | [], current => .found current
  | comp :: rest, current =>
    if !F.isDir fs current then .missing
    else
      match F.findChild fs current comp with
      | none => .missing
      | some next =>
        match linkTarget F fs next with
        | some target =>
          .link (linkPath mount (components.take (components.length - rest.length - 1)) target rest)
        | none => walk mount components rest next

/-- A link starts the resolution again, with one less to follow. -/
def resolveWithin (mounts : List MountPoint) : ℕ → Path → Option ℕ
  | 0, _ => none
  | fuel + 1, path =>
    let path := normalizePath path
    match mounts.find? (·.covers path) with
    | none => none
    | some mount =>
      match mount.root with
      | none => none
      | some root =>
        let relPath := if mount.path = [slash] then path.drop 1 else path.drop mount.path.length
        let components := pathComponents relPath
        match walk F fs mount.path components (normalizeDots components) root with
        | .found node => some node
        | .missing => none
        | .link path => resolveWithin mounts fuel path

def MAX_SYMLINK_DEPTH : ℕ := 40

def resolvePath (mounts : List MountPoint) (path : Path) : Option ℕ :=
  resolveWithin F fs mounts (MAX_SYMLINK_DEPTH + 1) path

end Resolve

/-! ## The in-memory file system -/

structure TmpNode where
  name : Path
  isDir : Bool
  isSymlink : Bool
  linkTarget : Option Path
  content : List (BitVec 8)
  children : List ℕ
  mode : BitVec 32
  uid : BitVec 32
  gid : BitVec 32
  deriving DecidableEq

namespace TmpNode

def stat (node : TmpNode) : NodeStat where
  mode := (if node.isSymlink then S_IFLNK else if node.isDir then S_IFDIR else S_IFREG) ||| node.mode
  uid := node.uid
  gid := node.gid
  size :=
    if node.isSymlink then BitVec.ofNat 64 ((node.linkTarget.map List.length).getD 0)
    else if node.isDir then 4096
    else BitVec.ofNat 64 node.content.length

/-- The length asked for is ignored: the whole file is returned. -/
def read (node : TmpNode) : Option (List (BitVec 8)) :=
  if node.isSymlink then node.linkTarget else if node.isDir then none else some node.content

def file (name : Path) : TmpNode where
  name := name
  isDir := false
  isSymlink := false
  linkTarget := none
  content := []
  children := []
  mode := 0o644
  uid := 0
  gid := 0

end TmpNode

def TmpNode.findChild (nodes : List TmpNode) (node : TmpNode) (name : Path) : Option ℕ :=
  if node.isDir then node.children.find? fun c => nodes[c]?.any (·.name = name) else none

def TmpNode.create (nodes : List TmpNode) (dir : ℕ) (name : Path) : Option ℕ × List TmpNode :=
  match nodes[dir]? with
  | none => (none, nodes)
  | some node =>
    if !node.isDir ∨ name = dot ∨ name = [slash] ∨ name = [] then (none, nodes)
    else if (node.findChild nodes name).isSome then (none, nodes)
    else
      (some nodes.length,
        nodes.modify dir (fun d => { d with children := d.children ++ [nodes.length] }) ++
          [TmpNode.file name])

def TmpNode.write (nodes : List TmpNode) (i : ℕ) (data : List (BitVec 8)) : Bool × List TmpNode :=
  match nodes[i]? with
  | none => (false, nodes)
  | some node =>
    if node.isDir then (false, nodes)
    else (true, nodes.modify i fun node => { node with content := node.content ++ data })

def ramfs : FileSystem (List TmpNode) where
  isDir nodes i := nodes[i]?.any fun node => node.isDir && !node.isSymlink
  stat nodes i := nodes[i]?.map TmpNode.stat
  read nodes i _ := nodes[i]?.bind TmpNode.read
  write nodes i data := TmpNode.write nodes i data
  findChild nodes i name := nodes[i]?.bind fun node => node.findChild nodes name
  readlink nodes i := nodes[i]?.bind fun node => if node.isSymlink then node.linkTarget else none
  create nodes i name := TmpNode.create nodes i name
  chmod nodes i mode := nodes.modify i fun node => { node with mode := mode &&& 0o7777 }
  chown nodes i uid gid := nodes.modify i fun node => { node with uid := uid, gid := gid }

end Vahi.Vfs
