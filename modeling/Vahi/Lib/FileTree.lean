import Mathlib.Data.Int.Notation
import Mathlib.Data.List.Nodup

/-!
# File trees

The tree of files that a POSIX file system shows. An inode keeps its number as long as anything
refers to it, so that a file can have several names.
-/

namespace Vahi.Lib.FileTree

open List

theorem eraseP_congr {α : Type*} {p q : α → Bool} {l : List α} (h : ∀ a ∈ l, p a = q a) :
    l.eraseP p = l.eraseP q := by
  induction l with
  | nil => rfl
  | cons a l ih =>
    rw [eraseP_cons, eraseP_cons, h a mem_cons_self, ih fun b hb => h b (mem_cons_of_mem a hb)]

/-- The entries of a directory; no two have the same name. -/
structure Directory (ν : Type*) where
  entries : List (ν × ℕ)
  nodup : (entries.map Prod.fst).Nodup

namespace Directory

variable {ν : Type*}

def empty : Directory ν := ⟨[], nodup_nil⟩

def names (d : Directory ν) : List ν := d.entries.map Prod.fst

def insert (d : Directory ν) (name : ν) (i : ℕ) (h : name ∉ d.names) : Directory ν where
  entries := d.entries ++ [(name, i)]
  nodup := by
    rw [map_append, map_singleton, ← concat_eq_append]
    exact d.nodup.concat h

variable [DecidableEq ν]

def find (d : Directory ν) (name : ν) : Option ℕ :=
  (d.entries.find? (·.1 = name)).map Prod.snd

def erase (d : Directory ν) (name : ν) : Directory ν where
  entries := d.entries.eraseP (·.1 = name)
  nodup := d.nodup.sublist (d.entries.eraseP_sublist.map Prod.fst)

theorem find_isSome_iff {d : Directory ν} {name : ν} : (d.find name).isSome ↔ name ∈ d.names := by
  rw [find, Option.isSome_map, find?_isSome, names, mem_map]
  constructor
  · rintro ⟨e, he, hname⟩
    exact ⟨e, he, of_decide_eq_true hname⟩
  · rintro ⟨e, he, hname⟩
    exact ⟨e, he, decide_eq_true hname⟩

theorem not_mem_erase (d : Directory ν) (name : ν) : name ∉ (d.erase name).names := by
  obtain ⟨entries, hnodup⟩ := d
  change name ∉ (entries.eraseP (·.1 = name)).map Prod.fst
  induction entries with
  | nil => exact not_mem_nil
  | cons e entries ih =>
    rw [map_cons, nodup_cons] at hnodup
    rw [eraseP_cons]
    by_cases he : e.1 = name
    · rw [he] at hnodup
      simpa only [he, decide_true, cond_true] using hnodup.1
    · simp only [he, decide_false, cond_false, map_cons, mem_cons, not_or]
      exact ⟨Ne.symm he, ih hnodup.2⟩

end Directory

inductive Inode (ν β : Type*) where
  | file (content : List β)
  | dir (d : Directory ν)
  | symlink (target : List β)

/-- A directory with an entry for the inode of this number. -/
def Inode.names {ν β : Type*} (i : ℕ) : Inode ν β → Bool
  | .dir d => d.entries.any (·.2 = i)
  | _ => false

/-- The inodes by number; the root is number 0. -/
abbrev Tree (ν β : Type*) := List (Inode ν β)

inductive Op (ν β : Type*) where
  | create (dir : ℕ) (name : ν)
  | mkdir (dir : ℕ) (name : ν)
  | symlink (dir : ℕ) (name : ν) (target : List β)
  | link (dir existing : ℕ) (name : ν)
  | write (i : ℕ) (data : List β)
  | truncate (i : ℕ) (len : ℤ)
  | rename (dir : ℕ) (oldName newName : ν)
  | unlink (dir : ℕ) (name : ν)
  deriving DecidableEq

namespace Tree

variable {ν β : Type*} [DecidableEq ν]

def empty : Tree ν β := [.dir .empty]

def addEntry (t : Tree ν β) (dir : ℕ) (name : ν) (i : ℕ) : Option (Tree ν β) :=
  match t[dir]? with
  | some (.dir d) => if h : name ∈ d.names then none else some (t.set dir (.dir (d.insert name i h)))
  | _ => none

theorem addEntry_append (t s : Tree ν β) {dir : ℕ} (hdir : dir < t.length) (name : ν) (i : ℕ) :
    addEntry (t ++ s) dir name i = (t.addEntry dir name i).map (· ++ s) := by
  rw [addEntry, addEntry, getElem?_append_left hdir]
  cases t[dir]? with
  | none => rfl
  | some inode =>
    cases inode with
    | file content => rfl
    | symlink target => rfl
    | dir d =>
      dsimp only
      split
      · rfl
      · rw [set_append_left _ _ hdir]
        rfl

def addInode (t : Tree ν β) (dir : ℕ) (name : ν) (inode : Inode ν β) : Option (Tree ν β) :=
  (t.addEntry dir name t.length).map (· ++ [inode])

/-- The inode has a name, or is the root. -/
def linked (t : Tree ν β) (i : ℕ) : Bool := i = 0 || t.any (·.names i)

/-- The inode is a directory with entries. -/
def occupied (t : Tree ν β) (i : ℕ) : Bool :=
  match t[i]? with
  | some (.dir d) => !d.entries.isEmpty
  | _ => false

/-- A renaming replaces a directory, without entries, by a directory, and anything else by
what is no directory. -/
def replaces (t : Tree ν β) (i j : ℕ) : Bool :=
  match t[i]?, t[j]? with
  | some (.dir _), some (.dir d) => d.entries.isEmpty
  | some (.dir _), _ | _, some (.dir _) => false
  | _, _ => true

/-- What an operation does; none for one that is not possible. A new name is one that `ok` allows,
in a directory that has not been removed. A write adds to the end of a file, and what a symbolic
link shows is its target, which neither a write nor a truncation changes. Names that are replaced
by a renaming lose their inode. -/
def apply [Zero β] (ok : ν → Bool) (t : Tree ν β) : Op ν β → Option (Tree ν β)
  | .create dir name =>
    if ok name ∧ t.linked dir then t.addInode dir name (.file []) else none
  | .mkdir dir name =>
    if ok name ∧ t.linked dir then t.addInode dir name (.dir .empty) else none
  | .symlink dir name target =>
    if ok name ∧ t.linked dir then t.addInode dir name (.symlink target) else none
  | .link dir existing name =>
    match t[existing]? with
    | none | some (.dir _) => none
    | some _ =>
      if (ok name ∧ t.linked dir) ∧ t.linked existing then t.addEntry dir name existing else none
  | .write i data =>
    match t[i]? with
    | some (.file content) => some (t.set i (.file (content ++ data)))
    | some (.symlink _) => some t
    | _ => none
  | .truncate i len =>
    if len < 0 then none
    else
      match t[i]? with
      | some (.file content) =>
        some (t.set i (.file (content.take len.toNat ++
          List.replicate (len.toNat - content.length) 0)))
      | some (.symlink _) => some t
      | _ => none
  | .rename dir oldName newName =>
    match t[dir]? with
    | some (.dir d) =>
      match d.find oldName with
      | none => none
      | some i =>
        let replaced := d.find newName
        -- two names of one inode stay as they are
        if replaced = some i then some t
        else if ok newName ∧ replaced.all (t.replaces i) then
          some (t.set dir (.dir (((d.erase oldName).erase newName).insert newName i
            (Directory.not_mem_erase _ _))))
        else none
    | _ => none
  | .unlink dir name =>
    match t[dir]? with
    | some (.dir d) =>
      match d.find name with
      | none => none
      | some i => if t.occupied i then none else some (t.set dir (.dir (d.erase name)))
    | _ => none

end Tree

/-! ### What is observed -/

/-- What a file system shows of an inode: the bytes and the size of a file, the names in
a directory, the target of a symbolic link and its length. -/
inductive View (ν β : Type*) where
  | file (content : List β) (size : BitVec 64)
  | dir (names : List ν)
  | symlink (target : List β) (size : BitVec 64)
  deriving DecidableEq

def Inode.view {ν β : Type*} : Inode ν β → View ν β
  | .file content => .file content (BitVec.ofNat 64 content.length)
  | .dir d => .dir d.names
  | .symlink target => .symlink target (BitVec.ofNat 64 target.length)

/-- The way along names, given what a node has under a name. -/
def follow {ν : Type*} (child : ℕ → ν → Option ℕ) : List ν → ℕ → Option ℕ
  | [], i => some i
  | name :: path, i => (child i name).bind (follow child path)

namespace Tree

variable {ν β : Type*} [DecidableEq ν]

def child (t : Tree ν β) (i : ℕ) (name : ν) : Option ℕ :=
  match t[i]? with
  | some (.dir d) => d.find name
  | _ => none

def observe (t : Tree ν β) (path : List ν) : Option (View ν β) :=
  ((follow t.child path 0).bind (t[·]?)).map Inode.view

end Tree

end Vahi.Lib.FileTree
