import Mathlib.Data.BitVec
import Mathlib.Data.List.Find
import Vahi.Lib.FileTree
import Vahi.Lib.Run
import Vahi.Vfs.Node

/-!
# The in-memory file system and the file tree

`TmpNode` (`crates/vfs/src/ramfs.rs`) against `Lib.FileTree`. A renaming puts an empty directory in
the place of what it renames, a link adds a file under the name it has, and a truncation to a larger
size does nothing; `unlink` removes directories that are not empty, and few names are refused.
-/

namespace Vahi.Vfs

open Vahi.Lib Vahi.Lib.FileTree Vahi.Syscalls List

/-! ### Operations -/

def S_IFMT : BitVec 32 := 0o170000

def Tmpfs.new : List TmpNode :=
  [{ TmpNode.file [slash] with isDir := true, mode := 0o755 }]

namespace TmpNode

variable (nodes : List TmpNode) (dir : ℕ)

def hasName (name : Path) (c : ℕ) : Bool := nodes[c]?.any (·.name = name)

/-- A directory takes a new node, unless it has a child of that name. -/
def addNode (new : TmpNode) : Option (List TmpNode) :=
  match nodes[dir]? with
  | none => none
  | some node =>
    if !node.isDir then none
    else if node.children.any (hasName nodes new.name) then none
    else
      some (nodes.modify dir (fun d => { d with children := d.children ++ [nodes.length] }) ++ [new])

def mkdir (name : Path) : Option (List TmpNode) :=
  if name = dot ∨ name = [slash] ∨ name = [] then none
  else addNode nodes dir { file name with isDir := true, mode := 0o755 }

/-- Names are not checked. -/
def symlink (name target : Path) : Option (List TmpNode) :=
  addNode nodes dir
    { file name with isSymlink := true, linkTarget := some target, mode := 0o777 }

/-- The node is added to the children as it is: it keeps its own name. -/
def link (existing : ℕ) (name : Path) : Option (List TmpNode) :=
  match nodes[dir]?, nodes[existing]? with
  | some node, some old =>
    if !node.isDir then none
    else if node.children.any (hasName nodes name) then none
    else if old.stat.mode &&& S_IFDIR ≠ 0 then none
    else some (nodes.modify dir fun d => { d with children := d.children ++ [existing] })
  | _, _ => none

/-- A length behind the end changes nothing. -/
def truncate (i : ℕ) (len : ℤ) : Option (List TmpNode) :=
  match nodes[i]? with
  | none => none
  | some node =>
    if node.isDir then none
    else if len < 0 then none
    else some (nodes.modify i fun node => { node with content := node.content.take len.toNat })

/-- The child is removed, and a new directory with the new name put in. -/
def rename (oldName newName : Path) : Option (List TmpNode) :=
  match nodes[dir]? with
  | none => none
  | some node =>
    if !node.isDir then none
    else
      match node.children.findIdx? (hasName nodes oldName) with
      | none => none
      | some pos =>
        if node.children.any (hasName nodes newName) then none
        else
          some (nodes.modify dir (fun d =>
            { d with children := d.children.eraseIdx pos ++ [nodes.length] }) ++
            [{ file newName with isDir := node.isDir }])

def unlink (name : Path) : Option (List TmpNode) :=
  match nodes[dir]? with
  | none => none
  | some node =>
    if !node.isDir then none
    else
      match node.children.findIdx? (hasName nodes name) with
      | none => none
      | some pos =>
        some (nodes.modify dir fun d => { d with children := d.children.eraseIdx pos })

def exec : Op Path (BitVec 8) → Option (List TmpNode)
  | .create dir name =>
    match create nodes dir name with
    | (some _, nodes) => some nodes
    | (none, _) => none
  | .mkdir dir name => mkdir nodes dir name
  | .symlink dir name target => symlink nodes dir name target
  | .link dir existing name => link nodes dir existing name
  | .write i data =>
    match write nodes i data with
    | (true, nodes) => some nodes
    | (false, _) => none
  | .truncate i len => truncate nodes i len
  | .rename dir oldName newName => rename nodes dir oldName newName
  | .unlink dir name => unlink nodes dir name

/-- `children` gives the nodes; what is seen of them here is their names. -/
def view (node : TmpNode) : Option (View Path (BitVec 8)) :=
  let kind := node.stat.mode &&& S_IFMT
  if kind = S_IFLNK then
    (if node.isSymlink then node.linkTarget else none).map (.symlink · node.stat.size)
  else if kind = S_IFDIR then
    if node.isDir then some (.dir (node.children.filterMap fun c => nodes[c]?.map name)) else none
  else node.read.map (.file · node.stat.size)

end TmpNode

open TmpNode

variable (nodes : List TmpNode)

def observeTmp (path : List Path) : Option (View Path (BitVec 8)) :=
  ((follow (ramfs.findChild nodes) path 0).bind (nodes[·]?)).bind (view nodes)

def SameTree (t : Tree Path (BitVec 8)) : Prop :=
  ∀ path, observeTmp nodes path = t.observe path

/-! ### The nodes as inodes -/

def IsInode (node : TmpNode) : Inode Path (BitVec 8) → Prop
  | .file content => node.isDir = false ∧ node.isSymlink = false ∧ node.content = content
  | .symlink target => node.isDir = false ∧ node.isSymlink = true ∧ node.linkTarget = some target
  | .dir d => node.isDir = true ∧ node.isSymlink = false ∧
      d.entries.map Prod.snd = node.children ∧
      ∀ e ∈ d.entries, nodes[e.2]?.map name = some e.1

structure Represents (nodes : List TmpNode) (t : Tree Path (BitVec 8)) : Prop where
  length : nodes.length = t.length
  inode : ∀ (i : ℕ) node inode, nodes[i]? = some node → t[i]? = some inode →
    IsInode nodes node inode
  mode : ∀ node ∈ nodes, node.mode &&& S_IFMT = 0

theorem represents_new : Represents Tmpfs.new .empty where
  length := rfl
  inode
    | 0, _, _, rfl, rfl => ⟨rfl, rfl, rfl, nofun⟩
  mode node hnode := by
    obtain rfl := mem_singleton.mp hnode
    decide

section Directory

variable {nodes : List TmpNode} {node : TmpNode} {d : Directory Path}

section

variable (h : IsInode nodes node (.dir d))

include h

theorem hasName_entry {e : Path × ℕ} (he : e ∈ d.entries)
    (name : Path) : hasName nodes name e.2 = decide (e.1 = name) := by
  obtain ⟨child, hchild, hname⟩ := Option.map_eq_some_iff.mp (h.2.2.2 e he)
  rw [hasName, hchild, ← hname]
  rfl

theorem findChild_eq (name : Path) : node.findChild nodes name = d.find name := by
  rw [findChild, if_pos h.1, ← h.2.2.1, find?_map, Directory.find]
  refine congrArg _ (find?_congr fun e he => ?_)
  exact hasName_entry h he name

theorem any_hasName (name : Path) :
    node.children.any (hasName nodes name) = decide (name ∈ d.names) := by
  have hfind := findChild_eq h name
  rw [findChild, if_pos h.1] at hfind
  have hiff : node.children.any (hasName nodes name) = true ↔ name ∈ d.names := by
    rw [← Directory.find_isSome_iff, ← hfind, find?_isSome, any_eq_true]
    rfl
  exact Bool.eq_iff_iff.mpr (hiff.trans decide_eq_true_iff.symm)

/-- The child that is removed is the entry of that name. -/
theorem eraseIdx_children {name : Path} {pos : ℕ}
    (hpos : node.children.findIdx? (hasName nodes name) = some pos) :
    name ∈ d.names ∧ (d.erase name).entries.map Prod.snd = node.children.eraseIdx pos := by
  constructor
  · have hany := any_hasName h name
    rw [← findIdx?_isSome, hpos] at hany
    exact of_decide_eq_true hany.symm
  · have herase : node.children.eraseP (hasName nodes name) =
        node.children.eraseIdx pos := by
      rw [eraseP_eq_eraseIdx, hpos]
    rw [← herase, ← h.2.2.1, eraseP_map, Directory.erase]
    refine congrArg _ (eraseP_congr fun e he => ?_)
    exact (hasName_entry h he name).symm

end

end Directory

/-! ### Changes to the nodes -/

/-- The names that nodes have are kept. -/
def KeepsNames (nodes' : List TmpNode) : Prop :=
  ∀ (c : ℕ) name, nodes[c]?.map TmpNode.name = some name → nodes'[c]?.map TmpNode.name = some name

variable {node : TmpNode} {i : ℕ}

theorem IsInode.mono {nodes nodes' : List TmpNode} (hkeeps : KeepsNames nodes nodes') {inode : Inode Path (BitVec 8)} (h : IsInode nodes node inode) :
    IsInode nodes' node inode := by
  cases inode with
  | file content => exact h
  | symlink target => exact h
  | dir d => exact ⟨h.1, h.2.1, h.2.2.1, fun e he => hkeeps e.2 e.1 (h.2.2.2 e he)⟩

theorem keepsNames_append (nodes new : List TmpNode) : KeepsNames nodes (nodes ++ new) := by
  intro c name hname
  obtain ⟨child, hchild, hname⟩ := Option.map_eq_some_iff.mp hname
  obtain ⟨hc, -⟩ := List.getElem?_eq_some_iff.mp hchild
  rw [getElem?_append_left hc, hchild, Option.map_some, hname]

theorem keepsNames_set {nodes : List TmpNode} (node' : TmpNode)
    (hnode : nodes[i]? = some node) (hname : node'.name = node.name) :
    KeepsNames nodes (nodes.set i node') := by
  intro c name hc
  by_cases hic : i = c
  · subst hic
    obtain ⟨hlt, -⟩ := List.getElem?_eq_some_iff.mp hnode
    rw [hnode, Option.map_some, ← hname] at hc
    rw [getElem?_set_self hlt, Option.map_some, hc]
  · rwa [getElem?_set_ne hic]

theorem modify_eq_set {nodes : List TmpNode} (hnode : nodes[i]? = some node)
    (f : TmpNode → TmpNode) : nodes.modify i f = nodes.set i (f node) := by
  refine ext_getElem? fun j => ?_
  rw [getElem?_modify, getElem?_set]
  by_cases hij : i = j
  · subst hij
    obtain ⟨hlt, -⟩ := List.getElem?_eq_some_iff.mp hnode
    rw [if_pos rfl, if_pos hlt, hnode]
    exact congrArg some (if_pos rfl)
  · simp [hij]

theorem exists_of_dir {nodes nodes' : List TmpNode} {f : TmpNode → Option (List TmpNode)}
    (h : (match nodes[i]? with
      | none => none
      | some node => if !node.isDir then none else f node) = some nodes') :
    ∃ node, nodes[i]? = some node ∧ node.isDir = true ∧ f node = some nodes' := by
  split at h
  · cases h
  · rename_i node hnode
    rw [Option.ite_none_left_eq_some] at h
    exact ⟨node, hnode, by simpa using h.1, h.2⟩

namespace Represents

variable {nodes : List TmpNode} {t : Tree Path (BitVec 8)}

variable {i dir : ℕ} {node' new : TmpNode} {inode : Inode Path (BitVec 8)}

section

variable (h : Represents nodes t)

include h

variable {node : TmpNode}

section

variable (hnode : nodes[i]? = some node)

include hnode

theorem exists_inode :
    ∃ inode, t[i]? = some inode ∧ IsInode nodes node inode := by
  obtain ⟨hlt, -⟩ := List.getElem?_eq_some_iff.mp hnode
  have hinode := getElem?_eq_getElem (h.length ▸ hlt)
  exact ⟨_, hinode, h.inode i node _ hnode hinode⟩

omit hnode in
theorem no_inode (hnode : nodes[i]? = none) : t[i]? = none := by
  rw [getElem?_eq_none_iff] at hnode ⊢
  exact h.length ▸ hnode

/-- A directory is represented by one. -/
theorem exists_dir
    (hdir : node.isDir = true) : ∃ d, t[i]? = some (.dir d) ∧ IsInode nodes node (.dir d) := by
  obtain ⟨inode, hi, hinode⟩ := h.exists_inode hnode
  cases inode with
  | dir d => exact ⟨d, hi, hinode⟩
  | file | symlink =>
    rw [hinode.1] at hdir
    cases hdir

theorem set (hname : node'.name = node.name) (hmode : node'.mode = node.mode)
    (hinode : IsInode (nodes.set i node') node' inode) :
    Represents (nodes.set i node') (t.set i inode) where
  length := by rw [length_set, length_set, h.length]
  inode j n ino hn hino := by
    by_cases hij : i = j
    · subst hij
      obtain ⟨hlt, -⟩ := List.getElem?_eq_some_iff.mp hnode
      rw [getElem?_set_self hlt] at hn
      rw [getElem?_set_self (h.length ▸ hlt)] at hino
      cases hn
      cases hino
      exact hinode
    · rw [getElem?_set_ne hij] at hn hino
      exact (h.inode j n ino hn hino).mono (keepsNames_set _ hnode hname)
  mode n hn := by
    rcases mem_or_eq_of_mem_set hn with hn | rfl
    · exact h.mode n hn
    · rw [hmode]
      exact h.mode node (mem_of_getElem? hnode)

/-- A change to a node that the inode does not show. -/
theorem hide (hi : t[i]? = some inode) (hname : node'.name = node.name)
    (hmode : node'.mode = node.mode) (hinode : IsInode nodes node' inode) :
    Represents (nodes.set i node') t := by
  have hrep := h.set hnode hname hmode (hinode.mono (keepsNames_set _ hnode hname))
  have hsame : t.set i inode = t := by
    obtain ⟨hlt, rfl⟩ := List.getElem?_eq_some_iff.mp hi
    exact set_getElem_self hlt
  rwa [hsame] at hrep

end

theorem append (hmode : new.mode &&& S_IFMT = 0) (hinode : IsInode (nodes ++ [new]) new inode) :
    Represents (nodes ++ [new]) (t ++ [inode]) where
  length := by rw [length_append, length_append, h.length]; rfl
  inode j n ino hn hino := by
    by_cases hj : j < nodes.length
    · rw [getElem?_append_left hj] at hn
      rw [getElem?_append_left (h.length ▸ hj)] at hino
      exact (h.inode j n ino hn hino).mono (keepsNames_append nodes [new])
    rw [getElem?_append_right (by omega), getElem?_singleton] at hn
    rw [getElem?_append_right (by rw [← h.length]; omega), getElem?_singleton] at hino
    simp only [Option.ite_none_right_eq_some] at hn hino
    obtain ⟨-, ⟨⟩⟩ := hn
    obtain ⟨-, ⟨⟩⟩ := hino
    exact hinode
  mode n hn := by
    rcases mem_append.mp hn with hn | hn
    · exact h.mode n hn
    · obtain rfl := mem_singleton.mp hn
      exact hmode

/-- A new name in a directory for a node that has this name. -/
theorem addEntry {child : TmpNode}
    (hnode : nodes[dir]? = some node) (hdir : node.isDir = true) (hchild : nodes[i]? = some child)
    (hnew : node.children.any (hasName nodes child.name) = false) :
    ∃ t', t.addEntry dir child.name i = some t' ∧
      Represents (nodes.modify dir fun d => { d with children := d.children ++ [i] }) t' := by
  obtain ⟨d, hd, hinode⟩ := h.exists_dir hnode hdir
  rw [any_hasName hinode] at hnew
  have hnot : child.name ∉ d.names := of_decide_eq_false hnew
  refine ⟨_, by rw [Tree.addEntry, hd]; exact dif_neg hnot, ?_⟩
  rw [modify_eq_set hnode]
  refine h.set hnode rfl rfl ⟨hdir, hinode.2.1, ?_, fun e he => ?_⟩
  · rw [Directory.insert, map_append, hinode.2.2.1]
    rfl
  · refine keepsNames_set { node with children := node.children ++ [i] } hnode rfl _ _ ?_
    rcases mem_append.mp he with he | he
    · exact hinode.2.2.2 e he
    · obtain rfl := mem_singleton.mp he
      rw [hchild]
      rfl

/-- A new node in a directory. -/
theorem addNode {nodes' : List TmpNode}
    (hadd : addNode nodes dir new = some nodes') (hmode : new.mode &&& S_IFMT = 0)
    (hinode : IsInode (nodes ++ [new]) new inode) :
    ∃ t', t.addInode dir new.name inode = some t' ∧ Represents nodes' t' := by
  rw [TmpNode.addNode] at hadd
  obtain ⟨node, hnode, hdir, hadd⟩ := exists_of_dir hadd
  simp only [Option.ite_none_left_eq_some, Bool.not_eq_true] at hadd
  obtain ⟨hnew, ⟨⟩⟩ := hadd
  obtain ⟨hlt, -⟩ := List.getElem?_eq_some_iff.mp hnode
  obtain ⟨d, -, hd⟩ := h.exists_dir hnode hdir
  have hnode' : (nodes ++ [new])[dir]? = some node := by
    rw [getElem?_append_left hlt, hnode]
  have hnew' : node.children.any (hasName (nodes ++ [new]) new.name) = false := by
    rw [any_hasName (hd.mono (keepsNames_append nodes [new])), ← any_hasName hd, hnew]
  obtain ⟨t', ht', hrep⟩ := (h.append hmode hinode).addEntry hnode' hdir
    getElem?_concat_length hnew'
  refine ⟨t', ?_, ?_⟩
  · rw [Tree.addInode, ← Tree.addEntry_append _ _ (h.length ▸ hlt), ← h.length]
    exact ht'
  · rw [modify_eq_set hnode', set_append_left _ _ hlt] at hrep
    rw [modify_eq_set hnode]
    exact hrep

end

end Represents

theorem or_and_self (a m : BitVec 32) : (a ||| m) &&& a = a := by
  ext i hi
  rw [BitVec.getElem_and, BitVec.getElem_or]
  cases a[i] with
  | false => exact Bool.and_false _
  | true => rfl

/-! ### Operations on a tree -/

/-- A name that a directory of a POSIX file system can have. -/
def properName (name : Path) : Bool :=
  name ≠ [] ∧ name ≠ dot ∧ name ≠ dotDot ∧ slash ∉ name

/-- The node is the root or in a directory. -/
def linked (i : ℕ) : Bool := i = 0 || nodes.any fun node => node.isDir && node.children.any (· = i)

/-- The node is a directory without a child of this name. -/
def lacks (dir : ℕ) (name : Path) : Bool :=
  nodes[dir]?.any fun node => node.isDir && !node.children.any (hasName nodes name)

/-- The name is proper, and the directory has not been removed. -/
def Proper (dir : ℕ) (name : Path) : Prop := properName name ∧ linked nodes dir

/-- The operation fails, or its difference from the tree does not show. -/
def Faithful : Op Path (BitVec 8) → Prop
  | .create dir name | .mkdir dir name =>
    lacks nodes dir name → (name = dot ∨ name = [slash] ∨ name = []) ∨ Proper nodes dir name
  | .symlink dir name _ => lacks nodes dir name → Proper nodes dir name
  | .link dir existing name => lacks nodes dir name → ∀ old ∈ nodes[existing]?,
      old.isDir = false → old.name = name ∧ Proper nodes dir name ∧ linked nodes existing
  | .write _ _ => True
  | .truncate i len => 0 ≤ len → ∀ node ∈ nodes[i]?, node.isDir = false →
      node.isSymlink = false → len.toNat ≤ node.content.length
  | .rename dir oldName newName => ∀ node ∈ nodes[dir]?, node.isDir →
      node.children.any (hasName nodes oldName) → node.children.any (hasName nodes newName)
  | .unlink dir name => ∀ c ∈ ramfs.findChild nodes dir name, ∀ child ∈ nodes[c]?,
      child.isDir → child.children = []

instance (dir : ℕ) (name : Path) : Decidable (Proper nodes dir name) :=
  inferInstanceAs (Decidable (_ ∧ _))

instance (nodes : List TmpNode) : (op : Op Path (BitVec 8)) → Decidable (Faithful nodes op)
  | .create dir name | .mkdir dir name =>
    inferInstanceAs (Decidable (lacks nodes dir name → _ ∨ Proper nodes dir name))
  | .symlink dir name _ => inferInstanceAs (Decidable (lacks nodes dir name → Proper nodes dir name))
  | .link dir existing name => inferInstanceAs (Decidable (lacks nodes dir name →
      ∀ old ∈ nodes[existing]?, _ → _ ∧ Proper nodes dir name ∧ linked nodes existing))
  | .write _ _ => inferInstanceAs (Decidable True)
  | .truncate _ len => inferInstanceAs (Decidable (0 ≤ len → ∀ _ ∈ _, _))
  | .rename _ _ _ => inferInstanceAs (Decidable (∀ _ ∈ _, _))
  | .unlink _ _ => inferInstanceAs (Decidable (∀ _ ∈ _, ∀ _ ∈ _, _))

section Step

variable {nodes nodes' : List TmpNode} {t : Tree Path (BitVec 8)}

theorem lacks_of_addNode {dir : ℕ} {new : TmpNode} (h : addNode nodes dir new = some nodes') :
    lacks nodes dir new.name := by
  rw [addNode] at h
  obtain ⟨node, hnode, hdir, hadd⟩ := exists_of_dir h
  rw [Option.ite_none_left_eq_some] at hadd
  rw [lacks, hnode]
  simpa [hdir] using hadd.1

theorem linked_eq (h : Represents nodes t) (i : ℕ) : t.linked i = linked nodes i := by
  have hone (j : ℕ) {node : TmpNode} {inode : Inode Path (BitVec 8)} (hn : nodes[j]? = some node)
      (hi : t[j]? = some inode) :
      inode.names i = (node.isDir && node.children.any (· = i)) := by
    have hinode := h.inode j node inode hn hi
    cases inode with
    | file | symlink => rw [hinode.1]; rfl
    | dir d => rw [hinode.1, ← hinode.2.2.1, any_map, Inode.names]; rfl
  rw [Tree.linked, linked]
  congr 1
  rw [Bool.eq_iff_iff, any_eq_true, any_eq_true]
  constructor
  · rintro ⟨inode, hmem, hrefers⟩
    obtain ⟨j, hj⟩ := mem_iff_getElem?.mp hmem
    obtain ⟨hlt, -⟩ := List.getElem?_eq_some_iff.mp hj
    have hn := getElem?_eq_getElem (h.length ▸ hlt : j < nodes.length)
    exact ⟨_, mem_of_getElem? hn, (hone j hn hj).symm.trans hrefers⟩
  · rintro ⟨node, hmem, hrefers⟩
    obtain ⟨j, hj⟩ := mem_iff_getElem?.mp hmem
    obtain ⟨inode, hi, -⟩ := h.exists_inode hj
    exact ⟨inode, mem_of_getElem? hi, (hone j hj hi).trans hrefers⟩

theorem create_eq (nodes : List TmpNode) (dir : ℕ) (name : Path) :
    exec nodes (.create dir name) =
      if name = dot ∨ name = [slash] ∨ name = [] then none
      else addNode nodes dir (file name) := by
  rw [exec, create, addNode]
  cases hnode : nodes[dir]? with
  | none => exact (ite_self none).symm
  | some node =>
    dsimp only
    by_cases hname : name = dot ∨ name = [slash] ∨ name = []
    · rw [if_pos (.inr hname), if_pos hname]
    rw [if_neg hname]
    cases hdir : node.isDir with
    | false => rfl
    | true =>
      have hany : (node.findChild nodes name).isSome =
          node.children.any (hasName nodes (file name).name) := by
        rw [findChild, if_pos hdir, Bool.eq_iff_iff, find?_isSome, any_eq_true]
        rfl
      have hno : ¬ ((!true) = true ∨ name = dot ∨ name = [slash] ∨ name = []) := by
        rintro (h | h)
        · cases h
        · exact hname h
      rw [if_neg hno, hany]
      cases node.children.any (hasName nodes (file name).name) <;> rfl

section

variable (h : Represents nodes t)

include h

variable {dir i : ℕ} {name : Path}

theorem link_represents {existing : ℕ} (hexec : link nodes dir existing name = some nodes')
    (hfaithful : Faithful nodes (.link dir existing name)) :
    ∃ t', t.apply properName (.link dir existing name) = some t' ∧ Represents nodes' t' := by
  rw [link] at hexec
  split at hexec
  · rename_i node old hnode hold
    simp only [Option.ite_none_left_eq_some, Bool.not_eq_true, Bool.not_eq_false'] at hexec
    obtain ⟨hdir, hnew, hmode, ⟨⟩⟩ := hexec
    obtain ⟨inode, hinode, hold'⟩ := h.exists_inode hold
    have hlacks : lacks nodes dir name := by simp [lacks, hnode, hdir, hnew]
    have hfile (hfile : old.isDir = false) : ∃ t', (if (properName name ∧ t.linked dir) ∧
        t.linked existing then t.addEntry dir name existing else none) = some t' ∧
        Represents (nodes.modify dir fun d => { d with children := d.children ++ [existing] }) t' := by
      obtain ⟨rfl, hproper, hlinked⟩ := hfaithful hlacks old hold hfile
      rw [if_pos ⟨⟨hproper.1, (linked_eq h dir).trans hproper.2⟩,
        (linked_eq h existing).trans hlinked⟩]
      exact h.addEntry hnode hdir hold hnew
    rw [Tree.apply, hinode]
    cases inode with
    | file content => exact hfile hold'.1
    | symlink target => exact hfile hold'.1
    | dir d =>
      have hstat : old.stat.mode = S_IFDIR ||| old.mode := by
        rw [stat, hold'.1, hold'.2.1]
        rfl
      rw [hstat, or_and_self] at hmode
      exact absurd (by decide) hmode
  · cases hexec

theorem write_represents {data : List (BitVec 8)}
    (hexec : write nodes i data = (true, nodes')) :
    ∃ t', t.apply properName (.write i data) = some t' ∧ Represents nodes' t' := by
  rw [write] at hexec
  split at hexec
  · cases hexec
  rename_i node hnode
  split at hexec
  · cases hexec
  rename_i hdir
  cases hexec
  obtain ⟨inode, hi, hinode⟩ := h.exists_inode hnode
  rw [Tree.apply, hi, modify_eq_set hnode]
  cases inode with
  | dir d => exact absurd hinode.1 hdir
  | file content =>
    refine ⟨_, rfl, h.set hnode rfl rfl ⟨hinode.1, hinode.2.1, ?_⟩⟩
    exact congrArg (· ++ data) hinode.2.2
  | symlink target =>
    exact ⟨t, rfl, h.hide hnode hi rfl rfl hinode⟩

theorem truncate_represents {len : ℤ} (hexec : truncate nodes i len = some nodes')
    (hfaithful : Faithful nodes (.truncate i len)) :
    ∃ t', t.apply properName (.truncate i len) = some t' ∧ Represents nodes' t' := by
  rw [truncate] at hexec
  split at hexec
  · cases hexec
  rename_i node hnode
  simp only [Option.ite_none_left_eq_some] at hexec
  obtain ⟨hdir, hneg, ⟨⟩⟩ := hexec
  obtain ⟨inode, hi, hinode⟩ := h.exists_inode hnode
  rw [Tree.apply, if_neg hneg, hi, modify_eq_set hnode]
  cases inode with
  | dir d => exact absurd hinode.1 hdir
  | file content =>
    obtain ⟨hfile, hlink, rfl⟩ := hinode
    refine ⟨_, rfl, h.set hnode rfl rfl ⟨hfile, hlink, ?_⟩⟩
    have hlen := hfaithful (not_lt.mp hneg) node hnode hfile hlink
    rw [Nat.sub_eq_zero_of_le hlen, replicate_zero, append_nil]
  | symlink target =>
    exact ⟨t, rfl, h.hide hnode hi rfl rfl hinode⟩

omit h in
theorem rename_eq_none {oldName newName : Path}
    (hfaithful : Faithful nodes (.rename dir oldName newName)) :
    rename nodes dir oldName newName = none := by
  rw [rename]
  cases hnode : nodes[dir]? with
  | none => rfl
  | some node =>
    dsimp only
    split
    · rfl
    next hdir =>
    split
    · rfl
    next pos hpos =>
    have hold : node.children.any (hasName nodes oldName) = true := by
      rw [← findIdx?_isSome, hpos]
      rfl
    exact if_pos (hfaithful node hnode (by simpa using hdir) hold)

theorem unlink_represents (hexec : unlink nodes dir name = some nodes')
    (hfaithful : Faithful nodes (.unlink dir name)) :
    ∃ t', t.apply properName (.unlink dir name) = some t' ∧ Represents nodes' t' := by
  rw [unlink] at hexec
  obtain ⟨node, hnode, hdir, hexec⟩ := exists_of_dir hexec
  split at hexec
  · cases hexec
  rename_i pos hpos
  cases hexec
  obtain ⟨d, hd, hinode⟩ := h.exists_dir hnode hdir
  obtain ⟨hmem, hchildren⟩ := eraseIdx_children hinode hpos
  obtain ⟨c, hc⟩ := Option.isSome_iff_exists.mp (Directory.find_isSome_iff.mpr hmem)
  have hchild : ramfs.findChild nodes dir name = some c := by
    change (nodes[dir]?.bind fun node => node.findChild nodes name) = some c
    rw [hnode, Option.bind_some, findChild_eq hinode, hc]
  have hempty : t.occupied c = false := by
    rw [Tree.occupied]
    split
    · next e he =>
      obtain ⟨hlt, -⟩ := List.getElem?_eq_some_iff.mp he
      have hn := getElem?_eq_getElem (h.length ▸ hlt : c < nodes.length)
      obtain ⟨hisDir, -, hentries, -⟩ := h.inode c _ _ hn he
      rw [hfaithful c hchild _ hn hisDir, map_eq_nil_iff] at hentries
      rw [hentries]
      rfl
    · rfl
  refine ⟨t.set dir (.dir (d.erase name)), by simp [Tree.apply, hd, hc, hempty], ?_⟩
  rw [modify_eq_set hnode]
  refine h.set hnode rfl rfl ⟨hinode.1, hinode.2.1, hchildren, fun e he => ?_⟩
  refine keepsNames_set { node with children := node.children.eraseIdx pos } hnode rfl _ _ ?_
  exact hinode.2.2.2 e (mem_of_mem_eraseP he)

/-- A faithful operation that succeeds does to the nodes what it does to the tree. -/
theorem exec_represents {op : Op Path (BitVec 8)}
    (hfaithful : Faithful nodes op) (hexec : TmpNode.exec nodes op = some nodes') :
    ∃ t', t.apply properName op = some t' ∧ Represents nodes' t' := by
  have hadd {dir : ℕ} {name : Path} (hproper : Proper nodes dir name) :
      properName name ∧ t.linked dir := ⟨hproper.1, (linked_eq h dir).trans hproper.2⟩
  cases op with
  | create dir name =>
    rw [create_eq] at hexec
    split at hexec
    · cases hexec
    next hname =>
    rw [Tree.apply, if_pos (hadd ((hfaithful (lacks_of_addNode hexec)).resolve_left hname))]
    exact h.addNode hexec (by decide : (0o644 : BitVec 32) &&& S_IFMT = 0) ⟨rfl, rfl, rfl⟩
  | mkdir dir name =>
    rw [exec, mkdir] at hexec
    split at hexec
    · cases hexec
    next hname =>
    rw [Tree.apply, if_pos (hadd ((hfaithful (lacks_of_addNode hexec)).resolve_left hname))]
    exact h.addNode hexec (by decide : (0o755 : BitVec 32) &&& S_IFMT = 0) ⟨rfl, rfl, rfl, nofun⟩
  | symlink dir name target =>
    rw [exec, TmpNode.symlink] at hexec
    rw [Tree.apply, if_pos (hadd (hfaithful (lacks_of_addNode hexec)))]
    exact h.addNode hexec (by decide : (0o777 : BitVec 32) &&& S_IFMT = 0) ⟨rfl, rfl, rfl⟩
  | link dir existing name => exact link_represents h hexec hfaithful
  | write i data =>
    rw [exec] at hexec
    split at hexec
    · next hwrite =>
      cases hexec
      exact write_represents h hwrite
    · cases hexec
  | truncate i len => exact truncate_represents h hexec hfaithful
  | rename dir oldName newName => cases (rename_eq_none hfaithful).symm.trans hexec
  | unlink dir name => exact unlink_represents h hexec hfaithful

end

end Step

/-! ### What is observed -/

section Observe

variable {nodes : List TmpNode} {t : Tree Path (BitVec 8)}

theorem findChild_eq_child (h : Represents nodes t) (i : ℕ) (name : Path) :
    ramfs.findChild nodes i name = t.child i name := by
  change (nodes[i]?.bind fun node => node.findChild nodes name) = t.child i name
  cases hnode : nodes[i]? with
  | none =>
    rw [Tree.child, h.no_inode hnode]
    rfl
  | some node =>
    obtain ⟨inode, hi, hinode⟩ := h.exists_inode hnode
    rw [Tree.child, hi, Option.bind_some]
    cases inode with
    | file | symlink => rw [findChild, hinode.1]; rfl
    | dir d => exact findChild_eq hinode name

theorem view_eq {inode : Inode Path (BitVec 8)} (hinode : IsInode nodes node inode)
    (hmode : node.mode &&& S_IFMT = 0) : node.view nodes = some inode.view := by
  have hkind : ∀ kind : BitVec 32, (kind ||| node.mode) &&& S_IFMT = kind &&& S_IFMT := by
    intro kind
    rw [BitVec.and_or_distrib_right, hmode]
    exact BitVec.or_zero
  cases inode with
  | file content =>
    obtain ⟨hdir, hlink, rfl⟩ := hinode
    simp only [TmpNode.view, TmpNode.stat, TmpNode.read, hdir, hlink, hkind]
    rfl
  | symlink target =>
    obtain ⟨hdir, hlink, htarget⟩ := hinode
    simp only [TmpNode.view, stat, hlink, hkind, htarget, if_true]
    rfl
  | dir d =>
    obtain ⟨hdir, hlink, hchildren, hnames⟩ := hinode
    have hlisting : (node.children.filterMap fun c => nodes[c]?.map name) = d.names := by
      rw [← hchildren, filterMap_map, Directory.names, ← filterMap_eq_map]
      exact filterMap_congr hnames
    simp only [TmpNode.view, stat, hdir, hlink, hkind, hlisting]
    rfl

theorem sameTree_of_represents (h : Represents nodes t) : SameTree nodes t := by
  intro path
  have hchild : ramfs.findChild nodes = t.child := by
    funext i name
    exact findChild_eq_child h i name
  rw [observeTmp, Tree.observe, hchild]
  cases follow t.child path 0 with
  | none => rfl
  | some i =>
    change nodes[i]?.bind (view nodes) = t[i]?.map Inode.view
    cases hnode : nodes[i]? with
    | none =>
      rw [h.no_inode hnode]
      rfl
    | some node =>
      obtain ⟨inode, hi, hinode⟩ := h.exists_inode hnode
      rw [hi, Option.bind_some, view_eq hinode (h.mode node (mem_of_getElem? hnode))]
      rfl

end Observe

abbrev WithTree := List TmpNode × Tree Path (BitVec 8)

def WithTree.step (s : WithTree) (op : Op Path (BitVec 8)) : WithTree :=
  match exec s.1 op with
  | none => s
  | some nodes => (nodes, (s.2.apply properName op).getD s.2)

/-- An operation that succeeds is possible on the tree, and the same is observed after it. -/
def Refines (s : WithTree) (op : Op Path (BitVec 8)) : Prop :=
  ∀ nodes, exec s.1 op = some nodes → ∃ t, s.2.apply properName op = some t ∧ SameTree nodes t

/-- For every sequence of faithful operations on a new file system, the tree is the one of the
successful operations, after each of them. -/
theorem refines_of_faithful (ops : List (Op Path (BitVec 8)))
    (hfaithful : Along WithTree.step (fun s op => Faithful s.1 op) (Tmpfs.new, .empty) ops) :
    Along WithTree.step Refines (Tmpfs.new, .empty) ops := by
  refine along_of_inv (I := fun s : WithTree => Represents s.1 s.2) ?_ represents_new hfaithful
  intro s op hrep hop
  rw [WithTree.step]
  cases hexec : exec s.1 op with
  | none =>
    refine ⟨fun nodes h => ?_, hrep⟩
    cases hexec.symm.trans h
  | some nodes =>
    obtain ⟨t, ht, hrep'⟩ := exec_represents hrep hop hexec
    refine ⟨fun nodes' h => ?_, ?_⟩
    · cases hexec.symm.trans h
      exact ⟨t, ht, sameTree_of_represents hrep'⟩
    · rw [ht]
      exact hrep'

/-- The file `a` is written and cut off, gets a second name in the directory `d` and a symbolic
link, and loses its first name. -/
theorem refines_secondName :
    Along WithTree.step Refines (Tmpfs.new, .empty)
      [.create 0 [0x61], .write 1 [1, 2, 3], .truncate 1 2, .mkdir 0 [0x64], .link 2 1 [0x61],
        .symlink 0 [0x6C] [0x61], .unlink 0 [0x61]] :=
  refines_of_faithful _ (by decide +kernel)

theorem Refines.observe_eq {s : WithTree} {op : Op Path (BitVec 8)} (h : Refines s op)
    (path : List Path) (hexec : (exec s.1 op).isSome) :
    (exec s.1 op).map (observeTmp · path) =
      (s.2.apply properName op).map (Tree.observe · path) := by
  obtain ⟨nodes, hnodes⟩ := Option.isSome_iff_exists.mp hexec
  obtain ⟨t, ht, hsame⟩ := h nodes hnodes
  rw [hnodes, ht, Option.map_some, Option.map_some, hsame path]

/-- Renamed from `a` to `b` a file is an empty directory, linked as `b` it has no such name, and
truncated to a larger size it is as before. A directory is removed with the file in it, and a
symbolic link gets the name `..`. -/
theorem file_lost :
    ¬ Along WithTree.step Refines (Tmpfs.new, .empty)
        [.create 0 [0x61], .write 1 [7], .rename 0 [0x61] [0x62]] ∧
      ¬ Along WithTree.step Refines (Tmpfs.new, .empty) [.create 0 [0x61], .link 0 1 [0x62]] ∧
      ¬ Along WithTree.step Refines (Tmpfs.new, .empty)
        [.create 0 [0x61], .write 1 [7], .truncate 1 2] ∧
      ¬ Along WithTree.step Refines (Tmpfs.new, .empty)
        [.mkdir 0 [0x64], .create 1 [0x61], .unlink 0 [0x64]] ∧
      ¬ Along WithTree.step Refines (Tmpfs.new, .empty) [.symlink 0 dotDot [0x61]] := by
  refine ⟨fun h => ?_, fun h => ?_, fun h => ?_, fun h => ?_, fun h => ?_⟩
  · exact absurd (h.2.2.1.observe_eq [[0x62]] (by decide +kernel)) (by decide +kernel)
  · exact absurd (h.2.1.observe_eq [[0x62]] (by decide +kernel)) (by decide +kernel)
  · exact absurd (h.2.2.1.observe_eq [[0x61]] (by decide +kernel)) (by decide +kernel)
  · exact absurd (h.2.2.1.observe_eq [] (by decide +kernel)) (by decide +kernel)
  · exact absurd (h.1.observe_eq [] (by decide +kernel)) (by decide +kernel)

end Vahi.Vfs
