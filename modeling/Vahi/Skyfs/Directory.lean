import Mathlib.Data.List.GetD
import Vahi.Skyfs.BTree
import Vahi.Skyfs.Inode

/-!
# Directory data

The data of a directory is the concatenation of its entries, of `recLen` bytes each, in which
`parse_entries` finds those whose names are text.
-/

namespace Vahi.Skyfs

open Vahi.Lib List

def bytesOf (v n : ℕ) : List (BitVec 8) := (List.range n).map (byteOf v)

@[simp]
theorem length_bytesOf (v n : ℕ) : (bytesOf v n).length = n := by simp [bytesOf]

theorem getD_bytesOf {v n i : ℕ} (h : i < n) : (bytesOf v n).getD i 0 = byteOf v i := by
  simp [bytesOf, getD_eq_getElem?_getD, h]

structure DirEntry where
  inode : ℕ
  recLen : ℕ
  nameLen : ℕ
  fileType : ℕ
  deriving DecidableEq

namespace DirEntry

def sizeOf : ℕ := 12

def bytes (e : DirEntry) : List (BitVec 8) :=
  bytesOf e.inode 8 ++ bytesOf e.recLen 2 ++ bytesOf e.nameLen 1 ++ bytesOf e.fileType 1

def ofRaw (raw : List (BitVec 8)) : DirEntry where
  inode := ofBytes (fun i => raw.getD i 0) 8
  recLen := ofBytes (fun i => raw.getD (8 + i) 0) 2
  nameLen := ofBytes (fun i => raw.getD (10 + i) 0) 1
  fileType := ofBytes (fun i => raw.getD (11 + i) 0) 1

end DirEntry

/-- `parse_entries` of the data from an offset on, over at most as many entries as the bound says. -/
def parseEntries (env : Env) : ℕ → List (BitVec 8) → List (DirEntry × List (BitVec 8))
  | 0, _ => []
  | fuel + 1, raw =>
    if raw.length < DirEntry.sizeOf then []
    else
      let e := DirEntry.ofRaw raw
      if e.inode = 0 ∨ e.nameLen = 0 ∨ e.recLen = 0 then []
      else if raw.length < DirEntry.sizeOf + e.nameLen then []
      else
        let name := (raw.drop DirEntry.sizeOf).take e.nameLen
        let rest := parseEntries env fuel (raw.drop e.recLen)
        if env.utf8 name then (e, name) :: rest else rest

def padded (len : ℕ) : ℕ := (len + 3) / 4 * 4

/-- The entry, its name and zeros up to a multiple of eight. -/
def writeDirentAppend (buf : List (BitVec 8)) (e : DirEntry) (name : List (BitVec 8)) :
    List (BitVec 8) :=
  let entered := buf ++ e.bytes ++ name
  entered ++ List.replicate (padded entered.length - entered.length) 0

def newEntry (name : List (BitVec 8)) (ino : ℕ) : DirEntry where
  inode := ino
  recLen := padded (DirEntry.sizeOf + name.length) % 2 ^ 16
  nameLen := name.length % 2 ^ 8
  fileType := 0

open DirEntry

abbrev NamedEntry := DirEntry × List (BitVec 8)

structure EntryOk (p : NamedEntry) : Prop where
  inode_pos : 0 < p.1.inode
  inode_lt : p.1.inode < 256 ^ 8
  nameLen : p.1.nameLen = p.2.length
  nameLen_pos : 0 < p.2.length
  nameLen_lt : p.2.length < 256
  recLen : p.1.recLen = padded (sizeOf + p.2.length)
  fileType : p.1.fileType < 256

theorem entryOk_newEntry {name : List (BitVec 8)} {ino : ℕ} (hpos : 0 < ino) (hino : ino < 2 ^ 64)
    (hname : 0 < name.length) (hlen : name.length < 256) : EntryOk (newEntry name ino, name) := by
  refine ⟨hpos, hino, Nat.mod_eq_of_lt hlen, hname, hlen, Nat.mod_eq_of_lt ?_, Nat.zero_lt_succ _⟩
  rw [padded, DirEntry.sizeOf]
  omega

def entryBytes (p : NamedEntry) : List (BitVec 8) :=
  p.1.bytes ++ p.2 ++ List.replicate
    (padded (sizeOf + p.2.length) - (sizeOf + p.2.length)) 0

def dirBytes (es : List NamedEntry) : List (BitVec 8) := es.flatMap entryBytes

theorem le_padded (len : ℕ) : len ≤ padded len := by
  rw [padded]
  omega

theorem padded_add {len : ℕ} (h : len % 4 = 0) (n : ℕ) : padded (len + n) = len + padded n := by
  rw [padded, padded]
  omega

theorem length_bytes (e : DirEntry) : e.bytes.length = DirEntry.sizeOf := by
  simp [DirEntry.bytes, DirEntry.sizeOf]

theorem length_entryBytes (p : NamedEntry) :
    (entryBytes p).length = padded (sizeOf + p.2.length) := by
  have := le_padded (sizeOf + p.2.length)
  rw [entryBytes, length_append, length_append, length_bytes, length_replicate]
  omega

variable {p : NamedEntry} (es : List NamedEntry) (env : Env)

theorem length_dirBytes_mod : (dirBytes es).length % 4 = 0 := by
  induction es with
  | nil => rfl
  | cons p es ih =>
    rw [dirBytes, flatMap_cons, ← dirBytes, length_append, length_entryBytes, padded]
    omega

theorem length_le_length_dirBytes : es.length ≤ (dirBytes es).length := by
  induction es with
  | nil => exact Nat.zero_le _
  | cons p es ih =>
    have := le_padded (sizeOf + p.2.length)
    rw [DirEntry.sizeOf] at this
    rw [dirBytes, flatMap_cons, ← dirBytes, length_append, length_entryBytes,
      length_cons, DirEntry.sizeOf]
    omega

/-! ### Writing -/

theorem writeDirentAppend_dirBytes (p : NamedEntry) :
    writeDirentAppend (dirBytes es) p.1 p.2 = dirBytes (es ++ [p]) := by
  have hlen : (dirBytes es ++ p.1.bytes ++ p.2).length =
      (dirBytes es).length + (sizeOf + p.2.length) := by
    rw [length_append, length_append, length_bytes, Nat.add_assoc]
  have hpad : padded (dirBytes es ++ p.1.bytes ++ p.2).length - (dirBytes es ++ p.1.bytes ++ p.2).length
      = padded (sizeOf + p.2.length) - (sizeOf + p.2.length) := by
    rw [hlen, padded_add (length_dirBytes_mod es)]
    omega
  rw [writeDirentAppend, hpad, dirBytes, dirBytes, flatMap_append, flatMap_singleton,
    entryBytes, append_assoc, append_assoc, append_assoc]

theorem foldl_writeDirentAppend (es' : List NamedEntry) :
    es'.foldl (fun buf p => writeDirentAppend buf p.1 p.2) (dirBytes es) = dirBytes (es ++ es') := by
  induction es' generalizing es with
  | nil => rw [foldl_nil, append_nil]
  | cons p es' ih =>
    rw [foldl_cons, writeDirentAppend_dirBytes, ih, append_assoc, singleton_append]

/-! ### Parsing -/

/-- A field behind the bytes before it. -/
theorem ofBytes_bytesOf (pre rest : List (BitVec 8)) (off size : ℕ) {v : ℕ}
    (hoff : pre.length = off) (hv : v < 256 ^ size) :
    ofBytes (fun i => (pre ++ (bytesOf v size ++ rest)).getD (off + i) 0) size = v := by
  have hbyte : ∀ i < size, (pre ++ (bytesOf v size ++ rest)).getD (off + i) 0 = byteOf v i := by
    intro i hi
    rw [getD_append_right _ _ _ _ (by omega), hoff, Nat.add_sub_cancel_left,
      getD_append _ _ _ _ (by rwa [length_bytesOf]), getD_bytesOf hi]
  rw [ofBytes_congr hbyte, ofBytes_byteOf, Nat.mod_eq_of_lt hv]

/-- The fields of the entry at the start of the data. -/
theorem ofRaw_bytes (h : EntryOk p) (rest : List (BitVec 8)) :
    ofRaw (p.1.bytes ++ rest) = p.1 := by
  obtain ⟨⟨inode, recLen, nameLen, fileType⟩, name⟩ := p
  have hlt : name.length < 256 := h.nameLen_lt
  have hname : nameLen < 256 ^ 1 := by
    rw [show nameLen = name.length from h.nameLen]
    omega
  have hrec : recLen < 256 ^ 2 := by
    rw [show recLen = padded (DirEntry.sizeOf + name.length) from h.recLen, padded, DirEntry.sizeOf]
    omega
  have hinode := ofBytes_bytesOf [] (bytesOf recLen 2 ++ (bytesOf nameLen 1 ++
    (bytesOf fileType 1 ++ rest))) 0 8 rfl h.inode_lt
  have hrecLen := ofBytes_bytesOf (bytesOf inode 8) (bytesOf nameLen 1 ++
    (bytesOf fileType 1 ++ rest)) 8 2 (length_bytesOf _ _) hrec
  have hnameLen := ofBytes_bytesOf (bytesOf inode 8 ++ bytesOf recLen 2)
    (bytesOf fileType 1 ++ rest) 10 1 (by simp) hname
  have hfileType := ofBytes_bytesOf (bytesOf inode 8 ++ bytesOf recLen 2 ++ bytesOf nameLen 1)
    rest 11 1 (by simp) h.fileType
  simp only [append_assoc, nil_append, Nat.zero_add] at hinode hrecLen hnameLen hfileType
  rw [ofRaw, bytes]
  simp only [append_assoc]
  rw [hinode, hrecLen, hnameLen, hfileType]

/-- The entry at the start is found, and then those behind it. -/
theorem parseEntries_entryBytes (fuel : ℕ) (h : EntryOk p)
    (rest : List (BitVec 8)) : parseEntries env (fuel + 1) (entryBytes p ++ rest) =
      if env.utf8 p.2 then p :: parseEntries env fuel rest else parseEntries env fuel rest := by
  have hraw : ofRaw (entryBytes p ++ rest) = p.1 := by
    exact ofRaw_bytes h _
  have hlen : (entryBytes p ++ rest).length =
      padded (sizeOf + p.2.length) + rest.length := by
    rw [length_append, length_entryBytes]
  have hpad := le_padded (sizeOf + p.2.length)
  have hpos := h.nameLen_pos
  have hinode := h.inode_pos
  have hname : ((entryBytes p ++ rest).drop sizeOf).take p.1.nameLen = p.2 := by
    rw [entryBytes, append_assoc, append_assoc, drop_left' (length_bytes _), h.nameLen,
      take_left' rfl]
  have hdrop : (entryBytes p ++ rest).drop p.1.recLen = rest :=
    drop_left' (by rw [length_entryBytes, h.recLen])
  rw [parseEntries, if_neg (by omega), hraw, if_neg, if_neg]
  · rw [hname, hdrop]
  · rw [h.nameLen]
    omega
  · rw [h.nameLen, h.recLen]
    omega

/-- What is written is read back, except names that are no text. -/
theorem parseEntries_dirBytes {fuel : ℕ} {es : List NamedEntry}
    (h : ∀ p ∈ es, EntryOk p) (hfuel : es.length ≤ fuel) :
    parseEntries env fuel (dirBytes es) = es.filter (env.utf8 ·.2) := by
  induction es generalizing fuel with
  | nil =>
    cases fuel with
    | zero => rfl
    | succ fuel => rfl
  | cons p es ih =>
    rw [length_cons] at hfuel
    obtain ⟨fuel, rfl⟩ : ∃ k, fuel = k + 1 := ⟨fuel - 1, by omega⟩
    rw [dirBytes, flatMap_cons, ← dirBytes, parseEntries_entryBytes env fuel (h p mem_cons_self),
      ih (fun q hq => h q (mem_cons_of_mem p hq)) (by omega), filter_cons]

/-! ### Reads -/

/-- The bytes `off .. off + len`, which have to be there. -/
def slice (data : List (BitVec 8)) (off len : ℕ) : Option (List (BitVec 8)) :=
  if off + len ≤ data.length then some ((data.drop off).take len) else none

/-- `parse_entries` from an offset on, with what it reads of the data. It has no result where a read
is not inside the data, or after the given number of rounds. -/
def parseEntriesAt (data : List (BitVec 8)) : ℕ → ℕ → Option (List NamedEntry)
  | 0, _ => none
  | rounds + 1, off =>
    if data.length < off + sizeOf then some []
    else do
      let e := ofRaw (← slice data off sizeOf)
      if e.inode = 0 ∨ e.nameLen = 0 ∨ e.recLen = 0 then some []
      else if data.length < off + sizeOf + e.nameLen then some []
      else do
        let name ← slice data (off + sizeOf) e.nameLen
        let rest ← parseEntriesAt data rounds (off + e.recLen)
        return if env.utf8 name then (e, name) :: rest else rest

theorem ofRaw_take (raw : List (BitVec 8)) : ofRaw (raw.take sizeOf) = ofRaw raw := by
  have hfield : ∀ off size, off + size ≤ sizeOf →
      ofBytes (fun i => (raw.take sizeOf).getD (off + i) 0) size =
        ofBytes (fun i => raw.getD (off + i) 0) size := by
    refine fun off size hle => ofBytes_congr fun i hi => ?_
    rw [getD_eq_getElem?_getD, getElem?_take, if_pos (by omega), getD_eq_getElem?_getD]
  have hinode := hfield 0 8 (by decide)
  simp only [Nat.zero_add] at hinode
  rw [ofRaw, hinode, hfield 8 2 (by decide), hfield 10 1 (by decide), hfield 11 1 (by decide), ofRaw]

/-- Every round goes on by a byte at least. -/
theorem parseEntriesAt_eq {data : List (BitVec 8)} {rounds off : ℕ}
    (h : data.length ≤ off + rounds) : parseEntriesAt env data (rounds + 1) off =
      some (parseEntries env (rounds + 1) (data.drop off)) := by
  have hsize : DirEntry.sizeOf = 12 := rfl
  induction rounds generalizing off with
  | zero =>
    rw [parseEntriesAt, parseEntries, length_drop, if_pos (by omega), if_pos (by omega)]
  | succ rounds ih =>
    rw [parseEntriesAt, parseEntries, length_drop]
    by_cases hend : data.length < off + DirEntry.sizeOf
    · rw [if_pos hend, if_pos (by omega)]
    rw [if_neg hend, if_neg (by omega), slice, if_pos (by omega), Option.bind_eq_bind,
      Option.bind_some, ofRaw_take]
    dsimp only
    split
    · rfl
    next he =>
    by_cases hname : data.length < off + DirEntry.sizeOf + (ofRaw (data.drop off)).nameLen
    · rw [if_pos hname, if_pos (by omega)]
    rw [if_neg hname, if_neg (by omega), slice, if_pos (by omega), ih (by omega), drop_drop, drop_drop]
    rfl

/-- Entries that are appended one after the other to an empty buffer are parsed in order, and the
parser returns on all data without a read outside. -/
theorem parseEntriesAt_roundTrip :
    (∀ es : List (ℕ × List (BitVec 8)),
      (∀ p ∈ es, (0 < p.1 ∧ p.1 < 2 ^ 64) ∧ 0 < p.2.length ∧ p.2.length ≤ 255 ∧ env.utf8 p.2) →
      let data := es.foldl (fun buf p => writeDirentAppend buf (newEntry p.2 p.1) p.2) []
      parseEntriesAt env data (data.length + 1) 0 =
        some (es.map fun p => (newEntry p.2 p.1, p.2))) ∧
    ∀ data, ∃ es, parseEntriesAt env data (data.length + 1) 0 = some es := by
  refine ⟨fun es hes => ?_, fun data => ⟨_, parseEntriesAt_eq env (by omega)⟩⟩
  have hdata := foldl_writeDirentAppend [] (es.map fun p => (newEntry p.2 p.1, p.2))
  rw [foldl_map, dirBytes, flatMap_nil, nil_append] at hdata
  have hok : ∀ q ∈ es.map fun p => (newEntry p.2 p.1, p.2), EntryOk q := by
    refine forall_mem_map.mpr fun p hp => ?_
    obtain ⟨⟨hpos, hlt⟩, hname, hlen, -⟩ := hes p hp
    exact entryOk_newEntry hpos hlt hname (by omega)
  dsimp only
  rw [parseEntriesAt_eq env (by omega), hdata, drop_zero,
    parseEntries_dirBytes env hok (Nat.le_succ_of_le (length_le_length_dirBytes _))]
  exact congrArg some (filter_eq_self.mpr (forall_mem_map.mpr fun p hp => (hes p hp).2.2.2))

end Vahi.Skyfs
