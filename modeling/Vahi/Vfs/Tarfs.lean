import Mathlib.Tactic.Ring
import Vahi.Lib.Outcome

/-!
# Tar archives

`parse_tar` and `add_to_tree` (`crates/vfs/src/tarfs.rs`). Slices out of range and sums that leave
`usize` panic; the number of entries is a `u32` that wraps. Texts are decoded characters.
-/

namespace Vahi.Vfs

open Vahi.Lib List
open Outcome (ok_bind)

/-- At most `isize::MAX` bytes. -/
abbrev TarInput := { data : List (BitVec 8) // data.length < 2 ^ 63 }

structure TarNode where
  name : List Char
  isDir : Bool
  isSymlink : Bool
  linkTarget : Option (List Char)
  data : Option (List (BitVec 8))
  children : List TarNode

structure TarEntry where
  path : List Char
  isDir : Bool
  isSymlink : Bool
  linkTarget : Option (List Char)
  data : List (BitVec 8)

def TarEntry.node (e : TarEntry) (name : List Char) (isLast : Bool) : TarNode where
  name := name
  isDir := if isLast then e.isDir else true
  isSymlink := isLast && e.isSymlink
  linkTarget := if isLast && e.isSymlink then e.linkTarget else none
  data := if isLast && !e.isDir && !e.isSymlink then some e.data else none
  children := []

/-- The loop of `add_to_tree`: the first child of a name is followed, or a new one is made. -/
def TarEntry.addNames (e : TarEntry) : List (List Char) → TarNode → TarNode
  | [], current => current
  | comp :: rest, current =>
    match current.children.findIdx? (·.name = comp) with
    | some i => { current with children := current.children.modify i (e.addNames rest) }
    | none =>
      { current with
        children := current.children ++ [e.addNames rest (e.node comp rest.isEmpty)] }

/-- Empty names and `.` are left out. -/
def addToTree (root : TarNode) (e : TarEntry) : TarNode :=
  e.addNames ((e.path.splitOn '/').filter fun s => s ≠ [] ∧ s ≠ ['.']) root

/-! ### Headers -/

def slice (data : List α) (start stop : ℕ) : Outcome (List α) :=
  if start ≤ stop ∧ stop ≤ data.length then .ok ((data.take stop).drop start) else .panic

def index (data : List α) (i : ℕ) : Outcome α := data[i]?.elim .panic .ok

def plus (a b : ℕ) : Outcome ℕ := if a + b < 2 ^ 64 then .ok (a + b) else .panic

/-- `from_utf8(..).unwrap_or("")`. -/
def decode (bytes : List (BitVec 8)) : List Char :=
  ((bytes.map UInt8.ofBitVec).toByteArray.utf8Decode?.map Array.toList).getD []

def trimMatches (p : Char → Bool) (s : List Char) : List Char :=
  ((s.dropWhile p).reverse.dropWhile p).reverse

def trimZeros : List Char → List Char := trimMatches (· = '\x00')

/-- `char::is_whitespace`. -/
def isWhitespace (c : Char) : Bool :=
  (9 ≤ c.toNat && c.toNat ≤ 13) || (0x2000 ≤ c.toNat && c.toNat ≤ 0x200A) ||
    c.toNat ∈ [0x20, 0x85, 0xA0, 0x1680, 0x2028, 0x2029, 0x202F, 0x205F, 0x3000]

/-- `usize::from_str_radix(s, 8).unwrap_or(0)`. -/
def parseOctal (s : List Char) : ℕ :=
  let digits := if s.head? = some '+' then s.tail else s
  if digits.all fun c => '0' ≤ c ∧ c ≤ '7' then
    let n := digits.foldl (fun n c => n * 8 + (c.toNat - 48)) 0
    if n < 2 ^ 64 then n else 0
  else 0

def fieldText (header : List (BitVec 8)) (start len : ℕ) : Outcome (List Char) := do
  let field ← slice header start (start + len)
  let bytes ← slice header start (start + field.findIdx (· = 0))
  return decode bytes

def readLink (header : List (BitVec 8)) : Bool → Outcome (Option (List Char))
  | true => do return some (trimZeros (← fieldText header 157 160))
  | false => return none

/-- `offset + 512 + ((size + 511) & !511)`. -/
def nextHeader (offset size : ℕ) : Outcome ℕ := do
  let padded ← plus size 511
  plus offset (← plus 512 (padded / 512 * 512))

/-- The body of the loop: the entry and the offset of the next header, or nothing at the end. -/
def readEntry (data : List (BitVec 8)) (offset : ℕ) : Outcome (Option (TarEntry × ℕ)) := do
  let start ← plus offset 512
  let header ← slice data offset start
  if (← index header 0) = 0 then return none
  let name := trimZeros (← fieldText header 0 100)
  let size := parseOctal (trimZeros (trimMatches isWhitespace (← fieldText header 124 12)))
  let typeFlag ← index header 156
  let isDir : Bool := typeFlag = 53 ∨ name.getLast? = some '/'
  let linkTarget ← readLink header (typeFlag = 50)
  let stop ← plus start size
  let fileData ←
    if isDir = false ∧ 0 < size then slice data start (min stop data.length) else pure []
  let next ← nextHeader offset size
  return some (⟨name, isDir, typeFlag = 50, linkTarget, fileData⟩, next)

/-! ### The loop -/

structure Parsed where
  root : TarNode
  count : BitVec 32
  offsets : List ℕ

def parseFrom (data : List (BitVec 8)) : ℕ → ℕ → TarNode → BitVec 32 → Outcome Parsed
  | 0, _, _, _ => .hang
  | fuel + 1, offset, root, count => do
    if (← plus offset 512) ≤ data.length then
      match ← readEntry data offset with
      | none => return ⟨root, count, [offset]⟩
      | some (entry, next) =>
        let parsed ← parseFrom data fuel next (addToTree root entry) (count + 1)
        return { parsed with offsets := offset :: parsed.offsets }
    else return ⟨root, count, []⟩

/-- The loop that fills the buffer from its end. -/
def countDigits : ℕ → ℕ → List (BitVec 8) → Outcome (List (BitVec 8))
  | 0, _, _ => .panic
  | i + 1, n, text =>
    let text := BitVec.ofNat 8 (48 + n % 10) :: text
    if n / 10 = 0 then .ok text else countDigits i (n / 10) text

/-- With the number that is printed. -/
def parseTar (data : TarInput) : Outcome (Parsed × List (BitVec 8)) := do
  let root : TarNode := ⟨['/'], true, false, none, none, []⟩
  let parsed ← parseFrom data.1 (data.1.length / 512 + 1) 0 root 0
  return (parsed, ← countDigits 12 parsed.count.toNat [])

variable {α : Type} {data header : List (BitVec 8)} {offset size fuel : ℕ}

theorem exists_slice_eq (data : List α) {start stop : ℕ} (hle : start ≤ stop)
    (hstop : stop ≤ data.length) :
    ∃ s, slice data start stop = .ok s ∧ s.length = stop - start := by
  refine ⟨_, if_pos ⟨hle, hstop⟩, ?_⟩
  rw [length_drop, length_take, Nat.min_eq_left hstop]

theorem exists_index_eq {data : List α} {i : ℕ} (h : i < data.length) :
    ∃ a, index data i = .ok a := by
  rw [index, getElem?_eq_getElem h]
  exact ⟨_, rfl⟩

theorem plus_eq_ok {a b : ℕ} (h : a + b < 2 ^ 64) : plus a b = .ok (a + b) := if_pos h

theorem length_le_size_utf8Encode (cs : List Char) : cs.length ≤ cs.utf8Encode.size := by
  induction cs with
  | nil => exact Nat.zero_le _
  | cons c cs ih =>
    have := c.utf8Size_pos
    rw [← singleton_append, utf8Encode_append, ByteArray.size_append, utf8Encode_singleton,
      size_toByteArray, String.length_utf8EncodeChar, length_append, length_singleton]
    omega

theorem length_decode_le (bytes : List (BitVec 8)) : (decode bytes).length ≤ bytes.length := by
  rw [decode]
  generalize hb : (bytes.map UInt8.ofBitVec).toByteArray = b
  have hsize : b.size = bytes.length := by
    rw [← hb, size_toByteArray, length_map]
  cases h : b.utf8Decode? with
  | none => exact Nat.zero_le _
  | some cs =>
    have hencode : cs.toList.utf8Encode = b := by
      have hget := ByteArray.utf8Encode_get_utf8Decode? (b := b) (h := by rw [h]; rfl)
      simpa only [h, Option.get_some] using hget
    rw [← hsize, ← hencode]
    exact length_le_size_utf8Encode _

theorem length_trimMatches_le (p : Char → Bool) (s : List Char) :
    (trimMatches p s).length ≤ s.length := by
  have hdrop (l : List Char) : (l.dropWhile p).length ≤ l.length :=
    (dropWhile_suffix p).length_le
  rw [trimMatches, length_reverse]
  refine (hdrop _).trans ?_
  rw [length_reverse]
  exact hdrop s

theorem foldl_octal_lt {digits : List Char} (h : ∀ c ∈ digits, c ≤ '7') (n : ℕ) :
    digits.foldl (fun n c => n * 8 + (c.toNat - 48)) n < (n + 1) * 8 ^ digits.length := by
  induction digits generalizing n with
  | nil => simp
  | cons c digits ih =>
    obtain ⟨hc, hrest⟩ := forall_mem_cons.mp h
    have hc : c.toNat ≤ 55 := hc
    have hn : n * 8 + (c.toNat - 48) + 1 ≤ (n + 1) * 8 := by omega
    calc
      _ < (n * 8 + (c.toNat - 48) + 1) * 8 ^ digits.length := ih hrest _
      _ ≤ (n + 1) * 8 * 8 ^ digits.length := Nat.mul_le_mul_right _ hn
      _ = (n + 1) * 8 ^ (digits.length + 1) := by rw [pow_succ]; ring

theorem parseOctal_lt {s : List Char} (h : s.length ≤ 12) : parseOctal s < 8 ^ 12 := by
  rw [parseOctal]
  generalize hdigits : (if s.head? = some '+' then s.tail else s) = digits
  have hlen : digits.length ≤ 12 := by
    subst hdigits
    split
    · rw [length_tail]
      omega
    · exact h
  dsimp only
  split
  · next hall =>
    have hle (c : Char) (hc : c ∈ digits) : c ≤ '7' :=
      (of_decide_eq_true (all_eq_true.mp hall c hc)).2
    have hlt := foldl_octal_lt hle 0
    have := Nat.pow_le_pow_right (by decide : 0 < 8) hlen
    split
    · omega
    · decide
  · decide

theorem exists_fieldText_eq (start len : ℕ) (h : start + len ≤ header.length) :
    ∃ s, fieldText header start len = .ok s ∧ s.length ≤ len := by
  obtain ⟨field, hfield, hlen⟩ := exists_slice_eq header (Nat.le_add_right start len) h
  have hzero : field.findIdx (· = 0) ≤ field.length := findIdx_le_length
  obtain ⟨bytes, hbytes, hlen'⟩ := exists_slice_eq header
    (Nat.le_add_right start (field.findIdx (· = 0))) (by omega)
  rw [fieldText, hfield, ok_bind, hbytes]
  refine ⟨decode bytes, rfl, (length_decode_le bytes).trans ?_⟩
  omega

theorem nextHeader_eq_ok (hoffset : offset < 2 ^ 63) (hsize : size < 2 ^ 36) :
    nextHeader offset size = .ok (offset + (512 + (size + 511) / 512 * 512)) := by
  rw [nextHeader, plus_eq_ok (by omega), ok_bind, plus_eq_ok (by omega), ok_bind,
    plus_eq_ok (by omega)]

theorem exists_readLink_eq (hheader : header.length = 512) (isSymlink : Bool) :
    ∃ target, readLink header isSymlink = .ok target := by
  cases isSymlink with
  | true =>
    obtain ⟨s, hs, -⟩ := exists_fieldText_eq 157 160 (by omega : _ ≤ header.length)
    rw [readLink, hs]
    exact ⟨_, rfl⟩
  | false => exact ⟨_, rfl⟩

/-- A header inside the input is read, and the next one is behind it. -/
theorem exists_readEntry_eq (hdata : data.length < 2 ^ 63) (hoffset : offset + 512 ≤ data.length) :
    ∃ r, readEntry data offset = .ok r ∧
      ∀ e next, r = some (e, next) → offset + 512 ≤ next ∧ next < 2 ^ 63 + 2 ^ 37 := by
  obtain ⟨header, hslice, hheader⟩ := exists_slice_eq data (Nat.le_add_right offset 512) hoffset
  have hheader : header.length = 512 := by omega
  obtain ⟨first, hfirst⟩ := exists_index_eq (i := 0) (by omega : _ < header.length)
  obtain ⟨typeFlag, htype⟩ := exists_index_eq (i := 156) (by omega : _ < header.length)
  obtain ⟨name, hname, -⟩ := exists_fieldText_eq 0 100 (by omega : _ ≤ header.length)
  obtain ⟨digits, hdigits, hlen⟩ := exists_fieldText_eq 124 12 (by omega : _ ≤ header.length)
  obtain ⟨target, htarget⟩ := exists_readLink_eq hheader (typeFlag = 50)
  have hsize : parseOctal (trimZeros (trimMatches isWhitespace digits)) < 8 ^ 12 :=
    parseOctal_lt (((length_trimMatches_le _ _).trans (length_trimMatches_le _ _)).trans hlen)
  simp only [readEntry, plus_eq_ok (by omega : offset + 512 < 2 ^ 64), ok_bind, hslice,
    hfirst, hname, hdigits, htype, htarget]
  generalize parseOctal _ = size at hsize ⊢
  split
  · exact ⟨_, rfl, nofun⟩
  rw [plus_eq_ok (by omega), ok_bind, nextHeader_eq_ok (by omega) (by omega)]
  have hrest : offset + 512 ≤ min (offset + 512 + size) data.length := by omega
  obtain ⟨bytes, hbytes, -⟩ := exists_slice_eq data hrest (Nat.min_le_right _ _)
  split
  · rw [hbytes]
    refine ⟨_, rfl, fun e next h => ?_⟩
    cases h
    omega
  · refine ⟨_, rfl, fun e next h => ?_⟩
    cases h
    omega

/-- A loop with enough rounds left returns, and looks at headers inside the input, in order. -/
theorem exists_parseFrom_eq (hdata : data.length < 2 ^ 63) (hoffset : offset < 2 ^ 63 + 2 ^ 37)
    (hpos : 0 < fuel) (hfuel : data.length < offset + 512 * fuel) (root : TarNode)
    (count : BitVec 32) :
    ∃ parsed, parseFrom data fuel offset root count = .ok parsed ∧
      parsed.offsets.Pairwise (· < ·) ∧
      ∀ o ∈ parsed.offsets, offset ≤ o ∧ o + 512 ≤ data.length := by
  induction fuel generalizing offset root count with
  | zero => omega
  | succ fuel ih =>
    rw [parseFrom, plus_eq_ok (by omega), ok_bind]
    split
    · next hin =>
      obtain ⟨r, hr, hnext⟩ := exists_readEntry_eq hdata hin
      rw [hr, ok_bind]
      obtain _ | ⟨entry, next⟩ := r
      · exact ⟨_, rfl, pairwise_singleton _ _, fun o ho => by cases mem_singleton.mp ho; omega⟩
      obtain ⟨hle, hlt⟩ := hnext entry next rfl
      obtain ⟨parsed, hparsed, hsorted, hinside⟩ := ih hlt (by omega) (by omega)
        (addToTree root entry) (count + 1)
      dsimp only
      rw [hparsed]
      refine ⟨_, rfl, pairwise_cons.mpr ⟨fun o ho => ?_, hsorted⟩, fun o ho => ?_⟩
      · have := (hinside o ho).1
        omega
      · obtain rfl | ho := mem_cons.mp ho
        · omega
        · have := hinside o ho
          omega
    · exact ⟨_, rfl, .nil, nofun⟩

theorem exists_countDigits_eq {i n : ℕ} (hpos : 0 < i) (hn : n < 10 ^ i) (text : List (BitVec 8)) :
    ∃ digits, countDigits i n text = .ok digits := by
  induction i generalizing n text with
  | zero => omega
  | succ i ih =>
    rw [countDigits]
    split
    · exact ⟨_, rfl⟩
    next hne =>
    rw [pow_succ] at hn
    refine ih (Nat.pos_of_ne_zero ?_) (by omega) _
    rintro rfl
    omega

/-- The parser returns on every input, without reading behind its end, and the headers it looks at
are at increasing offsets. -/
theorem parseTar_safe (data : TarInput) :
    ∃ parsed text, parseTar data = .ok (parsed, text) ∧ parsed.offsets.Pairwise (· < ·) ∧
      ∀ o ∈ parsed.offsets, o + 512 ≤ data.1.length := by
  obtain ⟨parsed, hparsed, hsorted, hinside⟩ := exists_parseFrom_eq data.2
    (by decide : 0 < _) (Nat.succ_pos (data.1.length / 512)) (by omega)
    ⟨['/'], true, false, none, none, []⟩ 0
  obtain ⟨text, htext⟩ := exists_countDigits_eq (i := 12) (n := parsed.count.toNat) (by decide)
    (by omega) []
  refine ⟨parsed, text, ?_, hsorted, fun o ho => (hinside o ho).2⟩
  rw [parseTar, hparsed, ok_bind, htext]
  rfl

end Vahi.Vfs
