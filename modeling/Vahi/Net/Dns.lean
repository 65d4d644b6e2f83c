import Mathlib.Data.List.Basic

/-!
# Answers of name servers

The part of `do_query` (`crates/net/src/dns.rs`) that looks for an address in a response. It skips
the name of the question, but then takes the type and class of the question for those of an answer.
-/

namespace Vahi.Net

def be16 (buf : List (BitVec 8)) (pos : ℕ) : ℕ :=
  (buf.getD pos 0).toNat * 256 + (buf.getD (pos + 1) 0).toNat

/-- The loop over the labels of a name; the length is compared before the pointer bits are. -/
def skipName (buf : List (BitVec 8)) (pos : ℕ) : ℕ :=
  if buf.length ≤ pos then pos
  else if buf.getD pos 0 = 0 then pos + 1
  else if buf.length < pos + 1 + (buf.getD pos 0).toNat then pos
  else if buf.getD pos 0 &&& 0xC0 = 0xC0 then pos + 2
  else skipName buf (pos + 1 + (buf.getD pos 0).toNat)
termination_by buf.length - pos

inductive IpAddress where
  | ipv4 (bytes : List (BitVec 8))
  | ipv6 (bytes : List (BitVec 8))

/-- The part of `do_query` behind the reception: one record, read right behind the header. -/
def parseResponse (buf : List (BitVec 8)) : Option IpAddress :=
  if buf.length < 12 ∨ 512 < buf.length ∨ be16 buf 6 = 0 then none
  else
    let pos := skipName buf 12
    if buf.length < pos + 10 then none
    else
      let atype := be16 buf pos
      let rdlen := be16 buf (pos + 8)
      let pos := pos + 10
      if buf.length < pos + rdlen then none
      else if atype = 28 ∧ rdlen = 16 then some (.ipv6 ((buf.drop pos).take 16))
      else if atype = 1 ∧ rdlen = 4 then some (.ipv4 ((buf.drop pos).take 4))
      else none

/-! ### Responses -/

def u16 (x : ℕ) : List (BitVec 8) := [BitVec.ofNat 8 (x / 256), BitVec.ofNat 8 x]

def encodeLabels (labels : List (List (BitVec 8))) : List (BitVec 8) :=
  labels.flatMap fun l => BitVec.ofNat 8 l.length :: l

/-- Labels and either the end or an offset into the message. -/
structure DnsName where
  labels : List (List (BitVec 8))
  pointer : Option (BitVec 14)
  valid : ∀ l ∈ labels, 0 < l.length ∧ l.length < 64 ∧ ∀ x ∈ l, x ≠ 0

def DnsName.bytes (name : DnsName) : List (BitVec 8) :=
  encodeLabels name.labels ++ match name.pointer with
    | none => [0]
    | some p => [3#2 ++ p.extractLsb' 8 6, p.extractLsb' 0 8]

inductive RecordType where
  | a
  | cname
  | aaaa

def RecordType.code : RecordType → ℕ
  | .a => 1
  | .cname => 5
  | .aaaa => 28

structure DnsRecord where
  name : DnsName
  type : RecordType
  ttl : ℕ
  data : List (BitVec 8)

def DnsRecord.bytes (r : DnsRecord) : List (BitVec 8) :=
  r.name.bytes ++ (u16 r.type.code ++ (u16 1 ++ (u16 (r.ttl / 65536) ++ (u16 r.ttl ++
    (u16 r.data.length ++ r.data)))))

/-- A response to a question of class IN; `rest` are the sections after the answers. -/
structure DnsResponse where
  header : Vector (BitVec 8) 12
  question : DnsName
  qtype : ℕ
  answers : List DnsRecord
  rest : List (BitVec 8)
  count : be16 header.toList 6 = answers.length
  plain : question.pointer = none

open List

def DnsResponse.bytes (r : DnsResponse) : List (BitVec 8) :=
  r.header.toList ++ (r.question.bytes ++ (u16 r.qtype ++ (u16 1 ++
    (r.answers.flatMap DnsRecord.bytes ++ r.rest))))

/-- The address of the first A record. -/
def DnsResponse.firstAddress (r : DnsResponse) : Option IpAddress :=
  r.answers.findSome? fun a => match a.type with
    | .a => some (.ipv4 a.data)
    | .cname | .aaaa => none

/-! ### What is read -/

theorem getD_append_add (xs ys : List (BitVec 8)) (i : ℕ) :
    (xs ++ ys).getD (xs.length + i) 0 = ys.getD i 0 := by
  simp [getElem?_append_right]

theorem be16_append_add (xs ys : List (BitVec 8)) (i : ℕ) :
    be16 (xs ++ ys) (xs.length + i) = be16 ys i := by
  rw [be16, be16, Nat.add_assoc, getD_append_add, getD_append_add]

theorem skipName_encodeLabels {labels : List (List (BitVec 8))}
    (hvalid : ∀ l ∈ labels, 0 < l.length ∧ l.length < 64 ∧ ∀ x ∈ l, x ≠ 0)
    (xs ys : List (BitVec 8)) :
    skipName (xs ++ (encodeLabels labels ++ 0 :: ys)) xs.length =
      xs.length + (encodeLabels labels).length + 1 := by
  induction labels generalizing xs with
  | nil =>
    rw [skipName]
    simp [encodeLabels]
  | cons l labels ih =>
    obtain ⟨hpos, hlt, -⟩ := hvalid l mem_cons_self
    have hbits : ∀ x : BitVec 8, x.toNat < 64 → ¬x &&& 0xC0 = 0xC0 := by decide
    have hlen : (BitVec.ofNat 8 l.length).toNat = l.length := by
      rw [BitVec.toNat_ofNat]
      omega
    have hne : BitVec.ofNat 8 l.length ≠ 0 := by
      intro hzero
      rw [hzero] at hlen
      exact absurd hlen.symm (Nat.ne_of_gt hpos)
    have hbuf : xs ++ (encodeLabels (l :: labels) ++ 0 :: ys) =
        (xs ++ BitVec.ofNat 8 l.length :: l) ++ (encodeLabels labels ++ 0 :: ys) := by
      simp [encodeLabels]
    have hhead : (xs ++ (encodeLabels (l :: labels) ++ 0 :: ys)).getD xs.length 0 =
        BitVec.ofNat 8 l.length := getD_append_add xs _ 0
    have hnext : xs.length + 1 + l.length = (xs ++ BitVec.ofNat 8 l.length :: l).length := by
      simp
      omega
    rw [skipName, hhead, if_neg, if_neg hne, if_neg, if_neg (hbits _ (by omega)), hlen, hbuf]
    · rw [hnext, ih fun m hm => hvalid m (mem_cons_of_mem _ hm)]
      simp [encodeLabels]
      omega
    · simp [hlen, encodeLabels]
      omega
    · simp [encodeLabels]

/-- Only the last byte of a name may be zero. -/
theorem DnsName.exists_bytes_eq (name : DnsName) :
    ∃ xs last, name.bytes = xs ++ [last] ∧ ∀ x ∈ xs, x ≠ 0 := by
  have hlabels : ∀ x ∈ encodeLabels name.labels, x ≠ 0 := by
    intro x hx
    obtain ⟨l, hl, hx⟩ := mem_flatMap.1 hx
    obtain ⟨hpos, hlt, hl⟩ := name.valid l hl
    obtain rfl | hx := mem_cons.1 hx
    · intro hzero
      have hlen := congrArg BitVec.toNat hzero
      simp at hlen
      omega
    · exact hl x hx
  unfold bytes
  cases name.pointer with
  | none => exact ⟨_, _, rfl, hlabels⟩
  | some p =>
    refine ⟨encodeLabels name.labels ++ [3#2 ++ p.extractLsb' 8 6], _, by simp; rfl, ?_⟩
    have hhead : ∀ y : BitVec 6, 3#2 ++ y ≠ (0 : BitVec (2 + 6)) := by decide
    simpa [or_imp, forall_and] using ⟨hlabels, hhead _⟩

/-- What is taken for the length of the data is none of an address. -/
theorem DnsRecord.be16_bytes (r : DnsRecord) (rest : List (BitVec 8)) :
    be16 (r.bytes ++ rest) 4 ≠ 16 ∧ be16 (r.bytes ++ rest) 4 ≠ 4 := by
  obtain ⟨xs, last, hname, hxs⟩ := r.name.exists_bytes_eq
  rw [bytes, hname]
  obtain _ | ⟨x₀, _ | ⟨x₁, _ | ⟨x₂, _ | ⟨x₃, _ | ⟨x₄, xs⟩⟩⟩⟩⟩ := xs
  · simp [be16, u16]
    omega
  · simp [be16, u16]
  · cases r.type <;> simp [be16, u16, RecordType.code]
  · cases r.type <;> simp [be16, u16, RecordType.code]
  · cases r.type <;> simp [be16, u16, RecordType.code] <;> omega
  · have hpos : x₄.toNat ≠ 0 := fun h => hxs x₄ (by simp) (BitVec.eq_of_toNat_eq h)
    simp only [be16, cons_append, getD_cons_succ, getD_cons_zero]
    omega

/-- The parser finds no address in a response with records of these types. -/
theorem parseResponse_bytes (r : DnsResponse) : parseResponse r.bytes = none := by
  have hname : r.question.bytes = encodeLabels r.question.labels ++ [0] := by
    rw [DnsName.bytes, r.plain]
  have hskip : skipName r.bytes 12 = 12 + (encodeLabels r.question.labels).length + 1 := by
    have hwalk := skipName_encodeLabels r.question.valid r.header.toList
    simp only [r.header.length_toList] at hwalk
    rw [DnsResponse.bytes, hname, append_assoc]
    exact hwalk _
  unfold parseResponse
  cases hanswers : r.answers with
  | nil =>
    refine if_pos (Or.inr (Or.inr ?_))
    have hcount := r.count
    rw [hanswers, length_nil] at hcount
    rw [← hcount]
    simp [be16, DnsResponse.bytes, getElem?_append_left]
  | cons first answers =>
    have hlen : be16 r.bytes (skipName r.bytes 12 + 8) =
        be16 (first.bytes ++ (answers.flatMap DnsRecord.bytes ++ r.rest)) 4 := by
      have hadd := be16_append_add (r.header.toList ++ (r.question.bytes ++ (u16 r.qtype ++ u16 1)))
        (first.bytes ++ (answers.flatMap DnsRecord.bytes ++ r.rest)) 4
      rw [← hadd, hskip]
      simp [DnsResponse.bytes, hanswers, hname, u16, Nat.add_assoc]
    have hne := first.be16_bytes (answers.flatMap DnsRecord.bytes ++ r.rest)
    rw [← hlen] at hne
    simp [hne.1, hne.2]

/-- The parser returns the address of the first A record only where there is none. -/
theorem parseResponse_eq_firstAddress_iff (r : DnsResponse) :
    parseResponse r.bytes = r.firstAddress ↔ ∀ a ∈ r.answers, a.type ≠ .a := by
  rw [parseResponse_bytes, eq_comm, DnsResponse.firstAddress, findSome?_eq_none_iff]
  refine forall₂_congr fun a _ => ?_
  cases a.type <;> simp

/-- The response for a name of one letter, with its address. -/
def oneAddress : DnsResponse where
  header := #v[0x12, 0x34, 0x81, 0x80, 0, 1, 0, 1, 0, 0, 0, 0]
  question := ⟨[[0x61]], none, by decide⟩
  qtype := 1
  answers := [⟨⟨[], some 12, nofun⟩, .a, 60, [10, 0, 0, 1]⟩]
  rest := []
  count := by decide
  plain := rfl

theorem parseResponse_oneAddress : parseResponse oneAddress.bytes = none ∧
    oneAddress.firstAddress = some (.ipv4 [10, 0, 0, 1]) := by
  have hskip : skipName oneAddress.bytes 12 = 15 :=
    skipName_encodeLabels oneAddress.question.valid oneAddress.header.toList _
  refine ⟨?_, rfl⟩
  rw [parseResponse, hskip]
  decide

end Vahi.Net
