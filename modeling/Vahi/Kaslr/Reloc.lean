import Mathlib.Tactic.Ring
import Vahi.Lib.WordMemory

/-!
# Relocation of the kernel image

`apply_kaslr_relocations` (`kernel/src/kaslr_reloc.rs`): a forward pass validates all entries of the
relocation table, then a backward pass writes the words they name.
-/

namespace Vahi.Kaslr

open Vahi.Lib List
open BitVec (le_def lt_def toNat_add)

structure Elf64Rela where
  rOffset : BitVec 64
  rInfo : BitVec 64
  rAddend : BitVec 64
  deriving DecidableEq

def Elf64Rela.getType (rel : Elf64Rela) : BitVec 32 := (rel.rInfo &&& 0xFFFFFFFF).setWidth 32

def RELA_SIZE : ℕ := 24

def R_X86_64_RELATIVE : BitVec 32 := 8

structure RelocationOutcome where
  applied : ℕ
  failed : ℕ
  deriving DecidableEq

def RelocationOutcome.succeeded (o : RelocationOutcome) : Bool := 0 < o.applied && o.failed = 0

/-- `stop` is one past the last byte of the image. -/
structure ImageBounds where
  start : BitVec 64
  stop : BitVec 64
  writableStart : BitVec 64
  writableEnd : BitVec 64
  deriving DecidableEq

inductive RelocReject where
  | unsupportedType (ty : BitVec 32)
  | misalignedOffset (off : BitVec 64)
  | nonIncreasingOffset (off : BitVec 64)
  | outOfImageOffset (off : BitVec 64)
  | readOnlyOffset (off : BitVec 64)
  | outOfImageAddend (addend : BitVec 64)
  | overflow (addend : BitVec 64)
  deriving DecidableEq

inductive TableShape where
  | empty
  | malformed (bytes : ℕ)
  | entries (count : ℕ)
  deriving DecidableEq

def TableShape.of (relaBytes : ℕ) : TableShape :=
  if relaBytes = 0 then .empty
  else if ¬RELA_SIZE ∣ relaBytes then .malformed relaBytes
  else .entries (relaBytes / RELA_SIZE)

/-- The checks of one entry in their order; the first that fails is reported. -/
def rejectEntry (rel : Elf64Rela) (slide : BitVec 64) (bounds : ImageBounds)
    (prevOffset : Option (BitVec 64)) : Option RelocReject :=
  if rel.getType ≠ R_X86_64_RELATIVE then some (.unsupportedType rel.getType)
  else if ¬8 ∣ rel.rOffset.toNat then some (.misalignedOffset rel.rOffset)
  else if prevOffset.any (fun prev => rel.rOffset ≤ prev) then
    some (.nonIncreasingOffset rel.rOffset)
  else if rel.rOffset < bounds.start ∨ 2 ^ 64 ≤ rel.rOffset.toNat + 8 ∨
      bounds.stop.toNat < rel.rOffset.toNat + 8 then
    some (.outOfImageOffset rel.rOffset)
  else if rel.rOffset < bounds.writableStart ∨ bounds.writableEnd ≤ rel.rOffset then
    some (.readOnlyOffset rel.rOffset)
  else if 2 ^ 64 ≤ rel.rAddend.toNat + slide.toNat then some (.overflow rel.rAddend)
  else if rel.rAddend < bounds.start ∨ bounds.stop < rel.rAddend then
    some (.outOfImageAddend rel.rAddend)
  else none

structure LinkSymbols where
  relaStart : BitVec 64
  relaEnd : BitVec 64
  bounds : ImageBounds

/-- The flag `KASLR_APPLIED` and the memory, with the record of the words written. -/
structure KaslrState where
  applied : Bool
  mem : ByteMemory
  writes : List (BitVec 64 × BitVec 64)

def entryAddr (relaStart : BitVec 64) (i : ℕ) : BitVec 64 :=
  relaStart + BitVec.ofNat 64 (i * RELA_SIZE)

def readRela (mem : ByteMemory) (addr : BitVec 64) : Elf64Rela :=
  ⟨load64 mem addr, load64 mem (addr + 8), load64 mem (addr + 16)⟩

structure Validation where
  accepted : ℕ
  rejected : ℕ
  firstReject : Option RelocReject
  prevOffset : Option (BitVec 64)

def Validation.step (slide : BitVec 64) (bounds : ImageBounds) (v : Validation)
    (rel : Elf64Rela) : Validation :=
  match rejectEntry rel slide bounds v.prevOffset with
  | none => { v with accepted := v.accepted + 1, prevOffset := some rel.rOffset }
  | some reason =>
    { v with
      rejected := v.rejected + 1
      firstReject := if v.firstReject.isNone then some reason else v.firstReject }

def relaTable (mem : ByteMemory) (relaStart : BitVec 64) (count : ℕ) : List Elf64Rela :=
  (List.range count).map fun i => readRela mem (entryAddr relaStart i)

def validate (mem : ByteMemory) (relaStart : BitVec 64) (count : ℕ) (slide : BitVec 64)
    (bounds : ImageBounds) : Validation :=
  (relaTable mem relaStart count).foldl (Validation.step slide bounds) ⟨0, 0, none, none⟩

/-- `apply_relocations_write_pass` for the first entries, last one first. The entries are
read from the memory as the pass has left it. -/
def writePass (relaStart slide : BitVec 64) : ℕ → KaslrState × ℕ → KaslrState × ℕ
  | 0, r => r
  | i + 1, (s, applied) =>
    let rel := readRela s.mem (entryAddr relaStart i)
    if rel.getType ≠ R_X86_64_RELATIVE then writePass relaStart slide i (s, applied)
    else
      let value := rel.rAddend + slide
      writePass relaStart slide i
        ({ s with mem := store64 s.mem rel.rOffset value, writes := (rel.rOffset, value) :: s.writes },
          applied + 1)

/-- Nothing is written unless the first pass accepts every entry. -/
def applyKaslrRelocations (sym : LinkSymbols) (slide : BitVec 64) (s : KaslrState) :
    RelocationOutcome × KaslrState :=
  if s.applied then (⟨0, 1⟩, s)
  else
    match TableShape.of (sym.relaEnd.toNat - sym.relaStart.toNat) with
    | .empty => (⟨0, 0⟩, { s with applied := false })
    | .malformed _ => (⟨0, 1⟩, { s with applied := false })
    | .entries count =>
      let v := validate s.mem sym.relaStart count slide sym.bounds
      match v.firstReject with
      | some _ => (⟨0, v.rejected⟩, { s with applied := false })
      | none =>
        let (s, applied) := writePass sym.relaStart slide count ({ s with applied := true }, 0)
        (⟨applied, v.accepted - applied⟩, s)

/-! ## The forward pass -/

/-- No entry is rejected, each one checked against the target before it. -/
def Accepts (slide : BitVec 64) (bounds : ImageBounds) :
    Option (BitVec 64) → List Elf64Rela → Prop
  | _, [] => True
  | prev, rel :: rels =>
    rejectEntry rel slide bounds prev = none ∧ Accepts slide bounds (some rel.rOffset) rels

variable {bounds : ImageBounds} {v : Validation} {rel : Elf64Rela} {prev : Option (BitVec 64)}
  {rels : List Elf64Rela} {a x relaStart relaEnd : BitVec 64} {i : ℕ}

variable {slide : BitVec 64}

theorem firstReject_foldl_some (rels : List Elf64Rela) (h : v.firstReject ≠ none) :
    (rels.foldl (Validation.step slide bounds) v).firstReject ≠ none := by
  induction rels generalizing v with
  | nil => exact h
  | cons rel rels ih =>
    apply ih
    unfold Validation.step
    split
    · exact h
    · split
      · exact Option.some_ne_none _
      · exact h

/-- The loop ends without a rejection exactly when it accepted everything. -/
theorem validate_accepts (rels : List Elf64Rela) (hv : v.firstReject = none)
    (h : (rels.foldl (Validation.step slide bounds) v).firstReject = none) :
    Accepts slide bounds v.prevOffset rels ∧
      (rels.foldl (Validation.step slide bounds) v).accepted = v.accepted + rels.length := by
  induction rels generalizing v with
  | nil => exact ⟨trivial, rfl⟩
  | cons rel rels ih =>
    rw [foldl_cons] at h ⊢
    cases hrej : rejectEntry rel slide bounds v.prevOffset with
    | none =>
      have hstep : Validation.step slide bounds v rel =
          { v with accepted := v.accepted + 1, prevOffset := some rel.rOffset } := by
        rw [Validation.step, hrej]
      have hnext : (Validation.step slide bounds v rel).firstReject = none := by rw [hstep, hv]
      obtain ⟨haccepts, hcount⟩ := ih hnext h
      rw [hstep] at haccepts hcount
      rw [hstep]
      refine ⟨⟨hrej, haccepts⟩, hcount.trans ?_⟩
      show v.accepted + 1 + rels.length = v.accepted + (rels.length + 1)
      omega
    | some reason =>
      refine absurd h (firstReject_foldl_some rels ?_)
      rw [Validation.step, hrej]
      simp [hv]

structure Writable (slide : BitVec 64) (bounds : ImageBounds) (rel : Elf64Rela) : Prop where
  type_eq : rel.getType = R_X86_64_RELATIVE
  aligned : 8 ∣ rel.rOffset.toNat
  above : bounds.writableStart.toNat ≤ rel.rOffset.toNat
  below : rel.rOffset.toNat < bounds.writableEnd.toNat
  noOverflow : rel.rAddend.toNat + slide.toNat < 2 ^ 64

theorem rejectEntry_none (h : rejectEntry rel slide bounds prev = none) :
    Writable slide bounds rel ∧ ∀ p ∈ prev, p.toNat < rel.rOffset.toNat := by
  unfold rejectEntry at h
  split at h
  · cases h
  split at h
  · cases h
  split at h
  · cases h
  split at h
  · cases h
  split at h
  · cases h
  split at h
  · cases h
  rename_i htype halign hprev _ hwritable hover
  rw [not_or, BitVec.not_lt, BitVec.not_le, le_def, lt_def] at hwritable
  refine ⟨⟨not_not.mp htype, not_not.mp halign, hwritable.1, hwritable.2,
    Nat.lt_of_not_le hover⟩, ?_⟩
  intro p hp
  obtain rfl : prev = some p := hp
  rw [Option.any_some, decide_eq_true_eq, BitVec.not_le, lt_def] at hprev
  exact hprev

theorem Accepts.writable (h : Accepts slide bounds prev rels) :
    ∀ rel ∈ rels, Writable slide bounds rel ∧ ∀ p ∈ prev, p.toNat < rel.rOffset.toNat := by
  induction rels generalizing prev with
  | nil =>
    intro rel hrel
    cases hrel
  | cons first rels ih =>
    obtain ⟨hfirst, hrest⟩ := h
    obtain ⟨hwritable, hprev⟩ := rejectEntry_none hfirst
    intro rel hrel
    cases mem_cons.mp hrel with
    | inl hself =>
      subst hself
      exact ⟨hwritable, hprev⟩
    | inr htail =>
      obtain ⟨hw, hlt⟩ := ih hrest rel htail
      exact ⟨hw, fun p hp => Nat.lt_trans (hprev p hp) (hlt first.rOffset rfl)⟩

/-- The targets ascend. -/
theorem Accepts.ascending (h : Accepts slide bounds prev rels) :
    rels.Pairwise fun r r' => r.rOffset.toNat < r'.rOffset.toNat := by
  induction rels generalizing prev with
  | nil => exact List.Pairwise.nil
  | cons first rels ih =>
    exact pairwise_cons.mpr
      ⟨fun rel hrel => (h.2.writable rel hrel).2 first.rOffset rfl, ih h.2⟩

/-! ## The backward pass -/

theorem inWord_iff (ha : a.toNat + 8 ≤ 2 ^ 64) :
    InWord a x ↔ a.toNat ≤ x.toNat ∧ x.toNat < a.toNat + 8 := by
  unfold InWord
  rw [BitVec.toNat_sub]
  omega

/-- Different aligned words have no byte in common. -/
theorem inWord_disjoint {b : BitVec 64} (ha : 8 ∣ a.toNat) (hb : 8 ∣ b.toNat)
    (hab : a.toNat ≠ b.toNat) (x : BitVec 64) (hx : InWord a x) : ¬InWord b x := by
  rw [inWord_iff (by omega)] at hx ⊢
  omega

/-- The bytes of an entry are in the table. -/
theorem inWord_entry {count k : ℕ} (hi : i < count)
    (hk : k + 8 ≤ RELA_SIZE) (htable : relaEnd.toNat - relaStart.toNat = count * RELA_SIZE)
    (hx : InWord (entryAddr relaStart i + BitVec.ofNat 64 k) x) :
    relaStart.toNat ≤ x.toNat ∧ x.toNat < relaEnd.toNat := by
  have hmul : i * RELA_SIZE + RELA_SIZE ≤ count * RELA_SIZE := by
    rw [← Nat.succ_mul]
    exact Nat.mul_le_mul_right _ hi
  have haddr : (entryAddr relaStart i + BitVec.ofNat 64 k).toNat =
      relaStart.toNat + i * RELA_SIZE + k := by
    unfold entryAddr
    rw [toNat_add, toNat_add, BitVec.toNat_ofNat, BitVec.toNat_ofNat]
    omega
  rw [inWord_iff (by omega), haddr] at hx
  omega

/-- A write outside the table leaves its entries. -/
theorem readRela_store64 {mem : ByteMemory} {off value : BitVec 64} {count : ℕ} (hi : i < count)
    (htable : relaEnd.toNat - relaStart.toNat = count * RELA_SIZE)
    (hoff : ∀ x, InWord off x → ¬(relaStart.toNat ≤ x.toNat ∧ x.toNat < relaEnd.toNat)) :
    readRela (store64 mem off value) (entryAddr relaStart i) =
      readRela mem (entryAddr relaStart i) := by
  have hword : ∀ k, k + 8 ≤ RELA_SIZE →
      load64 (store64 mem off value) (entryAddr relaStart i + BitVec.ofNat 64 k) =
        load64 mem (entryAddr relaStart i + BitVec.ofNat 64 k) := by
    intro k hk
    apply load64_store64_of_disjoint
    intro x hx hin
    exact hoff x hin (inWord_entry hi hk htable hx)
  have hzero := hword 0 (by decide)
  rw [BitVec.add_zero] at hzero
  rw [readRela, hzero]
  exact congrArg₂ (Elf64Rela.mk _) (hword 8 (by decide)) (hword 16 (by decide))

structure Relocated (slide : BitVec 64) (rels : List Elf64Rela) (mem mem' : ByteMemory) : Prop where
  target : ∀ rel ∈ rels, load64 mem' rel.rOffset = rel.rAddend + slide
  frame : ∀ x, (∀ rel ∈ rels, ¬InWord rel.rOffset x) → mem' x = mem x

variable {sym : LinkSymbols} {slide : BitVec 64} {count : ℕ}

/-- The word written first does not meet those written after it. -/
theorem Relocated.snoc {mem mem' : ByteMemory}
    (h : Relocated slide rels (store64 mem rel.rOffset (rel.rAddend + slide)) mem')
    (hapart : ∀ x, InWord rel.rOffset x → ∀ r ∈ rels, ¬InWord r.rOffset x) :
    Relocated slide (rels ++ [rel]) mem mem' := by
  constructor
  · refine forall_mem_append.mpr ⟨h.target, forall_mem_singleton.mpr ?_⟩
    rw [load64_congr fun x hx => h.frame x (hapart x hx), load64_store64_self]
  · intro x hx
    obtain ⟨hbefore, hlast⟩ := forall_mem_append.mp hx
    rw [h.frame x hbefore]
    exact store64_of_not_inWord (hlast rel (mem_singleton_self _)) mem _

/-- Downward induction: the entries before the current one are still those of the table,
since no target word lies in it. -/
theorem writePass_spec
    (htable : sym.relaEnd.toNat - sym.relaStart.toNat = count * RELA_SIZE)
    (haccepts : Accepts slide sym.bounds none rels)
    (houtside : ∀ rel ∈ rels, ∀ x, InWord rel.rOffset x →
      ¬(sym.relaStart.toNat ≤ x.toNat ∧ x.toNat < sym.relaEnd.toNat))
    (n : ℕ) (hn : n ≤ count) (s : KaslrState) (applied : ℕ)
    (hread : ∀ i < n, rels[i]? = some (readRela s.mem (entryAddr sym.relaStart i))) :
    ∃ mem', Relocated slide (rels.take n) s.mem mem' ∧
      writePass sym.relaStart slide n (s, applied) =
        ({ s with
            mem := mem'
            writes := (rels.take n).map (fun rel => (rel.rOffset, rel.rAddend + slide)) ++ s.writes },
          applied + n) := by
  induction n generalizing s applied with
  | zero =>
    exact ⟨s.mem, ⟨forall_mem_nil _, fun x _ => rfl⟩, rfl⟩
  | succ n ih =>
    obtain ⟨rel, hrel⟩ : ∃ rel, readRela s.mem (entryAddr sym.relaStart n) = rel := ⟨_, rfl⟩
    have hget : rels[n]? = some rel := by rw [hread n (Nat.lt_succ_self n), hrel]
    have hmem : rel ∈ rels := mem_of_getElem? hget
    have htype := (haccepts.writable rel hmem).1.type_eq
    have htake : rels.take (n + 1) = rels.take n ++ [rel] := by
      rw [take_add_one, hget]
      rfl
    have hapart : ∀ x, InWord rel.rOffset x → ∀ r ∈ rels.take n, ¬InWord r.rOffset x := by
      intro x hx r hr
      have hpair := haccepts.ascending.sublist (take_sublist (n + 1) rels)
      rw [htake] at hpair
      have hlt := (pairwise_append.mp hpair).2.2 r hr rel (mem_singleton_self _)
      exact inWord_disjoint (haccepts.writable rel hmem).1.aligned
        (haccepts.writable r (mem_of_mem_take hr)).1.aligned (Nat.ne_of_gt hlt) x hx
    have hnext : ∀ i < n, rels[i]? = some (readRela
        (store64 s.mem rel.rOffset (rel.rAddend + slide)) (entryAddr sym.relaStart i)) := by
      intro i hi
      rw [readRela_store64 (Nat.lt_trans hi hn) htable (houtside rel hmem)]
      exact hread i (Nat.lt_succ_of_lt hi)
    obtain ⟨mem', hrelocated, hpass⟩ := ih (Nat.le_of_succ_le hn)
      { s with
        mem := store64 s.mem rel.rOffset (rel.rAddend + slide)
        writes := (rel.rOffset, rel.rAddend + slide) :: s.writes } (applied + 1) hnext
    refine ⟨mem', htake ▸ hrelocated.snoc hapart, ?_⟩
    rw [writePass]
    rw [hrel, if_neg (not_not.mpr htype), hpass, htake, map_append]
    simp only [map_cons, map_nil, append_assoc, singleton_append, Nat.add_assoc, Nat.add_comm 1 n]

/-! ## The whole pass -/

theorem tableShape_entries {relaBytes : ℕ} (h : TableShape.of relaBytes = .entries count) :
    relaBytes = count * RELA_SIZE ∧ 0 < count := by
  unfold TableShape.of at h
  split at h
  · cases h
  rename_i hpos
  split at h
  · cases h
  rename_i hdvd
  have hcount := TableShape.entries.inj h
  have hmul := Nat.div_mul_cancel (not_not.mp hdvd)
  rw [hcount] at hmul
  refine ⟨hmul.symm, Nat.pos_of_ne_zero ?_⟩
  intro hzero
  rw [hzero, Nat.zero_mul] at hmul
  exact hpos hmul.symm

/-- A target word is inside the writable range, hence outside the table. -/
theorem Writable.inWord (h : Writable slide bounds rel)
    (halign : 8 ∣ bounds.writableEnd.toNat) (hx : InWord rel.rOffset x) :
    bounds.writableStart.toNat ≤ x.toNat ∧ x.toNat < bounds.writableEnd.toNat := by
  have habove := h.above
  have hbelow := h.below
  have haligned := h.aligned
  rw [inWord_iff (by omega)] at hx
  omega

/-- Once applied, nothing is written any more. -/
theorem applyKaslrRelocations_of_applied (sym : LinkSymbols) {s : KaslrState} (h : s.applied = true)
    (slides : List (BitVec 64)) :
    slides.foldl (fun t slide => (applyKaslrRelocations sym slide t).2) s = s := by
  induction slides with
  | nil => rfl
  | cons slide slides ih =>
    have hsame : (applyKaslrRelocations sym slide s).2 = s := by
      rw [applyKaslrRelocations, if_pos h]
    rw [foldl_cons, hsame, ih]

def LinkSymbols.table (sym : LinkSymbols) (mem : ByteMemory) : List Elf64Rela :=
  relaTable mem sym.relaStart ((sym.relaEnd.toNat - sym.relaStart.toNat) / RELA_SIZE)

/-- Either nothing is written and success is not reported, or every entry is accepted, the
words at the targets, which are disjoint and in the writable range, hold the slid
addends, nothing else has changed, and no further call writes. -/
theorem applyKaslrRelocations_allOrNothing (sym : LinkSymbols) (slide : BitVec 64) (s : KaslrState)
    (hdisjoint : ∀ x : BitVec 64, sym.relaStart ≤ x → x < sym.relaEnd →
      x < sym.bounds.writableStart ∨ sym.bounds.writableEnd ≤ x)
    (halign : 8 ∣ sym.bounds.writableEnd.toNat) :
    ((applyKaslrRelocations sym slide s).2.mem = s.mem ∧
      (applyKaslrRelocations sym slide s).2.writes = s.writes ∧
      (applyKaslrRelocations sym slide s).1.succeeded = false) ∨
    ((applyKaslrRelocations sym slide s).1.succeeded = true ∧
      Accepts slide sym.bounds none (sym.table s.mem) ∧
      (sym.table s.mem).Pairwise (fun r r' => ∀ x, InWord r.rOffset x → ¬InWord r'.rOffset x) ∧
      (∀ rel ∈ sym.table s.mem, 8 ∣ rel.rOffset.toNat ∧
        sym.bounds.writableStart.toNat ≤ rel.rOffset.toNat ∧
        rel.rOffset.toNat + 8 ≤ sym.bounds.writableEnd.toNat ∧
        (load64 (applyKaslrRelocations sym slide s).2.mem rel.rOffset).toNat =
          rel.rAddend.toNat + slide.toNat) ∧
      (∀ x, (∀ rel ∈ sym.table s.mem, ¬InWord rel.rOffset x) →
        (applyKaslrRelocations sym slide s).2.mem x = s.mem x) ∧
      ∀ slides : List (BitVec 64),
        slides.foldl (fun t slide' => (applyKaslrRelocations sym slide' t).2)
          (applyKaslrRelocations sym slide s).2 = (applyKaslrRelocations sym slide s).2) := by
  generalize happly : applyKaslrRelocations sym slide s = r
  rw [applyKaslrRelocations] at happly
  split at happly
  · exact .inl (happly ▸ ⟨rfl, rfl, rfl⟩)
  split at happly
  · exact .inl (happly ▸ ⟨rfl, rfl, rfl⟩)
  · exact .inl (happly ▸ ⟨rfl, rfl, rfl⟩)
  next count hshape =>
  dsimp only at happly
  split at happly
  · exact .inl (happly ▸ ⟨rfl, rfl, rfl⟩)
  next hreject =>
  right
  obtain ⟨hbytes, hcount⟩ := tableShape_entries hshape
  have htable : sym.table s.mem = relaTable s.mem sym.relaStart count := by
    rw [LinkSymbols.table, hbytes, Nat.mul_div_cancel count (by decide)]
  obtain ⟨haccepts, haccepted⟩ := validate_accepts (relaTable s.mem sym.relaStart count) rfl hreject
  have hlength : (relaTable s.mem sym.relaStart count).length = count := by
    rw [relaTable, length_map, length_range]
  have hwritable := fun rel hrel => (haccepts.writable rel hrel).1
  have houtside : ∀ rel ∈ relaTable s.mem sym.relaStart count, ∀ x, InWord rel.rOffset x →
      ¬(sym.relaStart.toNat ≤ x.toNat ∧ x.toNat < sym.relaEnd.toNat) := by
    rintro rel hrel x hx ⟨hlow, hhigh⟩
    have hin := (hwritable rel hrel).inWord halign hx
    have hout := hdisjoint x (le_def.mpr hlow) (lt_def.mpr hhigh)
    rw [lt_def, le_def] at hout
    omega
  have hread : ∀ i < count, (relaTable s.mem sym.relaStart count)[i]? =
      some (readRela s.mem (entryAddr sym.relaStart i)) := by
    intro i hi
    rw [relaTable, getElem?_map, getElem?_range hi]
    rfl
  obtain ⟨mem', hrelocated, hpass⟩ := writePass_spec hbytes haccepts houtside count
    (Nat.le_refl _) { s with applied := true } 0 hread
  rw [take_of_length_le (Nat.le_of_eq hlength)] at hrelocated hpass
  rw [hpass, validate, haccepted, hlength] at happly
  rw [← happly, htable]
  refine ⟨?_, haccepts, ?_, ?_, hrelocated.frame, applyKaslrRelocations_of_applied sym rfl⟩
  · simp [RelocationOutcome.succeeded, hcount]
  · refine haccepts.ascending.imp_of_mem ?_
    intro r r' hr hr' hlt
    exact inWord_disjoint (hwritable r hr).aligned (hwritable r' hr').aligned (Nat.ne_of_lt hlt)
  · intro rel hrel
    have hw := hwritable rel hrel
    refine ⟨hw.aligned, hw.above, ?_, ?_⟩
    · have haligned := hw.aligned
      have hbelow := hw.below
      omega
    · rw [hrelocated.target rel hrel, toNat_add, Nat.mod_eq_of_lt hw.noOverflow]

def twoEntries : LinkSymbols where
  relaStart := 0x1000
  relaEnd := 0x1030
  bounds := ⟨0, 0x4000, 0x2000, 0x3000⟩

/-- Its memory: the words at `0x2000` and `0x2008` shall become `0x100` and `0x200` plus the
slide. -/
def twoEntriesState : KaslrState where
  applied := false
  mem := [(0x1000, 0x2000), (0x1008, 8), (0x1010, 0x100), (0x1018, 0x2008), (0x1020, 8),
    (0x1028, 0x200)].foldl (fun mem w => store64 mem w.1 w.2) fun _ => 0
  writes := []

theorem applyKaslrRelocations_twoEntries :
    (applyKaslrRelocations twoEntries 0x200000 twoEntriesState).1.succeeded = true ∧
    ∀ rel ∈ twoEntries.table twoEntriesState.mem,
      (load64 (applyKaslrRelocations twoEntries 0x200000 twoEntriesState).2.mem rel.rOffset).toNat =
        rel.rAddend.toNat + 0x200000 := by
  have hsucceeded :
      (applyKaslrRelocations twoEntries 0x200000 twoEntriesState).1.succeeded = true := by
    decide +kernel
  have hdisjoint : ∀ x : BitVec 64, twoEntries.relaStart ≤ x → x < twoEntries.relaEnd →
      x < twoEntries.bounds.writableStart ∨ twoEntries.bounds.writableEnd ≤ x := by
    intro x _ hx
    left
    simp only [twoEntries] at hx ⊢
    bv_omega
  cases applyKaslrRelocations_allOrNothing twoEntries 0x200000 twoEntriesState hdisjoint
    (by decide) with
  | inl hnothing =>
    exact absurd hnothing.2.2 Bool.noConfusion
  | inr hall => exact ⟨hsucceeded, fun rel hrel => (hall.2.2.2.1 rel hrel).2.2.2⟩

end Vahi.Kaslr
