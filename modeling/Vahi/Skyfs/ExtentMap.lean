import Mathlib.Data.List.Pairwise
import Vahi.Skyfs.BTreeEntries

/-!
# The extent tree as a map

Up to 15 disjoint extents that are inserted into an empty tree stay in one leaf and are found.
-/

namespace Vahi.Skyfs

open Vahi.Lib BTreeNode

def Entry.Covers (e : Entry) (off : BitVec 64) : Prop :=
  e.1.toNat ≤ off.toNat ∧ off.toNat < e.1.toNat + e.2.blockCount.toNat

def Entry.part (e : Entry) (off : BitVec 64) : Extent :=
  ⟨e.2.startBlock + (off - e.1), e.2.blockCount - (off - e.1)⟩

def Entry.Fits (e : Entry) : Prop := e.1.toNat + e.2.blockCount.toNat < 2 ^ 64

instance (e : Entry) (off : BitVec 64) : Decidable (e.Covers off) :=
  inferInstanceAs (Decidable (_ ∧ _))

instance (e : Entry) : Decidable e.Fits := inferInstanceAs (Decidable (_ < _))

def SKYFS_MAGIC : ℕ := 0x315620534B59534B

def Metadata (sb : Superblock) (q : ℕ) : Prop :=
  q = 0 ∨ sb.bitmapStart ≤ q ∧ q < sb.bitmapStart + sb.bitmapBlocks

structure Formatted (sb : Superblock) (d : Device) : Prop where
  magic : (d 0).get ⟨0, 8⟩ = SKYFS_MAGIC
  bitmapStart : 0 < sb.bitmapStart
  tracked : ∀ q, Metadata sb q → q / BITS_PER_BLOCK < sb.bitmapBlocks
  used : ∀ q, Metadata sb q → Used sb d q

/-- The device and the root after the insertions, if all of them succeed. -/
def insertAll (sb : Superblock) (fuel : ℕ) : Device → BitVec 64 → List Entry →
    Option (Device × BitVec 64)
  | d, root, [] => some (d, root)
  | d, root, e :: es =>
    match insertExtent sb fuel d root e with
    | .ok (.ok root, d) => insertAll sb fuel d root es
    | _ => none

/-- Every lookup returns, with the part of the extent that covers the block if there is one and
with nothing if there is none. -/
def IsMap (d : Device) (root : BitVec 64) (es : List Entry) : Prop :=
  ∀ off, ∃ fuel r, lookupExtent d off fuel root = .ok r ∧
    (∀ e ∈ es, e.Covers off → r = some (e.part off)) ∧ ((∀ e ∈ es, ¬ e.Covers off) → r = none)

def Apart (e e' : Entry) : Prop := ∀ off, ¬ (e.Covers off ∧ e'.Covers off)

/-! ## Entries -/

variable {e : Entry} {off : BitVec 64} {d' : Device}

theorem Entry.lookup_eq_some {x : Extent} (h : e.lookup off = some x) :
    e.Covers off ∧ x = e.part off := by
  rw [Entry.lookup, Option.ite_none_right_eq_some] at h
  obtain ⟨⟨hle, hlt⟩, hx⟩ := h
  refine ⟨⟨BitVec.le_def.mp hle, ?_⟩, (Option.some.inj hx).symm⟩
  have hlt := BitVec.lt_def.mp hlt
  exact Nat.lt_of_lt_of_le hlt (Nat.mod_le ..)

theorem Entry.Covers.lookup (h : e.Covers off) (hfits : e.Fits) :
    e.lookup off = some (e.part off) := by
  refine if_pos ⟨BitVec.le_def.mpr h.1, BitVec.lt_def.mpr ?_⟩
  rw [BitVec.toNat_add, Nat.mod_eq_of_lt hfits]
  exact h.2

/-- An extent that ends behind the last block number is not even found at its first block. -/
theorem Entry.lookup_self_of_not_fits (h : ¬ e.Fits) : e.lookup e.1 = none := by
  refine if_neg ?_
  rintro ⟨-, hlt⟩
  have hlt := BitVec.lt_def.mp hlt
  rw [Entry.Fits] at h
  rw [BitVec.toNat_add] at hlt
  omega

theorem Entry.covers_self (h : e.2.blockCount ≠ 0) : e.Covers e.1 := by
  refine ⟨Nat.le_refl _, Nat.lt_add_of_pos_right ?_⟩
  exact Nat.pos_of_ne_zero fun hzero => h (BitVec.eq_of_toNat_eq hzero)

instance : Std.Symm Apart := ⟨fun _ _ h off hoff => h off hoff.symm⟩

/-! ## Writing nodes -/

variable {sb : Superblock} {d : Device} {root root' : BitVec 64} {fuel : ℕ}

theorem Formatted.write (h : Formatted sb d) {block : ℕ}
    (hb : ¬ Metadata sb block) (data : Block) : Formatted sb (d.write block data) := by
  refine ⟨?_, h.bitmapStart, h.tracked, ?_⟩
  · rw [Device.write_of_ne _ fun heq => hb (Or.inl heq.symm)]
    exact h.magic
  · intro q hq
    have hlt := h.tracked q hq
    have hne : sb.bitmapStart + q / BITS_PER_BLOCK ≠ block := by
      rintro rfl
      exact hb (Or.inr ⟨Nat.le_add_right .., Nat.add_lt_add_left hlt _⟩)
    rw [Used, Device.write_of_ne _ hne]
    exact h.used q hq

/-- A new block for a node: the bitmap changes, no other block does. -/
theorem allocNodeBlock_spec {r : Option (BitVec 64)}
    (h : Formatted sb d) (ha : allocNodeBlock sb d = (r, d')) :
    Formatted sb d' ∧ (∀ block, block = 0 ∨ ¬ Metadata sb block → d' block = d block) ∧
      ∀ b, r = some b → ¬ Metadata sb b.toNat := by
  have hspec := allocateBlockInner_spec sb d
  obtain ⟨rfl, rfl⟩ : (allocateBlockInner sb d).1.map (BitVec.ofNat 64) = r ∧
      (allocateBlockInner sb d).2 = d' := Prod.mk.inj ha
  have hzero : (allocateBlockInner sb d).2 0 = d 0 :=
    hspec.kept 0 (Or.inl (Nat.lt_of_lt_of_le h.bitmapStart (Nat.le_add_right ..)))
  refine ⟨⟨?_, h.bitmapStart, h.tracked, fun q hq => hspec.grows q (h.used q hq)⟩, ?_, ?_⟩
  · rw [hzero]
    exact h.magic
  · rintro block (rfl | hblock)
    · exact hzero
    · apply hspec.kept
      by_contra hin
      exact hblock (Or.inr ⟨by omega, by omega⟩)
  · intro b hb
    obtain ⟨block, hsome, rfl⟩ := Option.map_eq_some_iff.mp hb
    obtain ⟨hlt, hclear, -⟩ := hspec.fresh block hsome
    rw [BitVec.toNat_ofNat, Nat.mod_eq_of_lt (Nat.lt_trans hlt sb.totalBlocks.isLt)]
    exact fun hmeta => hclear (h.used block hmeta)

theorem ofBlock_writeNode_self (d : Device) (b : BitVec 64) (n : BTreeNode) :
    ofBlock (writeNode d b n b.toNat) = n := by
  rw [writeNode, Device.write_self, ofBlock_toBlock]

theorem newRoot_spec {n : BTreeNode} (hr : newRoot sb d n = (.ok root, d')) :
    ∃ d₁, allocNodeBlock sb d = (some root, d₁) ∧ d' = writeNode d₁ root n := by
  rw [newRoot] at hr
  rcases hres : allocNodeBlock sb d with ⟨_ | b, d₁⟩
  · simp only [hres] at hr
    cases hr
  · simp only [hres] at hr
    cases hr
    exact ⟨d₁, rfl, rfl⟩

/-- What a successful insertion into a tree with a root does. -/
theorem insertExtent_cases
    (hroot : root ≠ 0) (hins : insertExtent sb fuel d root e = .ok (.ok root', d')) :
    (insertNonFull sb e fuel d root = .ok (.ok none, d') ∧ root' = root) ∨
      ∃ p d₁, insertNonFull sb e fuel d root = .ok (.ok (some p), d₁) ∧
        newRoot sb d₁ { (empty.setEntry 0 p.entry).setChildren [root, p.newChild] with
          numKeys := 1 } = (.ok root', d') := by
  rw [insertExtent, if_neg hroot] at hins
  split at hins
  · next p d₁ hrec => exact Or.inr ⟨p, d₁, hrec, Outcome.ok.inj hins⟩
  · next d₁ hrec =>
    cases hins
    exact Or.inl ⟨hrec, rfl⟩
  · cases hins
  · cases hins
  · cases hins

/-! ## One leaf -/

structure OneLeaf (sb : Superblock) (d : Device) (root : BitVec 64) (es : List Entry) : Prop where
  formatted : Formatted sb d
  block : ¬ Metadata sb root.toNat
  leaf : (ofBlock (d root.toNat)).isLeaf ≠ 0
  entries : (ofBlock (d root.toNat)).entries.Perm es

namespace OneLeaf

variable {sb : Superblock} {d : Device} {root : BitVec 64} {es : List Entry}

variable (h : OneLeaf sb d root es)

include h

theorem numKeys :
    (ofBlock (d root.toNat)).numKeys.toNat = es.length := by
  rw [← length_entries, h.entries.length_eq]

theorem root_ne : root ≠ 0 := by
  rintro rfl
  exact h.block (Or.inl rfl)

omit h in
theorem first (h : Formatted sb d)
    (hins : insertExtent sb fuel d 0 e = .ok (.ok root', d')) : OneLeaf sb d' root' [e] := by
  obtain ⟨d₁, halloc, rfl⟩ := newRoot_spec (Outcome.ok.inj hins)
  obtain ⟨hfmt, -, hblock⟩ := allocNodeBlock_spec h halloc
  have hblock := hblock root' rfl
  refine ⟨hfmt.write hblock _, hblock, ?_, ?_⟩
  · rw [ofBlock_writeNode_self]
    change (1 : BitVec 8) ≠ 0
    decide
  · rw [ofBlock_writeNode_self]
    exact List.Perm.of_eq rfl

theorem insert (hlen : es.length < KEY_MAX)
    (hins : insertExtent sb fuel d root e = .ok (.ok root', d')) :
    OneLeaf sb d' root' (es ++ [e]) := by
  have hroom : (ofBlock (d root.toNat)).numKeys.toNat < KEY_MAX := by
    rw [h.numKeys]
    exact hlen
  have hstep : ∀ r, insertNonFull sb e fuel d root = .ok r →
      r = (.ok none, writeNode d root ((ofBlock (d root.toNat)).insertLeaf e)) := by
    intro r hr
    cases fuel with
    | zero => cases hr
    | succ fuel =>
      rw [insertNonFull, if_neg (by omega), if_pos h.leaf, if_pos hroom] at hr
      exact (Outcome.ok.inj hr).symm
  rcases insertExtent_cases h.root_ne hins with ⟨hrec, rfl⟩ | ⟨p, d₁, hrec, -⟩
  · obtain ⟨-, rfl⟩ := Prod.mk.inj (hstep _ hrec)
    refine ⟨h.formatted.write h.block _, h.block, ?_, ?_⟩
    · rw [ofBlock_writeNode_self, insertLeaf_isLeaf]
      exact h.leaf
    · rw [ofBlock_writeNode_self]
      refine (insertLeaf_entries _ e hroom).trans ?_
      exact (h.entries.cons e).trans (List.perm_append_singleton e es).symm
  · cases hstep _ hrec

/-- The only leaf is asked, and has no more keys than fit. -/
theorem lookupExtent (hlen : es.length ≤ KEY_MAX) (off : BitVec 64) (fuel : ℕ) :
    Skyfs.lookupExtent d off (fuel + 1) root =
      .ok ((ofBlock (d root.toNat)).entries.findSome? (·.lookup off)) := by
  rw [Skyfs.lookupExtent, if_neg (by rw [h.numKeys]; exact Nat.not_lt.mpr hlen), if_pos h.leaf]

theorem isMap (hlen : es.length ≤ KEY_MAX) (hapart : es.Pairwise Apart)
    (hfits : ∀ e ∈ es, e.Fits) : IsMap d root es := by
  intro off
  refine ⟨1, _, h.lookupExtent hlen off 0, ?_, ?_⟩
  · intro e he hcovers
    have hfound : (ofBlock (d root.toNat)).entries.findSome? (·.lookup off) ≠ none := by
      intro hnone
      have := List.findSome?_eq_none_iff.mp hnone e (h.entries.mem_iff.mpr he)
      rw [hcovers.lookup (hfits e he)] at this
      cases this
    obtain ⟨x, hx⟩ := Option.ne_none_iff_exists'.mp hfound
    obtain ⟨e', he', hlookup⟩ := List.exists_of_findSome?_eq_some hx
    obtain ⟨hcovers', rfl⟩ := Entry.lookup_eq_some hlookup
    -- two entries that cover one block are the same
    have hsame : e' = e := by
      by_contra hne
      have hd := hapart.forall (h.entries.mem_iff.mp he') he hne
      exact hd off ⟨hcovers', hcovers⟩
    rw [hx, hsame]
  · intro hnone
    refine List.findSome?_eq_none_iff.mpr ?_
    intro e he
    cases hlookup : e.lookup off with
    | none => rfl
    | some x =>
      exact absurd (Entry.lookup_eq_some hlookup).1 (hnone e (h.entries.mem_iff.mp he))

end OneLeaf

/-- As long as nothing is split, insertions add to the leaf. -/
theorem insertAll_oneLeaf
    {done es : List Entry} (h : OneLeaf sb d root done) (hlen : (done ++ es).length ≤ KEY_MAX)
    (hrun : insertAll sb fuel d root es = some (d', root')) : OneLeaf sb d' root' (done ++ es) := by
  induction es generalizing d root done with
  | nil =>
    cases hrun
    rw [List.append_nil]
    exact h
  | cons e es ih =>
    rw [insertAll] at hrun
    split at hrun
    · next root₁ d₁ hins =>
      rw [List.append_cons] at hlen ⊢
      refine ih (h.insert ?_ hins) hlen hrun
      rw [List.length_append, List.length_append, List.length_singleton] at hlen
      omega
    · cases hrun

end Vahi.Skyfs
