import Mathlib.Data.List.Basic
import Mathlib.Data.List.GetD
import Mathlib.Tactic.Ring

/-!
# Files made of extents

An extent maps consecutive blocks of a file to consecutive blocks of a device; elsewhere, and where
the extent is marked as not written, the file reads as zeros.
-/

namespace Vahi.Lib.Extents

open List

structure Extent where
  block : ℕ
  len : ℕ
  start : ℕ
  written : Bool
  deriving DecidableEq

def Extent.Covers (e : Extent) (k : ℕ) : Prop := e.block ≤ k ∧ k < e.block + e.len

instance (e : Extent) (k : ℕ) : Decidable (e.Covers k) := inferInstanceAs (Decidable (_ ∧ _))

def physicalBlock (extents : List Extent) (k : ℕ) : Option ℕ :=
  (extents.find? fun e => e.Covers k).bind fun e =>
    if e.written then some (e.start + (k - e.block)) else none

section Contents

variable {β : Type*} [Zero β] (blockSize : ℕ) (device : ℕ → β)

def fileByte (extents : List Extent) (o : ℕ) : β :=
  match physicalBlock extents (o / blockSize) with
  | some p => device (p * blockSize + o % blockSize)
  | none => 0

def contents (extents : List Extent) (size : ℕ) : List β :=
  (List.range size).map (fileByte blockSize device extents)

def blockBytes (p : ℕ) : List β := (List.range blockSize).map fun i => device (p * blockSize + i)

end Contents

variable {extents : List Extent}

/-! ### Blocks one after the other -/

variable {β : Type*} {blockSize : ℕ} (device : ℕ → β)

@[simp] theorem length_blockBytes (p : ℕ) : (blockBytes blockSize device p).length = blockSize := by
  rw [blockBytes, length_map, length_range]

/-- Byte `o` of blocks one after the other. -/
theorem getElem?_flatMap_blockBytes (hsize : 0 < blockSize) {blocks : List ℕ} {o p : ℕ}
    (hp : blocks[o / blockSize]? = some p) :
    (blocks.flatMap (blockBytes blockSize device))[o]? =
      some (device (p * blockSize + o % blockSize)) := by
  induction blocks generalizing o with
  | nil => cases hp
  | cons b blocks ih =>
    rw [flatMap_cons]
    by_cases ho : o < blockSize
    · rw [Nat.div_eq_of_lt ho] at hp
      cases hp
      rw [getElem?_append_left (by rw [length_blockBytes]; exact ho), blockBytes,
        getElem?_map, getElem?_range ho, Nat.mod_eq_of_lt ho]
      rfl
    · have hle : blockSize ≤ o := Nat.le_of_not_lt ho
      rw [getElem?_append_right (by rw [length_blockBytes]; exact hle), length_blockBytes,
        Nat.mod_eq_sub_mod hle]
      rw [Nat.div_eq_sub_div hsize hle, getElem?_cons_succ] at hp
      exact ih hp

theorem length_flatMap_blockBytes (blocks : List ℕ) :
    (blocks.flatMap (blockBytes blockSize device)).length = blocks.length * blockSize := by
  induction blocks with
  | nil => rw [flatMap_nil, length_nil, length_nil, Nat.zero_mul]
  | cons b blocks ih =>
    rw [flatMap_cons, length_append, length_blockBytes, ih, length_cons, Nat.succ_mul,
      Nat.add_comm]

theorem getElem?_contents [Zero β] {size o : ℕ} (ho : o < size) :
    (contents blockSize device extents size)[o]? = some (fileByte blockSize device extents o) := by
  rw [contents, getElem?_map, getElem?_range ho, Option.map_some]

/-- The first bytes of some blocks are those of a file, whatever the device holds, just when there
are as many and each block is the one that an extent has there. -/
theorem take_eq_contents_iff [Zero β] [Nontrivial β] (hsize : 0 < blockSize)
    (extents : List Extent) (blocks : List ℕ) (n size : ℕ) :
    (∀ device : ℕ → β, (blocks.flatMap (blockBytes blockSize device)).take n =
        contents blockSize device extents size) ↔
      min n (blocks.length * blockSize) = size ∧
        ∀ k, k * blockSize < size → ∃ p, blocks[k]? = some p ∧ physicalBlock extents k = some p := by
  have hlength (device : ℕ → β) : (contents blockSize device extents size).length = size := by
    rw [contents, length_map, length_range]
  constructor
  · intro h
    have hmin : min n (blocks.length * blockSize) = size := by
      have := congrArg length (h fun _ => 0)
      rwa [length_take, length_flatMap_blockBytes, hlength] at this
    refine ⟨hmin, fun k hk => ?_⟩
    have hlt : k < blocks.length := Nat.lt_of_mul_lt_mul_right (a := blockSize) (by omega)
    refine ⟨_, getElem?_eq_getElem hlt, ?_⟩
    -- a device on which only the first byte of this block is not zero
    obtain ⟨one, hone⟩ := exists_ne (0 : β)
    have hbyte := congrArg (·[k * blockSize]?)
      (h fun addr => if addr = blocks[k] * blockSize then one else 0)
    have hdiv : k * blockSize / blockSize = k := Nat.mul_div_cancel k hsize
    have hmod : k * blockSize % blockSize = 0 := Nat.mul_mod_left k blockSize
    rw [getElem?_take_of_lt (by omega), getElem?_contents _ hk,
      getElem?_flatMap_blockBytes (p := blocks[k]) _ hsize
        (by rw [hdiv]; exact getElem?_eq_getElem hlt), hmod, Nat.add_zero, if_pos rfl,
      fileByte, hdiv, hmod] at hbyte
    split at hbyte
    · next q hq =>
      rw [Nat.add_zero] at hbyte
      split at hbyte
      · next heq => rw [hq, Nat.eq_of_mul_eq_mul_right hsize heq]
      · exact absurd (Option.some.inj hbyte) hone
    · exact absurd (Option.some.inj hbyte) hone
  · intro ⟨hmin, hblocks⟩ device
    refine ext_getElem? fun o => ?_
    by_cases ho : o < size
    · obtain ⟨p, hp, hphys⟩ := hblocks (o / blockSize)
        (Nat.lt_of_le_of_lt (Nat.div_mul_le_self o blockSize) ho)
      rw [getElem?_take_of_lt (by omega), getElem?_flatMap_blockBytes device hsize hp,
        getElem?_contents device ho, fileByte, hphys]
    · have htake : ((blocks.flatMap (blockBytes blockSize device)).take n).length ≤ o := by
        rw [length_take, length_flatMap_blockBytes]
        omega
      rw [getElem?_eq_none htake, getElem?_eq_none (by rw [hlength]; omega)]

end Vahi.Lib.Extents
