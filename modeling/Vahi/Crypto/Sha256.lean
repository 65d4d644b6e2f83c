import Mathlib.Data.List.Basic
import Mathlib.Order.Bounds.Basic
import Mathlib.Tactic.Ring
import Vahi.Lib.Outcome

/-!
# SHA-256

`sha256` (`crates/crypto/src/sha256.rs`) with its buffers, against the digest of FIPS 180-4, which
is defined on the padded message as a whole.
-/

namespace Vahi.Crypto

open Vahi.Lib List
open Outcome (ok_bind)

abbrev Bytes := List (BitVec 8)

/-- `buf[start..stop].copy_from_slice(src)`. -/
def copyInto (buf : Bytes) (start stop : ℕ) (src : Bytes) : Outcome Bytes :=
  if start ≤ stop ∧ stop ≤ buf.length ∧ src.length = stop - start then
    .ok (buf.take start ++ src ++ buf.drop stop)
  else .panic

def zeros (n : ℕ) : Bytes := replicate n 0

/-- `u32::to_be_bytes`. -/
def toBeBytes (n : BitVec 32) : Bytes :=
  [n.extractLsb' 24 8, n.extractLsb' 16 8, n.extractLsb' 8 8, n.extractLsb' 0 8]

/-- `u64::to_be_bytes`. -/
def toBeBytes64 (n : BitVec 64) : Bytes :=
  toBeBytes (n.extractLsb' 32 32) ++ toBeBytes (n.extractLsb' 0 32)

/-- `u32::from_be_bytes` of the four bytes at `i`. -/
def fromBeBytes (bs : Bytes) (i : ℕ) : BitVec 32 :=
  bs.getD i 0 ++ bs.getD (i + 1) 0 ++ bs.getD (i + 2) 0 ++ bs.getD (i + 3) 0

/-- The eight words of a hash value, or the working variables of a block. -/
structure Words where
  a : BitVec 32
  b : BitVec 32
  c : BitVec 32
  d : BitVec 32
  e : BitVec 32
  f : BitVec 32
  g : BitVec 32
  h : BitVec 32
  deriving DecidableEq

namespace Words

def toList (v : Words) : List (BitVec 32) := [v.a, v.b, v.c, v.d, v.e, v.f, v.g, v.h]

def add (v w : Words) : Words :=
  ⟨v.a + w.a, v.b + w.b, v.c + w.c, v.d + w.d, v.e + w.e, v.f + w.f, v.g + w.g, v.h + w.h⟩

end Words

def H0 : Words :=
  ⟨0x6a09e667, 0xbb67ae85, 0x3c6ef372, 0xa54ff53a, 0x510e527f, 0x9b05688c, 0x1f83d9ab, 0x5be0cd19⟩

def K : List (BitVec 32) :=
  [0x428a2f98, 0x71374491, 0xb5c0fbcf, 0xe9b5dba5, 0x3956c25b, 0x59f111f1, 0x923f82a4, 0xab1c5ed5,
    0xd807aa98, 0x12835b01, 0x243185be, 0x550c7dc3, 0x72be5d74, 0x80deb1fe, 0x9bdc06a7, 0xc19bf174,
    0xe49b69c1, 0xefbe4786, 0x0fc19dc6, 0x240ca1cc, 0x2de92c6f, 0x4a7484aa, 0x5cb0a9dc, 0x76f988da,
    0x983e5152, 0xa831c66d, 0xb00327c8, 0xbf597fc7, 0xc6e00bf3, 0xd5a79147, 0x06ca6351, 0x14292967,
    0x27b70a85, 0x2e1b2138, 0x4d2c6dfc, 0x53380d13, 0x650a7354, 0x766a0abb, 0x81c2c92e, 0x92722c85,
    0xa2bfe8a1, 0xa81a664b, 0xc24b8b70, 0xc76c51a3, 0xd192e819, 0xd6990624, 0xf40e3585, 0x106aa070,
    0x19a4c116, 0x1e376c08, 0x2748774c, 0x34b0bcb5, 0x391c0cb3, 0x4ed8aa4a, 0x5b9cca4f, 0x682e6ff3,
    0x748f82ee, 0x78a5636f, 0x84c87814, 0x8cc70208, 0x90befffa, 0xa4506ceb, 0xbef9a3f7, 0xc67178f2]

/-! ### The function -/

/-- What the second loop of `sha256_block` puts into `w[t]`. -/
def scheduleWord (w : List (BitVec 32)) (t : ℕ) : BitVec 32 :=
  let x := w.getD (t - 15) 0
  let y := w.getD (t - 2) 0
  let s0 := x.rotateRight 7 ^^^ x.rotateRight 18 ^^^ x >>> 3
  let s1 := y.rotateRight 17 ^^^ y.rotateRight 19 ^^^ y >>> 10
  w.getD (t - 16) 0 + s0 + w.getD (t - 7) 0 + s1

/-- The array `w` of `sha256_block`. -/
def schedule (block : Bytes) : List (BitVec 32) :=
  let w := (range' 0 16).foldl (fun w t => w.set t (fromBeBytes block (t * 4))) (replicate 64 0)
  (range' 16 48).foldl (fun w t => w.set t (scheduleWord w t)) w

/-- One round of `sha256_block`, with `K[t]` and `w[t]`. -/
def round (v : Words) (k w : BitVec 32) : Words :=
  let s1 := v.e.rotateRight 6 ^^^ v.e.rotateRight 11 ^^^ v.e.rotateRight 25
  let ch := (v.e &&& v.f) ^^^ (~~~v.e &&& v.g)
  let temp1 := v.h + s1 + ch + k + w
  let s0 := v.a.rotateRight 2 ^^^ v.a.rotateRight 13 ^^^ v.a.rotateRight 22
  let maj := (v.a &&& v.b) ^^^ (v.a &&& v.c) ^^^ (v.b &&& v.c)
  let temp2 := s0 + maj
  ⟨temp1 + temp2, v.a, v.b, v.c, v.d + temp1, v.e, v.f, v.g⟩

/-- The working variables are added to the state after 64 rounds. -/
def sha256Block (h : Words) (block : Bytes) : Words :=
  let w := schedule block
  h.add ((range 64).foldl (fun v t => round v (K.getD t 0) (w.getD t 0)) h)

/-- The loop over the complete blocks; each copy overwrites all of the buffer. -/
def hashBlocks (data : Bytes) : List ℕ → Words → Outcome Words
  | [], h => .ok h
  | i :: is, h => do
    let block ← copyInto (zeros 64) 0 64 ((data.drop (i * 64)).take 64)
    hashBlocks data is (sha256Block h block)

/-- The loop that writes the digest. -/
def writeWords : List (BitVec 32) → ℕ → Bytes → Outcome Bytes
  | [], _, out => .ok out
  | w :: ws, i, out => do
    let out ← copyInto out (i * 4) (i * 4 + 4) (toBeBytes w)
    writeWords ws (i + 1) out

namespace Sha256

/-- The padding of the bytes behind the complete blocks, and the last one or two blocks. -/
def hashTail (h : Words) (remaining : ℕ) (tail : Bytes) (dataLenBits : BitVec 64) :
    Outcome Words := do
  let block ← copyInto (zeros 64) 0 remaining tail
  let block := block.set remaining 0x80
  -- the length does not fit into the block
  let (h, block) := if 64 < remaining + 1 + 8 then (sha256Block h block, zeros 64) else (h, block)
  let block ← copyInto block 56 64 (toBeBytes64 dataLenBits)
  return sha256Block h block

/-- Whole blocks first, then the tail with its padding; an `out` below 32 bytes panics. -/
def sha256 (data out : Bytes) : Outcome Bytes :=
  if 32 ≤ out.length then do
    let dataLenBits := BitVec.ofNat 64 data.length * 8
    let completeBlocks := data.length / 64
    let h ← hashBlocks data (range' 0 completeBlocks) H0
    let h ← hashTail h (data.length % 64) (data.drop (completeBlocks * 64)) dataLenBits
    writeWords h.toList 0 out
  else .panic

/-! ### The standard -/

def smallSigma0 (x : BitVec 32) : BitVec 32 := x.rotateRight 7 ^^^ x.rotateRight 18 ^^^ x >>> 3

def smallSigma1 (x : BitVec 32) : BitVec 32 := x.rotateRight 17 ^^^ x.rotateRight 19 ^^^ x >>> 10

/-- The words of the message schedule (FIPS 180-4, 6.2.2). -/
def W (block : Bytes) (t : ℕ) : BitVec 32 :=
  if t < 16 then fromBeBytes block (t * 4)
  else smallSigma1 (W block (t - 2)) + W block (t - 7) + smallSigma0 (W block (t - 15)) +
    W block (t - 16)

def compress (h : Words) (block : Bytes) : Words :=
  h.add ((range 64).foldl (fun v t => round v (K.getD t 0) (W block t)) h)

/-- How many zeros are between the bit 1 and the length of a message of `len` bytes. -/
def zeroCount (len : ℕ) : ℕ := (119 - len % 64) % 64

def lengthField (data : Bytes) : BitVec 64 := BitVec.ofNat 64 (8 * data.length)

/-- The padded message (FIPS 180-4, 5.1.1). -/
def pad (data : Bytes) : Bytes :=
  data ++ (0x80 :: zeros (zeroCount data.length) ++ toBeBytes64 (lengthField data))

def blocks : ℕ → Bytes → List Bytes
  | 0, _ => []
  | n + 1, bs => bs.take 64 :: blocks n (bs.drop 64)

def digest (data : Bytes) : Bytes :=
  ((blocks ((pad data).length / 64) (pad data)).foldl compress H0).toList.flatMap toBeBytes

end Sha256

/-! ### Buffers -/

variable {done rest src buf out : Bytes} {n : ℕ}

theorem take_length_left (done mid rest : Bytes) : (done ++ mid ++ rest).take done.length = done := by
  rw [append_assoc, take_left]

theorem copyInto_append (done : Bytes) {mid : Bytes} (rest : Bytes) (h : src.length = mid.length) :
    copyInto (done ++ mid ++ rest) done.length (done ++ mid).length src =
      .ok (done ++ src ++ rest) := by
  rw [copyInto, if_pos, take_length_left, drop_left]
  simp only [length_append]
  omega

theorem copyInto_front (hn : src.length = n) (hle : n ≤ buf.length) :
    copyInto buf 0 n src = .ok (src ++ buf.drop n) := by
  rw [copyInto, if_pos ⟨Nat.zero_le n, hle, hn⟩]
  rfl

theorem copyInto_back (hdone : done.length = n) (h : src.length = rest.length) :
    copyInto (done ++ rest) n (done ++ rest).length src = .ok (done ++ src) := by
  have happend := copyInto_append done [] h
  rwa [append_nil, append_nil, hdone] at happend

theorem length_zeros (n : ℕ) : (zeros n).length = n := length_replicate

theorem drop_zeros (m n : ℕ) : (zeros n).drop m = zeros (n - m) := drop_replicate

theorem zeros_add (m n : ℕ) : zeros (m + n) = zeros m ++ zeros n := (replicate_append_replicate ..).symm

theorem writeWords_eq (ws : List (BitVec 32)) (i : ℕ) (hdone : done.length = i * 4)
    (hrest : ws.length * 4 ≤ rest.length) :
    writeWords ws i (done ++ rest) =
      .ok (done ++ ws.flatMap toBeBytes ++ rest.drop (ws.length * 4)) := by
  induction ws generalizing i done rest with
  | nil => simp [writeWords]
  | cons w ws ih =>
    rw [length_cons, Nat.succ_mul] at hrest
    have hmid : (rest.take 4).length = 4 := by
      rw [length_take]
      omega
    have hcopy := copyInto_append done (rest.drop 4)
      (show (toBeBytes w).length = (rest.take 4).length from hmid.symm)
    rw [append_assoc, take_append_drop, length_append, hmid, hdone] at hcopy
    rw [writeWords, hcopy, ok_bind,
      ih (i + 1) (by rw [length_append, hdone]; exact (Nat.succ_mul i 4).symm)
        (by rw [length_drop]; omega),
      flatMap_cons, drop_drop, length_cons, Nat.succ_mul, Nat.add_comm 4, append_assoc done]

/-! ### Blocks -/

theorem length_foldl_set {f : List (BitVec 32) → ℕ → BitVec 32} (ts : List ℕ)
    (w : List (BitVec 32)) : (ts.foldl (fun w t => w.set t (f w t)) w).length = w.length := by
  induction ts generalizing w with
  | nil => rfl
  | cons t ts ih => rw [foldl_cons, ih, length_set]

/-- A loop that fills an array, each entry from those before it. -/
theorem getD_foldl_set {W : ℕ → BitVec 32} {f : List (BitVec 32) → ℕ → BitVec 32} {s : ℕ}
    {w : List (BitVec 32)} (hlen : s + n ≤ w.length) (hw : ∀ j < s, w.getD j 0 = W j)
    (hf : ∀ w t, s ≤ t → t < s + n → (∀ j < t, w.getD j 0 = W j) → f w t = W t) {j : ℕ}
    (hj : j < s + n) :
    ((range' s n).foldl (fun w t => w.set t (f w t)) w).getD j 0 = W j := by
  induction n generalizing s w with
  | zero => exact hw j hj
  | succ n ih =>
    rw [range'_succ, foldl_cons]
    refine ih (by rw [length_set]; omega) (fun i hi => ?_)
      (fun w t hs ht => hf w t (by omega) (by omega)) (by omega)
    rw [getD_eq_getElem?_getD, getElem?_set]
    split
    · next heq =>
      subst heq
      rw [if_pos (by omega), Option.getD_some]
      exact hf w s le_rfl (by omega) hw
    · rw [← getD_eq_getElem?_getD]
      exact hw i (by omega)

namespace Sha256

theorem getD_schedule (block : Bytes) {t : ℕ} (ht : t < 64) :
    (schedule block).getD t 0 = W block t := by
  have hlen : ((range' 0 16).foldl (fun w t => w.set t (fromBeBytes block (t * 4)))
      (replicate 64 0)).length = 64 := by
    rw [length_foldl_set (f := fun _ t => fromBeBytes block (t * 4)), length_replicate]
  rw [schedule]
  refine getD_foldl_set (W := W block) (f := scheduleWord) hlen.ge (fun j hj => ?_)
    (fun w t hs _ hw => ?_) ht
  · refine getD_foldl_set (W := W block) (f := fun _ t => fromBeBytes block (t * 4)) ?_
      (fun j hj => ?_) (fun _ t _ ht _ => ?_) (hj.trans_eq (Nat.zero_add 16).symm)
    · rw [length_replicate]
      decide
    · omega
    · rw [W, if_pos (by omega)]
  · rw [W, if_neg (by omega), scheduleWord, hw (t - 15) (by omega), hw (t - 2) (by omega),
      hw (t - 16) (by omega), hw (t - 7) (by omega), smallSigma0, smallSigma1]
    ac_rfl

theorem sha256Block_eq (h : Words) (block : Bytes) : sha256Block h block = compress h block := by
  rw [sha256Block, compress]
  refine congrArg h.add (foldl_ext _ _ _ fun v t ht => ?_)
  rw [getD_schedule block (mem_range.mp ht)]

theorem blocks_add (m n : ℕ) (bs : Bytes) :
    blocks (m + n) bs = blocks m bs ++ blocks n (bs.drop (m * 64)) := by
  induction m generalizing bs with
  | zero => simp [blocks]
  | succ m ih => rw [Nat.succ_add, blocks, blocks, ih, drop_drop, cons_append, Nat.succ_mul,
      Nat.add_comm 64]

theorem blocks_append {bs : Bytes} (h : n * 64 ≤ bs.length) (tail : Bytes) :
    blocks n (bs ++ tail) = blocks n bs := by
  induction n generalizing bs with
  | zero => rfl
  | succ n ih =>
    rw [Nat.succ_mul] at h
    rw [blocks, blocks, take_append_of_le_length (by omega), drop_append_of_le_length (by omega),
      ih (by rw [length_drop]; omega)]

theorem hashBlocks_eq (data : Bytes) (k n : ℕ) (h : Words) (hle : (k + n) * 64 ≤ data.length) :
    hashBlocks data (range' k n) h =
      .ok ((blocks n (data.drop (k * 64))).foldl compress h) := by
  induction n generalizing k h with
  | zero => rfl
  | succ n ih =>
    have hblock : ((data.drop (k * 64)).take 64).length = 64 := by
      rw [length_take, length_drop]
      omega
    rw [range'_succ, hashBlocks, copyInto_front hblock (length_zeros 64).ge, ok_bind, drop_zeros,
      sha256Block_eq, ih (k + 1) _ (by omega), blocks, drop_drop, foldl_cons, Nat.succ_mul]
    simp [zeros]

/-- There are as few zeros as there can be. -/
theorem isLeast_zeroCount (len : ℕ) : IsLeast {n | 64 ∣ len + 1 + n + 8} (zeroCount len) := by
  rw [zeroCount]
  refine ⟨?_, fun n hn => ?_⟩
  · simp only [Set.mem_ofPred_eq]
    omega
  · simp only [Set.mem_ofPred_eq] at hn
    omega

theorem length_toBeBytes64 (n : BitVec 64) : (toBeBytes64 n).length = 8 := rfl

theorem blocks_one {bs : Bytes} (h : bs.length = 64) : blocks 1 bs = [bs] := by
  rw [blocks, blocks, take_of_length_le h.le]

theorem copyInto_lengthField (hdone : done.length = 56) (field : BitVec 64) :
    copyInto (done ++ zeros 8) 56 64 (toBeBytes64 field) = .ok (done ++ toBeBytes64 field) := by
  have hcopy := copyInto_back hdone ((length_toBeBytes64 field).trans (length_zeros 8).symm)
  rwa [length_append, hdone, length_zeros] at hcopy

/-- The blocks that are made of the bytes behind the complete ones are the end of the padded
message: one if the length fits into it, else two. -/
theorem hashTail_eq (h : Words) {tail : Bytes} (htail : tail.length < 64) (field : BitVec 64) :
    hashTail h tail.length tail field =
      .ok ((blocks ((tail.length + 1 + zeroCount tail.length + 8) / 64)
        (tail ++ (0x80 :: zeros (zeroCount tail.length) ++ toBeBytes64 field))).foldl compress h) := by
  have hmarked : (tail ++ zeros (64 - tail.length)).set tail.length 0x80 =
      tail ++ 0x80 :: zeros (63 - tail.length) := by
    obtain ⟨m, hm⟩ : ∃ m, 64 - tail.length = m + 1 := ⟨63 - tail.length, by omega⟩
    rw [hm, show 63 - tail.length = m by omega, zeros, replicate_succ, set_append_right _ _ le_rfl,
      Nat.sub_self, set_cons_zero]
    rfl
  rw [hashTail, copyInto_front rfl (by rw [length_zeros]; omega), ok_bind, drop_zeros, hmarked]
  dsimp only
  by_cases hfit : 64 < tail.length + 1 + 8
  · have hcount : zeroCount tail.length = (63 - tail.length) + 56 := by
      rw [zeroCount]
      omega
    have hfirst : (tail ++ 0x80 :: zeros (63 - tail.length)).length = 64 := by
      rw [length_append, length_cons, length_zeros]
      omega
    have hsplit : tail ++ (0x80 :: zeros (zeroCount tail.length) ++ toBeBytes64 field) =
        (tail ++ 0x80 :: zeros (63 - tail.length)) ++ (zeros 56 ++ toBeBytes64 field) := by
      rw [hcount, zeros_add]
      simp
    rw [if_pos hfit, show zeros 64 = zeros 56 ++ zeros 8 from zeros_add 56 8,
      copyInto_lengthField (length_zeros 56), ok_bind, hsplit, hcount,
      show (tail.length + 1 + (63 - tail.length + 56) + 8) / 64 = 1 + 1 by omega, blocks_add,
      blocks_append hfirst.ge, blocks_one hfirst, Nat.one_mul, drop_left' hfirst,
      blocks_one (by rw [length_append, length_zeros, length_toBeBytes64])]
    rw [sha256Block_eq, sha256Block_eq]
    rfl
  · have hcount : zeroCount tail.length = 55 - tail.length := by
      rw [zeroCount]
      omega
    have hdone : (tail ++ 0x80 :: zeros (55 - tail.length)).length = 56 := by
      rw [length_append, length_cons, length_zeros]
      omega
    have hsplit : tail ++ 0x80 :: zeros (63 - tail.length) =
        (tail ++ 0x80 :: zeros (55 - tail.length)) ++ zeros 8 := by
      rw [show 63 - tail.length = 55 - tail.length + 8 by omega, zeros_add]
      simp
    rw [if_neg hfit, hsplit, copyInto_lengthField hdone, ok_bind, hcount,
      show (tail.length + 1 + (55 - tail.length) + 8) / 64 = 1 by omega, ← append_assoc,
      blocks_one (by rw [length_append, hdone, length_toBeBytes64]), sha256Block_eq]
    rfl

theorem length_pad (data : Bytes) :
    (pad data).length = data.length + (1 + zeroCount data.length + 8) := by
  rw [pad, length_append, length_append, length_cons, length_zeros, length_toBeBytes64,
    Nat.add_comm (zeroCount _)]

/-- The blocks of the padded message are the complete blocks of the message and those of its end. -/
theorem blocks_pad (data : Bytes) : blocks ((pad data).length / 64) (pad data) =
    blocks (data.length / 64) data ++
      blocks ((data.length % 64 + 1 + zeroCount (data.length % 64) + 8) / 64)
        (data.drop (data.length / 64 * 64) ++
          (0x80 :: zeros (zeroCount (data.length % 64)) ++ toBeBytes64 (lengthField data))) := by
  have hcount : zeroCount (data.length % 64) = zeroCount data.length := by
    rw [zeroCount, zeroCount, Nat.mod_mod]
  have hle : data.length / 64 * 64 ≤ data.length := Nat.div_mul_le_self ..
  rw [length_pad, hcount, show (data.length + (1 + zeroCount data.length + 8)) / 64 =
    data.length / 64 + (data.length % 64 + 1 + zeroCount data.length + 8) / 64 by omega,
    blocks_add, pad, blocks_append hle, drop_append_of_le_length hle]

theorem sha256_eq_ite (data out : Bytes) :
    sha256 data out = if 32 ≤ out.length then .ok (digest data ++ out.drop 32) else .panic := by
  rw [sha256]
  split
  · next hout =>
    have hfield : BitVec.ofNat 64 data.length * 8 = lengthField data := by
      rw [lengthField, Nat.mul_comm, BitVec.ofNat_mul]
      rfl
    have htail : (data.drop (data.length / 64 * 64)).length = data.length % 64 := by
      rw [length_drop]
      omega
    have hblocks := hashBlocks_eq data 0 (data.length / 64) H0 (by omega)
    have hlast := hashTail_eq ((blocks (data.length / 64) data).foldl compress H0)
      (show (data.drop (data.length / 64 * 64)).length < 64 by omega) (lengthField data)
    rw [Nat.zero_mul, drop_zero] at hblocks
    rw [htail] at hlast
    dsimp only
    rw [hblocks, ok_bind, hfield, hlast, ok_bind, ← foldl_append, ← blocks_pad]
    exact writeWords_eq (Words.toList _) 0 (rfl : ([] : Bytes).length = 0 * 4) hout
  · rfl

theorem length_digest (data : Bytes) : (digest data).length = 32 := rfl

/-- `sha256` writes the digest of the standard and leaves the rest of the buffer as it is. The
message is padded with as few zeros as there can be, and its length fits into the last field. -/
theorem sha256_eq_digest {data out : Bytes} (hdata : data.length < 2 ^ 61) (hout : 32 ≤ out.length) :
    sha256 data out = .ok (digest data ++ out.drop 32) ∧
      IsLeast {n | 64 ∣ data.length + 1 + n + 8} (zeroCount data.length) ∧
      (lengthField data).toNat = 8 * data.length := by
  refine ⟨?_, isLeast_zeroCount _, ?_⟩
  · rw [sha256_eq_ite, if_pos hout]
  · rw [lengthField, BitVec.toNat_ofNat]
    omega

/-- The digest of "abc", and a byte behind it that is kept. -/
theorem sha256_abc :
    sha256 [0x61, 0x62, 0x63] (zeros 32 ++ [7]) = .ok (digest [0x61, 0x62, 0x63] ++ [7]) ∧
      sha256 [0x61, 0x62, 0x63] (zeros 32 ++ [7]) =
        .ok [0xba, 0x78, 0x16, 0xbf, 0x8f, 0x01, 0xcf, 0xea, 0x41, 0x41, 0x40, 0xde, 0x5d, 0xae,
          0x22, 0x23, 0xb0, 0x03, 0x61, 0xa3, 0x96, 0x17, 0x7a, 0x9c, 0xb4, 0x10, 0xff, 0x61, 0xf2,
          0x00, 0x15, 0xad, 7] :=
  ⟨(sha256_eq_digest (by decide) (by decide)).1, by decide +kernel⟩

end Sha256

end Vahi.Crypto
