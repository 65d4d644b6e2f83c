import Vahi.Crypto.Sha256

/-!
# Message authentication and key derivation

`hmac_sha256` and `pbkdf2` (`crates/crypto/src/sha256.rs`) over any hash function with digests of
32 bytes, such as that of `Sha256`.
-/

namespace Vahi.Crypto

open Vahi.Lib List
open Outcome (ok_bind)

/-- A function that `sha256` could compute. -/
structure Hash where
  digest : Bytes → Bytes
  length_digest : ∀ data, (digest data).length = 32

def sha256 (H : Hash) (data out : Bytes) : Outcome Bytes :=
  if 32 ≤ out.length then .ok (H.digest data ++ out.drop 32) else .panic

/-- The function of the source. -/
def Hash.sha256 : Hash := ⟨Sha256.digest, Sha256.length_digest⟩

theorem sha256_source (data out : Bytes) : sha256 .sha256 data out = Sha256.sha256 data out :=
  (Sha256.sha256_eq_ite data out).symm

/-- The key, or its digest if it is longer than a block, padded with zeros. -/
def hmacKey (H : Hash) (key : Bytes) : Outcome Bytes :=
  if 64 < key.length then do copyInto (zeros 64) 0 32 (← sha256 H key (zeros 32))
  else copyInto (zeros 64) 0 key.length key

/-- The inner and the outer message are built in buffers; an `out` below 32 bytes panics. -/
def hmacSha256 (H : Hash) (key msg out : Bytes) : Outcome Bytes :=
  if 32 ≤ out.length then do
    let k ← hmacKey H key
    let inner ← copyInto (zeros (64 + msg.length)) 0 64 (k.map (· ^^^ 0x36))
    let inner ← copyInto inner 64 inner.length msg
    let innerHash ← sha256 H inner (zeros 32)
    let outer ← copyInto (zeros 96) 0 64 (k.map (· ^^^ 0x5c))
    let outer ← copyInto outer 64 outer.length innerHash
    sha256 H outer out
  else .panic

/-- `out[j] ^= u[j - start]` for `j` in `start..stop`. -/
def xorInto (out u : Bytes) (start stop : ℕ) : Bytes :=
  out.take start ++ zipWith (· ^^^ ·) ((out.take stop).drop start) (u.take (stop - start)) ++
    out.drop stop

def paddedKey (H : Hash) (key : Bytes) : Bytes :=
  if 64 < key.length then H.digest key ++ zeros 32 else key ++ zeros (64 - key.length)

/-- RFC 2104. -/
def hmac (H : Hash) (key msg : Bytes) : Bytes :=
  H.digest ((paddedKey H key).map (· ^^^ 0x5c) ++
    H.digest ((paddedKey H key).map (· ^^^ 0x36) ++ msg))

variable {H : Hash} {u out done rest : Bytes}

theorem sha256_eq (data : Bytes) (hout : out.length = 32) :
    sha256 H data out = .ok (H.digest data) := by
  rw [sha256, if_pos hout.ge, drop_of_length_le hout.le, append_nil]

theorem hmacKey_eq (key : Bytes) : hmacKey H key = .ok (paddedKey H key) := by
  rw [hmacKey, paddedKey]
  split
  · rw [sha256_eq key (length_zeros 32), ok_bind,
      copyInto_front (H.length_digest key) (by rw [length_zeros]; decide), drop_zeros]
  · rw [copyInto_front rfl (by rw [length_zeros]; omega), drop_zeros]

theorem length_paddedKey (key : Bytes) : (paddedKey H key).length = 64 := by
  rw [paddedKey]
  split
  · rw [length_append, H.length_digest, length_zeros]
  · rw [length_append, length_zeros]
    omega

theorem length_hmac (key msg : Bytes) : (hmac H key msg).length = 32 := H.length_digest _

theorem hmacSha256_eq (key msg : Bytes) (hout : out.length = 32) :
    hmacSha256 H key msg out = .ok (hmac H key msg) := by
  have hpad (b : BitVec 8) : ((paddedKey H key).map (· ^^^ b)).length = 64 := by
    rw [length_map, length_paddedKey]
  rw [hmacSha256, if_pos hout.ge, hmacKey_eq, ok_bind,
    copyInto_front (hpad _) (by rw [length_zeros]; omega), ok_bind,
    copyInto_back (hpad _) (by rw [drop_zeros, length_zeros]; omega), ok_bind,
    sha256_eq _ (length_zeros 32), ok_bind,
    copyInto_front (hpad _) (by rw [length_zeros]; decide), ok_bind,
    copyInto_back (hpad _) (by rw [H.length_digest, drop_zeros, length_zeros]), ok_bind,
    sha256_eq _ hout]
  rfl

structure Pbkdf2Args where
  H : Hash
  password : Bytes
  salt : Bytes
  iterations : ℕ

namespace Pbkdf2Args

variable (a : Pbkdf2Args)

/-- The rounds behind the first: each hashes the last `u` and is xored into its part of `out`. -/
def accumulate (start stop : ℕ) : ℕ → Bytes → Bytes → Outcome (Bytes × Bytes)
  | 0, u, out => .ok (u, out)
  | n + 1, u, out => do
    let u ← hmacSha256 a.H a.password u (zeros 32)
    accumulate start stop n u (xorInto out u start stop)

/-- The body of the outer loop, with `block - 1` for `i`. -/
def deriveBlock (i : ℕ) (u out : Bytes) : Outcome (Bytes × Bytes) := do
  let saltBlock ← copyInto (zeros (a.salt.length + 4)) 0 a.salt.length a.salt
  let saltBlock ← copyInto saltBlock a.salt.length saltBlock.length
    (toBeBytes (BitVec.ofNat 32 (i + 1)))
  let u ← hmacSha256 a.H a.password saltBlock u
  let stop := min (i * 32 + 32) out.length
  let out ← copyInto out (i * 32) stop (u.take (stop - i * 32))
  a.accumulate (i * 32) stop (a.iterations - 1) u out

/-- The buffer `u` of one block is where the next one starts. -/
def deriveBlocks : List ℕ → Bytes → Bytes → Outcome Bytes
  | [], _, out => .ok out
  | i :: is, u, out => do
    let (u, out) ← a.deriveBlock i u out
    deriveBlocks is u out

/-- The blocks of `out` in turn; the count of iterations is asserted not to be zero. -/
def pbkdf2 (out : Bytes) : Outcome Bytes :=
  if 1 ≤ a.iterations then a.deriveBlocks (range' 0 ((out.length + 31) / 32)) (zeros 32) out
  else .panic

/-- `U_(j+1)` of the block `i + 1`. -/
def U (i : ℕ) : ℕ → Bytes
  | 0 => hmac a.H a.password (a.salt ++ toBeBytes (BitVec.ofNat 32 (i + 1)))
  | j + 1 => hmac a.H a.password (U i j)

/-- `U_1 xor ... xor U_(j+1)`. -/
def xorU (i : ℕ) : ℕ → Bytes
  | 0 => a.U i 0
  | j + 1 => zipWith (· ^^^ ·) (xorU i j) (a.U i (j + 1))

def T (i : ℕ) : Bytes := a.xorU i (a.iterations - 1)

/-- RFC 2898. -/
def derivedKey (len : ℕ) : Bytes := ((range' 0 ((len + 31) / 32)).flatMap a.T).take len

variable {a}

theorem length_U (i j : ℕ) : (a.U i j).length = 32 := by
  cases j with
  | zero | succ => exact length_hmac _ _

theorem length_xorU (i j : ℕ) : (a.xorU i j).length = 32 := by
  induction j with
  | zero => exact length_U i 0
  | succ j ih => rw [xorU, length_zipWith, ih, length_U, Nat.min_self]

theorem accumulate_eq (i n j m : ℕ) (done rest : Bytes) (hm : m ≤ 32) :
    a.accumulate done.length (done.length + m) n (a.U i j) (done ++ (a.xorU i j).take m ++ rest) =
      .ok (a.U i (j + n), done ++ (a.xorU i (j + n)).take m ++ rest) := by
  induction n generalizing j with
  | zero => rfl
  | succ n ih =>
    have hnext : xorInto (done ++ (a.xorU i j).take m ++ rest) (a.U i (j + 1)) done.length
        (done.length + m) = done ++ (a.xorU i (j + 1)).take m ++ rest := by
      have hlen : done.length + m = (done ++ (a.xorU i j).take m).length := by
        rw [length_append, length_take, length_xorU, Nat.min_eq_left hm]
      rw [xorInto, xorU, take_zipWith, Nat.add_sub_cancel_left, take_length_left, hlen, take_left,
        drop_left, drop_left]
    rw [accumulate, hmacSha256_eq _ _ (by rw [zeros, length_replicate]), ok_bind]
    have ih := ih (j + 1)
    rw [Nat.add_right_comm, ← hnext] at ih
    exact ih

theorem deriveBlock_eq (i : ℕ) (hu : u.length = 32) (hdone : done.length = i * 32) :
    a.deriveBlock i u (done ++ rest) = .ok (a.U i (a.iterations - 1),
      done ++ (a.T i).take (min 32 rest.length) ++ rest.drop (min 32 rest.length)) := by
  obtain ⟨m, hm⟩ : ∃ m, min 32 rest.length = m := ⟨_, rfl⟩
  have hstop : min (i * 32 + 32) (done ++ rest).length = done.length + m := by
    rw [length_append]
    omega
  have hmid : (rest.take m).length = m := by
    rw [length_take]
    omega
  have hsrc : ((a.U i 0).take m).length = (rest.take m).length := by
    rw [hmid, length_take, length_U]
    omega
  have hcopy := copyInto_append done (rest.drop m) hsrc
  rw [append_assoc, take_append_drop, length_append, hmid] at hcopy
  have hloop := a.accumulate_eq i (a.iterations - 1) 0 m done (rest.drop m) (by omega)
  rw [Nat.zero_add] at hloop
  rw [deriveBlock, copyInto_front rfl (by rw [length_zeros]; omega), ok_bind,
    copyInto_back rfl (by rw [drop_zeros, length_zeros, Nat.add_sub_cancel_left]; rfl),
    ok_bind, hmacSha256_eq _ _ hu, ok_bind]
  dsimp only
  rw [hm, hstop, ← hdone, Nat.add_sub_cancel_left]
  change copyInto _ _ _ ((a.U i 0).take m) >>= _ = _
  rw [hcopy]
  exact hloop

theorem length_T (i : ℕ) : (a.T i).length = 32 := length_xorU i _

theorem deriveBlocks_eq (k n : ℕ) (hu : u.length = 32) (hdone : done.length = k * 32)
    (hn : (rest.length + 31) / 32 = n) :
    a.deriveBlocks (range' k n) u (done ++ rest) =
      .ok (done ++ ((range' k n).flatMap a.T).take rest.length) := by
  induction n generalizing k u done rest with
  | zero =>
    obtain rfl : rest = [] := length_eq_zero_iff.mp (by omega)
    rfl
  | succ n ih =>
    rw [range'_succ, deriveBlocks, deriveBlock_eq k hu hdone, ok_bind, flatMap_cons]
    dsimp only
    by_cases hfull : 32 ≤ rest.length
    · have hT : (a.T k).take 32 = a.T k := take_of_length_le (length_T k).le
      have hall : (a.T k).take rest.length = a.T k :=
        take_of_length_le ((length_T k).le.trans hfull)
      rw [Nat.min_eq_left hfull, hT,
        ih (k + 1) (length_U _ _) (by rw [length_append, length_T]; omega)
          (by rw [length_drop]; omega),
        append_assoc, take_append, hall, length_T, length_drop]
    · obtain rfl : n = 0 := by omega
      rw [drop_of_length_le (by omega), append_nil, Nat.min_eq_right (by omega), range'_zero,
        flatMap_nil, append_nil]
      rfl

theorem length_flatMap_T (k n : ℕ) : ((range' k n).flatMap a.T).length = n * 32 := by
  induction n generalizing k with
  | zero => rfl
  | succ n ih =>
    rw [range'_succ, flatMap_cons, length_append, length_T, ih, Nat.succ_mul, Nat.add_comm]

/-- The output is the key of the standard, and a shorter one is the beginning of a longer one. -/
theorem pbkdf2_eq_derivedKey (a : Pbkdf2Args) (hiterations : 1 ≤ a.iterations) (out : Bytes) :
    a.pbkdf2 out = .ok (a.derivedKey out.length) ∧
      ∀ m ≤ out.length, a.derivedKey m = (a.derivedKey out.length).take m := by
  refine ⟨?_, fun m hm => ?_⟩
  · rw [pbkdf2, if_pos hiterations]
    exact deriveBlocks_eq 0 _ (length_zeros 32) (rfl : ([] : Bytes).length = 0 * 32) rfl
  · obtain ⟨n, hn⟩ : ∃ n, (out.length + 31) / 32 = (m + 31) / 32 + n :=
      Nat.exists_eq_add_of_le (by omega)
    rw [derivedKey, derivedKey, take_take, Nat.min_eq_left hm, hn, ← range'_append_1, flatMap_append,
      take_append_of_le_length]
    rw [length_flatMap_T]
    omega

/-- Three iterations, and an output that ends within the second block. -/
theorem pbkdf2_eq_derivedKey_sha256 :
    let a : Pbkdf2Args := ⟨.sha256, [0x70, 0x77], [0x73, 0x61, 0x6c, 0x74], 3⟩
    a.pbkdf2 (zeros 40) = .ok (a.derivedKey 40) ∧ a.derivedKey 20 = (a.derivedKey 40).take 20 := by
  obtain ⟨hkey, hshorter⟩ := pbkdf2_eq_derivedKey
    ⟨.sha256, [0x70, 0x77], [0x73, 0x61, 0x6c, 0x74], 3⟩ (show 1 ≤ 3 by decide) (zeros 40)
  exact ⟨hkey, hshorter 20 (by decide)⟩

end Pbkdf2Args

end Vahi.Crypto
