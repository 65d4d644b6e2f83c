import Vahi.Syscalls.Mmap

/-!
# The pages of `mremap`

`sys_mremap` (`kernel/src/syscalls/fs_io.rs`) with the page tables. A page that moves, or is mapped
back when the move fails, gets the flags of its area: a copy-on-write page becomes writable.
-/

namespace Vahi.Syscalls

open Vahi.Lib Vahi.Types Vahi.Memory Vahi.Task Function
open Outcome (ok_bind)

/-- What is mapped, the number of calls of `map_to` so far, and the frames that were given up. -/
structure Tables where
  pages : PageMap
  calls : ℕ := 0
  released : List ℕ := []

/-- The page of an address that is `i` pages behind `addr`. -/
def pageAt (addr : BitVec 64) (i : ℕ) : Outcome ℕ := do
  let va ← virtAddrNew (addr + BitVec.ofNat 64 (4096 * i))
  return va.toNat / 4096

namespace Tables

variable (fails : ℕ → ℕ → Bool) (s : Tables)

/-- The frame that `unmap` gives back: none if the page is not mapped or not of 4 KiB. -/
def frameAt (pages : PageMap) (page : ℕ) : Option ℕ :=
  match pages page with
  | some e => if e.present ∧ !e.huge then some e.frame else none
  | none => none

def unmap (page : ℕ) : Option (ℕ × Tables) :=
  (frameAt s.pages page).map fun frame => (frame, { s with pages := update s.pages page none })

/-- `map_to`; `fails n page` says that call `n` finds no frame for a table above the page. -/
def mapTo (page frame : ℕ) (flags : BitVec 64) : Bool × Tables :=
  if fails s.calls page ∨ (s.pages page).isSome then (false, { s with calls := s.calls + 1 })
  else (true, { s with pages := update s.pages page (some ⟨frame, flags⟩), calls := s.calls + 1 })

def release (frame : ℕ) : Tables := { s with released := frame :: s.released }

/-- The pages that a smaller area loses, `n` from page `i` on. -/
def unmapFrom (addr : BitVec 64) : ℕ → ℕ → Tables → Outcome Tables
  | 0, _, s => .ok s
  | n + 1, i, s => do
    let page ← pageAt addr i
    match s.unmap page with
    | some (frame, s) => unmapFrom addr n (i + 1) (s.release frame)
    | none => unmapFrom addr n (i + 1) s

/-- Pages that were moved are mapped back, `n` from page `i` on. -/
def rollback (flags old dest : BitVec 64) : ℕ → ℕ → Tables → Outcome Tables
  | 0, _, s => .ok s
  | n + 1, i, s => do
    let src ← pageAt old i
    let dst ← pageAt dest i
    match s.unmap dst with
    | some (frame, s) => rollback flags old dest n (i + 1) (s.mapTo fails src frame flags).2
    | none => rollback flags old dest n (i + 1) s

/-- The loop that moves `n` pages from page `i` on, and whether all were moved. -/
def movePages (flags old dest : BitVec 64) : ℕ → ℕ → Tables → Outcome (Bool × Tables)
  | 0, _, s => .ok (true, s)
  | n + 1, i, s => do
    let src ← pageAt old i
    let dst ← pageAt dest i
    match s.unmap src with
    | none => movePages flags old dest n (i + 1) s
    | some (frame, s) =>
      match s.mapTo fails dst frame flags with
      | (true, s) => movePages flags old dest n (i + 1) s
      | (false, s) => do
        let s := match s.mapTo fails src frame flags with
          | (true, s) => s
          | (false, s) => s.release frame
        let s ← rollback fails flags old dest i 0 s
        return (false, s)

end Tables

/-- `sys_mremap`; there is a mapper if `args.pages` is true. -/
def mremap (fails : ℕ → ℕ → Bool) (args : MremapArgs) (m : ProcessMemory) (s : Tables) :
    Outcome (ProcessMemory × Tables × Except Errno (BitVec 64)) :=
  match args.area m.vmas with
  | .error e => .ok (m, s, .error e)
  | .ok v =>
    let resized := { m with vmas := resizeAt args.oldAddress args.newEnd m.vmas }
    if args.newSize = args.oldSize ∧ !args.fixed then .ok (m, s, .ok args.oldAddress)
    else if args.newSize < args.oldSize then do
      let n := if args.pages then (args.oldEnd.toNat - args.newEnd.toNat) / 4096 else 0
      let s ← s.unmapFrom args.newEnd n 0
      return (resized, s, .ok args.oldAddress)
    else if args.oldSize < args.newSize ∧ !args.blocked m.vmas then
      .ok (resized, s, .ok args.oldAddress)
    else if args.oldSize < args.newSize ∧ !args.mayMove then .ok (m, s, .error .enomem)
    else do
      match ← args.dest m.vmas with
      | .error e => return (m, s, .error e)
      | .ok dest =>
        if !args.pages then return (m, s, .error .enomem)
        else
          let n := (args.oldEnd.toNat - args.oldAddress.toNat) / 4096
          match ← s.movePages fails (v.flags ||| 1) args.oldAddress dest n 0 with
          | (true, s) =>
            let vmas := insertVmaLocked (args.others m.vmas) (args.moved v dest)
            return ({ m with vmas }, s, .ok dest)
          | (false, s) => return (m, s, .error .enomem)

/-- The entry for the page of a byte, and the place of the byte in its frame. -/
def byteAt (pages : PageMap) (va : ℕ) : Option (PageEntry × ℕ) :=
  (pages (va / 4096)).map (·, va % 4096)

/-- The other entry shows the same frame and gives no more rights; what is copied on write still
is. -/
structure NoMore (e e' : PageEntry) : Prop where
  frame : e'.frame = e.frame
  present : e'.present = e.present
  user : e'.user = e.user
  writable : e'.writable → e.writable
  -- `NO_EXECUTE` and the copy-on-write bit
  noExecute : e.flags.getLsbD 63 → e'.flags.getLsbD 63
  cow : e.flags.getLsbD 9 → e'.flags.getLsbD 9

/-- The bytes that the old and the new area have in common are where they were, with no more rights
than they had; a call that fails has changed nothing. -/
def Kept (args : MremapArgs) (m : ProcessMemory) (s : Tables) :
    ProcessMemory × Tables × Except Errno (BitVec 64) → Prop
  | (_, s', .ok addr) => ∀ i < args.oldSize.toNat, i < args.newSize.toNat →
    Option.Rel (fun x y => NoMore x.1 y.1 ∧ x.2 = y.2)
      (byteAt s.pages (args.oldAddress.toNat + i)) (byteAt s'.pages (addr.toNat + i))
  | (m', s', .error _) => m' = m ∧ s'.pages = s.pages ∧ s'.released = s.released

/-! ### Which moves are right -/

section MoveOk

open Tables (frameAt)

variable (fails : ℕ → ℕ → Bool) (flags : BitVec 64) (a b : ℕ) (s : Tables)

/-- The pages before the `k`th that are mapped, each of which took a call of `map_to`. -/
def mappedBefore (pages : PageMap) (a k : ℕ) : ℕ :=
  (List.range k).countP fun j => (frameAt pages (a + j)).isSome

/-- Page `k` is mapped and cannot be mapped at its destination. -/
def Stuck (k : ℕ) : Prop :=
  (frameAt s.pages (a + k)).isSome ∧
    (fails (s.calls + mappedBefore s.pages a k) (b + k) ∨ (s.pages (b + k)).isSome)

/-- The move of `n` pages from page `a` to page `b`. If one is stuck, it and those before it have
the flags of the area, and where one before it is not mapped neither is its destination. If none
is, every page that is mapped has at least the rights of the area, and what is not mapped is the
same at the destination. -/
structure MoveOk (n : ℕ) : Prop where
  stuck : ∀ f < n, Stuck fails a b s f → (∀ k < f, ¬ Stuck fails a b s k) →
    (∀ k ≤ f, ∀ e, s.pages (a + k) = some e → (frameAt s.pages (a + k)).isSome →
      e.flags = flags) ∧
    ∀ k < f, frameAt s.pages (a + k) = none → frameAt s.pages (b + k) = none
  done : (∀ k < n, ¬ Stuck fails a b s k) → ∀ k < n,
    Option.Rel NoMore (s.pages (a + k))
      ((frameAt s.pages (a + k)).elim (s.pages (b + k)) fun frame => some ⟨frame, flags⟩)

end MoveOk

variable {fails : ℕ → ℕ → Bool} {addr old dest flags : BitVec 64} {s : Tables} {a b i k n N : ℕ}
  {pages : PageMap} {e : PageEntry}

theorem pageAt_eq (addr : BitVec 64) (h : addr.toNat + 4096 * i < userEnd) :
    pageAt addr i = .ok (addr.toNat / 4096 + i) := by
  rw [userEnd] at h
  have hnat : (addr + BitVec.ofNat 64 (4096 * i)).toNat = addr.toNat + 4096 * i := by
    rw [BitVec.toNat_add, BitVec.toNat_ofNat]
    omega
  have htop : (addr.toNat + 4096 * i) / 2 ^ 47 = 0 := Nat.div_eq_of_lt h
  rw [pageAt, virtAddrNew, hnat, htop, if_pos (.inl rfl), ok_bind, hnat,
    Nat.add_mul_div_left _ _ (by decide)]
  rfl

namespace Tables

theorem frameAt_of_eq {q : ℕ} {pages' : PageMap} (h : pages' q = pages k) :
    frameAt pages' q = frameAt pages k := by
  rw [frameAt, frameAt, h]

theorem exists_of_frameAt {frame : ℕ} (h : frameAt pages k = some frame) :
    ∃ e, pages k = some e ∧ e.frame = frame ∧ e.present = true := by
  rw [frameAt] at h
  split at h
  · next e he =>
    split at h
    · next hp => exact ⟨e, he, Option.some.inj h, hp.1⟩
    · cases h
  · cases h

/-- The pages `0` to `i` that are mapped have moved from `a` on to `b` on. -/
def moved (flags : BitVec 64) (a b i : ℕ) (pages : PageMap) : PageMap := fun q =>
  if b ≤ q ∧ q < b + i then
    (frameAt pages (a + (q - b))).elim (pages q) fun frame => some ⟨frame, flags⟩
  else if a ≤ q ∧ q < a + i ∧ (frameAt pages q).isSome then none
  else pages q

theorem moved_zero : moved flags a b 0 pages = pages := by
  funext q
  rw [moved, if_neg (by omega), if_neg (by omega)]

theorem moved_dst (hk : k < i) : moved flags a b i pages (b + k) =
    (frameAt pages (a + k)).elim (pages (b + k)) fun frame => some ⟨frame, flags⟩ := by
  rw [moved, if_pos (by omega), Nat.add_sub_cancel_left]

section Move

variable (hapart : a + N ≤ b ∨ b + N ≤ a)

include hapart

theorem moved_src (hi : i ≤ N) (hk : k < i) : moved flags a b i pages (a + k) =
    if (frameAt pages (a + k)).isSome then none else pages (a + k) := by
  rw [moved, if_neg (by omega)]
  exact if_congr (by simp [hk]) rfl rfl

theorem moved_succ_of_none (hi : i < N) (h : frameAt pages (a + i) = none) :
    moved flags a b (i + 1) pages = moved flags a b i pages := by
  funext q
  by_cases hb : q = b + i
  · rw [hb, moved_dst (Nat.lt_succ_self i), h, moved, if_neg (by omega), if_neg (by omega)]
    rfl
  by_cases ha : q = a + i
  · have hdst : ¬ (b ≤ a + i ∧ a + i < b + i) := by omega
    rw [ha, moved_src hapart hi (Nat.lt_succ_self i), moved, if_neg hdst, h]
    exact (if_neg (by decide)).trans (if_neg (by omega)).symm
  · have hdst : (b ≤ q ∧ q < b + (i + 1)) ↔ (b ≤ q ∧ q < b + i) := by omega
    have hsrc : (a ≤ q ∧ q < a + (i + 1)) ↔ (a ≤ q ∧ q < a + i) := by omega
    simp only [moved, hdst, ← and_assoc, hsrc]

theorem moved_succ_of_some {frame : ℕ} (hi : i < N) (h : frameAt pages (a + i) = some frame) :
    moved flags a b (i + 1) pages =
      update (update (moved flags a b i pages) (a + i) none) (b + i) (some ⟨frame, flags⟩) := by
  funext q
  rw [update_apply, update_apply]
  by_cases hb : q = b + i
  · rw [if_pos hb, hb, moved_dst (Nat.lt_succ_self i), h]
    rfl
  by_cases ha : q = a + i
  · rw [if_neg hb, if_pos ha, ha, moved_src hapart hi (Nat.lt_succ_self i), h]
    rfl
  · have hdst : (b ≤ q ∧ q < b + (i + 1)) ↔ (b ≤ q ∧ q < b + i) := by omega
    have hsrc : (a ≤ q ∧ q < a + (i + 1)) ↔ (a ≤ q ∧ q < a + i) := by omega
    simp only [moved, hdst, ← and_assoc, hsrc, if_neg hb, if_neg ha]

variable (hsrc : ∀ k < N, pageAt old k = .ok (a + k)) (hdst : ∀ k < N, pageAt dest k = .ok (b + k))

include hsrc hdst

omit hapart hsrc hdst in
/-- `map_to` changes at most the entry of its page. -/
theorem mapTo_pages_of_ne {q page frame : ℕ} (hq : q ≠ page) :
    (s.mapTo fails page frame flags).2.pages q = s.pages q := by
  rw [mapTo]
  split
  · rfl
  · exact update_of_ne hq _ _

omit hapart hsrc hdst in
theorem mapTo_released (page frame : ℕ) :
    (s.mapTo fails page frame flags).2.released = s.released := by
  rw [mapTo]
  split <;> rfl

omit hapart hsrc hdst in
theorem mapTo_eq {page frame : ℕ} (hf : fails s.calls page = false) (hk : s.pages page = none) :
    s.mapTo fails page frame flags = (true, { s with
      pages := update s.pages page (some ⟨frame, flags⟩), calls := s.calls + 1 }) := by
  rw [mapTo, hf, hk]
  rfl

/-- What the rollback of one page leaves of its two entries. -/
def Back (fails : ℕ → ℕ → Bool) (flags : BitVec 64) (a b : ℕ) (s s' : Tables) (j : ℕ) : Prop :=
  (frameAt s.pages (b + j) = none →
    s'.pages (a + j) = s.pages (a + j) ∧ s'.pages (b + j) = s.pages (b + j)) ∧
  ∀ frame, frameAt s.pages (b + j) = some frame → s'.pages (b + j) = none ∧
    (s.pages (a + j) = none → (∀ n, fails n (a + j) = false) →
      s'.pages (a + j) = some ⟨frame, flags⟩)

/-- The rollback maps back what it finds at the destinations and touches nothing else. -/
theorem exists_rollback_eq (hn : k + n ≤ N) : ∃ s', s.rollback fails flags old dest n k = .ok s' ∧
    s'.released = s.released ∧
    (∀ q, (∀ j, k ≤ j → j < k + n → q ≠ a + j ∧ q ≠ b + j) → s'.pages q = s.pages q) ∧
    ∀ j, k ≤ j → j < k + n → Back fails flags a b s s' j := by
  induction n generalizing k s with
  | zero => exact ⟨s, rfl, rfl, fun _ _ => rfl, fun j hkj hj => by omega⟩
  | succ n ih =>
    rw [rollback, hsrc k (by omega), hdst k (by omega), ok_bind, ok_bind, unmap]
    -- one step from `s` to `s₁`, then the rest
    have hrest (s₁ : Tables) (hreleased : s₁.released = s.released)
        (helse : ∀ q, q ≠ a + k → q ≠ b + k → s₁.pages q = s.pages q)
        (hback : Back fails flags a b s s₁ k) :
        ∃ s', s₁.rollback fails flags old dest n (k + 1) = .ok s' ∧
        s'.released = s.released ∧
        (∀ q, (∀ j, k ≤ j → j < k + (n + 1) → q ≠ a + j ∧ q ≠ b + j) → s'.pages q = s.pages q) ∧
        ∀ j, k ≤ j → j < k + (n + 1) → Back fails flags a b s s' j := by
      obtain ⟨s', hs', hreleased', helse', hback'⟩ := ih (k := k + 1) (s := s₁) (by omega)
      refine ⟨s', hs', hreleased'.trans hreleased, fun q hq => ?_, fun j hkj hj => ?_⟩
      · obtain ⟨ha, hb⟩ := hq k (Nat.le_refl k) (by omega)
        rw [helse' q fun j hkj hj => hq j (by omega) (by omega), helse q ha hb]
      · obtain rfl | hlt := Nat.eq_or_lt_of_le hkj
        · have ha := helse' (a + k) fun j hkj hj => by omega
          have hb := helse' (b + k) fun j hkj hj => by omega
          rw [Back, ha, hb]
          exact hback
        · have ha := helse (a + j) (by omega) (by omega)
          have hb := helse (b + j) (by omega) (by omega)
          have := hback' j hlt (by omega)
          rwa [Back, frameAt_of_eq hb, ha, hb] at this
    cases hframe : frameAt s.pages (b + k) with
    | none =>
      refine hrest s rfl (fun _ _ _ => rfl) ⟨fun _ => ⟨rfl, rfl⟩, fun frame h => ?_⟩
      rw [hframe] at h
      cases h
    | some frame =>
      refine hrest _ (mapTo_released _ _) (fun q ha hb => ?_) ⟨fun h => ?_, fun frame' h => ?_⟩
      · rw [mapTo_pages_of_ne ha]
        exact update_of_ne hb _ _
      · rw [hframe] at h
        cases h
      · obtain rfl : frame = frame' := Option.some.inj (hframe.symm.trans h)
        refine ⟨?_, fun hnone hf => ?_⟩
        · rw [mapTo_pages_of_ne (by omega)]
          exact update_self ..
        · rw [mapTo_eq (hf _) ((update_of_ne (by omega) _ _).trans hnone)]
          exact update_self ..

/-- The entries after a move that was stuck at page `f`. -/
structure Returned (flags : BitVec 64) (a b f : ℕ) (pages pages' : PageMap) : Prop where
  elsewhere : ∀ q, (∀ j ≤ f, q ≠ a + j) → (∀ j < f, q ≠ b + j) → pages' q = pages q
  mapped : ∀ j ≤ f, ∀ frame, frameAt pages (a + j) = some frame →
    pages' (a + j) = some ⟨frame, flags⟩
  free : ∀ j < f, (frameAt pages (a + j)).isSome → pages' (b + j) = none
  unmapped : ∀ j < f, frameAt pages (a + j) = none → frameAt pages (b + j) = none →
    pages' (a + j) = pages (a + j) ∧ pages' (b + j) = pages (b + j)
  lost : ∀ j < f, frameAt pages (a + j) = none → (frameAt pages (b + j)).isSome →
    pages' (b + j) = none

omit hapart hsrc hdst in
/-- Nothing has changed, just when the pages that came back have the flags they come back with and
no page was taken from a destination. -/
theorem Returned.eq_iff {f : ℕ} {pages' : PageMap} (h : Returned flags a b f pages pages')
    (hstuck : (frameAt pages (a + f)).isSome)
    (hfree : ∀ j < f, (frameAt pages (a + j)).isSome → pages (b + j) = none) :
    pages' = pages ↔
      (∀ k ≤ f, ∀ e, pages (a + k) = some e → (frameAt pages (a + k)).isSome → e.flags = flags) ∧
      ∀ k < f, frameAt pages (a + k) = none → frameAt pages (b + k) = none := by
  constructor
  · rintro rfl
    refine ⟨fun k hk e he hsome => ?_, fun k hk hnone => ?_⟩
    · obtain ⟨frame, hframe⟩ := Option.isSome_iff_exists.mp hsome
      have := h.mapped k hk frame hframe
      rw [he] at this
      rw [Option.some.inj this]
    · by_contra hsome
      have := h.lost k hk hnone (Option.isSome_iff_ne_none.mpr hsome)
      exact hsome (by rw [frameAt, this])
  · intro ⟨hflags, hnone⟩
    have hsrc (j : ℕ) (hj : j ≤ f) : pages' (a + j) = pages (a + j) := by
      cases hframe : frameAt pages (a + j) with
      | none =>
        have hne : j ≠ f := by
          rintro rfl
          rw [hframe] at hstuck
          cases hstuck
        have hlt : j < f := by omega
        exact (h.unmapped j hlt hframe (hnone j hlt hframe)).1
      | some frame =>
        obtain ⟨e, he, rfl, -⟩ := exists_of_frameAt hframe
        rw [h.mapped j hj _ hframe, he, ← hflags j hj e he (by rw [hframe]; rfl)]
    have hdst (j : ℕ) (hj : j < f) : pages' (b + j) = pages (b + j) := by
      cases hframe : frameAt pages (a + j) with
      | none => exact (h.unmapped j hj hframe (hnone j hj hframe)).2
      | some frame =>
        have hsome : (frameAt pages (a + j)).isSome := by rw [hframe]; rfl
        rw [h.free j hj hsome, hfree j hj hsome]
    funext q
    by_cases ha : ∃ j ≤ f, q = a + j
    · obtain ⟨j, hj, rfl⟩ := ha
      exact hsrc j hj
    by_cases hb : ∃ j < f, q = b + j
    · obtain ⟨j, hj, rfl⟩ := hb
      exact hdst j hj
    · exact h.elsewhere q (fun j hj hq => ha ⟨j, hj, hq⟩) fun j hj hq => hb ⟨j, hj, hq⟩

variable (hflags : flags.getLsbD 0 ∧ flags.getLsbD 7 = false)
  (htables : ∀ k < N, ∀ e, pages (a + k) = some e → ∀ n, fails n (a + k) = false)

include hflags htables

omit hapart hsrc hdst htables in
theorem frameAt_entry {q frame : ℕ} (h : pages q = some ⟨frame, flags⟩) :
    frameAt pages q = some frame := by
  rw [frameAt, h]
  exact if_pos ⟨hflags.1, by rw [PageEntry.huge, hflags.2]; rfl⟩

/-- Page `f` is mapped back where it was, then those before it. -/
theorem exists_return_eq {f frame : ℕ} (hf : f < N) (hframe : frameAt pages (a + f) = some frame)
    (hs : s.pages = update (moved flags a b f pages) (a + f) (some ⟨frame, flags⟩)) :
    ∃ s', s.rollback fails flags old dest f 0 = .ok s' ∧ s'.released = s.released ∧
      Returned flags a b f pages s'.pages := by
  obtain ⟨s', hs', hreleased, helse, hback⟩ : ∃ s', s.rollback fails flags old dest f 0 = .ok s' ∧
      _ ∧ _ ∧ _ := exists_rollback_eq hapart hsrc hdst (by omega)
  have hsrc' (j : ℕ) (hj : j < f) : s.pages (a + j) =
      if (frameAt pages (a + j)).isSome then none else pages (a + j) := by
    rw [hs, update_of_ne (by omega), moved_src hapart hf.le hj]
  have hdst' (j : ℕ) (hj : j < f) : s.pages (b + j) =
      (frameAt pages (a + j)).elim (pages (b + j)) fun frame => some ⟨frame, flags⟩ := by
    rw [hs, update_of_ne (by omega), moved_dst hj]
  refine ⟨s', hs', hreleased, fun q ha hb => ?_, fun j hj frame' hframe' => ?_,
    fun j hj hsome => ?_, fun j hj hnone hnone' => ?_, fun j hj hnone hsome => ?_⟩
  · rw [helse q fun j _ hj => ⟨ha j (by omega), hb j (by omega)⟩, hs, update_of_ne (ha f le_rfl),
      moved, if_neg, if_neg]
    · rintro ⟨hle, hlt, -⟩
      exact ha (q - a) (by omega) (by omega)
    · rintro ⟨hle, hlt⟩
      exact hb (q - b) (by omega) (by omega)
  · obtain rfl | hlt := Nat.eq_or_lt_of_le hj
    · rw [helse _ fun i _ hi => ⟨by omega, by omega⟩, hs, update_self]
      rw [hframe] at hframe'
      rw [Option.some.inj hframe']
    · have hdst := hdst' j hlt
      rw [hframe'] at hdst
      obtain ⟨e, he, -⟩ := exists_of_frameAt hframe'
      refine ((hback j (Nat.zero_le j) (by omega)).2 frame' (frameAt_entry hflags hdst)).2 ?_
        (htables j (by omega) e he)
      rw [hsrc' j hlt, hframe']
      rfl
  · obtain ⟨frame', hframe'⟩ := Option.isSome_iff_exists.mp hsome
    have hdst := hdst' j hj
    rw [hframe'] at hdst
    exact ((hback j (Nat.zero_le j) (by omega)).2 frame' (frameAt_entry hflags hdst)).1
  · have hdst := hdst' j hj
    have hsrc := hsrc' j hj
    rw [hnone] at hdst hsrc
    have := (hback j (Nat.zero_le j) (by omega)).1 ((frameAt_of_eq hdst).trans hnone')
    exact ⟨this.1.trans hsrc, this.2.trans hdst⟩
  · have hdst := hdst' j hj
    rw [hnone] at hdst
    obtain ⟨frame', hframe'⟩ := Option.isSome_iff_exists.mp hsome
    exact ((hback j (Nat.zero_le j) (by omega)).2 frame' ((frameAt_of_eq hdst).trans hframe')).1

omit hapart hsrc hdst hflags htables in
theorem mappedBefore_succ (pages : PageMap) (a k : ℕ) : mappedBefore pages a (k + 1) =
    mappedBefore pages a k + if (frameAt pages (a + k)).isSome then 1 else 0 := by
  rw [mappedBefore, List.range_succ, List.countP_append, List.countP_singleton]
  rfl

/-- The move ends, with all mapped pages at their destinations or, if one is stuck, back. -/
theorem exists_movePages_eq {s₀ : Tables} (hpages : s₀.pages = pages)
    (hs : s.pages = moved flags a b i pages)
    (hcalls : s.calls = s₀.calls + mappedBefore pages a i)
    (hbefore : ∀ k < i, ¬ Stuck fails a b s₀ k) (hn : i + n = N) :
    ∃ r, s.movePages fails flags old dest n i = .ok r ∧ r.2.released = s.released ∧
      if r.1 then (∀ k < N, ¬ Stuck fails a b s₀ k) ∧ r.2.pages = moved flags a b N pages
      else ∃ f < N, Stuck fails a b s₀ f ∧ (∀ k < f, ¬ Stuck fails a b s₀ k) ∧
        Returned flags a b f pages r.2.pages := by
  subst hpages
  induction n generalizing i s with
  | zero =>
    obtain rfl : i = N := hn
    exact ⟨_, rfl, rfl, hbefore, hs⟩
  | succ n ih =>
    have hi : i < N := by omega
    have ha : s.pages (a + i) = s₀.pages (a + i) := by
      rw [hs, moved, if_neg (by omega), if_neg (by omega)]
    have hb : s.pages (b + i) = s₀.pages (b + i) := by
      rw [hs, moved, if_neg (by omega), if_neg (by omega)]
    have hnext (h : ¬ Stuck fails a b s₀ i) : ∀ k < i + 1, ¬ Stuck fails a b s₀ k := fun k hk =>
      (Nat.lt_succ_iff_lt_or_eq.mp hk).elim (hbefore k) fun hki => hki ▸ h
    have hcount := mappedBefore_succ s₀.pages a i
    rw [movePages, hsrc i hi, hdst i hi, ok_bind, ok_bind, unmap, frameAt_of_eq ha]
    cases hframe : frameAt s₀.pages (a + i) with
    | none =>
      rw [hframe] at hcount
      refine ih (hnext fun h => ?_) (by omega)
        (hs.trans (moved_succ_of_none hapart hi hframe).symm) (hcalls.trans ?_)
      · rw [Stuck, hframe] at h
        cases h.1
      · rw [hcount]
        rfl
    | some frame =>
      rw [hframe] at hcount
      dsimp only [Option.map_some]
      have hb' : update s.pages (a + i) none (b + i) = s₀.pages (b + i) :=
        (update_of_ne (by omega) _ _).trans hb
      have htaken : (fails s.calls (b + i) = true ∨
          (update s.pages (a + i) none (b + i)).isSome) ↔ Stuck fails a b s₀ i := by
        rw [hb', hcalls, Stuck, hframe]
        exact (and_iff_right rfl).symm
      by_cases hstuck : Stuck fails a b s₀ i
      · obtain ⟨e, he, -⟩ := exists_of_frameAt hframe
        rw [mapTo, if_pos (htaken.mpr hstuck)]
        dsimp only
        rw [mapTo_eq (htables i hi e he _) (update_self ..), update_idem]
        dsimp only
        obtain ⟨s', hs', hreleased, hreturned⟩ := exists_return_eq
          (s := ⟨update s.pages (a + i) (some ⟨frame, flags⟩), s.calls + 1 + 1, s.released⟩)
          hapart hsrc hdst hflags htables hi hframe (by rw [hs])
        rw [hs', ok_bind]
        exact ⟨_, rfl, hreleased, i, hi, hstuck, hbefore, hreturned⟩
      · rw [mapTo, if_neg (mt htaken.mp hstuck)]
        refine ih (hnext hstuck) (by omega) ?_ ?_
        · rw [moved_succ_of_some hapart hi hframe, hs]
        · rw [hcount, hcalls]
          rfl

end Move

theorem exists_unmapFrom_eq (h : addr.toNat + 4096 * (i + n) ≤ userEnd) :
    ∃ s', s.unmapFrom addr n i = .ok s' ∧ ∀ q < addr.toNat / 4096, s'.pages q = s.pages q := by
  induction n generalizing i s with
  | zero => exact ⟨s, rfl, fun _ _ => rfl⟩
  | succ n ih =>
    rw [unmapFrom, pageAt_eq _ (by omega), ok_bind, unmap]
    cases frameAt s.pages (addr.toNat / 4096 + i) with
    | none => exact ih (by omega)
    | some frame =>
      obtain ⟨s', hs', hkept⟩ := ih (i := i + 1)
        (s := release ⟨update s.pages (addr.toNat / 4096 + i) none, s.calls, s.released⟩ frame)
        (by omega)
      exact ⟨s', hs', fun q hq => (hkept q hq).trans (update_of_ne (by omega) _ _)⟩

end Tables

theorem toNat_mod_of_and (h : addr &&& 4095 = 0) : addr.toNat % 4096 = 0 := by
  have hand := congrArg BitVec.toNat h
  rw [BitVec.toNat_and] at hand
  exact (Nat.and_two_pow_sub_one_eq_mod addr.toNat 12).symm.trans hand

theorem NoMore.refl (e : PageEntry) : NoMore e e := ⟨rfl, rfl, rfl, id, id, id⟩

/-- Bytes at the same places of two pages. -/
theorem rel_byteAt_iff {pages' : PageMap} {va va' : ℕ} (hva : va % 4096 = 0)
    (hva' : va' % 4096 = 0) :
    Option.Rel (fun x y => NoMore x.1 y.1 ∧ x.2 = y.2) (byteAt pages (va + i))
        (byteAt pages' (va' + i)) ↔
      Option.Rel NoMore (pages (va / 4096 + i / 4096)) (pages' (va' / 4096 + i / 4096)) := by
  have hplace (x : ℕ) (hx : x % 4096 = 0) :
      (x + i) / 4096 = x / 4096 + i / 4096 ∧ (x + i) % 4096 = i % 4096 := by omega
  obtain ⟨hdiv, hmod⟩ := hplace va hva
  obtain ⟨hdiv', hmod'⟩ := hplace va' hva'
  rw [byteAt, byteAt, hdiv, hdiv', hmod, hmod']
  cases pages (va / 4096 + i / 4096) <;> cases pages' (va' / 4096 + i / 4096) <;> simp

theorem rel_byteAt_of_eq {pages' : PageMap} {va : ℕ} (hva : va % 4096 = 0)
    (h : pages' (va / 4096 + i / 4096) = pages (va / 4096 + i / 4096)) :
    Option.Rel (fun x y => NoMore x.1 y.1 ∧ x.2 = y.2) (byteAt pages (va + i))
      (byteAt pages' (va + i)) := by
  rw [rel_byteAt_iff hva hva, h]
  cases pages (va / 4096 + i / 4096) with
  | none => exact .none
  | some e => exact .some (.refl e)

section Mremap

variable {args : MremapArgs} {m : ProcessMemory} {v : Vma}

theorem MremapArgs.area_aligned (h : args.area m.vmas = .ok v) :
    args.oldAddress.toNat % 4096 = 0 ∧ args.oldSize.toNat % 4096 = 0 ∧
      args.newSize.toNat % 4096 = 0 := by
  rw [area] at h
  split at h
  · cases h
  next hold =>
  split at h
  · cases h
  next hsize =>
  split at h
  · cases h
  next hnew =>
  rw [not_or, not_not] at hsize hnew
  exact ⟨toNat_mod_of_and (not_not.mp hold), toNat_mod_of_and hsize.2, toNat_mod_of_and hnew.2⟩

/-- The search for a destination ends, at addresses of no area. -/
theorem MremapArgs.exists_dest_eq (args : MremapArgs) (h : WellFormed m.vmas) :
    ∃ r, args.dest m.vmas = .ok r ∧ ∀ dest, r = .ok dest →
      ∀ w ∈ m.vmas, ¬ (w.start < dest + args.newSize ∧ dest < w.stop) := by
  rw [dest]
  split
  · split
    · exact ⟨_, rfl, fun dest hr => by cases hr⟩
    split
    · exact ⟨_, rfl, fun dest hr => by cases hr⟩
    next hfree =>
    refine ⟨_, rfl, fun dest hr => ?_⟩
    cases hr
    simpa using hfree
  · obtain ⟨r, hr⟩ := exists_findFreeVmaRegion_eq (fun w hw => (h.user w hw).trans_lt (by decide))
      (if args.newAddress ≠ 0 then args.newAddress else args.oldEnd) args.newSize mmapMax
    rw [hr, ok_bind]
    cases r with
    | none => exact ⟨_, rfl, fun dest hr => by cases hr⟩
    | some addr =>
      refine ⟨_, rfl, fun dest hdest w hw hover => ?_⟩
      cases hdest
      exact (findFreeFrom_spec (by decide) hr).2 w hw hover.symm

/-- The call passes all checks and moves the area. -/
structure MremapArgs.Moves (args : MremapArgs) (m : ProcessMemory) (v : Vma) (dest : BitVec 64) :
    Prop where
  area : args.area m.vmas = .ok v
  notSame : ¬ (args.newSize = args.oldSize ∧ !args.fixed)
  notSmaller : ¬ args.newSize < args.oldSize
  notInPlace : ¬ (args.oldSize < args.newSize ∧ !args.blocked m.vmas)
  mayMove : ¬ (args.oldSize < args.newSize ∧ !args.mayMove)
  dest : args.dest m.vmas = .ok (.ok dest)
  mapper : args.pages = true

variable (hareas : WellFormed m.vmas)

include hareas

/-- The range of the area in numbers. -/
theorem MremapArgs.range (hv : args.area m.vmas = .ok v) :
    v.start.toNat = args.oldAddress.toNat ∧ v.stop.toNat = args.oldEnd.toNat ∧
      args.oldEnd.toNat = args.oldAddress.toNat + args.oldSize.toNat ∧
        args.oldEnd.toNat ≤ userEnd := by
  obtain ⟨hmem, hstart, hsize, -⟩ := MremapArgs.area_eq_ok hv
  have hpos := hareas.nonempty v hmem
  have huser := hareas.user v hmem
  have hend : args.oldEnd = v.stop := by
    rw [MremapArgs.oldEnd, ← hstart, ← hsize]
    bv_omega
  rw [hend, hstart]
  refine ⟨rfl, rfl, ?_, huser⟩
  bv_omega

theorem kept_shrink (hv : args.area m.vmas = .ok v) (hlt : args.newSize < args.oldSize)
    (hn : n ≤ (args.oldEnd.toNat - args.newEnd.toNat) / 4096) :
    ∃ s', s.unmapFrom args.newEnd n 0 = .ok s' ∧
      ∀ m', Kept args m s (m', s', .ok args.oldAddress) := by
  obtain ⟨-, -, hend, huser⟩ := MremapArgs.range hareas hv
  obtain ⟨hold, hsize, hnew⟩ := MremapArgs.area_aligned hv
  rw [userEnd] at huser
  rw [BitVec.lt_def] at hlt
  have hnewEnd : args.newEnd.toNat = args.oldAddress.toNat + args.newSize.toNat := by
    rw [MremapArgs.newEnd]
    bv_omega
  obtain ⟨s', hs', hkept⟩ := Tables.exists_unmapFrom_eq (s := s) (i := 0)
    (show args.newEnd.toNat + 4096 * (0 + n) ≤ userEnd by rw [userEnd]; omega)
  exact ⟨s', hs', fun m' i _ hi => rel_byteAt_of_eq hold (hkept _ (by omega))⟩

variable (hflags : ∀ v ∈ m.vmas, v.flags.getLsbD 7 = false)
  (htables : ∀ q e, s.pages q = some e → ∀ n, fails n q = false)
  (hdest : ∀ v dest, args.Moves m v dest →
    dest.toNat % 4096 = 0 ∧ dest.toNat + args.newSize.toNat ≤ userEnd)

include hflags htables hdest

theorem kept_move_iff (hmoves : args.Moves m v dest) :
    ∃ r, s.movePages fails (v.flags ||| 1) args.oldAddress dest
        ((args.oldEnd.toNat - args.oldAddress.toNat) / 4096) 0 = .ok r ∧
      ((if r.1 then ∀ m', Kept args m s (m', r.2, .ok dest)
        else r.2.pages = s.pages ∧ r.2.released = s.released) ↔
        MoveOk fails (v.flags ||| 1) (args.oldAddress.toNat / 4096) (dest.toNat / 4096) s
          (args.oldSize.toNat / 4096)) := by
  obtain ⟨hstart, hstop, hend, huser⟩ := MremapArgs.range hareas hmoves.area
  obtain ⟨hold, hsize, -⟩ := MremapArgs.area_aligned hmoves.area
  obtain ⟨hmem, -⟩ := MremapArgs.area_eq_ok hmoves.area
  obtain ⟨haligned, hroom⟩ := hdest v dest hmoves
  obtain ⟨r, hr, hfree⟩ := args.exists_dest_eq hareas
  obtain rfl : r = .ok dest := Outcome.ok.inj (hr.symm.trans hmoves.dest)
  have hle : args.oldSize ≤ args.newSize := BitVec.not_lt.mp hmoves.notSmaller
  rw [userEnd] at huser hroom
  rw [BitVec.le_def] at hle
  have hapart : v.stop.toNat ≤ dest.toNat ∨ dest.toNat + args.newSize.toNat ≤ v.start.toNat := by
    have := hfree dest rfl v hmem
    bv_omega
  have hbits : (v.flags ||| 1).getLsbD 0 ∧ (v.flags ||| 1).getLsbD 7 = false := by
    rw [BitVec.getLsbD_or, BitVec.getLsbD_or, hflags v hmem]
    simp
  obtain ⟨⟨done, s'⟩, hmove, hreleased, hpages⟩ := Tables.exists_movePages_eq
    (N := args.oldSize.toNat / 4096) (by omega)
    (fun k hk => pageAt_eq args.oldAddress (by rw [userEnd]; omega))
    (fun k hk => pageAt_eq dest (by rw [userEnd]; omega)) hbits
    (fun k _ e he => htables _ e he) (rfl : s.pages = s.pages) Tables.moved_zero.symm rfl
    (fun k hk => by omega)
    (Nat.zero_add _)
  rw [hend, Nat.add_sub_cancel_left]
  refine ⟨_, hmove, ?_⟩
  cases done with
  | false =>
    obtain ⟨f, hf, hstuck, hbefore, hreturned⟩ := hpages
    have hfirst := hreturned.eq_iff hstuck.1 fun j hj hsome => by
      by_contra hne
      exact hbefore j hj ⟨hsome, .inr (Option.isSome_iff_ne_none.mpr hne)⟩
    refine ⟨fun h => ⟨fun f' _ hf' hbefore' => ?_, fun hno => absurd hstuck (hno f hf)⟩,
      fun h => ⟨hfirst.mpr (h.stuck f hf hstuck hbefore), hreleased⟩⟩
    obtain rfl : f' = f := by
      by_contra hne
      obtain hlt | hlt := Nat.lt_or_gt_of_ne hne
      · exact hbefore f' hlt hf'
      · exact hbefore' f hlt hstuck
    exact hfirst.mp h.1
  | true =>
    obtain ⟨hnone, hmoved⟩ := hpages
    have hrel (i : ℕ) (hi : i < args.oldSize.toNat) :
        Option.Rel (fun x y => NoMore x.1 y.1 ∧ x.2 = y.2)
            (byteAt s.pages (args.oldAddress.toNat + i)) (byteAt s'.pages (dest.toNat + i)) ↔
          Option.Rel NoMore (s.pages (args.oldAddress.toNat / 4096 + i / 4096))
            ((Tables.frameAt s.pages (args.oldAddress.toNat / 4096 + i / 4096)).elim
              (s.pages (dest.toNat / 4096 + i / 4096))
              fun frame => some ⟨frame, v.flags ||| 1⟩) := by
      rw [rel_byteAt_iff hold haligned, show s'.pages = Tables.moved _ _ _ _ s.pages from hmoved,
        Tables.moved_dst (by omega)]
    refine ⟨fun h => ⟨fun f hf hstuck => absurd hstuck (hnone f hf), fun _ k hk => ?_⟩,
      fun h m' i hi _ => ?_⟩
    · have := (hrel (4096 * k) (by omega)).mp (h m (4096 * k) (by omega) (by omega))
      rwa [Nat.mul_div_cancel_left k (by decide)] at this
    · exact (hrel i hi).mpr (h.done hnone (i / 4096) (by omega))

omit hareas hflags htables hdest in
/-- The areas are those of the model without page tables, for the answer that the move gives. -/
theorem mremap_vmas {r : ProcessMemory × Tables × Except Errno (BitVec 64)}
    (h : mremap fails args m s = .ok r) :
    ∃ pages, sysMremap m { args with pages } = .ok (r.1, r.2.2) := by
  rw [mremap] at h
  split at h
  · next e he =>
    cases h
    refine ⟨true, ?_⟩
    rw [sysMremap, show MremapArgs.area { args with pages := true } m.vmas = .error e from he]
  next v hv =>
  have harea (pages : Bool) : MremapArgs.area { args with pages } m.vmas = .ok v := hv
  have hdest (pages : Bool) : MremapArgs.dest { args with pages } m.vmas = args.dest m.vmas := rfl
  simp only [sysMremap, harea, hdest]
  split at h
  · next hsame =>
    cases h
    exact ⟨true, if_pos hsame⟩
  next hsame =>
  split at h
  · next hlt =>
    obtain ⟨s', -, hr⟩ := Outcome.bind_eq_ok.mp h
    cases hr
    exact ⟨true, (if_neg hsame).trans (if_pos (.inl hlt))⟩
  next hlt =>
  split at h
  · next hplace =>
    cases h
    exact ⟨true, (if_neg hsame).trans (if_pos (.inr hplace))⟩
  next hplace =>
  have hmoves : ¬ (args.newSize < args.oldSize ∨
      args.oldSize < args.newSize ∧ !args.blocked m.vmas) :=
    not_or_intro hlt hplace
  split at h
  · next hmay =>
    cases h
    exact ⟨true, (if_neg hsame).trans ((if_neg hmoves).trans (if_pos hmay))⟩
  next hmay =>
  obtain ⟨d, hd, hr⟩ := Outcome.bind_eq_ok.mp h
  rw [hd]
  cases d with
  | error e =>
    cases hr
    exact ⟨true, (if_neg hsame).trans ((if_neg hmoves).trans (if_neg hmay))⟩
  | ok dest =>
    dsimp only at hr
    split at hr
    · cases hr
      exact ⟨false, (if_neg hsame).trans ((if_neg hmoves).trans (if_neg hmay))⟩
    obtain ⟨⟨done, s'⟩, -, hr⟩ := Outcome.bind_eq_ok.mp hr
    cases done with
    | true =>
      cases hr
      exact ⟨true, (if_neg hsame).trans ((if_neg hmoves).trans (if_neg hmay))⟩
    | false =>
      cases hr
      exact ⟨false, (if_neg hsame).trans ((if_neg hmoves).trans (if_neg hmay))⟩

end Mremap

/-- One area of two pages, and two pages of it that are mapped with the given flags. -/
def twoPages : ProcessMemory := { brk := 0, vmas := [brkVma 0x10000 0x12000] }

def mappedWith (flags : BitVec 64) : Tables :=
  { pages := fun q => if q = 16 ∨ q = 17 then some ⟨q + 100, flags⟩ else none }

def toFixed : MremapArgs := ⟨0x10000, 0x2000, 0x2000, 3, 0x20000, true⟩

/-- There is no table for the second page of the destination. -/
def noTable (_ page : ℕ) : Bool := page == 33

theorem moveOk_twoPages : MoveOk noTable 7 16 32 (mappedWith 7) 2 := by
  have hmapped : ∀ q e, (mappedWith 7).pages q = some e → e.flags = 7 := by
    intro q e he
    simp only [mappedWith] at he
    split at he
    · cases he
      rfl
    · cases he
  refine ⟨fun f hf _ _ => ⟨fun k _ e he _ => hmapped _ e he, fun k hk hnone => ?_⟩, fun hno => ?_⟩
  · obtain rfl : k = 0 := by omega
    cases hnone
  · exact absurd ⟨rfl, .inl rfl⟩ (hno 1 (by decide))

end Vahi.Syscalls
