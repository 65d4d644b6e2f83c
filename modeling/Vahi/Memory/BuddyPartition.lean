import Vahi.Memory.Buddy

/-!
# The buddy allocator partitions the memory it was given

The invariant: free and held blocks together cover every added byte exactly once. Blocks that are
between two lists count as held, so each step of a split or a merge keeps it.
-/

namespace Vahi.Memory

open Vahi.Lib BuddyAllocator List Function

variable {lists : ℕ → List ℕ}

def freeBlocks (lists : ℕ → List ℕ) : List Block :=
  (List.range (maxOrder + 1)).flatMap fun k => (lists k).map (Block.mk · k)

def regionCover (regions : List (ℕ × ℕ)) (x : ℕ) : ℕ :=
  regions.countP fun r => r.1 ≤ x ∧ x < r.2

/-- Below the largest order, no two buddies are both free. -/
def Coalesced (lists : ℕ → List ℕ) : Prop :=
  ∀ k < maxOrder, ∀ a ∈ lists k, a ^^^ (4096 * 2 ^ k) ∉ lists k

theorem Coalesced.of_subset {lists' : ℕ → List ℕ} (hc : Coalesced lists)
    (h : ∀ k ≤ maxOrder, lists' k ⊆ lists k) : Coalesced lists' :=
  fun k hk a ha hbuddy => hc k hk a (h k hk.le ha) (h k hk.le hbuddy)

theorem Coalesced.shrink (hc : Coalesced lists) {order : ℕ} {l : List ℕ}
    (hl : l ⊆ lists order) : Coalesced (update lists order l) := by
  refine hc.of_subset fun k _ => ?_
  by_cases hk : k = order
  · subst hk
    rwa [update_self]
  · rw [update_of_ne hk]
    exact List.Subset.refl _

/-- A block whose buddy is not free may be added. -/
theorem Coalesced.add (hc : Coalesced lists) {a order : ℕ}
    (hbuddy : order < maxOrder → a ^^^ (4096 * 2 ^ order) ∉ lists order) :
    Coalesced (update lists order (a :: lists order)) := by
  intro k hk
  by_cases hko : k = order
  · subst hko
    have hpos : 0 < 4096 * 2 ^ k := Nat.mul_pos (by decide) (Nat.two_pow_pos k)
    have hne : ∀ c, c ^^^ (4096 * 2 ^ k) ≠ c := by
      intro c hcc
      have := Nat.xor_right_injective (hcc.trans (Nat.xor_zero c).symm)
      omega
    rw [update_self]
    intro c hc' hmem
    rw [mem_cons] at hc' hmem
    obtain rfl | hc' := hc'
    · obtain hself | hmem := hmem
      · exact hne _ hself
      · exact hbuddy hk hmem
    obtain hself | hmem := hmem
    · refine hbuddy hk ?_
      rw [← hself, Nat.xor_assoc, Nat.xor_self, Nat.xor_zero]
      exact hc'
    · exact hc k hk c hc' hmem
  · rw [update_of_ne hko]
    exact hc k hk

theorem mem_freeBlocks {b : Block} :
    b ∈ freeBlocks lists ↔ b.order ≤ maxOrder ∧ b.base ∈ lists b.order := by
  simp only [freeBlocks, mem_flatMap, mem_range, mem_map]
  constructor
  · rintro ⟨k, hk, a, ha, rfl⟩
    exact ⟨Nat.le_of_lt_succ hk, ha⟩
  · rintro ⟨hk, ha⟩
    exact ⟨b.order, Nat.lt_succ_of_le hk, b.base, ha, rfl⟩

/-- Changing the list of one order leaves the other orders' blocks alone. -/
theorem freeBlocks_update (lists : ℕ → List ℕ) {k : ℕ} (hk : k ≤ maxOrder) (l : List ℕ) :
    ∃ rest, (freeBlocks lists).Perm ((lists k).map (Block.mk · k) ++ rest) ∧
      (freeBlocks (update lists k l)).Perm (l.map (Block.mk · k) ++ rest) := by
  obtain ⟨pre, post, hsplit⟩ :=
    append_of_mem (mem_range.2 (Nat.lt_succ_of_le hk))
  have hnd : (pre ++ k :: post).Nodup := hsplit ▸ nodup_range
  rw [nodup_middle, nodup_cons, mem_append, not_or] at hnd
  have hother : ∀ j ∈ pre ++ post,
      ((update lists k l) j).map (Block.mk · j) = (lists j).map (Block.mk · j) := by
    intro j hj
    have hne : j ≠ k := by
      rintro rfl
      exact (mem_append.1 hj).elim hnd.1.1 hnd.1.2
    rw [update_of_ne hne]
  refine ⟨(pre ++ post).flatMap fun j => (lists j).map (Block.mk · j), ?_, ?_⟩
  · rw [freeBlocks, hsplit, flatMap_append, flatMap_cons, flatMap_append]
    exact perm_append_comm_assoc _ _ _
  · rw [freeBlocks, hsplit, flatMap_append, flatMap_cons, update_self,
      ← flatMap_congr hother, flatMap_append]
    exact perm_append_comm_assoc _ _ _

theorem freeBlocks_take {k a : ℕ} (hk : k ≤ maxOrder) {l : List ℕ} (hl : (lists k).Perm (a :: l)) :
    (freeBlocks lists).Perm (⟨a, k⟩ :: freeBlocks (update lists k l)) := by
  obtain ⟨rest, hold, hnew⟩ := freeBlocks_update lists hk l
  exact (hold.trans ((hl.map _).append_right rest)).trans (hnew.symm.cons _)

/-- No free block starts inside another block if every byte is covered once. -/
theorem notMem_of_coverage {held : List Block} {blk : Block} {k a : ℕ}
    (h : ∀ x, coverage pageShift (freeBlocks lists ++ held) x ≤ 1) (hblk : blk ∈ held)
    (ha : blk.Covers pageShift a) (hk : k ≤ maxOrder) : a ∉ lists k := by
  intro hmem
  have hpos : 0 < coverage pageShift (freeBlocks lists) a :=
    coverage_pos.2 ⟨⟨a, k⟩, mem_freeBlocks.2 ⟨hk, hmem⟩, Block.covers_base _ ⟨a, k⟩⟩
  have hpos' : 0 < coverage pageShift held a := coverage_pos.2 ⟨_, hblk, ha⟩
  have hone := h a
  rw [coverage_append] at hone
  omega

/-- The allocator's state while its clients and the running operation hold the
blocks `held`. -/
structure BuddyInv (b : BuddyAllocator) (lists : ℕ → List ℕ) (held : List Block)
    (regions : List (ℕ × ℕ)) : Prop where
  chain : ∀ k ≤ maxOrder, IsChain (link b.mem) (b.freeLists k) (lists k)
  wf : ∀ blk ∈ freeBlocks lists ++ held, blk.order ≤ maxOrder ∧ blk.Aligned pageShift
  cover : ∀ x, coverage pageShift (freeBlocks lists ++ held) x = regionCover regions x
  once : ∀ x, regionCover regions x ≤ 1
  bound : ∀ x, 0 < regionCover regions x → x < physLimit

variable {b : BuddyAllocator} {held : List Block} {regions : List (ℕ × ℕ)}

namespace BuddyInv

section

variable (h : BuddyInv b lists held regions)

include h

variable {blk : Block} {k a : ℕ} {held' : List Block}

theorem covers_lt (hb : blk ∈ freeBlocks lists ++ held) {x : ℕ} (hx : blk.Covers pageShift x) :
    x < physLimit := by
  apply h.bound
  rw [← h.cover]
  exact coverage_pos.2 ⟨blk, hb, hx⟩

theorem base_lt (hb : blk ∈ freeBlocks lists ++ held) : blk.base < physLimit :=
  h.covers_lt hb (blk.covers_base _)

theorem free_lt (hk : k ≤ maxOrder) (ha : a ∈ lists k) : a < physLimit :=
  h.base_lt (mem_append_left _ ((mem_freeBlocks (b := ⟨a, k⟩)).2 ⟨hk, ha⟩))

theorem coverage_le (x : ℕ) : coverage pageShift (freeBlocks lists ++ held) x ≤ 1 :=
  (h.cover x).trans_le (h.once x)

/-- Blocks move between the lists and those that are held. -/
theorem of_perm {b' : BuddyAllocator} {lists' : ℕ → List ℕ}
    (hchain : ∀ k ≤ maxOrder, IsChain (link b'.mem) (b'.freeLists k) (lists' k))
    (hperm : (freeBlocks lists' ++ held').Perm (freeBlocks lists ++ held)) :
    BuddyInv b' lists' held' regions where
  chain := hchain
  wf blk hblk := h.wf blk (hperm.mem_iff.1 hblk)
  cover x := (coverage_perm hperm x).trans (h.cover x)
  once := h.once
  bound := h.bound

/-- Replacing the held blocks by others that cover the same bytes. -/
theorem exchange (hwf : ∀ blk ∈ held', blk.order ≤ maxOrder ∧ blk.Aligned pageShift)
    (hcov : ∀ x, coverage pageShift held' x = coverage pageShift held x) :
    BuddyInv b lists held' regions where
  chain := h.chain
  wf := forall_mem_append.2 ⟨(forall_mem_append.1 h.wf).1, hwf⟩
  cover := by
    intro x
    rw [coverage_append, hcov, ← coverage_append]
    exact h.cover x
  once := h.once
  bound := h.bound

/-- No free block starts inside a held block. -/
theorem held_notMem (hblk : blk ∈ held) (ha : blk.Covers pageShift a) (hk : k ≤ maxOrder) :
    a ∉ lists k :=
  notMem_of_coverage h.coverage_le hblk ha hk

variable (hk : k ≤ maxOrder)

include hk

/-- The free list of an order has no repeated cell. -/
theorem nodup : (lists k).Nodup := by
  obtain ⟨rest, hperm, -⟩ := freeBlocks_update lists hk []
  have hpw : ((lists k).map (Block.mk · k)).Pairwise (Block.Disjoint pageShift) := by
    apply pairwise_disjoint_of_coverage_le_one
    intro x
    have hone := h.coverage_le x
    rw [coverage_append, coverage_perm hperm, coverage_append] at hone
    omega
  rw [pairwise_map] at hpw
  refine hpw.imp ?_
  rintro a c hdisj rfl
  exact hdisj a ⟨Block.covers_base _ _, Block.covers_base _ _⟩

/-- A free list is shorter than the bound the code's walks are given. -/
theorem length_lt : (lists k).length < walkBound := by
  have hpage : ∀ a ∈ lists k, 4096 ∣ a ∧ a < 2 ^ 52 := by
    intro a ha
    refine ⟨?_, h.free_lt hk ha⟩
    have hal := (h.wf ⟨a, k⟩ (mem_append_left _ (mem_freeBlocks.2 ⟨hk, ha⟩))).2
    refine Dvd.dvd.trans ?_ hal
    simp only [Block.size, pageShift, Nat.pow_add]
    exact Dvd.intro _ rfl
  have hinj : ((lists k).map (· / 4096)).Nodup := by
    refine List.Nodup.map_on ?_ (h.nodup hk)
    intro a ha c hc heq
    have hda := (hpage a ha).1
    have hdc := (hpage c hc).1
    omega
  have hsub : (lists k).map (· / 4096) ⊆ List.range (2 ^ 40) := by
    intro q hq
    obtain ⟨a, ha, rfl⟩ := mem_map.1 hq
    have := (hpage a ha).2
    rw [mem_range]
    omega
  have hlen := (subperm_of_subset hinj hsub).length_le
  rw [length_map, length_range] at hlen
  exact Nat.lt_succ_of_le hlen

/-- The code's traversal of a free list meets exactly the list's cells. -/
theorem freeList_eq : b.freeList k = lists k :=
  (h.chain k hk).walk_eq (h.length_lt hk).le

omit hk in
theorem coalesced_iff : Coalesced b.freeList ↔ Coalesced lists := by
  refine ⟨fun hc => hc.of_subset fun k hk => ?_, fun hc => hc.of_subset fun k hk => ?_⟩
  all_goals
    rw [h.freeList_eq hk]
    exact List.Subset.refl _

variable {l₁ l₂ : List ℕ}

variable (hl : lists k = l₁ ++ a :: l₂)

include hl

theorem link_eq :
    link b.mem a = l₂.head? := by
  have hc := h.chain k hk
  rw [hl] at hc
  exact hc.after_append.head_eq

theorem link_lt {c : ℕ} (hc : link b.mem a = some c) : c < physLimit := by
  rw [h.link_eq hk hl] at hc
  exact h.free_lt hk (by simp [hl, mem_of_head? hc])

theorem readNextPtr_eq :
    b.readNextPtr a = .ok (link b.mem a) := by
  rw [readNextPtr]
  cases hlink : link b.mem a with
  | none => rfl
  | some c => simp [physAddrNew, h.link_lt hk hl hlink]

end

end BuddyInv

/-! ### Single blocks -/

theorem link_update (mem : PhysMem) (addr val : ℕ) : link (update mem addr val) =
    update (link mem) addr (if val = noNext then none else some val) := by
  funext x
  by_cases hx : x = addr
  · subst hx
    simp [link]
  · simp [link, update_of_ne hx]

/-- The word written for a link reads back as that link. -/
theorem link_update_getD (mem : PhysMem) (addr : ℕ) {next : Option ℕ}
    (hn : ∀ a, next = some a → a < physLimit) :
    link (update mem addr (next.getD noNext)) = update (link mem) addr next := by
  rw [link_update]
  cases next with
  | none => rfl
  | some a =>
    have hne : a ≠ noNext := ((hn a rfl).trans (by decide)).ne
    rw [Option.getD_some, if_neg hne]

theorem head_lt (h : BuddyInv b lists held regions) {k : ℕ} (hk : k ≤ maxOrder) :
    ∀ a, b.freeLists k = some a → a < physLimit := by
  intro a ha
  rw [(h.chain k hk).head_eq] at ha
  exact h.free_lt hk (mem_of_head? ha)

/-- `add_block` moves a held block to the front of its free list. -/
theorem addBlock_inv {blk : Block} (h : BuddyInv b lists (blk :: held) regions) :
    ∃ b', b.addBlock blk.base blk.order = .ok b' ∧
      BuddyInv b' (update lists blk.order (blk.base :: lists blk.order)) held regions := by
  have hk := (h.wf blk (by simp)).1
  have hfresh : ∀ j ≤ maxOrder, blk.base ∉ lists j :=
    fun j hj => h.held_notMem mem_cons_self (blk.covers_base _) hj
  refine ⟨_, by simp [addBlock, getHead, setHead, writeNextPtr, hk]; rfl, h.of_perm ?_ ?_⟩
  · intro j hj
    rw [link_update_getD _ _ (head_lt h hk)]
    by_cases hjk : j = blk.order
    · subst hjk
      simp only [update_self]
      exact (h.chain _ hj).push (hfresh _ hj)
    · simp only [update_of_ne hjk]
      exact (h.chain j hj).update_of_notMem (hfresh j hj) _
  · have hperm := freeBlocks_take hk
      (.of_eq (update_self blk.order (blk.base :: lists blk.order) lists))
    rw [update_idem, update_eq_self] at hperm
    exact (hperm.append_right held).trans perm_middle.symm

section

variable (h : BuddyInv b lists held regions)

include h

variable {k a : ℕ} {l : List ℕ} (addr : ℕ)

variable (hk : k ≤ maxOrder)

include hk

/-- Taking the cell `a` off the list of order `k`: the remaining lists keep the
invariant with the block held. -/
theorem BuddyInv.take
    {l' : List ℕ} (hl : lists k = l) (hperm : l.Perm (a :: l')) {b' : BuddyAllocator}
    (hchain : ∀ j ≤ maxOrder, IsChain (link b'.mem) (b'.freeLists j) (update lists k l' j)) :
    BuddyInv b' (update lists k l') (⟨a, k⟩ :: held) regions :=
  h.of_perm hchain (perm_middle.trans ((freeBlocks_take hk (hl ▸ hperm)).symm.append_right held))

/-- Removing the first cell of a list by moving its head. -/
theorem popHead_inv (hl : lists k = a :: l) :
    ∃ b', b.setHead k (link b.mem a) = .ok b' ∧
      BuddyInv b' (update lists k l) (⟨a, k⟩ :: held) regions := by
  refine ⟨_, by simp [setHead, hk]; rfl, h.take hk hl (List.Perm.refl _) ?_⟩
  intro j hj
  have hc := h.chain j hj
  by_cases hjk : j = k
  · subst hjk
    rw [hl] at hc
    simpa only [update_self] using hc.2
  · simpa only [update_of_ne hjk] using hc

/-- Removing an inner cell of a list by rewriting the link before it. -/
theorem unlink_inv {p : ℕ} {l₁ l₂ : List ℕ} (hl : lists k = l₁ ++ p :: a :: l₂) :
    BuddyInv (b.writeNextPtr p (link b.mem a)) (update lists k (l₁ ++ p :: l₂))
      (⟨a, k⟩ :: held) regions := by
  have hsplit : lists k = (l₁ ++ [p]) ++ a :: l₂ := by simp [hl]
  refine h.take hk hl ?_ ?_
  · have hmid : (l₁ ++ p :: a :: l₂).Perm (l₁ ++ a :: p :: l₂) :=
      (List.Perm.swap a p l₂).append_left l₁
    exact hmid.trans perm_middle
  · intro j hj
    simp only [writeNextPtr]
    rw [link_update_getD _ _ fun c => h.link_lt hk hsplit]
    by_cases hjk : j = k
    · subst hjk
      rw [update_self]
      have hchain := h.chain j hj
      have hnd := h.nodup hj
      rw [hl] at hchain hnd
      exact hchain.unlink hnd
    · rw [update_of_ne hjk]
      refine (h.chain j hj).update_of_notMem ?_ _
      -- the cell before `a` is a free block of order `k`, so of no other order
      have hperm := perm_middle.trans
        ((freeBlocks_take hk (hl ▸ perm_middle)).symm.append_right held)
      have hnot := notMem_of_coverage (fun x => (coverage_perm hperm x).trans_le (h.coverage_le x))
        mem_cons_self (Block.covers_base _ ⟨p, k⟩) hj
      rwa [update_of_ne hjk] at hnot

/-- The loop of `remove_block` standing behind the cells `l₁` of the list: it
either unlinks the block or finds that it is not among the remaining cells. -/
theorem removeLoop_inv (l₁ l₂ : List ℕ) (n : ℕ) (prev : Option ℕ)
    (hl : lists k = l₁ ++ l₂) (hn : l₂.length < n)
    (hprev : prev = none ∧ l₁ = [] ∨ ∃ p l₀, prev = some p ∧ l₁ = l₀ ++ [p]) :
    (addr ∉ l₂ ∧ removeLoop addr k n prev l₂.head? b = .ok (false, b)) ∨
      ∃ b' l', removeLoop addr k n prev l₂.head? b = .ok (true, b') ∧ l' ⊆ lists k ∧
        BuddyInv b' (update lists k l') (⟨addr, k⟩ :: held) regions := by
  induction n generalizing l₁ l₂ prev with
  | zero => omega
  | succ n ih =>
    obtain _ | ⟨a, l₂⟩ := l₂
    · exact Or.inl ⟨not_mem_nil, rfl⟩
    have hread := h.readNextPtr_eq hk hl
    have hnext := h.link_eq hk hl
    by_cases haddr : a = addr
    · subst haddr
      right
      rcases hprev with ⟨rfl, rfl⟩ | ⟨p, l₀, rfl, rfl⟩
      · obtain ⟨b', hset, hinv⟩ := popHead_inv h hk (by simpa using hl)
        exact ⟨b', _, by simp [removeLoop, hread, hset], by rw [hl]; simp, hinv⟩
      · have hinv := unlink_inv h hk (show lists k = l₀ ++ p :: a :: l₂ by simpa using hl)
        exact ⟨_, _, by simp [removeLoop, hread], by rw [hl]; grind, hinv⟩
    · have hstep : removeLoop addr k (n + 1) prev (a :: l₂).head? b =
          removeLoop addr k n (some a) l₂.head? b := by
        simp [removeLoop, hread, hnext, haddr]
      rw [hstep]
      rcases ih (l₁ ++ [a]) l₂ (some a) (by simpa using hl) (Nat.lt_of_succ_lt_succ hn)
        (Or.inr ⟨a, l₁, rfl, rfl⟩) with ⟨hnot, hres⟩ | hres
      · exact Or.inl ⟨by simp [hnot, Ne.symm haddr], hres⟩
      · exact Or.inr hres

/-- `remove_block` returns whether the block was free, and takes it off its list. -/
theorem removeBlock_inv :
    (b.removeBlock addr k = .ok (false, b) ∧ addr ∉ lists k) ∨
      ∃ b' l', b.removeBlock addr k = .ok (true, b') ∧ l' ⊆ lists k ∧
        BuddyInv b' (update lists k l') (⟨addr, k⟩ :: held) regions := by
  have hhead := (h.chain k hk).head_eq
  have hloop := removeLoop_inv h addr hk [] (lists k) walkBound none rfl
    (h.length_lt hk) (Or.inl ⟨rfl, rfl⟩)
  simp only [removeBlock, getHead, hk, if_true, Outcome.ok_bind, hhead]
  rcases hloop with ⟨hnot, hres⟩ | hres
  · exact Or.inl ⟨hres, hnot⟩
  · exact Or.inr hres

end

/-! ### Splitting and merging -/

section Operations

theorem pageSize_mul (k : ℕ) : 4096 * 2 ^ k = 2 ^ (pageShift + k) := by
  rw [pageShift, Nat.pow_add]

variable {a k start stop : ℕ}

/-- The two halves of a held block, both aligned to the smaller size. -/
theorem BuddyInv.split (h : BuddyInv b lists (⟨a, k + 1⟩ :: held) regions) :
    BuddyInv b lists (⟨a + 4096 * 2 ^ k, k⟩ :: ⟨a, k⟩ :: held) regions := by
  obtain ⟨hk, hal⟩ := h.wf ⟨a, k + 1⟩ (by simp)
  have hle : k ≤ maxOrder := Nat.le_of_succ_le hk
  rw [pageSize_mul]
  exact h.exchange (forall_mem_cons.2 ⟨⟨hle, hal.upper⟩, forall_mem_cons.2 ⟨⟨hle, hal.lower⟩,
    fun c hc => h.wf c (by simp [hc])⟩⟩) fun x => (coverage_split a k x held).symm

/-- Two held halves of an aligned block are that block. -/
theorem BuddyInv.join (hk : k < maxOrder) (hdvd : 2 * 2 ^ (pageShift + k) ∣ a)
    (h : BuddyInv b lists (⟨a + 2 ^ (pageShift + k), k⟩ :: ⟨a, k⟩ :: held) regions) :
    BuddyInv b lists (⟨a, k + 1⟩ :: held) regions :=
  h.exchange (forall_mem_cons.2 ⟨⟨hk, Block.aligned_succ.2 hdvd⟩,
    fun c hc => h.wf c (by simp [hc])⟩) fun x => coverage_split a k x held

/-- A held block together with its held buddy is a block one order up. -/
theorem BuddyInv.merge (hk : k < maxOrder)
    (h : BuddyInv b lists (⟨a ^^^ (4096 * 2 ^ k), k⟩ :: ⟨a, k⟩ :: held) regions) :
    BuddyInv b lists (⟨min (a ^^^ (4096 * 2 ^ k)) a, k + 1⟩ :: held) regions := by
  have hal : (⟨a, k⟩ : Block).Aligned pageShift := (h.wf ⟨a, k⟩ (by simp)).2
  rw [pageSize_mul] at h ⊢
  obtain ⟨hdvd, hup⟩ | ⟨hdvd, hdown⟩ := buddyOf_base hal
  all_goals simp only [buddyOf, Block.size] at *
  · rw [hup] at h ⊢
    rw [Nat.min_eq_right (Nat.le_add_right _ _)]
    exact h.join hk hdvd
  · rw [Nat.min_eq_left (Nat.le.intro hdown)]
    refine BuddyInv.join hk hdvd ?_
    rw [hdown]
    exact h.of_perm h.chain ((List.Perm.swap _ _ _).append_left _)

/-- `allocate_at_order` returns a block of the requested order, taken from the
free blocks, or changes nothing because every list it may use is empty. It leaves the lists of
smaller orders alone; the half that a split adds is alone on its list. -/
theorem allocateFrom_inv (n order : ℕ) (h : BuddyInv b lists held regions)
    (hn : n + order = maxOrder + 1 ∨ n = 0) :
    (allocateFrom n order b = .ok (none, b) ∧ ∀ j, order ≤ j → j < order + n → lists j = []) ∨
      ∃ addr b' lists', allocateFrom n order b = .ok (some addr, b') ∧
        BuddyInv b' lists' (⟨addr, order⟩ :: held) regions ∧
        (∀ j < order, lists' j = lists j) ∧ (Coalesced lists → Coalesced lists') := by
  induction n generalizing order with
  | zero => exact Or.inl ⟨rfl, fun j h₁ h₂ => by omega⟩
  | succ n ih =>
    have hk : order ≤ maxOrder := by omega
    have hc := (h.chain order hk).head_eq
    cases hhead : b.freeLists order with
    | some addr =>
      right
      obtain ⟨l, hl⟩ := head?_eq_some_iff.1 (hc.symm.trans hhead)
      obtain ⟨b', hset, hinv⟩ := popHead_inv h hk hl
      have hread := h.readNextPtr_eq hk (show lists order = [] ++ addr :: l by simpa using hl)
      refine ⟨addr, b', _, by simp [allocateFrom, getHead, hk, hhead, hread, hset], hinv,
        fun j hj => update_of_ne hj.ne _ _, fun hcoal => hcoal.shrink ?_⟩
      rw [hl]
      exact subset_cons_self addr l
    | none =>
      replace hc := head?_eq_none_iff.1 (hc.symm.trans hhead)
      rcases ih (order + 1) (by omega) with
        ⟨hres, hempty⟩ | ⟨addr, b', lists', hres, hinv, hlow, hcoal⟩
      · left
        refine ⟨by simp [allocateFrom, getHead, hk, hhead, hres], ?_⟩
        intro j h₁ h₂
        rcases Nat.eq_or_lt_of_le h₁ with rfl | h₁
        · exact hc
        · exact hempty j h₁ (by omega)
      · right
        have hsplit := hinv.split
        have hlt : addr + 4096 * 2 ^ order < physLimit :=
          hsplit.base_lt (mem_append_right _ mem_cons_self)
        obtain ⟨b'', hadd, hinv'⟩ := addBlock_inv hsplit
        have hempty : lists' order = [] := (hlow order (Nat.lt_succ_self order)).trans hc
        refine ⟨addr, b'', _, ?_, hinv', fun j hj => ?_, fun hlists => (hcoal hlists).add ?_⟩
        · simp [allocateFrom, getHead, hk, hhead, hres, physAddrNew, hlt, hadd]
        · rw [update_of_ne hj.ne]
          exact hlow j (Nat.lt_succ_of_lt hj)
        · intro _
          rw [hempty]
          exact not_mem_nil

/-- `deallocate_at_order` puts a held block back, merged with its free buddies until the buddy is
not free. -/
theorem deallocateFrom_inv (n : ℕ) {addr order : ℕ} (hn : n + order = maxOrder)
    (h : BuddyInv b lists (⟨addr, order⟩ :: held) regions) :
    ∃ b' lists', deallocateFrom n addr order b = .ok b' ∧ BuddyInv b' lists' held regions ∧
      (Coalesced lists → Coalesced lists') := by
  induction n generalizing addr order b lists with
  | zero =>
    obtain ⟨b', hadd, hinv⟩ := addBlock_inv h
    exact ⟨b', _, hadd, hinv, fun hlists => hlists.add fun hlt => by simp only at hlt; omega⟩
  | succ n ih =>
    have hk : order ≤ maxOrder := by omega
    have hlt : addr < 2 ^ 52 := h.base_lt (mem_append_right _ mem_cons_self)
    have hxor : addr ^^^ (4096 * 2 ^ order) < physLimit := by
      refine Nat.xor_lt_two_pow hlt ?_
      rw [pageSize_mul]
      exact Nat.pow_lt_pow_right (by decide) (by simp only [pageShift, maxOrder] at *; omega)
    rcases removeBlock_inv h (addr ^^^ (4096 * 2 ^ order)) hk with
      ⟨hres, hnot⟩ | ⟨b', l', hres, hsub, hinv⟩
    · obtain ⟨b', hadd, hinv⟩ := addBlock_inv h
      exact ⟨b', _, by simp [deallocateFrom, physAddrNew, hxor, hres, hadd], hinv,
        fun hlists => hlists.add fun _ => hnot⟩
    · obtain ⟨b'', lists'', hrec, hinv', hcoal⟩ := ih (by omega) (hinv.merge (by omega))
      refine ⟨b'', lists'', by simp [deallocateFrom, physAddrNew, hxor, hres, hrec], hinv',
        fun hlists => hcoal (hlists.shrink hsub)⟩

/-- The order chosen by `add_region` keeps the block aligned and inside the region. -/
theorem fitOrder_spec (current remaining n order : ℕ) (hn : n + order = maxOrder)
    (hdvd : 4096 * 2 ^ order ∣ current) (hle : 4096 * 2 ^ order ≤ remaining) :
    fitOrder current remaining n order ≤ maxOrder ∧
      4096 * 2 ^ fitOrder current remaining n order ∣ current ∧
      4096 * 2 ^ fitOrder current remaining n order ≤ remaining := by
  induction n generalizing order with
  | zero => exact ⟨by simp only [fitOrder]; omega, hdvd, hle⟩
  | succ n ih =>
    rw [fitOrder]
    by_cases hfit : 4096 * 2 ^ (order + 1) ∣ current ∧ 4096 * 2 ^ (order + 1) ≤ remaining
    · rw [if_pos hfit]
      exact ih (order + 1) (by omega) hfit.1 hfit.2
    · rw [if_neg hfit]
      exact ⟨by omega, hdvd, hle⟩

theorem regionCover_cons (r : ℕ × ℕ) (rs : List (ℕ × ℕ)) (x : ℕ) :
    regionCover (r :: rs) x = regionCover rs x + if r.1 ≤ x ∧ x < r.2 then 1 else 0 := by
  simp [regionCover, countP_cons]

theorem regionCover_pos {rs : List (ℕ × ℕ)} {x : ℕ} :
    0 < regionCover rs x ↔ ∃ r ∈ rs, r.1 ≤ x ∧ x < r.2 := by
  simp [regionCover, countP_pos_iff]

/-- Moving the end of the region added so far over a block that follows it. -/
theorem BuddyInv.extend {current : ℕ}
    (h : BuddyInv b lists held ((start, current) :: regions)) (hsc : start ≤ current)
    (hk : k ≤ maxOrder) (hdvd : 4096 * 2 ^ k ∣ current) (hlt : current + 4096 * 2 ^ k ≤ physLimit)
    (hfree : ∀ x, current ≤ x → x < current + 4096 * 2 ^ k → regionCover regions x = 0) :
    BuddyInv b lists (⟨current, k⟩ :: held) ((start, current + 4096 * 2 ^ k) :: regions) := by
  have hsize : (⟨current, k⟩ : Block).size pageShift = 4096 * 2 ^ k := (pageSize_mul k).symm
  -- the longer region covers what the shorter one and the new block cover
  have hcover : ∀ x, regionCover ((start, current + 4096 * 2 ^ k) :: regions) x =
      regionCover ((start, current) :: regions) x +
        if (⟨current, k⟩ : Block).Covers pageShift x then 1 else 0 := by
    intro x
    have hx : (⟨current, k⟩ : Block).Covers pageShift x ↔
        current ≤ x ∧ x < current + 4096 * 2 ^ k := by
      rw [Block.Covers, hsize]
    rw [regionCover_cons, regionCover_cons]
    simp only [hx]
    split_ifs <;> omega
  refine ⟨h.chain, ?_, ?_, ?_, ?_⟩
  · rw [forall_mem_append, forall_mem_cons]
    obtain ⟨hfree, hheld⟩ := forall_mem_append.1 h.wf
    exact ⟨hfree, ⟨hk, by rwa [Block.Aligned, hsize]⟩, hheld⟩
  · intro x
    rw [hcover, ← h.cover, coverage_append, coverage_append, coverage_cons]
    omega
  · intro x
    have hone := h.once x
    have hzero := hfree x
    rw [regionCover_cons] at hone ⊢
    split_ifs at hone ⊢ <;> omega
  · intro x hpos
    have hbound := h.bound x
    rw [regionCover_cons] at hbound hpos
    split_ifs at hpos <;> omega

/-- The loop of `add_region` with `[start, current)` already added. -/
theorem addRegionLoop_inv (hstop : stop < physLimit) (hal : 4096 ∣ stop)
    (hfree : ∀ x, start ≤ x → x < stop → regionCover regions x = 0) (n current : ℕ)
    (hn : (stop - current) / 4096 < n) (hcal : 4096 ∣ current) (hsc : start ≤ current)
    (hcs : current ≤ stop) (h : BuddyInv b lists held ((start, current) :: regions)) :
    ∃ b' lists', addRegionLoop stop n current b = .ok b' ∧
      BuddyInv b' lists' held ((start, stop) :: regions) := by
  induction n generalizing current b lists with
  | zero => omega
  | succ n ih =>
    rw [addRegionLoop]
    by_cases hlt : current < stop
    · rw [if_pos hlt]
      obtain ⟨hk, hdvd, hle⟩ := fitOrder_spec current (stop - current) maxOrder 0 rfl
        (by simpa using hcal) (by simp; omega)
      generalize fitOrder current (stop - current) maxOrder 0 = k at hk hdvd hle ⊢
      have hpage : 4096 ∣ 4096 * 2 ^ k := Dvd.intro _ rfl
      have hpos : 0 < 2 ^ k := Nat.two_pow_pos k
      have hinv := h.extend hsc hk hdvd (by omega) (fun x h₁ h₂ => hfree x (by omega) (by omega))
      obtain ⟨b₁, hadd, hinv₁⟩ := addBlock_inv hinv
      obtain ⟨b', lists', hrec, hinv'⟩ := ih (current + 4096 * 2 ^ k) (by omega)
        ((Nat.dvd_add_right hcal).2 hpage) (by omega) (by omega) hinv₁
      refine ⟨b', lists', ?_, hinv'⟩
      simp [physAddrNew, show current < physLimit by omega, hadd, hrec]
    · rw [if_neg hlt]
      obtain rfl : current = stop := by omega
      exact ⟨b, lists, rfl, h⟩

/-- `add_region` over a page-aligned region disjoint from the earlier ones. -/
theorem addRegion_inv (h : BuddyInv b lists held regions)
    (hstart : 4096 ∣ start) (hal : 4096 ∣ stop) (hstop : stop < physLimit)
    (hdisj : ∀ r ∈ regions, ∀ x, ¬ ((start ≤ x ∧ x < stop) ∧ r.1 ≤ x ∧ x < r.2)) :
    ∃ b' lists', b.addRegion start stop = .ok b' ∧
      BuddyInv b' lists' held ((start, stop) :: regions) := by
  have hfree : ∀ x, start ≤ x → x < stop → regionCover regions x = 0 := by
    intro x h₁ h₂
    by_contra hne
    obtain ⟨r, hr, hx⟩ := regionCover_pos.1 (Nat.pos_of_ne_zero hne)
    exact hdisj r hr x ⟨⟨h₁, h₂⟩, hx⟩
  -- an empty region in front of the others adds nothing to the cover
  have hempty : ∀ c, c ≤ start → ∀ x, regionCover ((start, c) :: regions) x =
      regionCover regions x := by
    intro c hc x
    rw [regionCover_cons, if_neg (by simp only; omega), Nat.add_zero]
  have hinv : ∀ c, c ≤ start → BuddyInv b lists held ((start, c) :: regions) := by
    intro c hc
    exact ⟨h.chain, h.wf, fun x => by rw [hempty c hc]; exact h.cover x,
      fun x => by rw [hempty c hc]; exact h.once x,
      fun x hx => h.bound x (by rwa [hempty c hc] at hx)⟩
  rw [addRegion]
  by_cases hle : start ≤ stop
  · exact addRegionLoop_inv hstop hal hfree _ start (by omega) hstart le_rfl hle
      (hinv start le_rfl)
  · refine ⟨b, lists, ?_, hinv stop (by omega)⟩
    rw [addRegionLoop, if_neg (by omega)]

/-- A client's store to memory of a held block. -/
theorem store_inv (h : BuddyInv b lists held regions) {addr : ℕ} (val : ℕ) {blk : Block}
    (hblk : blk ∈ held) (hcov : blk.Covers pageShift addr) :
    BuddyInv { b with mem := update b.mem addr val } lists held regions := by
  refine ⟨?_, h.wf, h.cover, h.once, h.bound⟩
  intro k hk
  rw [link_update]
  exact (h.chain k hk).update_of_notMem (h.held_notMem hblk hcov hk) _

end Operations

/-! ### Runs -/

def ArenaInv (a : Arena) : Prop :=
  ∃ lists, BuddyInv a.buddy lists a.live a.regions

theorem arenaInv_new (mem : PhysMem) : ArenaInv (Arena.new mem) := by
  refine ⟨fun _ => [], fun k _ => rfl, ?_, ?_, ?_, ?_⟩
  · intro blk hblk
    simp [Arena.new, mem_freeBlocks] at hblk
  · intro x
    simp [Arena.new, freeBlocks, coverage, regionCover]
  · intro x
    simp [Arena.new, regionCover]
  · intro x hx
    simp [Arena.new, regionCover] at hx

def Arena.Coalesced (a : Arena) : Prop := Memory.Coalesced a.buddy.freeList

/-- Every permitted operation returns and keeps the invariant; all but `add_region` keep the
regions, and the free blocks coalesced. -/
theorem exec_inv (h : ArenaInv a) {op : BuddyOp} (hop : a.Permits op) :
    ∃ a', a.exec op = .ok a' ∧ ArenaInv a' ∧ (op.addsRegion = false →
      a'.regions = a.regions ∧ (a.Coalesced → a'.Coalesced)) := by
  obtain ⟨lists, h⟩ := h
  cases op with
  | addRegion start stop =>
    obtain ⟨hstart, hal, -, hstop, hdisj⟩ := hop
    obtain ⟨b', lists', hres, hinv⟩ := addRegion_inv h hstart hal hstop hdisj
    exact ⟨_, by simp [Arena.exec, hres]; rfl, ⟨lists', hinv⟩, nofun⟩
  | allocate order =>
    rcases allocateFrom_inv (maxOrder + 1 - order) order h (by omega) with
      ⟨hres, -⟩ | ⟨addr, b', lists', hres, hinv, -, hcoal⟩
    · exact ⟨a, by simp [Arena.exec, allocateContiguous, allocateAtOrder, hres], ⟨lists, h⟩,
        fun _ => ⟨rfl, id⟩⟩
    · exact ⟨⟨b', ⟨addr, order⟩ :: a.live, a.regions⟩,
        by simp [Arena.exec, allocateContiguous, allocateAtOrder, hres], ⟨lists', hinv⟩,
        fun _ => ⟨rfl, fun hc => hinv.coalesced_iff.2 (hcoal (h.coalesced_iff.1 hc))⟩⟩
  | deallocate blk =>
    have hperm : a.live.Perm (blk :: a.live.erase blk) := perm_cons_erase hop
    have hk : blk.order ≤ maxOrder := (h.wf blk (mem_append_right _ hop)).1
    have hheld : BuddyInv a.buddy lists (blk :: a.live.erase blk) a.regions :=
      h.of_perm h.chain (hperm.symm.append_left _)
    obtain ⟨b', lists', hres, hinv, hcoal⟩ :=
      deallocateFrom_inv (maxOrder - blk.order) (by omega) hheld
    exact ⟨⟨b', a.live.erase blk, a.regions⟩,
      by simp [Arena.exec, deallocateContiguous, deallocateAtOrder, hres], ⟨lists', hinv⟩,
      fun _ => ⟨rfl, fun hc => hinv.coalesced_iff.2 (hcoal (h.coalesced_iff.1 hc))⟩⟩
  | store addr val =>
    obtain ⟨-, blk, hblk, hcov⟩ := hop
    have hinv := store_inv h val hblk hcov
    exact ⟨_, rfl, ⟨lists, hinv⟩,
      fun _ => ⟨rfl, fun hc => hinv.coalesced_iff.2 (h.coalesced_iff.1 hc)⟩⟩

theorem run_inv (ops : List BuddyOp) (h : ArenaInv a) (hops : a.PermitsAll ops) :
    ∃ a', a.run ops = .ok a' ∧ ArenaInv a' := by
  induction ops generalizing a with
  | nil => exact ⟨_, rfl, h⟩
  | cons op ops ih =>
    obtain ⟨a₁, hexec, hinv, -⟩ := exec_inv h hops.1
    obtain ⟨a', hrun, hinv'⟩ := ih hinv (hops.2 a₁ hexec)
    exact ⟨a', by rw [Arena.run, hexec, Outcome.ok_bind, hrun], hinv'⟩

section Reading

variable {a : Arena}

variable (h : BuddyInv a.buddy lists a.live a.regions)

include h

theorem BuddyInv.blocks_eq :
    a.blocks = freeBlocks lists ++ a.live := by
  rw [Arena.blocks, freeBlocks]
  congr 1
  apply flatMap_congr
  intro k hk
  rw [h.freeList_eq (Nat.le_of_lt_succ (mem_range.1 hk))]

theorem BuddyInv.blocks_disjoint :
    a.blocks.Pairwise (Block.Disjoint pageShift) := by
  rw [h.blocks_eq]
  apply pairwise_disjoint_of_coverage_le_one
  intro x
  rw [h.cover]
  exact h.once x

theorem BuddyInv.blocks_union (x : ℕ) :
    (∃ blk ∈ a.blocks, blk.Covers pageShift x) ↔ ∃ r ∈ a.regions, r.1 ≤ x ∧ x < r.2 := by
  rw [h.blocks_eq, ← coverage_pos, h.cover, regionCover_pos]

end Reading

/-- Every permitted sequence of operations returns, and then the free lists are
proper lists of aligned blocks, free and held blocks are pairwise disjoint and
fill exactly the added regions, and an allocation fails only when every list it
may take a block from is empty, leaving the allocator as it was. -/
theorem arena_partition (mem : PhysMem) (ops : List BuddyOp)
    (hops : (Arena.new mem).PermitsAll ops) :
    ∃ a, (Arena.new mem).run ops = .ok a ∧
      (∀ k ≤ maxOrder, IsChain (link a.buddy.mem) (a.buddy.freeLists k) (a.buddy.freeList k)) ∧
      (∀ k ≤ maxOrder, ∀ addr ∈ a.buddy.freeList k, (⟨addr, k⟩ : Block).Aligned pageShift) ∧
      a.blocks.Pairwise (Block.Disjoint pageShift) ∧
      (∀ x, (∃ blk ∈ a.blocks, blk.Covers pageShift x) ↔
        ∃ r ∈ a.regions, r.1 ≤ x ∧ x < r.2) ∧
      ∀ k, (∃ addr b', a.buddy.allocateContiguous k = .ok (some addr, b')) ∨
        (a.buddy.allocateContiguous k = .ok (none, a.buddy) ∧
          ∀ j, k ≤ j → j ≤ maxOrder → a.buddy.freeList j = []) := by
  obtain ⟨a, hrun, lists, h⟩ := run_inv ops (arenaInv_new mem) hops
  refine ⟨a, hrun, ?_, ?_, h.blocks_disjoint, h.blocks_union, ?_⟩
  · intro k hk
    rw [h.freeList_eq hk]
    exact h.chain k hk
  · intro k hk addr haddr
    rw [h.freeList_eq hk] at haddr
    exact (h.wf ⟨addr, k⟩ (mem_append_left _ (mem_freeBlocks.2 ⟨hk, haddr⟩))).2
  · intro k
    rcases allocateFrom_inv (maxOrder + 1 - k) k h (by omega) with
      ⟨hres, hempty⟩ | ⟨addr, b', lists', hres, -⟩
    · right
      refine ⟨hres, ?_⟩
      intro j h₁ h₂
      rw [h.freeList_eq h₂]
      exact hempty j h₁ (by omega)
    · exact Or.inl ⟨addr, b', hres⟩

/-- Two pages are added, one is allocated and freed again, and both are allocated. -/
theorem arena_partition_twoPages :
    ∃ a, (Arena.new fun _ => 0).run
        [.addRegion 0 8192, .allocate 0, .deallocate ⟨0, 0⟩, .allocate 1] = .ok a ∧
      a.blocks.Pairwise (Block.Disjoint pageShift) := by
  obtain ⟨a, hrun, -, -, hdisj, -⟩ := arena_partition (fun _ => 0)
    [.addRegion 0 8192, .allocate 0, .deallocate ⟨0, 0⟩, .allocate 1] (by
      refine ⟨⟨by decide, by decide, by decide, by decide, by simp [Arena.new]⟩, ?_⟩
      intro a₁ h₁
      refine ⟨trivial, ?_⟩
      intro a₂ h₂
      obtain rfl := Outcome.ok.inj h₁
      obtain rfl := Outcome.ok.inj h₂
      exact ⟨mem_cons_self, fun _ _ => ⟨trivial, fun _ _ => trivial⟩⟩)
  exact ⟨a, hrun, hdisj⟩

end Vahi.Memory
