import Vahi.Memory.BuddyPartition
import Mathlib.Data.List.Pairwise

/-!
# Coalescing in the buddy allocator

If no two buddies are free to begin with, none are after any sequence of allocations and frees. The
free blocks are then determined by the bytes that are not held.
-/

namespace Vahi.Memory

open Vahi.Lib List

def Arena.freeSet (a : Arena) : Set Block :=
  {b | b.order ≤ maxOrder ∧ b.base ∈ a.buddy.freeList b.order}

namespace BuddyInv

variable {a : Arena} {lists : ℕ → List ℕ}

variable (h : BuddyInv a.buddy lists a.live a.regions)

include h

theorem mem_freeSet {b : Block} :
    b ∈ a.freeSet ↔ b ∈ freeBlocks lists := by
  rw [mem_freeBlocks]
  refine and_congr_right fun hk => ?_
  rw [h.freeList_eq hk]

theorem packed (hc : a.Coalesced) :
    Packed pageShift maxOrder a.freeSet where
  wf := fun b hb => h.wf b (mem_append_left _ (h.mem_freeSet.1 hb))
  disjoint := by
    intro b hb c hc x hbx hcx
    by_contra hne
    have hfree : (freeBlocks lists).Pairwise (Block.Disjoint pageShift) := by
      have hpair := h.blocks_disjoint
      rw [h.blocks_eq] at hpair
      exact (pairwise_append.1 hpair).1
    exact hfree.forall (h.mem_freeSet.1 hb) (h.mem_freeSet.1 hc) hne x ⟨hbx, hcx⟩
  noBuddies := by
    intro b hb hlt hbuddy
    have hsize : b.size pageShift = 4096 * 2 ^ b.order := (pageSize_mul b.order).symm
    refine hc b.order hlt b.base hb.2 ?_
    rw [← hsize]
    exact hbuddy.2

/-- A byte is free if it is in a region and nobody holds it. -/
theorem covers_freeSet (x : ℕ) :
    (∃ b ∈ a.freeSet, b.Covers pageShift x) ↔
      coverage pageShift a.live x < regionCover a.regions x := by
  have hcover := h.cover x
  rw [coverage_append] at hcover
  have hfree : (∃ b ∈ a.freeSet, b.Covers pageShift x) ↔
      0 < coverage pageShift (freeBlocks lists) x := by
    rw [coverage_pos]
    exact exists_congr fun b => and_congr_left fun _ => h.mem_freeSet
  rw [hfree]
  omega

end BuddyInv

variable {a a' : Arena}

theorem freeSet_eq_of_live_perm (h : ArenaInv a) (hc : a.Coalesced) (h' : ArenaInv a')
    (hc' : a'.Coalesced) (hregions : a'.regions = a.regions) (hlive : a'.live.Perm a.live) :
    a'.freeSet = a.freeSet := by
  obtain ⟨lists, h⟩ := h
  obtain ⟨lists', h'⟩ := h'
  refine (h'.packed hc').eq_of_covers (h.packed hc) fun x => ?_
  rw [h'.covers_freeSet, h.covers_freeSet, coverage_perm hlive, hregions]

/-- A permitted sequence of operations without `add_region`. -/
theorem run_coalesced (h : ArenaInv a) (hc : a.Coalesced) {ops : List BuddyOp}
    (hops : a.PermitsAll ops) (hkeep : ∀ op ∈ ops, op.addsRegion = false) :
    ∃ a', a.run ops = .ok a' ∧ ArenaInv a' ∧ a'.Coalesced ∧ a'.regions = a.regions := by
  induction ops generalizing a with
  | nil => exact ⟨a, rfl, h, hc, rfl⟩
  | cons op ops ih =>
    obtain ⟨a₁, hexec, hinv, hstep⟩ := exec_inv h hops.1
    obtain ⟨hregions, hcoal⟩ := hstep (hkeep op mem_cons_self)
    obtain ⟨a', hrun, hinv', hc', hregions'⟩ := ih hinv (hcoal hc) (hops.2 a₁ hexec)
      fun op' hop => hkeep op' (mem_cons_of_mem op hop)
    exact ⟨a', by rw [Arena.run, hexec, Outcome.ok_bind, hrun], hinv', hc',
      hregions'.trans hregions⟩

theorem live_of_exec_deallocate {b : Block} (h : a.exec (.deallocate b) = .ok a') :
    a'.live = a.live.erase b := by
  obtain ⟨b', -, hres⟩ := Outcome.bind_eq_ok.1 h
  cases hres
  rfl

def frees (blocks : List Block) : List BuddyOp := blocks.map .deallocate

variable {blocks : List Block}

theorem permitsAll_frees (hsub : blocks.Subperm a.live) : a.PermitsAll (frees blocks) := by
  induction blocks generalizing a with
  | nil => trivial
  | cons b blocks ih =>
    refine ⟨hsub.subset mem_cons_self, fun a' hexec => ih ?_⟩
    rw [live_of_exec_deallocate hexec]
    simpa using hsub.erase b

theorem live_of_run_frees (h : a.run (frees blocks) = .ok a') : a'.live = a.live.diff blocks := by
  induction blocks generalizing a with
  | nil =>
    cases h
    rfl
  | cons b blocks ih =>
    obtain ⟨a₁, hexec, hrun⟩ := Outcome.bind_eq_ok.1 h
    rw [ih hrun, live_of_exec_deallocate hexec, diff_cons]

/-- Freeing held blocks in any order. -/
theorem run_frees (h : ArenaInv a) (hc : a.Coalesced) (hsub : blocks.Subperm a.live) :
    ∃ a', a.run (frees blocks) = .ok a' ∧ ArenaInv a' ∧ a'.Coalesced ∧
      a'.regions = a.regions ∧ a'.live = a.live.diff blocks := by
  obtain ⟨a', hrun, hinv, hc', hregions⟩ := run_coalesced h hc (permitsAll_frees hsub) (by
    intro op hop
    obtain ⟨b, -, rfl⟩ := mem_map.1 hop
    rfl)
  exact ⟨a', hrun, hinv, hc', hregions, live_of_run_frees hrun⟩

/-- From every state of the allocator in which no two buddies below the largest order are both
free, every sequence of allocations, frees of held blocks and stores to held blocks returns a state
of that kind. Freeing any of the blocks held then, all of them for instance, in one order or in
another gives the same free blocks; if what is left is what was held at the beginning, they are the
free blocks of the beginning. -/
theorem coalescing_complete (h : ArenaInv a) (hc : a.Coalesced) {ops : List BuddyOp}
    (hops : a.PermitsAll ops) (hkeep : ∀ op ∈ ops, op.addsRegion = false) :
    ∃ a', a.run ops = .ok a' ∧ a'.Coalesced ∧
      ∀ blocks blocks' : List Block, blocks.Subperm a'.live → blocks.Perm blocks' →
        ∃ z z', a'.run (frees blocks) = .ok z ∧ a'.run (frees blocks') = .ok z' ∧
          z.freeSet = z'.freeSet ∧ (a'.live.Perm (blocks ++ a.live) → z.freeSet = a.freeSet) := by
  obtain ⟨a', hrun, hinv, hc', hregions⟩ := run_coalesced h hc hops hkeep
  refine ⟨a', hrun, hc', fun blocks blocks' hsub hperm => ?_⟩
  obtain ⟨z, hz, hzinv, hzc, hzregions, hzlive⟩ := run_frees hinv hc' hsub
  obtain ⟨z', hz', hzinv', hzc', hzregions', hzlive'⟩ :=
    run_frees hinv hc' (hperm.symm.subperm.trans hsub)
  refine ⟨z, z', hz, hz', ?_, fun hlive => ?_⟩
  · refine freeSet_eq_of_live_perm hzinv' hzc' hzinv hzc (hzregions.trans hzregions'.symm) ?_
    rw [hzlive, hzlive']
    exact List.Perm.of_eq (hperm.diff_left a'.live)
  · refine freeSet_eq_of_live_perm h hc hzinv hzc (hzregions.trans hregions) ?_
    have hsplit : (blocks ++ z.live).Perm a'.live := by
      rw [hzlive]
      exact subperm_append_diff_self_of_count_le (subperm_ext_iff.1 hsub)
    exact (perm_append_left_iff blocks).1 (hsplit.trans hlive)

/-- Two pages are added as one block, allocated and freed in either order. -/
theorem coalescing_complete_twoPages :
    ∃ a, (Arena.new fun _ => 0).run [.addRegion 0 8192] = .ok a ∧ a.Coalesced ∧
      ∃ a', a.run [.allocate 0, .allocate 0] = .ok a' ∧
        ∃ z z', a'.run (frees [⟨4096, 0⟩, ⟨0, 0⟩]) = .ok z ∧
          a'.run (frees [⟨0, 0⟩, ⟨4096, 0⟩]) = .ok z' ∧ z.freeSet = z'.freeSet ∧
          z.freeSet = a.freeSet := by
  have hregion : (Arena.new fun _ => 0).Permits (.addRegion 0 8192) :=
    ⟨by decide, by decide, by decide, by decide, forall_mem_nil _⟩
  obtain ⟨a, hexec, hinv, -⟩ := exec_inv (arenaInv_new fun _ => 0) hregion
  have hops : a.PermitsAll [.allocate 0, .allocate 0] :=
    ⟨trivial, fun _ _ => ⟨trivial, fun _ _ => trivial⟩⟩
  have hc : a.Coalesced := by
    obtain rfl := Outcome.ok.inj hexec
    rw [Arena.Coalesced, Coalesced]
    decide +kernel
  obtain rfl := Outcome.ok.inj hexec
  refine ⟨_, rfl, hc, ?_⟩
  obtain ⟨a', hrun, -, hfrees⟩ := coalescing_complete hinv hc hops (by decide)
  obtain rfl := Outcome.ok.inj hrun
  obtain ⟨z, z', hz, hz', horder, hsame⟩ := hfrees [⟨4096, 0⟩, ⟨0, 0⟩] [⟨0, 0⟩, ⟨4096, 0⟩]
    (List.Perm.refl _).subperm (List.Perm.swap _ _ _)
  exact ⟨_, rfl, z, z', hz, hz', horder, hsame (List.Perm.refl _)⟩

end Vahi.Memory
