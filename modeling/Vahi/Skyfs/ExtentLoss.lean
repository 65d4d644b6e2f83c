import Vahi.Skyfs.ExtentMap

/-!
# What splits lose

The 16th extent splits the only leaf, and the extent of the median is in no leaf any more. No later
insertion brings it back.
-/

namespace Vahi.Skyfs

open Vahi.Lib List BTreeNode

/-- A block that is no node has more keys than a node may have. -/
def Good (N : ℕ → Prop) (S : List Entry) (n : BTreeNode) : Prop :=
  KEY_MAX < n.numKeys.toNat ∨ (n.isLeaf ≠ 0 ∧ ∀ x ∈ n.entries, x ∈ S) ∨
    (n.isLeaf = 0 ∧ ∀ i ≤ n.numKeys.toNat, N (n.child i).toNat)

variable {N : ℕ → Prop} {S es : List Entry} {n : BTreeNode} {sb : Superblock} {d : Device}
  {fuel : ℕ} {root : BitVec 64}

theorem Good.mono {N' : ℕ → Prop} {S' : List Entry} (h : Good N S n)
    (hN : ∀ b, N b → N' b) (hS : ∀ x ∈ S, x ∈ S') : Good N' S' n := by
  rcases h with h | ⟨hleaf, h⟩ | ⟨hleaf, h⟩
  · exact Or.inl h
  · exact Or.inr (Or.inl ⟨hleaf, fun x hx => hS x (h x hx)⟩)
  · exact Or.inr (Or.inr ⟨hleaf, fun i hi => hN _ (h i hi)⟩)

/-- The halves of a leaf are good if what is dealt out to them is in `S`. -/
theorem good_leafHalves {all : List Entry} (hleaf : n.isLeaf ≠ 0) (hlen : all.length = KEY_MAX + 1)
    (hS : ∀ x ∈ all.take mid ++ all.drop (mid + 1), x ∈ S) :
    Good N S (n.leftHalf all []) ∧ Good N S (rightHalf 1 all []) := by
  obtain ⟨hleft, hright⟩ := forall_mem_append.mp hS
  rw [← leftHalf_entries n hlen] at hleft
  rw [← rightHalf_entries 1 hlen] at hright
  refine ⟨Or.inr (Or.inl ⟨?_, hleft⟩), Or.inr (Or.inl ⟨show (1 : BitVec 8) ≠ 0 by decide, hright⟩)⟩
  rw [leftHalf_isLeaf]
  exact hleaf

/-- The blocks of `N` hold good nodes; the superblock, which is none, is among them. -/
structure Closed (sb : Superblock) (d : Device) (N : ℕ → Prop) (S : List Entry) : Prop where
  formatted : Formatted sb d
  zero : N 0
  data : ∀ b, N b → b = 0 ∨ ¬ Metadata sb b
  good : ∀ b, N b → Good N S (ofBlock (d b))

/-- The superblock read as a node has too many keys: they are two bytes of the magic number. -/
theorem Formatted.superblock (h : Formatted sb d) :
    KEY_MAX < (ofBlock (d 0)).numKeys.toNat := by
  have hmagic := h.magic
  change KEY_MAX < (BitVec.ofNat 16 ((d 0).get ⟨1, 2⟩)).toNat
  simp only [Block.get, ofBytes, SKYFS_MAGIC, Nat.reduceAdd] at hmagic ⊢
  rw [BitVec.toNat_ofNat, KEY_MAX, BTREE_ORDER]
  omega

namespace Closed

variable {sb : Superblock} {d : Device} {N : ℕ → Prop} {S : List Entry}

/-- Before the first node there is only the superblock. -/
theorem init (h : Formatted sb d) (S : List Entry) : Closed sb d (· = 0) S := by
  refine ⟨h, rfl, fun b hb => Or.inl hb, ?_⟩
  rintro b rfl
  exact Or.inl h.superblock

theorem mono (h : Closed sb d N S) {S' : List Entry} (hS : ∀ x ∈ S, x ∈ S') : Closed sb d N S' :=
  ⟨h.formatted, h.zero, h.data, fun b hb => (h.good b hb).mono (fun _ hb => hb) hS⟩

variable {d' : Device}

theorem alloc (h : Closed sb d N S) {r : Option (BitVec 64)} (ha : allocNodeBlock sb d = (r, d')) :
    Closed sb d' N S ∧ ∀ b, r = some b → ¬ Metadata sb b.toNat := by
  obtain ⟨hfmt, hkept, hnew⟩ := allocNodeBlock_spec h.formatted ha
  refine ⟨⟨hfmt, h.zero, h.data, ?_⟩, hnew⟩
  intro b hb
  rw [hkept b (h.data b hb)]
  exact h.good b hb

variable {n : BTreeNode} {nodeBlock : BitVec 64} {r : Except Unit (Option Promoted)} {e : Entry}

section

variable (h : Closed sb d N S)

include h

/-- A good node may be written to any block that is not metadata. -/
theorem write {b : BitVec 64} (hb : ¬ Metadata sb b.toNat)
    (hn : Good N S n) : Closed sb (writeNode d b n) (fun x => N x ∨ x = b.toNat) S := by
  refine ⟨h.formatted.write hb _, Or.inl h.zero, ?_, ?_⟩
  · rintro x (hx | rfl)
    · exact h.data x hx
    · exact Or.inr hb
  · intro x hx
    by_cases hxb : x = b.toNat
    · subst hxb
      rw [ofBlock_writeNode_self]
      exact hn.mono (fun _ hb => Or.inl hb) fun _ hx => hx
    · have hold : N x := hx.resolve_right hxb
      rw [writeNode, Device.write_of_ne _ hxb]
      exact (h.good x hold).mono (fun _ hb => Or.inl hb) fun _ hx => hx

theorem newRoot (hn : Good N S n) (hr : Skyfs.newRoot sb d n = (.ok root, d')) :
    ∃ N', Closed sb d' N' S ∧ N' root.toNat := by
  obtain ⟨d₁, halloc, rfl⟩ := newRoot_spec hr
  obtain ⟨hclosed, hblock⟩ := h.alloc halloc
  exact ⟨_, hclosed.write (hblock root rfl) hn, Or.inr rfl⟩

/-- More blocks hold good nodes, among them the given one and the one that is reported. -/
def Grown (sb : Superblock) (d' : Device) (N : ℕ → Prop) (S : List Entry) (nodeBlock : BitVec 64)
    (r : Except Unit (Option Promoted)) : Prop :=
  ∃ N', (∀ b, N b → N' b) ∧ Closed sb d' N' S ∧ N' nodeBlock.toNat ∧
    ∀ p, r = .ok (some p) → N' p.newChild.toNat

theorem splitNode (hb : ¬ Metadata sb nodeBlock.toNat) {isLeaf : BitVec 8}
    {all : List Entry} {cs : List (BitVec 64)}
    (hleft : Good N S (n.leftHalf all cs)) (hright : Good N S (rightHalf isLeaf all cs))
    (hs : Skyfs.splitNode sb d nodeBlock n isLeaf all cs = (r, d')) : Grown sb d' N S nodeBlock r := by
  have hwritten := h.write hb hleft
  rw [Skyfs.splitNode] at hs
  rcases hres : allocNodeBlock sb (writeNode d nodeBlock (n.leftHalf all cs)) with ⟨_ | new, d₁⟩
  · simp only [hres] at hs
    cases hs
    exact ⟨_, fun b hb => Or.inl hb, (hwritten.alloc hres).1, Or.inr rfl, fun p hp => by cases hp⟩
  simp only [hres] at hs
  cases hs
  obtain ⟨hclosed, hblock⟩ := hwritten.alloc hres
  refine ⟨_, fun b hb => Or.inl (Or.inl hb), hclosed.write (hblock new rfl)
    (hright.mono (fun _ hb => Or.inl hb) fun _ hx => hx), Or.inl (Or.inr rfl), ?_⟩
  intro p hp
  cases hp
  exact Or.inr rfl

/-- The new child of an interior node, with or without a split. -/
theorem insertPromoted (hb : ¬ Metadata sb nodeBlock.toNat) (hleaf : n.isLeaf = 0)
    (hn : ∀ j ≤ n.numKeys.toNat, N (n.child j).toNat) {i : ℕ} (hi : i ≤ n.numKeys.toNat)
    {p : Promoted} (hp : N p.newChild.toNat)
    (hs : Skyfs.insertPromoted sb d nodeBlock n i p = (r, d')) : Grown sb d' N S nodeBlock r := by
  rw [Skyfs.insertPromoted] at hs
  by_cases hroom : n.numKeys.toNat < KEY_MAX
  · rw [if_pos hroom] at hs
    cases hs
    have hgood : Good N S (n.insertInterior i p) := by
      refine Or.inr (Or.inr ⟨(insertInterior_isLeaf n i p).trans hleaf, ?_⟩)
      intro j hj
      have hsucc : (n.insertInterior i p).numKeys.toNat = n.numKeys.toNat + 1 :=
        numKeys_succ n hroom
      rw [hsucc] at hj
      rcases insertInterior_child n p hroom hi hj with hc | ⟨j', hj', hc⟩
      · rw [hc]
        exact hp
      · rw [hc]
        exact hn j' hj'
    exact ⟨_, fun b hb => Or.inl hb, h.write hb hgood, Or.inr rfl, nofun⟩
  · rw [if_neg hroom] at hs
    -- whatever is dealt out is in the set: an old child, the new one, or the superblock
    have hdealt : ∀ c ∈ (n.gather i p).allChildren.toList, N c.toNat := by
      intro c hc
      rcases gather_children n i p c hc with rfl | rfl | ⟨j, hj, rfl⟩
      · exact h.zero
      · exact hp
      · exact hn j hj
    have hlen : (n.gather i p).allChildren.toList.length = KEY_MAX + 2 := Vector.length_toList
    refine h.splitNode hb ?_ ?_ hs
    · refine Or.inr (Or.inr ⟨(leftHalf_isLeaf ..).trans hleaf, ?_⟩)
      exact fun j hj => hdealt _ (leftHalf_child n _ hlen hj)
    · refine Or.inr (Or.inr ⟨rfl, ?_⟩)
      exact fun j hj => hdealt _ (rightHalf_child 0 _ hlen hj)

end

/-- The new entry in a leaf, with or without a split. -/
theorem insertAtLeaf (he : e ∈ S) (h : Closed sb d N S)
    (hb : ¬ Metadata sb nodeBlock.toNat) (hleaf : n.isLeaf ≠ 0)
    (hkeys : n.numKeys.toNat ≤ KEY_MAX) (hn : ∀ x ∈ n.entries, x ∈ S)
    (hins : (if n.numKeys.toNat < KEY_MAX then (.ok none, writeNode d nodeBlock (n.insertLeaf e))
      else Skyfs.splitNode sb d nodeBlock n 1 (gatherKeys e false n.entries) []) = (r, d')) :
    Grown sb d' N S nodeBlock r := by
  have hnew : ∀ x ∈ e :: n.entries, x ∈ S := forall_mem_cons.mpr ⟨he, hn⟩
  by_cases hroom : n.numKeys.toNat < KEY_MAX
  · rw [if_pos hroom] at hins
    cases hins
    have hgood : Good N S (n.insertLeaf e) := by
      refine Or.inr (Or.inl ⟨?_, ?_⟩)
      · rw [insertLeaf_isLeaf]
        exact hleaf
      · exact fun x hx => hnew x ((insertLeaf_entries n e hroom).mem_iff.mp hx)
    exact ⟨_, fun b hb => Or.inl hb, h.write hb hgood, Or.inr rfl, nofun⟩
  · rw [if_neg hroom] at hins
    have hperm := gatherKeys_perm e n.entries
    have hall : ∀ x ∈ gatherKeys e false n.entries, x ∈ S := fun x hx =>
      hnew x (hperm.mem_iff.mp hx)
    have hlen : (gatherKeys e false n.entries).length = KEY_MAX + 1 := by
      rw [hperm.length_eq, length_cons, length_entries]
      omega
    obtain ⟨hleft, hright⟩ := good_leafHalves (N := N) (S := S) hleaf hlen <| forall_mem_append.mpr
      ⟨fun x hx => hall x (mem_of_mem_take hx), fun x hx => hall x (mem_of_mem_drop hx)⟩
    exact h.splitNode hb hleft hright hins

theorem insertNonFull (he : e ∈ S) (h : Closed sb d N S) (hb : N nodeBlock.toNat)
    (hins : Skyfs.insertNonFull sb e fuel d nodeBlock = .ok (r, d')) : Grown sb d' N S nodeBlock r := by
  induction fuel generalizing d nodeBlock N r d' with
  | zero => cases hins
  | succ fuel ih =>
    rw [Skyfs.insertNonFull] at hins
    by_cases hkeys : KEY_MAX < (ofBlock (d nodeBlock.toNat)).numKeys.toNat
    · rw [if_pos hkeys] at hins
      cases hins
      exact ⟨N, fun _ hb => hb, h, hb, fun _ h => by cases h⟩
    have hblock : ¬ Metadata sb nodeBlock.toNat := by
      rcases h.data _ hb with hzero | hblock
      · rw [hzero] at hkeys
        exact absurd h.formatted.superblock hkeys
      · exact hblock
    have hgood := (h.good _ hb).resolve_left hkeys
    rw [if_neg hkeys] at hins
    generalize ofBlock (d nodeBlock.toNat) = n at hkeys hgood hins
    have hkeys := Nat.le_of_not_lt hkeys
    rcases hgood with ⟨hleaf, hentries⟩ | ⟨hleaf, hchildren⟩
    · rw [if_pos hleaf, ← apply_ite Outcome.ok] at hins
      exact h.insertAtLeaf he hblock hleaf hkeys hentries (Outcome.ok.inj hins)
    -- an interior node: the child is changed first
    have hidx := n.insertIndex_le e.1 n.numKeys.toNat
    rw [if_neg (not_not.mpr hleaf)] at hins
    cases hrec : Skyfs.insertNonFull sb e fuel d (n.child (n.insertIndex e.1 n.numKeys.toNat)) with
    | panic | hang => simp only [hrec, reduceCtorEq] at hins
    | ok res =>
      obtain ⟨r₁, d₁⟩ := res
      obtain ⟨N₁, hsub, hclosed, -, hnew⟩ := ih h (hchildren _ hidx) hrec
      simp only [hrec] at hins
      split at hins
      · next p d₂ heq =>
        obtain ⟨rfl, rfl⟩ := Prod.mk.inj (Outcome.ok.inj heq)
        obtain ⟨N₂, hsub', hrest⟩ := hclosed.insertPromoted hblock hleaf
          (fun j hj => hsub _ (hchildren j hj)) hidx (hnew p rfl) (Outcome.ok.inj hins)
        exact ⟨N₂, fun b hb => hsub' b (hsub b hb), hrest⟩
      · cases hins
        exact ⟨N₁, hsub, hclosed, hsub _ hb, hnew⟩

end Closed

/-! ## Trees -/

/-- The nodes that the root leads to have no entries but those of `S` in their leaves. -/
def Rooted (sb : Superblock) (d : Device) (root : BitVec 64) (S : List Entry) : Prop :=
  ∃ N, Closed sb d N S ∧ N root.toNat

namespace Rooted

variable {sb : Superblock} {d : Device} {root : BitVec 64} {S : List Entry}

variable {d' : Device} {root' : BitVec 64} {fuel : ℕ}

/-- The root above two nodes. -/
theorem join (h : Closed sb d N S) {left : BitVec 64} (hleft : N left.toNat)
    {p : Promoted} (hp : N p.newChild.toNat)
    (hr : newRoot sb d { (empty.setEntry 0 p.entry).setChildren [left, p.newChild] with
      numKeys := 1 } = (.ok root', d')) : Rooted sb d' root' S := by
  refine h.newRoot (Or.inr (Or.inr ⟨rfl, ?_⟩)) hr
  intro i hi
  rcases Nat.le_one_iff_eq_zero_or_eq_one.mp hi with rfl | rfl
  · exact hleft
  · exact hp

theorem insertExtent (he : e ∈ S) (h : Rooted sb d root S) (hins : Skyfs.insertExtent sb fuel d root e = .ok (.ok root', d')) :
    Rooted sb d' root' S := by
  obtain ⟨N, hclosed, hroot⟩ := h
  by_cases hzero : root = 0
  · rw [Skyfs.insertExtent, if_pos hzero] at hins
    refine hclosed.newRoot (Or.inr (Or.inl ⟨?_, ?_⟩)) (Outcome.ok.inj hins)
    · change (1 : BitVec 8) ≠ 0
      decide
    · exact forall_mem_singleton.mpr he
  · rcases insertExtent_cases hzero hins with ⟨hrec, rfl⟩ | ⟨p, d₁, hrec, hnewRoot⟩
    · obtain ⟨N', -, hclosed', hroot', -⟩ := hclosed.insertNonFull he hroot hrec
      exact ⟨N', hclosed', hroot'⟩
    · obtain ⟨N', -, hclosed', hroot', hnew⟩ := hclosed.insertNonFull he hroot hrec
      exact join hclosed' hroot' (hnew p rfl) hnewRoot

/-- A lookup that finds something finds it in an entry of `S`. -/
theorem lookupExtent (h : Rooted sb d root S) {off : BitVec 64} {x : Extent}
    (hl : Skyfs.lookupExtent d off fuel root = .ok (some x)) : ∃ e ∈ S, e.lookup off = some x := by
  obtain ⟨N, hclosed, hroot⟩ := h
  induction fuel generalizing root with
  | zero => cases hl
  | succ fuel ih =>
    rw [Skyfs.lookupExtent] at hl
    have hgood := hclosed.good _ hroot
    generalize ofBlock (d root.toNat) = n at hgood hl
    rcases hgood with hkeys | hgood
    · rw [if_pos hkeys] at hl
      cases hl
    by_cases hkeys : KEY_MAX < n.numKeys.toNat
    · rw [if_pos hkeys] at hl
      cases hl
    rw [if_neg hkeys] at hl
    rcases hgood with ⟨hleaf, hentries⟩ | ⟨hleaf, hchildren⟩
    · rw [if_pos hleaf] at hl
      obtain ⟨e, he, hlookup⟩ := exists_of_findSome?_eq_some (Outcome.ok.inj hl)
      exact ⟨e, hentries e he, hlookup⟩
    rw [if_neg (not_not.mpr hleaf)] at hl
    refine ih hl (hchildren _ ?_)
    have := n.childIndex_le off 0 n.numKeys.toNat
    omega

end Rooted

theorem insertAll_rooted (h : Rooted sb d root S)
    (hrun : insertAll sb fuel d root es = some (d', root')) : Rooted sb d' root' (S ++ es) := by
  induction es generalizing d root S with
  | nil =>
    cases hrun
    rw [append_nil]
    exact h
  | cons e es ih =>
    rw [insertAll] at hrun
    split at hrun
    · next root₁ d₁ hins =>
      obtain ⟨N, hclosed, hroot⟩ := h
      have hgrown : Rooted sb d root (S ++ [e]) :=
        ⟨N, hclosed.mono fun x hx => mem_append_left _ hx, hroot⟩
      have hnext := hgrown.insertExtent (mem_append_right _ mem_cons_self) hins
      have hrest := ih hnext hrun
      rw [append_assoc] at hrest
      exact hrest
    · cases hrun

/-- The first split: one of the entries is not among those that the leaves are left with. -/
theorem OneLeaf.split (h : OneLeaf sb d root es) (hlen : es.length = KEY_MAX)
    (hins : insertExtent sb fuel d root e = .ok (.ok root', d')) :
    ∃ lost S, Rooted sb d' root' S ∧ (lost :: S).Perm (es ++ [e]) := by
  have hkeys := h.numKeys
  have hleaf := h.leaf
  have hall : (gatherKeys e false (ofBlock (d root.toNat)).entries).Perm
      (es ++ [e]) :=
    (gatherKeys_perm e _).trans
      ((h.entries.cons e).trans (perm_append_singleton e es).symm)
  have hstep : ∀ r, insertNonFull sb e fuel d root = .ok r →
      splitNode sb d root (ofBlock (d root.toNat)) 1
        (gatherKeys e false (ofBlock (d root.toNat)).entries) [] = r := by
    intro r hr
    cases fuel with
    | zero => cases hr
    | succ fuel =>
      rw [insertNonFull, if_neg (by omega), if_pos hleaf, if_neg (by omega)] at hr
      exact Outcome.ok.inj hr
  generalize gatherKeys e false (ofBlock (d root.toNat)).entries = all
    at hstep hall
  generalize ofBlock (d root.toNat) = n at hstep hleaf
  have hlength : all.length = KEY_MAX + 1 := by
    rw [hall.length_eq, length_append, length_singleton, hlen]
  have hmid : mid < all.length := by
    rw [hlength]
    decide
  have hdeal : all = all.take mid ++ all[mid] :: all.drop (mid + 1) := by
    rw [← drop_eq_getElem_cons hmid, take_append_drop]
  -- the halves keep everything but the median between them
  refine ⟨all[mid], all.take mid ++ all.drop (mid + 1), ?_, ?_⟩
  · obtain ⟨hleft, hright⟩ := good_leafHalves (N := (· = 0)) hleaf hlength fun x hx => hx
    have hinit := Closed.init h.formatted (all.take mid ++ all.drop (mid + 1))
    rcases insertExtent_cases h.root_ne hins with ⟨hrec, rfl⟩ | ⟨p, d₁, hrec, hnewRoot⟩
    · obtain ⟨N, -, hclosed, hroot, -⟩ := hinit.splitNode h.block hleft hright (hstep _ hrec)
      exact ⟨N, hclosed, hroot⟩
    · obtain ⟨N, -, hclosed, hroot, hnew⟩ := hinit.splitNode h.block hleft hright (hstep _ hrec)
      exact Rooted.join hclosed hroot (hnew p rfl) hnewRoot
  · exact perm_middle.symm.trans (hdeal ▸ hall)

/-! ## Runs -/

/-- The runs that start with an empty tree. -/
theorem oneLeaf_of_insertAll (h : Formatted sb d) (hlen : (e :: es).length ≤ KEY_MAX)
    (hrun : insertAll sb fuel d 0 (e :: es) = some (d', root')) : OneLeaf sb d' root' (e :: es) := by
  rw [insertAll] at hrun
  split at hrun
  · next root₁ d₁ hins => exact insertAll_oneLeaf (OneLeaf.first h hins) hlen hrun
  · cases hrun

theorem insertAll_append
    {es' : List Entry} (hrun : insertAll sb fuel d root (es ++ es') = some (d', root')) :
    ∃ d₁ root₁, insertAll sb fuel d root es = some (d₁, root₁) ∧
      insertAll sb fuel d₁ root₁ es' = some (d', root') := by
  induction es generalizing d root with
  | nil => exact ⟨d, root, rfl, hrun⟩
  | cons e es ih =>
    rw [cons_append, insertAll] at hrun
    split at hrun
    · next root₁ d₁ hins =>
      obtain ⟨d₂, root₂, hfirst, hrest⟩ := ih hrun
      refine ⟨d₂, root₂, ?_, hrest⟩
      rw [insertAll, hins]
      exact hfirst
    · cases hrun

/-- After more than 15 insertions some entry is gone. -/
theorem lost_of_insertAll (h : Formatted sb d) (hlen : KEY_MAX < es.length)
    (hrun : insertAll sb fuel d 0 es = some (d', root')) :
    ∃ lost S, Rooted sb d' root' S ∧ (lost :: S).Perm es := by
  obtain ⟨d₁, root₁, hfirst, hrest⟩ : ∃ d₁ root₁,
      insertAll sb fuel d 0 (es.take KEY_MAX) = some (d₁, root₁) ∧
      insertAll sb fuel d₁ root₁ (es.drop KEY_MAX) = some (d', root') := by
    rw [← take_append_drop KEY_MAX es] at hrun
    exact insertAll_append hrun
  have htake : (es.take KEY_MAX).length = KEY_MAX := by
    rw [length_take]
    omega
  have hleaf : OneLeaf sb d₁ root₁ (es.take KEY_MAX) := by
    cases hes : es.take KEY_MAX with
    | nil =>
      rw [hes] at htake
      cases htake
    | cons e rest =>
      rw [hes] at hfirst htake
      exact oneLeaf_of_insertAll h (Nat.le_of_eq htake) hfirst
  rw [drop_eq_getElem_cons hlen, insertAll] at hrest
  split at hrest
  · next root₂ d₂ hins =>
    obtain ⟨lost, S, hrooted, hperm⟩ := hleaf.split htake hins
    refine ⟨lost, S ++ es.drop (KEY_MAX + 1), insertAll_rooted hrooted hrest, ?_⟩
    refine (hperm.append_right _).trans (List.Perm.of_eq ?_)
    rw [append_assoc, singleton_append, ← drop_eq_getElem_cons hlen, take_append_drop]
  · cases hrest

section Map

variable {sb : Superblock} {fuel : ℕ} {d d' : Device} {root' : BitVec 64} {es : List Entry}

variable (h : Formatted sb d)

include h

/-- Whatever was split, a lookup finds only what was inserted for the block. -/
theorem lookup_sound_of_insertAll
    (hrun : insertAll sb fuel d 0 es = some (d', root')) {off : BitVec 64} {k : ℕ} {x : Extent}
    (hl : lookupExtent d' off k root' = .ok (some x)) : ∃ e ∈ es, e.Covers off ∧ x = e.part off := by
  have hstart : Rooted sb d 0 [] := ⟨_, Closed.init h [], rfl⟩
  have hend : Rooted sb d' root' es := insertAll_rooted hstart hrun
  obtain ⟨e, he, hlookup⟩ := hend.lookupExtent hl
  exact ⟨e, he, Entry.lookup_eq_some hlookup⟩

variable (hapart : es.Pairwise Apart)

include hapart

/-- Few extents are found, in the empty tree or in its only leaf. -/
theorem isMap_of_insertAll
    (hrun : insertAll sb fuel d 0 es = some (d', root')) (hlen : es.length ≤ KEY_MAX)
    (hfits : ∀ e ∈ es, e.Fits) : IsMap d' root' es := by
  cases es with
  | nil =>
    cases hrun
    intro off
    refine ⟨1, none, ?_, fun e he => absurd he not_mem_nil, fun _ => rfl⟩
    exact if_pos h.superblock
  | cons e es => exact (oneLeaf_of_insertAll h hlen hrun).isMap hlen hapart hfits

/-- A lost extent is not found at its first block, which no other extent covers. -/
theorem not_isMap_of_insertAll
    (hrun : insertAll sb fuel d 0 es = some (d', root')) (hlen : KEY_MAX < es.length)
    (hne : ∀ e ∈ es, e.2.blockCount ≠ 0) : ¬ IsMap d' root' es := by
  obtain ⟨lost, S, hrooted, hperm⟩ := lost_of_insertAll h hlen hrun
  have hmem : lost ∈ es := hperm.mem_iff.mp mem_cons_self
  have hcovers := Entry.covers_self (hne lost hmem)
  intro hmap
  obtain ⟨fuel, r, hlookup, hfound, -⟩ := hmap lost.1
  rw [hfound lost hmem hcovers] at hlookup
  obtain ⟨e, he, hsome⟩ := hrooted.lookupExtent hlookup
  have hpair := (hperm.pairwise_iff fun h => symm_of Apart h).mpr hapart
  exact (pairwise_cons.mp hpair).1 e he lost.1 ⟨hcovers, (Entry.lookup_eq_some hsome).1⟩

/-- An extent that runs past the last block number is not found either. -/
theorem fits_of_isMap
    (hrun : insertAll sb fuel d 0 es = some (d', root')) (hlen : es.length ≤ KEY_MAX)
    (hne : ∀ e ∈ es, e.2.blockCount ≠ 0) (hmap : IsMap d' root' es) : ∀ e ∈ es, e.Fits := by
  intro e he
  by_contra hfits
  have hleaf : OneLeaf sb d' root' es := by
    cases es with
    | nil => cases he
    | cons x xs => exact oneLeaf_of_insertAll h hlen hrun
  have hcovers := Entry.covers_self (hne e he)
  obtain ⟨fuel, r, hlookup, hfound, -⟩ := hmap e.1
  rw [hfound e he hcovers] at hlookup
  cases fuel with
  | zero => cases hlookup
  | succ fuel =>
    rw [hleaf.lookupExtent hlen] at hlookup
    obtain ⟨x, hx, hsome⟩ := exists_of_findSome?_eq_some (Outcome.ok.inj hlookup)
    by_cases hsame : x = e
    · rw [hsame, Entry.lookup_self_of_not_fits hfits] at hsome
      cases hsome
    · exact hapart.forall (hleaf.entries.mem_iff.mp hx) he hsame e.1
        ⟨(Entry.lookup_eq_some hsome).1, hcovers⟩

end Map

/-- For every run of insertions with disjoint ranges that all succeed on an empty tree: a lookup
finds nothing but the extent that covers the block; up to 15 extents that end at a block number are
all found; and if no extent is empty, these are the only runs of which that is true. -/
theorem isMap_iff {sb : Superblock} {fuel : ℕ} {d d' : Device} {root' : BitVec 64} {es : List Entry}
    (h : Formatted sb d) (hapart : es.Pairwise Apart)
    (hrun : insertAll sb fuel d 0 es = some (d', root')) :
    (∀ off k x, lookupExtent d' off k root' = .ok (some x) →
      ∃ e ∈ es, e.Covers off ∧ x = e.part off) ∧
    (es.length ≤ KEY_MAX ∧ (∀ e ∈ es, e.Fits) → IsMap d' root' es) ∧
    ((∀ e ∈ es, e.2.blockCount ≠ 0) →
      (IsMap d' root' es ↔ es.length ≤ KEY_MAX ∧ ∀ e ∈ es, e.Fits)) := by
  have hshort : es.length ≤ KEY_MAX ∧ (∀ e ∈ es, e.Fits) → IsMap d' root' es :=
    fun hes => isMap_of_insertAll h hapart hrun hes.1 hes.2
  refine ⟨fun off k x hl => lookup_sound_of_insertAll h hrun hl, hshort,
    fun hne => ⟨fun hmap => ?_, hshort⟩⟩
  have hlen : es.length ≤ KEY_MAX := by
    by_contra hlong
    exact not_isMap_of_insertAll h hapart hrun (Nat.lt_of_not_le hlong) hne hmap
  exact ⟨hlen, fits_of_isMap h hapart hrun hlen hne hmap⟩

section Concrete

def formattedDevice : Device := fun b =>
  if b = 0 then Block.zero.set ⟨0, 8⟩ SKYFS_MAGIC
  else if b = 1 then (Block.zero.setBit 0).setBit 1
  else Block.zero

theorem formattedDevice_formatted : Formatted smallSuperblock formattedDevice := by
  have hmeta : ∀ q, Metadata smallSuperblock q → q = 0 ∨ q = 1 := by
    rintro q (rfl | ⟨hle, hlt⟩)
    · exact Or.inl rfl
    · change 1 ≤ q at hle
      change q < 1 + 1 at hlt
      exact Or.inr (by omega)
  refine ⟨?_, by decide, ?_, ?_⟩
  · rfl
  · intro q hq
    rcases hmeta q hq with rfl | rfl <;> decide
  · intro q hq
    rcases hmeta q hq with rfl | rfl
    · change ((Block.zero.setBit 0).setBit 1).testBit 0 = true
      decide +kernel
    · change ((Block.zero.setBit 0).setBit 1).testBit 1 = true
      decide +kernel

def unitExtents (n : ℕ) : List Entry :=
  (List.range n).map fun i => (BitVec.ofNat 64 i, ⟨BitVec.ofNat 64 (100 + i), 1⟩)

theorem unitExtents_apart {n : ℕ} (hn : n ≤ 2 ^ 64) : (unitExtents n).Pairwise Apart := by
  rw [unitExtents, pairwise_map]
  refine pairwise_lt_range.imp_of_mem ?_
  intro i j hi hj hlt off hoff
  have hj := mem_range.mp hj
  have hone : (1 : BitVec 64).toNat = 1 := rfl
  simp only [Entry.Covers, BitVec.toNat_ofNat, hone] at hoff
  omega

/-- Three extents of one block are found. -/
theorem isMap_iff_threeExtents :
    Formatted smallSuperblock formattedDevice ∧ (unitExtents 3).Pairwise Apart ∧
      ∃ d' root', insertAll smallSuperblock 1 formattedDevice 0 (unitExtents 3) = some (d', root') ∧
        IsMap d' root' (unitExtents 3) := by
  have hapart := unitExtents_apart (n := 3) (by decide)
  have hsome : (insertAll smallSuperblock 1 formattedDevice 0 (unitExtents 3)).isSome = true := by
    decide +kernel
  obtain ⟨⟨d', root'⟩, hrun⟩ := Option.isSome_iff_exists.mp hsome
  exact ⟨formattedDevice_formatted, hapart, d', root', hrun,
    (isMap_iff formattedDevice_formatted hapart hrun).2.1 (by decide)⟩

/-- Sixteen extents of one block are inserted. The one at logical block 7 is the median of the
split and is not found. -/
theorem sixteenExtents_medianLost :
    Formatted smallSuperblock formattedDevice ∧ (unitExtents 16).Pairwise Apart ∧
      ∃ d' root', insertAll smallSuperblock 1 formattedDevice 0 (unitExtents 16) = some (d', root') ∧
        lookupExtent d' 7 2 root' = .ok none ∧ ¬ IsMap d' root' (unitExtents 16) := by
  have hapart := unitExtents_apart (n := 16) (by decide)
  have hlookup : (insertAll smallSuperblock 1 formattedDevice 0 (unitExtents 16)).map
      (fun s => lookupExtent s.1 7 2 s.2) = some (.ok none) := by
    decide +kernel
  obtain ⟨⟨d', root'⟩, hrun, hnone⟩ := Option.map_eq_some_iff.mp hlookup
  refine ⟨formattedDevice_formatted, hapart, d', root', hrun, hnone, ?_⟩
  exact not_isMap_of_insertAll formattedDevice_formatted hapart hrun (by decide) (by decide)

end Concrete

end Vahi.Skyfs
