import Vahi.Task.Elf

/-!
# What loading a program touches

The loader returns, writes only frames it obtained itself and maps only user pages exactly when each
of its steps meets a condition on the state before it.
-/

namespace Vahi.Task

open Vahi.Lib Vahi.Memory List Function Outcome

def userPageEnd : ℕ := 2 ^ 35

/-- Every byte written was in a frame obtained before, every page mapped or changed is
in the user half. -/
structure Confined (s : LoadState) : Prop where
  written : ∀ w ∈ s.written, w.owned
  mapped : ∀ page ∈ s.mapped, page < userPageEnd

def LoadState.start (pages : PageMap) (memory : ℕ → BitVec 8) (free : List ℕ) : LoadState where
  pages := pages
  memory := memory
  free := free
  obtained := []
  mapped := []
  written := []

/-- `map_to` cannot give the page a new frame. -/
def Unmappable (env : LoadEnv) (s : LoadState) (page : ℕ) : Prop :=
  s.free = [] ∨ s.pages page ≠ none ∨ ∀ n, env.tables page = some n → s.free.length ≤ n

/-- Before a page is loaded: it is a user page, and if it is mapped already and gets
part of the file, its frame was obtained in this call; or it cannot be mapped. -/
def PageOk (env : LoadEnv) (ph : ProgramHeader) (page : ℕ) (s : LoadState) : Prop :=
  match s.translatePage page with
  | some e =>
    page < userPageEnd ∧ (copyEnd ph page ≤ copyStart ph page ∨ e.frame ∈ s.obtained)
  | none => page < userPageEnd ∨ Unmappable env s page

/-- Before a header of the first pass: it is refused or empty, or its addresses can be
extended and each of its pages is in order. -/
def SegmentOk (env : LoadEnv) (data : List (BitVec 8)) (ph : ProgramHeader) (s : LoadState) :
    Prop :=
  ph.type = .load → filePastEnd data ph = false → ph.memSize ≠ 0 →
    ph.virtualAddr.toNat + ph.memSize.toNat < 2 ^ 64 →
      Extendable ph.virtualAddr ∧ Extendable (ph.virtualAddr + ph.memSize - 1) ∧
        AllSteps (loadPage env data ph) (PageOk env ph)
          (pageRange ((extended ph.virtualAddr).toNat / 4096)
            ((extended (ph.virtualAddr + ph.memSize - 1)).toNat / 4096)) s

/-- Before a relocation: it is of another type, or its address can be extended and, if
mapped, all eight bytes from there on are in frames obtained in this call. -/
def EntryOk (relaData : List (BitVec 8)) (i : ℕ) (s : LoadState) : Prop :=
  (wordAt relaData (24 * i + 8)).toNat % 2 ^ 32 = 8 →
    Extendable (wordAt relaData (24 * i)) ∧
      ∀ pa, translate s.pages (extended (wordAt relaData (24 * i))).toNat = some pa →
        ∀ k < 8, (pa + k) / 4096 ∈ s.obtained

/-- The file range of the relocations a dynamic header names, if there are any. -/
def relaRange (data : List (BitVec 8)) (headers : List ProgramHeader) (ph : ProgramHeader) :
    Option (BitVec 64 × BitVec 64) :=
  let dynData := (data.drop ph.offset.toNat).take ph.fileSize.toNat
  let table := relaTable dynData
  let off := fileOffset headers table.1
  if table.1 ≠ 0 ∧ table.2 ≠ 0 ∧ off ≠ 0 then some (off, table.2) else none

/-- Before a header of the second pass: it is refused or names no relocations, or their
range does not wrap around, starts inside the file, and each of them is in order. -/
def DynamicOk (data : List (BitVec 8)) (headers : List ProgramHeader) (ph : ProgramHeader)
    (s : LoadState) : Prop :=
  ph.type = .dynamic → filePastEnd data ph = false →
    ∀ off size, relaRange data headers ph = some (off, size) →
      off.toNat + size.toNat < 2 ^ 64 ∧ off.toNat ≤ data.length ∧
        let relaData := (data.drop off.toNat).take (min (off + size).toNat data.length - off.toNat)
        AllSteps (relocateEntry relaData) (EntryOk relaData) (List.range (relaData.length / 24)) s

def LoadOk (env : LoadEnv) (data : List (BitVec 8)) (s : LoadState) : Prop :=
  ∀ elf, env.parse data = some elf →
    AllSteps (loadSegment env data) (SegmentOk env data) elf.programHeaders s ∧
      ∀ s', forEach (loadSegment env data) elf.programHeaders s = .ok (s', none) →
        AllSteps (relocate data elf.programHeaders) (DynamicOk data elf.programHeaders)
          (dynamicHeader elf.programHeaders) s'

def OwnedSound (s : LoadState) : Prop :=
  ∀ w ∈ s.written, w.owned → w.addr / 4096 ∈ s.obtained

/-- What any part of a load does: the records only grow, and they cover what has become
of memory and of the page mappings. -/
structure Extends (s s' : LoadState) : Prop where
  written : s.written <+: s'.written
  mapped : s.mapped <+: s'.mapped
  obtained : s.obtained ⊆ s'.obtained
  memory : ∀ a, (∀ w ∈ s'.written, w.addr ≠ a) → s'.memory a = s.memory a
  pages : ∀ page ∉ s'.mapped, s'.pages page = s.pages page
  owned : OwnedSound s → OwnedSound s'

theorem Extends.refl (s : LoadState) : Extends s s where
  written := prefix_refl _
  mapped := prefix_refl _
  obtained := List.Subset.refl _
  memory := fun _ _ => rfl
  pages := fun _ _ => rfl
  owned := id

theorem Extends.trans {s₁ s₂ s₃ : LoadState} (h₁ : Extends s₁ s₂) (h₂ : Extends s₂ s₃) :
    Extends s₁ s₃ where
  written := h₁.written.trans h₂.written
  mapped := h₁.mapped.trans h₂.mapped
  obtained := List.Subset.trans h₁.obtained h₂.obtained
  memory := fun a ha => (h₂.memory a ha).trans
    (h₁.memory a fun w hw => ha w (h₂.written.subset hw))
  pages := fun page hp => (h₂.pages page hp).trans
    (h₁.pages page fun h => hp (h₂.mapped.subset h))
  owned := h₂.owned ∘ h₁.owned

variable {s s' : LoadState} {data : List (BitVec 8)} {ph : ProgramHeader} {page frame : ℕ}
  {e : Option LoadError} {env : LoadEnv} {headers : List ProgramHeader}

theorem Confined.of_extends (h : Extends s s') (hs : Confined s') : Confined s :=
  ⟨fun w hw => hs.written w (h.written.subset hw),
    fun page hp => hs.mapped page (h.mapped.subset hp)⟩

/-- A change of the page mappings and of the allocator that is on record. -/
theorem extends_map (hwritten : s'.written = s.written)
    (hmapped : s.mapped <+: s'.mapped) (hobtained : s.obtained ⊆ s'.obtained)
    (hmemory : s'.memory = s.memory) (hpages : ∀ page ∉ s'.mapped, s'.pages page = s.pages page) :
    Extends s s' where
  written := hwritten ▸ prefix_refl _
  mapped := hmapped
  obtained := hobtained
  memory := fun a _ => congrFun hmemory a
  pages := hpages
  owned := fun h w hw hown => hobtained (h w (hwritten ▸ hw) hown)

theorem extends_store (s : LoadState) (pa : ℕ) (bytes : List (BitVec 8)) :
    Extends s (s.store pa bytes) where
  written := prefix_append _ _
  mapped := prefix_refl _
  obtained := List.Subset.refl _
  memory := by
    intro a ha
    simp only [LoadState.store]
    split
    · next hle =>
      by_cases hlt : a - pa < bytes.length
      · have hmem : (⟨pa + (a - pa), (pa + (a - pa)) / 4096 ∈ s.obtained⟩ : Store) ∈
            (s.store pa bytes).written :=
          mem_append_right _ (mem_map.mpr ⟨a - pa, mem_range.mpr hlt, rfl⟩)
        exact absurd (Nat.add_sub_of_le hle) (ha _ hmem)
      · rw [getElem?_eq_none (Nat.not_lt.mp hlt)]
        rfl
    · rfl
  pages := fun _ _ => rfl
  owned := by
    intro h w hw hown
    obtain hw | hw := mem_append.mp hw
    · exact h w hw hown
    · obtain ⟨k, -, rfl⟩ := mem_map.mp hw
      exact of_decide_eq_true hown

/-- A store is confined exactly if the frames of its bytes had been obtained. -/
theorem confined_store_iff {pa : ℕ} {bytes : List (BitVec 8)} (hs : Confined s) :
    Confined (s.store pa bytes) ↔ ∀ k < bytes.length, (pa + k) / 4096 ∈ s.obtained := by
  constructor
  · intro h k hk
    have hw := h.written ⟨pa + k, (pa + k) / 4096 ∈ s.obtained⟩
      (mem_append_right _ (mem_map.mpr ⟨k, mem_range.mpr hk, rfl⟩))
    simpa using hw
  · intro h
    refine ⟨fun w hw => ?_, hs.mapped⟩
    obtain hw | hw := mem_append.mp hw
    · exact hs.written w hw
    · obtain ⟨k, hk, rfl⟩ := mem_map.mp hw
      simpa using h k (mem_range.mp hk)

section

variable (hfile : filePastEnd data ph = false)

include hfile

/-- The piece of the file for a page lies in the file and fits in the frame. -/
theorem copy_bounds (hcopy : copyStart ph page < copyEnd ph page) :
    ph.offset.toNat + (copyStart ph page - ph.virtualAddr.toNat) +
        (copyEnd ph page - copyStart ph page) ≤ data.length ∧
      ph.offset.toNat + (copyStart ph page - ph.virtualAddr.toNat) +
        (copyEnd ph page - copyStart ph page) < 2 ^ 64 ∧
      (ph.virtualAddr.toNat - 4096 * page) + (copyEnd ph page - copyStart ph page) ≤ 4096 := by
  simp only [filePastEnd, decide_eq_false_iff_not, not_or, Nat.not_le, Nat.not_lt] at hfile
  have hend : copyEnd ph page ≤ ph.virtualAddr.toNat + ph.fileSize.toNat :=
    Nat.le_trans (Nat.min_le_left _ _) (Nat.min_le_left _ _)
  have hpage : copyEnd ph page ≤ 4096 * page + 4096 :=
    Nat.le_trans (Nat.min_le_right _ _) (Nat.mod_le _ _)
  unfold copyStart at *
  omega

theorem copySegment_eq (frame : ℕ) (s : LoadState) :
    ∃ bytes, bytes.length = copyEnd ph page - copyStart ph page ∧
      copySegment data ph page frame s =
        .ok (if copyStart ph page < copyEnd ph page then
          s.store (4096 * frame + (ph.virtualAddr.toNat - 4096 * page)) bytes else s, none) := by
  by_cases hcopy : copyStart ph page < copyEnd ph page
  · obtain ⟨hlen, hwrap, -⟩ := copy_bounds hfile hcopy
    simp only [copySegment, hcopy, ↓reduceIte]
    rw [Nat.mod_eq_of_lt (Nat.lt_of_le_of_lt (Nat.le_add_right _ _) hwrap), Nat.mod_eq_of_lt hwrap,
      slice, if_pos ⟨Nat.le_add_right _ _, hlen⟩]
    refine ⟨_, ?_, rfl⟩
    simp only [length_take, length_drop]
    omega
  · refine ⟨[], ?_, by simp [copySegment, hcopy]⟩
    simp only [length_nil]
    omega

theorem copySegment_ends_iff (hs : Confined s) :
    Ends Confined (copySegment data ph page frame s) ↔
      copyEnd ph page ≤ copyStart ph page ∨ frame ∈ s.obtained := by
  obtain ⟨bytes, hlen, heq⟩ := copySegment_eq hfile frame s
  rw [heq, ends_ok]
  by_cases hcopy : copyStart ph page < copyEnd ph page
  · obtain ⟨-, -, hfit⟩ := copy_bounds hfile hcopy
    -- every byte of the copy is in the one frame
    have hframe : ∀ k < bytes.length,
        (4096 * frame + (ph.virtualAddr.toNat - 4096 * page) + k) / 4096 = frame := by
      intro k hk
      omega
    simp only [hcopy, ↓reduceIte, confined_store_iff hs, Nat.not_le.mpr hcopy, false_or]
    constructor
    · intro h
      have hfirst := h 0 (by omega)
      rwa [hframe 0 (by omega)] at hfirst
    · intro h k hk
      rwa [hframe k hk]
  · simp only [hcopy, ↓reduceIte, hs, true_iff]
    exact .inl (Nat.not_lt.mp hcopy)

end

theorem copySegment_extends (h : copySegment data ph page frame s = .ok (s', e)) :
    Extends s s' := by
  unfold copySegment at h
  split at h
  · obtain ⟨bytes, -, h⟩ := bind_eq_ok.mp h
    cases h
    exact extends_store _ _ _
  · cases h
    exact Extends.refl _

/-- `map_to` either fails without a trace in the mappings, or adds the page with a frame
obtained in this call. -/
theorem mapFresh_spec (env : LoadEnv) (ph : ProgramHeader) (page : ℕ) (s : LoadState) :
    (∃ s' e, mapFresh env ph page s = (s', .error e) ∧ Unmappable env s page ∧
        Extends s s' ∧ s'.written = s.written ∧ s'.mapped = s.mapped) ∨
      ∃ s' f, mapFresh env ph page s = (s', .ok f) ∧ ¬ Unmappable env s page ∧
        f ∈ s'.obtained ∧ Extends s s' ∧ s'.written = s.written ∧
        s'.mapped = s.mapped ++ [page] := by
  unfold Unmappable
  cases hfree : s.free with
  | nil =>
    simp only [mapFresh, hfree]
    exact .inl ⟨_, _, rfl, .inl trivial, Extends.refl s, rfl, rfl⟩
  | cons f free =>
    have hkeep : ∀ {s' : LoadState}, s'.pages = s.pages → s'.mapped = s.mapped →
        s'.written = s.written → s'.memory = s.memory → s.obtained ⊆ s'.obtained → Extends s s' :=
      fun hp hm hw hmem ho => extends_map hw (hm ▸ prefix_refl _) ho hmem fun _ _ => by rw [hp]
    cases hpage : s.pages page with
    | some e =>
      simp only [mapFresh, hfree, hpage]
      exact .inl ⟨_, _, rfl, .inr (.inl (by simp)),
        hkeep rfl rfl rfl rfl (subset_cons_self _ _), rfl, rfl⟩
    | none =>
      cases htables : env.tables page with
      | none =>
        simp only [mapFresh, hfree, hpage, htables]
        exact .inl ⟨_, _, rfl, .inr (.inr (by simp)),
          hkeep rfl rfl rfl rfl (subset_cons_self _ _), rfl, rfl⟩
      | some n =>
        by_cases hshort : free.length < n
        · simp only [mapFresh, hfree, hpage, htables, hshort, ↓reduceIte]
          refine .inl ⟨_, _, rfl, .inr (.inr fun m hm => ?_),
            hkeep rfl rfl rfl rfl fun g hg => ?_, rfl, rfl⟩
          · cases hm
            exact hshort
          · simp [hg]
        · simp only [mapFresh, hfree, hpage, htables, hshort, ↓reduceIte]
          refine .inr ⟨_, _, rfl, ?_, by simp, ?_, rfl, rfl⟩
          · simp only [reduceCtorEq, ne_eq, not_true_eq_false, false_or, Option.some.injEq,
              forall_eq', length_cons]
            omega
          · refine extends_map rfl (prefix_append _ _) (fun g hg => by simp [hg]) rfl ?_
            intro q hq
            exact update_of_ne (fun h => hq (by simp [h])) _ _

theorem loadPage_extends (h : loadPage env data ph page s = .ok (s', e)) : Extends s s' := by
  unfold loadPage at h
  split at h
  · refine Extends.trans ?_ (copySegment_extends h)
    refine extends_map rfl (prefix_append _ _) (List.Subset.refl _) rfl fun q hq => ?_
    exact update_of_ne (fun h => hq (by simp [h])) _ _
  obtain ⟨s₁, e₁, heq, -, hext, -⟩ | ⟨s₁, f, heq, -, -, hext, -⟩ := mapFresh_spec env ph page s
  · rw [heq] at h
    cases h
    exact hext
  · rw [heq] at h
    exact hext.trans (copySegment_extends h)

theorem loadPage_ends_iff
    (hfile : filePastEnd data ph = false) (page : ℕ) (s : LoadState) (hs : Confined s) :
    Ends Confined (loadPage env data ph page s) ↔ PageOk env ph page s := by
  -- a page that is mapped outside the user half is never forgotten
  have hmap : ∀ {s₁ : LoadState} {frame : ℕ}, s₁.written = s.written →
      s₁.mapped = s.mapped ++ [page] →
      (Ends Confined (copySegment data ph page frame s₁) ↔ page < userPageEnd ∧
        (copyEnd ph page ≤ copyStart ph page ∨ frame ∈ s₁.obtained)) := by
    intro s₁ frame hw hm
    by_cases hpage : page < userPageEnd
    · have hs₁ : Confined s₁ := by
        refine ⟨hw ▸ hs.written, fun q hq => ?_⟩
        rw [hm, mem_append, mem_singleton] at hq
        obtain hq | rfl := hq
        · exact hs.mapped q hq
        · exact hpage
      simpa [hpage] using copySegment_ends_iff hfile hs₁
    · simp only [hpage, false_and, iff_false]
      rintro ⟨s', e, h, hs'⟩
      have hback := Confined.of_extends (copySegment_extends h) hs'
      exact hpage (hback.mapped page (by simp [hm]))
  unfold loadPage PageOk
  cases s.translatePage page with
  | some e => exact hmap rfl rfl
  | none =>
    obtain ⟨s₁, e₁, heq, hun, -, hw, hm⟩ | ⟨s₁, f, heq, hun, hf, -, hw, hm⟩ :=
      mapFresh_spec env ph page s
    · have hs₁ : Confined s₁ := ⟨hw ▸ hs.written, hm ▸ hs.mapped⟩
      simp [heq, hun, hs₁]
    · simp only [heq, hun, or_false]
      rw [hmap hw hm]
      simp [hf]

theorem loadSegment_extends (ph : ProgramHeader)
    (s s' : LoadState) (e : Option LoadError) (h : loadSegment env data ph s = .ok (s', e)) :
    Extends s s' := by
  unfold loadSegment at h
  split at h
  · cases h; exact Extends.refl _
  split at h
  · cases h; exact Extends.refl _
  split at h
  · cases h; exact Extends.refl _
  split at h
  · cases h; exact Extends.refl _
  obtain ⟨start, -, h⟩ := bind_eq_ok.mp h
  obtain ⟨stop, -, h⟩ := bind_eq_ok.mp h
  exact forEach_rel Extends.refl (fun _ _ _ => Extends.trans) (fun _ _ _ _ => loadPage_extends) h

theorem loadSegment_ends_iff (ph : ProgramHeader) (s : LoadState) (hs : Confined s) :
    Ends Confined (loadSegment env data ph s) ↔ SegmentOk env data ph s := by
  unfold loadSegment SegmentOk
  by_cases htype : ph.type = .load
  · by_cases hfile : filePastEnd data ph = false
    · by_cases hmem : ph.memSize = 0
      · simp [htype, hfile, hmem, hs]
      · simp only [htype, ne_eq, not_true_eq_false, ↓reduceIte, hfile, Bool.false_eq_true, hmem,
          forall_const, not_false_eq_true]
        by_cases hover : 2 ^ 64 ≤ ph.virtualAddr.toNat + ph.memSize.toNat
        · simp only [hover, ↓reduceIte, ends_ok, hs, true_iff]
          intro hlt
          omega
        simp only [hover, ↓reduceIte, Nat.not_le.mp hover, forall_const]
        obtain ⟨hstart, hva⟩ | ⟨hstart, hva⟩ := virtAddrNew_eq ph.virtualAddr
        · obtain ⟨hstop, hvb⟩ | ⟨hstop, hvb⟩ := virtAddrNew_eq (ph.virtualAddr + ph.memSize - 1)
          · simp only [hva, hvb, ok_bind, hstart, hstop, true_and]
            exact forEach_ends_iff
              (fun _ _ _ _ h => Confined.of_extends (loadPage_extends h))
              (loadPage_ends_iff hfile) _ hs
          · simp only [hva, hvb, ok_bind, panic_bind, not_ends_panic, hstop,
              false_and, and_false]
        · simp only [hva, panic_bind, not_ends_panic, hstart, false_and]
    · simp [htype, hfile, hs]
  · simp [htype, hs]

theorem relocateEntry_extends {relaData : List (BitVec 8)} {i : ℕ}
    (h : relocateEntry relaData i s = .ok (s', e)) : Extends s s' := by
  simp only [relocateEntry] at h
  split at h
  · obtain ⟨target, -, h⟩ := bind_eq_ok.mp h
    split at h
    · cases h; exact extends_store _ _ _
    · cases h; exact Extends.refl _
  · cases h; exact Extends.refl _

theorem relocateEntry_ends_iff (relaData : List (BitVec 8)) (i : ℕ) (s : LoadState)
    (hs : Confined s) : Ends Confined (relocateEntry relaData i s) ↔ EntryOk relaData i s := by
  simp only [relocateEntry, EntryOk]
  by_cases htype : (wordAt relaData (24 * i + 8)).toNat % 2 ^ 32 = 8
  · simp only [htype, ↓reduceIte, forall_const]
    obtain ⟨hext, hva⟩ | ⟨hext, hva⟩ := virtAddrNew_eq (wordAt relaData (24 * i))
    · simp only [hva, ok_bind, hext, true_and]
      cases translate s.pages (extended (wordAt relaData (24 * i))).toNat with
      | none => simpa using hs
      | some pa => simp [confined_store_iff hs]
    · simp [hva, hext]
  · simp only [htype, ↓reduceIte, ends_ok, hs, false_imp_iff]

theorem slice_eq {start stop : ℕ} (h : start ≤ stop) (hlen : stop ≤ data.length) :
    slice data start stop = .ok ((data.drop start).take (stop - start)) :=
  if_pos ⟨h, hlen⟩

/-- The second pass on a dynamic header, from the range of its relocations on. -/
theorem relocate_eq
    (htype : ph.type = .dynamic) (hfile : filePastEnd data ph = false) (s : LoadState) :
    relocate data headers ph s =
      (match relaRange data headers ph with
      | none => .ok (s, none)
      | some (off, size) =>
        slice data off.toNat (min (off + size).toNat data.length) >>= fun relaData =>
          forEach (relocateEntry relaData) (List.range (relaData.length / 24)) s) := by
  have hbounds := hfile
  simp only [filePastEnd, decide_eq_false_iff_not, not_or, Nat.not_le, Nat.not_lt] at hbounds
  simp only [relocate, htype, ne_eq, not_true_eq_false, ↓reduceIte, hfile, Bool.false_eq_true,
    slice_eq (Nat.le_add_right _ _) hbounds.2, Nat.add_sub_cancel_left, ok_bind, relaRange]
  split <;> rfl

theorem relocate_extends (ph : ProgramHeader) (s s' : LoadState) (e : Option LoadError)
    (h : relocate data headers ph s = .ok (s', e)) : Extends s s' := by
  by_cases htype : ph.type = .dynamic
  · by_cases hfile : filePastEnd data ph = false
    · rw [relocate_eq htype hfile] at h
      split at h
      · cases h; exact Extends.refl _
      · obtain ⟨relaData, -, h⟩ := bind_eq_ok.mp h
        exact forEach_rel Extends.refl (fun _ _ _ => Extends.trans)
          (fun _ _ _ _ => relocateEntry_extends) h
    · simp only [relocate, htype, ne_eq, not_true_eq_false, ↓reduceIte, hfile] at h
      cases h; exact Extends.refl _
  · simp only [relocate, htype, ne_eq, not_false_eq_true, ↓reduceIte] at h
    cases h; exact Extends.refl _

theorem relocate_ends_iff (ph : ProgramHeader) (s : LoadState) (hs : Confined s) :
    Ends Confined (relocate data headers ph s) ↔ DynamicOk data headers ph s := by
  unfold DynamicOk
  by_cases htype : ph.type = .dynamic
  · by_cases hfile : filePastEnd data ph = false
    · rw [relocate_eq htype hfile]
      simp only [htype, hfile, forall_const]
      cases relaRange data headers ph with
      | none => simp [hs]
      | some range =>
        obtain ⟨off, size⟩ := range
        have hsum : (off + size).toNat = (off.toNat + size.toNat) % 2 ^ 64 := BitVec.toNat_add _ _
        simp only [Option.some.injEq, Prod.mk.injEq, and_imp, forall_eq', forall_apply_eq_imp_iff]
        by_cases hrange : off.toNat + size.toNat < 2 ^ 64 ∧ off.toNat ≤ data.length
        · rw [slice_eq (by omega) (Nat.min_le_right _ _), ok_bind]
          simp only [hrange, true_and]
          exact forEach_ends_iff
            (fun _ _ _ _ h => Confined.of_extends (relocateEntry_extends h))
            (relocateEntry_ends_iff _) _ hs
        · -- the slice starts behind its end
          rw [slice, if_neg (by omega), panic_bind]
          simp only [not_ends_panic, false_iff]
          exact fun h => hrange ⟨h.1, h.2.1⟩
    · simp [relocate, htype, hfile, hs]
  · simp [relocate, htype, hs]

theorem loadImage_extends (h : loadImage env data s = .ok (s', e)) : Extends s s' := by
  unfold loadImage at h
  split at h
  · cases h; exact Extends.refl _
  obtain ⟨e', -, hload⟩ | ⟨s₁, hload, hreloc⟩ := seq_eq_ok.mp h
  · exact forEach_rel Extends.refl (fun _ _ _ => Extends.trans) loadSegment_extends hload
  · exact (forEach_rel Extends.refl (fun _ _ _ => Extends.trans) loadSegment_extends hload).trans
      (forEach_rel Extends.refl (fun _ _ _ => Extends.trans) relocate_extends hreloc)

theorem loadImage_ends_iff (env : LoadEnv) (data : List (BitVec 8)) (s : LoadState)
    (hs : Confined s) : Ends Confined (loadImage env data s) ↔ LoadOk env data s := by
  unfold loadImage LoadOk
  cases env.parse data with
  | none => simp [hs]
  | some elf =>
    simp only [Option.some.injEq, forall_eq']
    refine seq_ends_iff ?_ ?_ ?_
    · intro s₁ s₂ e h
      exact Confined.of_extends
        (forEach_rel Extends.refl (fun _ _ _ => Extends.trans) relocate_extends h)
    · exact forEach_ends_iff
        (fun _ _ _ _ h => Confined.of_extends (loadSegment_extends _ _ _ _ h))
        loadSegment_ends_iff _ hs
    · intro s₁ _ hs₁
      exact forEach_ends_iff
        (fun _ _ _ _ h => Confined.of_extends (relocate_extends _ _ _ _ h))
        relocate_ends_iff _ hs₁

/-- The load returns; it wrote only frames it had obtained and mapped or changed only
user pages, so that other memory and the kernel's mappings are as before. -/
def LoadsConfined (env : LoadEnv) (data : List (BitVec 8)) (s : LoadState) : Prop :=
  ∃ s' r, loadElfStatic env data s = .ok (s', r) ∧ Confined s' ∧
    (∀ a, a / 4096 ∉ s'.obtained → s'.memory a = s.memory a) ∧
    ∀ page, userPageEnd ≤ page → s'.pages page = s.pages page

theorem loadElfStatic_eq_ok (env : LoadEnv) (data : List (BitVec 8)) (s s' : LoadState) :
    (∃ r, loadElfStatic env data s = .ok (s', r)) ↔ ∃ e, loadImage env data s = .ok (s', e) := by
  unfold loadElfStatic
  cases loadImage env data s with
  | panic => simp
  | hang => simp
  | ok result =>
    obtain ⟨s₁, e₁⟩ := result
    cases e₁ with
    | some e₁ => simp
    | none => cases env.parse data <;> simp

/-- A file of two bytes that are to be loaded into a page of the kernel half. -/
def kernelSegment : LoadEnv where
  parse := fun _ => some ⟨0, [⟨.load, 6, 0, 0xFFFF800000001000, 2, 4096⟩]⟩
  tables := fun _ => some 0

/-- An address space in which the kernel has a page of its own there. -/
def kernelPages : PageMap := fun page => if page = 0xFFFF800000001 then some ⟨5, 3⟩ else none

end Vahi.Task
