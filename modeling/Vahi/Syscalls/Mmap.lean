import Vahi.Lib.Run
import Vahi.Task.Vma

/-!
# System calls on the address space

`sys_brk`, `sys_mmap`, `sys_munmap`, `sys_mprotect`, `sys_mremap` (`kernel/src/syscalls/fs_io.rs`)
and `sys_shmat` (`shm.rs`), as far as they change the list of memory areas. Sums wrap.
-/

namespace Vahi.Syscalls

open Vahi.Lib Vahi.Types Vahi.Memory Vahi.Task

/-- The flags of a page for the protection `prot`: present, user, and as it says. -/
def protFlags (prot : BitVec 64) : BitVec 64 :=
  0x5 ||| (if prot.getLsbD 1 then 0x2 else 0) |||
    (if prot.getLsbD 2 then 0 else 0x8000000000000000)

def mmapMax : BitVec 64 := 0x700000000000

def brkVma (brk addr : BitVec 64) : Vma where
  start := brk
  stop := addr
  flags := 0x7
  fileHandle := none
  fileOffset := 0
  isShared := false
  shmId := none

variable (m : ProcessMemory)

/-- A break that falls keeps its areas. -/
def sysBrk (addr : BitVec 64) : ProcessMemory × BitVec 64 :=
  if addr = 0 then (m, m.brk)
  else if m.brk < addr then
    ({ brk := addr, vmas := insertVmaLocked m.vmas (brkVma m.brk addr) }, addr)
  else ({ m with brk := addr }, addr)

abbrev VmaResult := Outcome (ProcessMemory × Except Errno (BitVec 64))

/-- The arguments of `mmap`. `cgroup` says that the limit of the control group allows it. -/
structure MmapArgs where
  addr : BitVec 64 := 0
  len : BitVec 64
  prot : BitVec 64 := 3
  flags : BitVec 64 := 0
  fd : BitVec 64 := BitVec.allOnes 64
  offset : BitVec 64 := 0
  cgroup : Bool := true

namespace MmapArgs

def pageLen (args : MmapArgs) : BitVec 64 := (args.len + 4095) &&& ~~~ 4095

def vma (args : MmapArgs) (addr : BitVec 64) : Vma where
  start := addr
  stop := addr + args.pageLen
  flags := protFlags args.prot
  fileHandle := if args.fd ≠ BitVec.allOnes 64 then some args.fd else none
  fileOffset := args.offset
  isShared := args.flags.getLsbD 1
  shmId := none

/-- Where the search starts: at the address given, or past the program break. -/
def hint (args : MmapArgs) (m : ProcessMemory) : BitVec 64 :=
  if args.addr = 0 then (m.brk + 0xFFFFFFF) &&& ~~~ 0xFFFFFFF else args.addr

end MmapArgs

/-- The address is a hint, and a free range behind it is taken. -/
def sysMmap (args : MmapArgs) : VmaResult :=
  if args.pageLen = 0 then .ok (m, .error .einval)
  else if args.cgroup = false then .ok (m, .error .enomem)
  else do
    match ← findFreeVmaRegion m.vmas (args.hint m) args.pageLen mmapMax with
    | some addr => .ok ({ m with vmas := insertVmaLocked m.vmas (args.vma addr) }, .ok addr)
    | none => .ok (m, .error .enomem)

/-- `sys_munmap`. No page is unmapped. -/
def sysMunmap (addr len : BitVec 64) : ProcessMemory :=
  { m with vmas := removeVmaRange addr (addr + len) m.vmas }

/-- `sys_mprotect`. Areas are changed as a whole. -/
def sysMprotect (addr len prot : BitVec 64) : ProcessMemory :=
  let alignedEnd := (addr + len + 4095) &&& ~~~ 4095
  let alignedAddr := addr &&& ~~~ 4095
  { m with vmas := m.vmas.map fun v =>
      if v.start < alignedEnd ∧ alignedAddr < v.stop then { v with flags := protFlags prot }
      else v }

/-- The arguments of `mremap`. `pages` says that the page tables could be changed. -/
structure MremapArgs where
  oldAddress : BitVec 64
  oldSize : BitVec 64
  newSize : BitVec 64
  flags : BitVec 32
  newAddress : BitVec 64 := 0
  pages : Bool := true

namespace MremapArgs

variable (args : MremapArgs) (vmas : List Vma)

def mayMove : Bool := args.flags.getLsbD 0

def fixed : Bool := args.flags.getLsbD 1

def oldEnd : BitVec 64 := args.oldAddress + args.oldSize

def newEnd : BitVec 64 := args.oldAddress + args.newSize

def area : Except Errno Vma :=
  if args.oldAddress &&& 4095 ≠ 0 then .error .einval
  else if args.oldSize = 0 ∨ args.oldSize &&& 4095 ≠ 0 then .error .einval
  else if args.newSize = 0 ∨ args.newSize &&& 4095 ≠ 0 then .error .einval
  else if args.flags &&& ~~~ 3 ≠ 0 then .error .einval
  else if args.fixed ∧ !args.mayMove then .error .einval
  else
    match vmas.find? fun v => v.start = args.oldAddress with
    | some v => if v.stop - v.start = args.oldSize then .ok v else .error .einval
    | none => .error .efault

def blocked : Bool :=
  mmapMax < args.newEnd || vmas.any fun v => v.start < args.newEnd ∧ args.oldEnd < v.stop

def dest : Outcome (Except Errno (BitVec 64)) :=
  if args.fixed then
    if args.newAddress &&& 4095 ≠ 0 then .ok (.error .einval)
    else if vmas.any fun v => v.start < args.newAddress + args.newSize ∧ args.newAddress < v.stop then
      .ok (.error .einval)
    else .ok (.ok args.newAddress)
  else do
    match ← findFreeVmaRegion vmas (if args.newAddress ≠ 0 then args.newAddress else args.oldEnd)
        args.newSize mmapMax with
    | some addr => .ok (.ok addr)
    | none => .ok (.error .enomem)

def moved (v : Vma) (dest : BitVec 64) : Vma :=
  { v with start := dest, stop := dest + args.newSize }

def others : List Vma :=
  vmas.filter fun v => v.start ≠ args.oldAddress

end MremapArgs

open MremapArgs

def sysMremap (args : MremapArgs) : VmaResult :=
  match args.area m.vmas with
  | .error e => .ok (m, .error e)
  | .ok v =>
    if args.newSize = args.oldSize ∧ !args.fixed then .ok (m, .ok args.oldAddress)
    else if args.newSize < args.oldSize ∨
        args.oldSize < args.newSize ∧ !args.blocked m.vmas then
      .ok ({ m with vmas := resizeAt args.oldAddress args.newEnd m.vmas }, .ok args.oldAddress)
    else if args.oldSize < args.newSize ∧ !args.mayMove then .ok (m, .error .enomem)
    else do
      match ← args.dest m.vmas with
      | .error e => .ok (m, .error e)
      | .ok dest =>
        if args.pages then
          .ok ({ m with vmas := insertVmaLocked (args.others m.vmas) (args.moved v dest) }, .ok dest)
        else .ok (m, .error .enomem)

/-- The arguments of `shmat`. `size` is the size of the segment, or how the lookup or the
permission check failed; `next` is the counter `SHM_NEXT`, shared by all processes; `pages` says
that the pages could be mapped. -/
structure ShmatArgs where
  shmid : BitVec 32
  shmaddr : BitVec 64 := 0
  flags : BitVec 32 := 0
  size : Except Errno (BitVec 64)
  next : BitVec 64 := 0x400000000000
  pages : Bool := true

namespace ShmatArgs

def addr (args : ShmatArgs) (size : BitVec 64) : BitVec 64 :=
  if args.shmaddr = 0 then
    let aligned := args.next &&& ~~~ 4095
    if 0x7F0000000000 < aligned + size then 0x400000000000 else aligned
  -- `SHM_REMAP`
  else if args.flags.getLsbD 13 then args.shmaddr
  else args.shmaddr &&& ~~~ 4095

def vma (args : ShmatArgs) (size : BitVec 64) : Vma where
  start := args.addr size
  stop := args.addr size + size
  -- `SHM_RDONLY`
  flags := 0x5 ||| (if args.flags.getLsbD 12 then 0 else 0x2)
  fileHandle := none
  fileOffset := 0
  isShared := true
  shmId := some args.shmid

end ShmatArgs

def sysShmat (args : ShmatArgs) : ProcessMemory × Except Errno (BitVec 64) :=
  match args.size with
  | .error e => (m, .error e)
  | .ok size =>
    if args.pages then
      ({ m with vmas := insertVmaLocked m.vmas (args.vma size) }, .ok (args.addr size))
    else (m, .error .enomem)

inductive VmaCall where
  | brk (addr : BitVec 64)
  | mmap (args : MmapArgs)
  | munmap (addr len : BitVec 64)
  | mprotect (addr len prot : BitVec 64)
  | mremap (args : MremapArgs)
  | shmat (args : ShmatArgs)

/-- The memory after a call; one that does not return has not changed it. -/
def VmaResult.memory : VmaResult → ProcessMemory
  | .ok r => r.1
  | .panic | .hang => m

def VmaCall.step : VmaCall → ProcessMemory
  | .brk addr => (sysBrk m addr).1
  | .mmap args => VmaResult.memory m (sysMmap m args)
  | .munmap addr len => sysMunmap m addr len
  | .mprotect addr len prot => sysMprotect m addr len prot
  | .mremap args => VmaResult.memory m (sysMremap m args)
  | .shmat args => (sysShmat m args).1

/-- Arguments that keep the list well-formed: the break and segments go where nothing else is
(or only what they are merged with) and stay in the user half, and the ends of ranges do
not wrap. -/
def Permitted : VmaCall → Prop
  | .brk addr => m.brk < addr → InsertOk m.vmas (brkVma m.brk addr)
  | .mmap _ => True
  | .munmap addr len =>
    addr + len < addr → ∀ v ∈ m.vmas, ¬ (v.start < addr + len ∧ addr < v.stop)
  | .mprotect .. => True
  | .mremap args => ∀ v, args.area m.vmas = .ok v →
    (args.oldSize < args.newSize ∧ !args.blocked m.vmas → args.oldAddress < args.newEnd) ∧
    (args.fixed ∧ (args.newSize = args.oldSize ∨ args.oldSize < args.newSize ∧ args.blocked m.vmas) ∧
      args.dest m.vmas = .ok (.ok args.newAddress) ∧ args.pages →
        InsertOk (args.others m.vmas) (args.moved v args.newAddress))
  | .shmat args => ∀ size, args.size = .ok size ∧ args.pages → InsertOk m.vmas (args.vma size)

variable {m : ProcessMemory} {vmas : List Vma}

/-- A region the search has found may be inserted. -/
theorem insertOk_of_findFree {hint len addr : BitVec 64}
    (h : findFreeVmaRegion vmas hint len mmapMax = .ok (some addr)) (hlen : len ≠ 0) (new : Vma)
    (hstart : new.start = addr) (hstop : new.stop = addr + len) :
    new.start < new.stop ∧ InsertOk vmas new := by
  obtain ⟨hmax, hfree⟩ := findFreeFrom_spec (by decide) h
  have hbound : mmapMax.toNat ≤ userEnd := by decide
  rw [InsertOk, hstart, hstop]
  have hlt : addr < addr + len := by bv_omega
  rw [if_pos hlt]
  refine ⟨hlt, by bv_omega, fun v hv hover => absurd ?_ (hfree v hv)⟩
  rw [Vma.Overlaps, hstart, hstop] at hover
  exact ⟨hover.2, hover.1⟩

theorem InsertOk.sublist {vmas vmas' : List Vma} {new : Vma} (hpos : new.start < new.stop)
    (h : InsertOk vmas new) (hsub : vmas'.Sublist vmas) : InsertOk vmas' new := by
  rw [InsertOk, if_pos hpos] at h ⊢
  exact ⟨h.1, fun v hv => h.2 v (hsub.subset hv)⟩

theorem wellFormed_sysBrk_iff (h : WellFormed m.vmas) (addr : BitVec 64) :
    WellFormed (sysBrk m addr).1.vmas ↔ Permitted m (.brk addr) := by
  rw [sysBrk, Permitted]
  split
  · next hzero => exact iff_of_true h fun hlt => by bv_omega
  split
  · next hlt => rw [wellFormed_insertVmaLocked_iff h, forall_prop_of_true hlt]
  · next hge => exact iff_of_true h fun hlt => absurd hlt hge

theorem wellFormed_sysMmap (h : WellFormed m.vmas) (args : MmapArgs) :
    WellFormed (VmaResult.memory m (sysMmap m args)).vmas := by
  rw [sysMmap]
  split
  · exact h
  split
  · exact h
  next hlen _ =>
  cases hfind : findFreeVmaRegion m.vmas (args.hint m) args.pageLen mmapMax with
  | panic => exact h
  | hang => exact h
  | ok found =>
    cases found with
    | none => exact h
    | some addr =>
      exact (wellFormed_insertVmaLocked_iff h _).mpr
        (insertOk_of_findFree hfind hlen (args.vma addr) rfl rfl).2

theorem wellFormed_sysShmat_iff (h : WellFormed m.vmas) (args : ShmatArgs) :
    WellFormed (sysShmat m args).1.vmas ↔ Permitted m (.shmat args) := by
  rw [sysShmat, Permitted]
  split
  · next e he => exact iff_of_true h fun size hsize => by simp [he] at hsize
  next size hsize =>
  split
  · next hpages =>
    rw [wellFormed_insertVmaLocked_iff h, hsize]
    simp [hpages]
  · next hpages => exact iff_of_true h fun size hsize => absurd hsize.2 hpages

/-- The area that is found, and the arguments it was found with. -/
theorem MremapArgs.area_eq_ok {args : MremapArgs} {v : Vma} (h : args.area vmas = .ok v) :
    v ∈ vmas ∧ v.start = args.oldAddress ∧ v.stop - v.start = args.oldSize ∧ args.newSize ≠ 0 ∧
      (args.fixed → args.mayMove) := by
  rw [area] at h
  split at h
  · cases h
  split at h
  · cases h
  split at h
  · cases h
  next hnew =>
  split at h
  · cases h
  split at h
  · cases h
  next hfixed =>
  split at h
  · next w hfind =>
    split at h
    · next hsize =>
      cases h
      have hstart : v.start = args.oldAddress := by simpa using List.find?_some hfind
      refine ⟨List.mem_of_find?_eq_some hfind, hstart, hsize, fun hz => hnew (.inl hz), fun hf => ?_⟩
      by_contra hmove
      exact hfixed ⟨hf, by simpa using hmove⟩
    · cases h
  · cases h

section Mremap

variable {args : MremapArgs} {v : Vma}

variable (h : WellFormed m.vmas)

include h

section

variable (hv : args.area m.vmas = .ok v)

include hv

/-- Shrinking in place. -/
theorem wellFormed_shrink (hlt : args.newSize < args.oldSize) :
    WellFormed (resizeAt args.oldAddress args.newEnd m.vmas) := by
  obtain ⟨hmem, hstart, hsize, hnew, -⟩ := area_eq_ok hv
  have hpos := h.nonempty v hmem
  have huser := h.user v hmem
  rw [← hstart, wellFormed_resizeAt_iff h hmem, newEnd, ← hstart]
  refine ⟨by bv_omega, by bv_omega, fun w hw hlt => ?_⟩
  have hnext := h.stop_le_start hmem hw hlt
  bv_omega

/-- Growing in place: nothing is in the way, so only a sum that wraps can do harm. -/
theorem wellFormed_grow_iff (hfree : args.blocked m.vmas = false) :
    WellFormed (resizeAt args.oldAddress args.newEnd m.vmas) ↔ args.oldAddress < args.newEnd := by
  obtain ⟨hmem, hstart, hsize, hnew, -⟩ := area_eq_ok hv
  have hbound : mmapMax.toNat ≤ userEnd := by decide
  rw [blocked, Bool.or_eq_false_iff, decide_eq_false_iff_not, List.any_eq_false] at hfree
  obtain ⟨hmax, hfree⟩ := hfree
  rw [← hstart, wellFormed_resizeAt_iff h hmem]
  refine and_iff_left ⟨by bv_omega, fun w hw hlt => ?_⟩
  have hnext := h.stop_le_start hmem hw hlt
  have hpos := h.nonempty w hw
  have hstop : args.oldEnd = v.stop := by
    rw [oldEnd, ← hstart, ← hsize]
    bv_omega
  have hw' := hfree w hw
  rw [hstop, decide_eq_true_iff] at hw'
  bv_omega

/-- A move to a free region. -/
theorem wellFormed_move_free
    (hfixed : args.fixed = false) {dest : BitVec 64} (hdest : args.dest m.vmas = .ok (.ok dest)) :
    WellFormed (insertVmaLocked (args.others m.vmas) (args.moved v dest)) := by
  obtain ⟨-, -, -, hnew, -⟩ := area_eq_ok hv
  have hsub : (args.others m.vmas).Sublist m.vmas := List.filter_sublist
  rw [MremapArgs.dest, if_neg (by simp [hfixed])] at hdest
  obtain ⟨found, hfind, hfound⟩ := Outcome.bind_eq_ok.mp hdest
  cases found with
  | none => cases hfound
  | some addr =>
    obtain rfl : addr = dest := by
      cases hfound
      rfl
    obtain ⟨hpos, hok⟩ := insertOk_of_findFree hfind hnew (args.moved v addr) rfl rfl
    exact (wellFormed_insertVmaLocked_iff (h.sublist hsub) _).mpr (InsertOk.sublist hpos hok hsub)

end

omit h in
/-- Where a fixed move goes. -/
theorem MremapArgs.dest_fixed (hfixed : args.fixed = true) (vmas : List Vma) :
    (∃ e, args.dest vmas = .ok (.error e)) ∨ args.dest vmas = .ok (.ok args.newAddress) := by
  rw [dest, if_pos hfixed]
  split
  · exact .inl ⟨_, rfl⟩
  split
  · exact .inl ⟨_, rfl⟩
  · exact .inr rfl

/-- The end of `sys_mremap`, when the area has to move. -/
theorem wellFormed_move_iff (hv : args.area m.vmas = .ok v) (hgrown : args.newSize = args.oldSize ∨
      args.oldSize < args.newSize ∧ args.blocked m.vmas = true) :
    WellFormed (VmaResult.memory m (do
      match ← args.dest m.vmas with
      | .error e => .ok (m, .error e)
      | .ok dest =>
        if args.pages then
          .ok ({ m with vmas := insertVmaLocked (args.others m.vmas) (args.moved v dest) }, .ok dest)
        else .ok (m, .error .enomem))).vmas ↔
      (args.fixed = true ∧ (args.newSize = args.oldSize ∨
          args.oldSize < args.newSize ∧ args.blocked m.vmas = true) ∧
        args.dest m.vmas = .ok (.ok args.newAddress) ∧ args.pages = true →
          InsertOk (args.others m.vmas) (args.moved v args.newAddress)) := by
  have hothers : WellFormed (args.others m.vmas) := h.sublist List.filter_sublist
  cases hfixed : args.fixed with
  | false =>
    refine iff_of_true ?_ fun hmoves => by cases hmoves.1
    cases hdest : args.dest m.vmas with
    | panic => exact h
    | hang => exact h
    | ok r =>
      cases r with
      | error e => exact h
      | ok dest =>
        rw [Outcome.ok_bind]
        dsimp only
        split
        · exact wellFormed_move_free h hv hfixed hdest
        · exact h
  | true =>
    obtain ⟨e, hdest⟩ | hdest := dest_fixed hfixed m.vmas
    · rw [hdest]
      exact iff_of_true h fun hmoves => by cases hmoves.2.2.1
    rw [hdest, Outcome.ok_bind]
    dsimp only
    split
    · next hpages =>
      change WellFormed (insertVmaLocked (args.others m.vmas) (args.moved v args.newAddress)) ↔ _
      rw [wellFormed_insertVmaLocked_iff hothers]
      exact ⟨fun hok _ => hok, fun hok => hok ⟨rfl, hgrown, rfl, hpages⟩⟩
    · next hpages => exact iff_of_true h fun hmoves => absurd hmoves.2.2.2 hpages

theorem wellFormed_sysMremap_iff :
    WellFormed (VmaResult.memory m (sysMremap m args)).vmas ↔ Permitted m (.mremap args) := by
  rw [sysMremap, Permitted]
  cases harea : args.area m.vmas with
  | error e => exact iff_of_true h fun v hv => by cases hv
  | ok v =>
    obtain ⟨-, -, -, -, hmove⟩ := area_eq_ok harea
    simp only [Except.ok.injEq, forall_eq']
    split
    · next hsame =>
      refine iff_of_true h ⟨fun hgrow => ?_, fun hmoves => ?_⟩
      · rw [hsame.1] at hgrow
        bv_omega
      · simp [hmoves.1] at hsame
    split
    · next hplace =>
      by_cases hlt : args.newSize < args.oldSize
      · refine iff_of_true (wellFormed_shrink h harea hlt) ⟨fun hgrow => ?_, fun hmoves => ?_⟩
        · bv_omega
        · bv_omega
      obtain ⟨hgrow, hfree⟩ := hplace.resolve_left hlt
      have hfree' : args.blocked m.vmas = false := by simpa using hfree
      change WellFormed (resizeAt args.oldAddress args.newEnd m.vmas) ↔ _
      rw [wellFormed_grow_iff h harea hfree', forall_prop_of_true ⟨hgrow, hfree⟩]
      refine (and_iff_left fun hmoves => ?_).symm
      obtain ⟨-, heq | ⟨-, hblocked⟩, -⟩ := hmoves
      · bv_omega
      · rw [hfree'] at hblocked
        cases hblocked
    next hplace =>
    rw [not_or] at hplace
    have hnogrow : ¬ (args.oldSize < args.newSize ∧ (!args.blocked m.vmas) = true) := hplace.2
    split
    · next hstay =>
      refine iff_of_true h ⟨fun hgrow => absurd hgrow hnogrow, fun hmoves => ?_⟩
      simp [hmove hmoves.1] at hstay
    have hgrown : args.newSize = args.oldSize ∨
        args.oldSize < args.newSize ∧ args.blocked m.vmas = true := by
      by_cases heq : args.newSize = args.oldSize
      · exact .inl heq
      · have hlt : args.oldSize < args.newSize := by
          bv_omega
        exact .inr ⟨hlt, by simpa [hlt] using hnogrow⟩
    rw [and_iff_right fun hgrow => absurd hgrow hnogrow]
    exact wellFormed_move_iff h harea hgrown

end Mremap

/-- A call keeps a well-formed list well-formed exactly if its arguments permit it. -/
theorem wellFormed_step_iff (h : WellFormed m.vmas) (call : VmaCall) :
    WellFormed (call.step m).vmas ↔ Permitted m call := by
  cases call with
  | brk addr => exact wellFormed_sysBrk_iff h addr
  | mmap args => exact iff_of_true (wellFormed_sysMmap h args) trivial
  | munmap addr len => exact wellFormed_removeVmaRange_iff addr (addr + len) h
  | mprotect addr len prot =>
    refine iff_of_true (wellFormed_map (fun v => ?_) h) trivial
    split
    all_goals exact ⟨rfl, rfl⟩
  | mremap args => exact wellFormed_sysMremap_iff h
  | shmat args => exact wellFormed_sysShmat_iff h args

def ProcessMemory.new : ProcessMemory := { brk := 0, vmas := [] }

/-- After every call the list is sorted, without empty areas or overlaps and in the user
half, exactly if the arguments of every call permit it. -/
theorem wellFormed_iff_permitted (calls : List VmaCall) :
    Along (fun m call => VmaCall.step m call) (fun m call => WellFormed (call.step m).vmas)
        ProcessMemory.new calls ↔
      Along (fun m call => VmaCall.step m call) Permitted ProcessMemory.new calls :=
  along_iff_of_inv (I := fun m => WellFormed m.vmas) (fun _ call h => wellFormed_step_iff h call)
    (fun _ call h hpermitted => (wellFormed_step_iff h call).mpr hpermitted) wellFormed_nil

/-- A page is mapped at address 0x1000, and the break is then set to 0x3000. -/
def mmapThenBrk : List VmaCall := [.mmap { addr := 0x1000, len := 0x1000, prot := 1 }, .brk 0x3000]

theorem mmapThenBrk_overlap :
    ¬ Along (fun m call => VmaCall.step m call) (fun m call => WellFormed (call.step m).vmas)
      ProcessMemory.new mmapThenBrk := by
  rintro ⟨-, hlast, -⟩
  have hvmas : (VmaCall.step (VmaCall.step ProcessMemory.new
      (.mmap { addr := 0x1000, len := 0x1000, prot := 1 })) (.brk 0x3000)).vmas.Pairwise
        fun v w => ¬ v.Overlaps w := hlast.disjoint
  revert hvmas
  decide +kernel

end Vahi.Syscalls
