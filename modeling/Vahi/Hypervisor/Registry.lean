import Vahi.Lib.Run
import Vahi.Lib.WordMemory
import Vahi.Memory.BuddyFrames

/-!
# The registry of guests

`create_guest` and `destroy_guest` (`kernel/src/hypervisor/mod.rs`), with the memory and the nested
page tables that a guest gets (`memory.rs` and `ept.rs`). The number of a new guest is the number of
guests, which one of them may have.
-/

namespace Vahi.Hypervisor

open Vahi.Lib Vahi.Memory List

def pageSize : ℕ := 4096

structure MemoryRegion where
  guestPhys : ℕ
  hostPhys : ℕ
  size : ℕ
  deriving DecidableEq

/-! ## Memory of guests -/

section Allocate

variable {σ : Type} (A : FrameAllocator σ)

/-- The loop of `allocate_guest`. The frames of an attempt that fails are not given back. -/
def allocateRegions (memSize allocated : ℕ) (s : σ) : Option (List MemoryRegion) × σ :=
  if allocated < memSize then
    match A.allocate s with
    | none => (none, s)
    | some (frame, s) =>
      let size := min 0x200000 (memSize - allocated)
      match allocateRegions memSize (allocated + size) s with
      | (none, s) => (none, s)
      | (some regions, s) => (some (⟨allocated, pageSize * frame, size⟩ :: regions), s)
  else (some [], s)
termination_by memSize - allocated
decreasing_by omega

/-- One frame is taken for each region of up to 2 MiB. -/
def allocateGuest (memSize : ℕ) (s : σ) : Option (List MemoryRegion) × σ :=
  allocateRegions A memSize 0 s

end Allocate

/-! ## Nested page tables -/

/-- The memory with `len` bytes from `start` on zeroed; addresses wrap around. -/
def zeroed (m : ByteMemory) (start len : ℕ) : ByteMemory := fun x =>
  if (x - BitVec.ofNat 64 start).toNat < len then 0 else m x

/-- The allocator with the memory. Its links, which lie in free frames, are not in the memory. -/
structure Host (σ : Type) where
  alloc : σ
  mem : ByteMemory

structure EptFlags where
  read : Bool
  write : Bool
  execute : Bool
  memType : BitVec 64
  ignorePat : Bool
  accessDirty : Bool
  deriving DecidableEq

def EptFlags.readWrite : EptFlags := ⟨true, true, false, 6, false, true⟩

def frameAddr (frame : ℕ) : BitVec 64 := BitVec.ofNat 64 (pageSize * frame)

def entryAddr (table : BitVec 64) (idx : ℕ) : BitVec 64 := table + BitVec.ofNat 64 (8 * idx)

/-- The index of an address in the tables of a level; level 0 are the last ones. -/
def tableIndex (level addr : ℕ) : ℕ := addr / 2 ^ (12 + 9 * level) % 512

def tablePtr (frame : ℕ) : BitVec 64 := frameAddr frame ||| 0x7

def tableMask : BitVec 64 := 0xFFFFFFF000

def leafEntry (hostPhys : BitVec 64) (flags : EptFlags) : BitVec 64 :=
  let entry := hostPhys ||| 0x7
  let entry := if !flags.read then entry &&& ~~~0x1 else entry
  let entry := if !flags.write then entry &&& ~~~0x2 else entry
  let entry := if !flags.execute then entry ||| 0x100 else entry
  let entry := entry ||| flags.memType <<< 3
  let entry := if flags.ignorePat then entry ||| 0x40 else entry
  if flags.accessDirty then entry ||| 0x100 else entry

section Map

variable {σ : Type} (A : FrameAllocator σ)

/-- The table of the next level, which is made if the entry is not present. -/
def ensureTable (h : Host σ) (table : BitVec 64) (idx : ℕ) : Option (BitVec 64) × Host σ :=
  let addr := entryAddr table idx
  if load64 h.mem addr &&& 1 = 0 then
    match A.allocate h.alloc with
    | none => (none, h)
    | some (frame, alloc) =>
      -- `write_bytes` on a pointer to `u64` counts words
      let mem := zeroed h.mem (pageSize * frame) (8 * 4096)
      let mem := store64 mem addr (tablePtr frame)
      (some (load64 mem addr &&& tableMask), ⟨alloc, mem⟩)
  else (some (load64 h.mem addr &&& tableMask), h)

/-- Missing tables are made on the way down; a failure leaves those that were made. -/
def eptMap4k (h : Host σ) (pml4 : BitVec 64) (guestPhys hostPhys : ℕ) (flags : EptFlags) :
    Bool × Host σ :=
  match ensureTable A h pml4 (tableIndex 3 guestPhys) with
  | (none, h) => (false, h)
  | (some pdpt, h) =>
    match ensureTable A h pdpt (tableIndex 2 guestPhys) with
    | (none, h) => (false, h)
    | (some pd, h) =>
      match ensureTable A h pd (tableIndex 1 guestPhys) with
      | (none, h) => (false, h)
      | (some pt, h) =>
        let entry := leafEntry (BitVec.ofNat 64 hostPhys) flags
        (true, { h with mem := store64 h.mem (entryAddr pt (tableIndex 0 guestPhys)) entry })

def mapPages (pml4 : BitVec 64) (flags : EptFlags) : ℕ → ℕ → ℕ → Host σ → Bool × Host σ
  | 0, _, _, h => (true, h)
  | n + 1, gpa, hpa, h =>
    match eptMap4k A h pml4 gpa hpa flags with
    | (true, h) => mapPages pml4 flags n (gpa + pageSize) (hpa + pageSize) h
    | (false, h) => (false, h)

/-- The size is rounded up to whole pages. -/
def mapGuest (h : Host σ) (pml4 : BitVec 64) (guestPhys hostPhys size : ℕ) (flags : EptFlags) :
    Bool × Host σ :=
  mapPages A pml4 flags ((size + (pageSize - 1)) / pageSize) guestPhys hostPhys h

/-- The root table of a guest, cleared. -/
def newEpt (h : Host σ) : Option (BitVec 64) × Host σ :=
  match A.allocate h.alloc with
  | none => (none, h)
  | some (frame, alloc) =>
    (some (frameAddr frame), ⟨alloc, zeroed h.mem (pageSize * frame) 4096⟩)

end Map

/-! ## Guests -/

structure Guest where
  regions : List MemoryRegion
  root : BitVec 64
  deriving DecidableEq

structure HypervisorState (σ : Type) where
  host : Host σ
  guests : List (ℕ × Guest)

namespace HypervisorState

variable {σ : Type} (A : FrameAllocator σ) (hv : HypervisorState σ)

def find (id : ℕ) : Option Guest := (hv.guests.find? (·.1 == id)).map Prod.snd

def removeGuest (id : ℕ) : List (ℕ × Guest) := hv.guests.filter (·.1 != id)

/-- The loop of `create_guest` over the regions; a region that could not be mapped is skipped. -/
def mapRegions (root : BitVec 64) (regions : List MemoryRegion) (h : Host σ) : Host σ :=
  regions.foldl (fun h r => (mapGuest A h root r.guestPhys r.hostPhys r.size .readWrite).2) h

/-- The new guest gets the number of guests as its own, and replaces one that has it. -/
def createGuest (memSize : ℕ) : HypervisorState σ :=
  match allocateGuest A memSize hv.host.alloc with
  | (none, alloc) => ⟨⟨alloc, hv.host.mem⟩, hv.guests⟩
  | (some regions, alloc) =>
    match newEpt A ⟨alloc, hv.host.mem⟩ with
    | (none, host) => ⟨host, hv.guests⟩
    | (some root, host) =>
      let id := hv.guests.length
      ⟨mapRegions A root regions host, (id, ⟨regions, root⟩) :: hv.removeGuest id⟩

end HypervisorState

open HypervisorState

/-! ## The registry -/

structure Registry (σ : Type) where
  hv : HypervisorState σ
  vcpuCount : BitVec 32

inductive RegistryOp where
  | create (memSize : ℕ)
  | destroy (id : ℕ)

namespace Registry

variable {σ : Type} (A : FrameAllocator σ) (r : Registry σ)

/-- The number of guests is the id of the new one. -/
def createdId (memSize : ℕ) : Option ℕ :=
  match allocateGuest A memSize r.hv.host.alloc with
  | (none, _) => none
  | (some _, alloc) => (newEpt A ⟨alloc, r.hv.host.mem⟩).1.map fun _ => r.hv.guests.length

/-- The count of a new guest wraps, that of a removed one saturates. -/
def exec : RegistryOp → Registry σ
  | .create memSize => ⟨r.hv.createGuest A memSize,
      if (r.createdId A memSize).isSome then r.vcpuCount + 1 else r.vcpuCount⟩
  | .destroy id => ⟨{ r.hv with guests := r.hv.removeGuest id },
      if (r.hv.find id).isSome then .ofNat 32 (r.vcpuCount.toNat - 1) else r.vcpuCount⟩

/-- The count is right after the step, and a guest that was created has a number of its own and
leaves the others as they are. -/
def Ok (op : RegistryOp) : Prop :=
  (r.exec A op).vcpuCount.toNat = (r.exec A op).hv.guests.length ∧
    ∀ memSize id, op = .create memSize → r.createdId A memSize = some id →
      ∀ p ∈ r.hv.guests, p.1 ≠ id ∧ p ∈ (r.exec A op).hv.guests

/-- A guest is only created while the number of guests is not the number of one of them. -/
def Fresh : RegistryOp → Prop
  | .create memSize => (r.createdId A memSize).isSome →
      (∀ p ∈ r.hv.guests, p.1 ≠ r.hv.guests.length) ∧ r.hv.guests.length + 1 < 2 ^ 32
  | .destroy _ => True

structure Inv : Prop where
  count : r.vcpuCount.toNat = r.hv.guests.length
  nodup : (r.hv.guests.map Prod.fst).Nodup

theorem createGuest_guests (memSize : ℕ) :
    (r.createdId A memSize = none ∧ (r.hv.createGuest A memSize).guests = r.hv.guests) ∨
      r.createdId A memSize = some r.hv.guests.length ∧ ∃ g, (r.hv.createGuest A memSize).guests =
        (r.hv.guests.length, g) :: r.hv.removeGuest r.hv.guests.length := by
  rw [createdId, createGuest]
  rcases allocateGuest A memSize r.hv.host.alloc with ⟨_ | regions, alloc⟩
  · exact .inl ⟨rfl, rfl⟩
  dsimp only
  rcases newEpt A ⟨alloc, r.hv.host.mem⟩ with ⟨_ | root, host⟩
  · exact .inl ⟨rfl, rfl⟩
  · exact .inr ⟨rfl, _, rfl⟩

variable {A r}

theorem removeGuest_of_fresh {n : ℕ} (h : ∀ p ∈ r.hv.guests, p.1 ≠ n) :
    r.hv.removeGuest n = r.hv.guests :=
  filter_eq_self.mpr fun p hp => bne_iff_ne.mpr (h p hp)

theorem length_removeGuest {α : Type} {l : List (ℕ × α)} (h : (l.map Prod.fst).Nodup) (id : ℕ) :
    (l.filter (·.1 != id)).length + (if (l.find? (·.1 == id)).isSome then 1 else 0) =
      l.length := by
  induction l with
  | nil => rfl
  | cons p l ih =>
    obtain ⟨hp, hl⟩ := nodup_cons.mp h
    by_cases heq : p.1 = id
    · have hrest : l.filter (·.1 != id) = l := filter_eq_self.mpr fun q hq =>
        bne_iff_ne.mpr fun hid => hp (heq ▸ hid ▸ mem_map_of_mem hq)
      simp [heq, hrest]
    have := ih hl
    simp only [filter_cons, find?_cons, bne_iff_ne.mpr heq, beq_false_of_ne heq,
      if_true, length_cons]
    omega

theorem Inv.create (h : r.Inv) {memSize : ℕ} (hop : r.Fresh A (.create memSize)) :
    (r.exec A (.create memSize)).Inv ∧ r.Ok A (.create memSize) := by
  rcases createGuest_guests A r memSize with ⟨hid, hguests⟩ | ⟨hid, g, hguests⟩
  · have hinv : (r.exec A (.create memSize)).Inv := by
      constructor
      · simp only [exec, hid, hguests]
        exact h.count
      · simp only [exec, hguests]
        exact h.nodup
    refine ⟨hinv, hinv.count, ?_⟩
    rintro _ id ⟨⟩ hsome
    cases hid.symm.trans hsome
  · obtain ⟨hfresh, hroom⟩ := hop (by rw [hid]; rfl)
    rw [removeGuest_of_fresh hfresh] at hguests
    have hinv : (r.exec A (.create memSize)).Inv := by
      constructor
      · simp only [exec, hid, hguests, Option.isSome_some, if_true, length_cons]
        rw [BitVec.toNat_add, h.count]
        exact Nat.mod_eq_of_lt hroom
      · simp only [exec, hguests, map_cons, nodup_cons]
        refine ⟨fun hmem => ?_, h.nodup⟩
        obtain ⟨p, hp, heq⟩ := mem_map.mp hmem
        exact hfresh p hp heq
    refine ⟨hinv, hinv.count, ?_⟩
    rintro _ id ⟨⟩ hsome p hp
    obtain rfl : r.hv.guests.length = id := Option.some.inj (hid.symm.trans hsome)
    refine ⟨hfresh p hp, ?_⟩
    simp only [exec, hguests]
    exact mem_cons_of_mem _ hp

theorem Inv.destroy (h : r.Inv) (id : ℕ) : (r.exec A (.destroy id)).Inv ∧ r.Ok A (.destroy id) := by
  have hlen : (r.hv.removeGuest id).length + (if (r.hv.find id).isSome then 1 else 0) =
      r.hv.guests.length := by
    rw [find, Option.isSome_map]
    exact length_removeGuest h.nodup id
  have hinv : (r.exec A (.destroy id)).Inv := by
    refine ⟨?_, ((filter_sublist).map _).nodup h.nodup⟩
    simp only [exec]
    rw [apply_ite BitVec.toNat, BitVec.toNat_ofNat, Nat.mod_eq_of_lt (by omega), h.count]
    split at hlen
    · rw [if_pos ‹_›]
      exact (Nat.eq_sub_of_add_eq hlen).symm
    · rw [if_neg ‹_›]
      exact hlen.symm
  exact ⟨hinv, hinv.count, by rintro _ _ ⟨⟩⟩

theorem fresh_of_ok {op : RegistryOp} (hok : r.Ok A op) : r.Fresh A op := by
  cases op with
  | destroy id => trivial
  | create memSize =>
    intro hsome
    rcases createGuest_guests A r memSize with ⟨hid, -⟩ | ⟨hid, g, hguests⟩
    · simp [hid] at hsome
    have hfresh : ∀ p ∈ r.hv.guests, p.1 ≠ r.hv.guests.length := fun p hp =>
      (hok.2 memSize _ rfl hid p hp).1
    refine ⟨hfresh, ?_⟩
    have hcount := hok.1
    simp only [exec, hid, hguests, removeGuest_of_fresh hfresh, Option.isSome_some, if_true,
      length_cons] at hcount
    rw [← hcount]
    exact BitVec.isLt _

end Registry

/-- From an empty registry, every step is right exactly if every guest is created while the
number of guests is a fresh one. -/
theorem registry_ok_iff {σ : Type} (A : FrameAllocator σ) (host : Host σ) (ops : List RegistryOp) :
    Along (Registry.exec A) (Registry.Ok A) ⟨⟨host, []⟩, 0⟩ ops ↔
      Along (Registry.exec A) (Registry.Fresh A) ⟨⟨host, []⟩, 0⟩ ops := by
  have hstep : ∀ r op, Registry.Inv r → Registry.Fresh A r op →
      (Registry.exec A r op).Inv ∧ Registry.Ok A r op := by
    intro r op h hop
    cases op with
    | create memSize => exact h.create hop
    | destroy id => exact h.destroy id
  exact along_iff_of_inv (fun r op h => ⟨Registry.fresh_of_ok, fun hop => (hstep r op h hop).2⟩)
    (fun r op h hop => (hstep r op h hop).1) ⟨rfl, nodup_nil⟩

def hostArena : Arena :=
  match (Arena.new fun _ => 0).run [.addRegion 0x1000 0x20000] with
  | .ok a => a
  | _ => Arena.new fun _ => 0

def noGuests : HypervisorState Arena := ⟨⟨hostArena, fun _ => 0⟩, []⟩

/-- Guest 0 is destroyed and the next guest takes the place of guest 1. -/
theorem guest_replaced : ∃ r, [RegistryOp.create 4096, .create 4096, .destroy 0].foldl
        (Registry.exec buddyFrameAllocator) ⟨noGuests, 0⟩ = r ∧
      r.hv.guests.map Prod.fst = [1] ∧ r.createdId buddyFrameAllocator 4096 = some 1 ∧
      (r.exec buddyFrameAllocator (.create 4096)).hv.guests.map Prod.fst = [1] ∧
      (r.exec buddyFrameAllocator (.create 4096)).hv.find 1 ≠ r.hv.find 1 ∧
      (r.exec buddyFrameAllocator (.create 4096)).vcpuCount = 2 := by
  refine ⟨_, rfl, ?_⟩
  decide +kernel

end Vahi.Hypervisor
