import Vahi.Syscalls.Signal

/-!
# The memory a signal delivery writes

A delivery writes its frame from the translation of the first byte alone: only what the user could
write exactly when the pages under the frame and the return slot are in order.
-/

namespace Vahi.Syscalls

open Vahi.Lib Vahi.Memory

/-- The stack is fit for a frame: it is unmapped at the frame, or user-writable and
contiguous there and, if mapped, also at the return slot. -/
def StackOk (pages : PageMap) (oldRsp : BitVec 64) (retLen : ℕ) : Prop :=
  Extendable (newRsp oldRsp) ∧
    (translate pages (extended (newRsp oldRsp)).toNat = none ∨
      UserPages pages (newRsp oldRsp).toNat frameSize ∧
        (translate pages (extended (retAddrRsp oldRsp)).toNat = none ∨
          UserPages pages (retAddrRsp oldRsp).toNat retLen))

/-- The bytes written to the return slot: an application's restorer is stored as a
pointer, the default one as code. -/
def retLen (trampoline saRestorer : BitVec 64) : ℕ :=
  if saRestorer = 0 ∨ saRestorer = trampoline then 7 else 8

/-- Nothing is deliverable, or the signal has a table entry and is ignored, fatal, or
handled on a fit stack. -/
def DeliveryOk (trampoline : BitVec 64) (m : Machine) : Prop :=
  m.signals.hasUnmaskedPending m.signals.blocked = false ∨
    ∃ h : sigBit m.signals < 32,
      m.signalHandlers ⟨sigBit m.signals, h⟩ = 0 ∨ m.signalHandlers ⟨sigBit m.signals, h⟩ = 1 ∨
        StackOk m.pages (m.regs .rsp)
          (retLen trampoline (m.signalRestorers ⟨sigBit m.signals, h⟩))

/-- The code returns, having written only bytes the user may write. -/
def WritesOnlyUser (pages : PageMap) (r : Outcome Delivery) : Prop :=
  ∃ d, r = .ok d ∧ ∀ w ∈ d.writes, UserWritable pages w.va w.pa

@[simp] theorem writesOnlyUser_ok (pages : PageMap) (d : Delivery) :
    WritesOnlyUser pages (.ok d) ↔ ∀ w ∈ d.writes, UserWritable pages w.va w.pa := by
  simp [WritesOnlyUser]

@[simp] theorem not_writesOnlyUser_panic (pages : PageMap) : ¬ WritesOnlyUser pages .panic := by
  simp [WritesOnlyUser]

theorem length_retBytes (trampoline saRestorer : BitVec 64) :
    (retBytes trampoline saRestorer).length = retLen trampoline saRestorer := by
  unfold retBytes getRestorer retLen
  by_cases h0 : saRestorer = 0
  · simp [h0, signalRestorer]
  · by_cases ht : saRestorer = trampoline
    · simp [ht, signalRestorer]
    · simp only [ne_eq, h0, not_false_eq_true, ↓reduceIte, ht, or_self, length_neBytes]

/-- A stored byte string is user-writable exactly if its pages are; an address above
the user half is not, whatever it is extended to. -/
theorem storeBytes_userWritable_iff {pages : PageMap} {addr : BitVec 64} {pa : ℕ}
    (bytes : List (BitVec 8)) (hpos : 0 < bytes.length) (hlen : bytes.length ≤ 4096)
    (hpa : translate pages (extended addr).toNat = some pa) :
    (∀ w ∈ storeBytes addr.toNat pa bytes, UserWritable pages w.va w.pa) ↔
      UserPages pages addr.toNat bytes.length := by
  have hbytes : (∀ w ∈ storeBytes addr.toNat pa bytes, UserWritable pages w.va w.pa) ↔
      ∀ i < bytes.length, UserWritable pages (addr.toNat + i) (pa + i) := by
    simp only [storeBytes, List.mem_mapIdx]
    constructor
    · intro h i hi
      exact h _ ⟨i, hi, rfl⟩
    · rintro h w ⟨i, hi, rfl⟩
      exact h i hi
  rw [hbytes]
  by_cases hlow : addr.toNat < userEnd
  · have htop : addr.toNat / 2 ^ 47 = 0 := Nat.div_eq_of_lt hlow
    rw [extended, if_neg (by omega)] at hpa
    exact userWritable_span_iff hpos hlen hpa
  constructor
  · intro h
    exact absurd (h 0 hpos).1 (by omega)
  · intro h
    exact absurd h.1 (by omega)

/-- Below a frame in user memory the return slot's address can be extended. -/
theorem extendable_retAddrRsp {oldRsp : BitVec 64}
    (h : (newRsp oldRsp).toNat + frameSize ≤ userEnd) : Extendable (retAddrRsp oldRsp) := by
  obtain ⟨r, hr, hsum⟩ := newRsp_add oldRsp
  have hret : (retAddrRsp oldRsp).toNat = (oldRsp.toNat + (2 ^ 64 - 8)) % 2 ^ 64 := by
    have h8 : (8 : BitVec 64).toNat = 8 := rfl
    rw [retAddrRsp, BitVec.toNat_sub, h8, Nat.add_comm]
  simp only [frameSize, userEnd] at h
  unfold Extendable
  omega

theorem buildFrame_userWritable_iff (trampoline : BitVec 64) (m : Machine) (bit : ℕ)
    (handler saRestorer : BitVec 64) :
    WritesOnlyUser m.pages (buildFrame trampoline m bit handler saRestorer) ↔
      StackOk m.pages (m.regs .rsp) (retLen trampoline saRestorer) := by
  simp only [buildFrame, StackOk]
  generalize m.regs .rsp = oldRsp
  obtain ⟨hext, hva⟩ | ⟨hext, hva⟩ := virtAddrNew_eq (newRsp oldRsp)
  · simp only [hva, Outcome.ok_bind, hext, true_and]
    cases hphys : translate m.pages (extended (newRsp oldRsp)).toNat with
    | none => simp [Delivery.writes]
    | some phys =>
      have hframe := storeBytes_userWritable_iff (frameBytes m.regs) (by simp [frameSize])
        (by simp [frameSize]) hphys
      simp only [reduceCtorEq, false_or]
      by_cases hok : UserPages m.pages (newRsp oldRsp).toNat frameSize
      · obtain ⟨-, hret⟩ | ⟨hbad, -⟩ := virtAddrNew_eq (retAddrRsp oldRsp)
        · simp only [hret, Outcome.ok_bind, hok, true_and]
          cases hretPhys : translate m.pages (extended (retAddrRsp oldRsp)).toNat with
          | none => simpa [Delivery.writes] using hframe.mpr hok
          | some retPhys =>
            have hslot := storeBytes_userWritable_iff (retBytes trampoline saRestorer)
              (by rw [length_retBytes, retLen]; split <;> omega)
              (by rw [length_retBytes, retLen]; split <;> omega) hretPhys
            rw [length_retBytes] at hslot
            simp only [writesOnlyUser_ok, Delivery.writes, List.mem_append, reduceCtorEq, false_or]
            rw [← hslot]
            constructor
            · intro h w hw
              exact h w (.inr hw)
            · rintro h w (hw | hw)
              · exact hframe.mpr hok w hw
              · exact h w hw
        · exact absurd (extendable_retAddrRsp hok.1) hbad
      · -- the frame is stored before the return slot is looked at
        simp only [hok, false_and, iff_false]
        rintro ⟨d, hd, hwrites⟩
        obtain ⟨retVa, -, hd⟩ := Outcome.bind_eq_ok.mp hd
        refine hok (hframe.mp fun w hw => hwrites w ?_)
        split at hd
        · cases hd
          exact hw
        · cases hd
          exact List.mem_append_left _ hw
  · simp [hva, hext]

/-- A delivery returns and writes only user-writable memory exactly on machines that
are fit for it. -/
theorem deliver_userWritable_iff (trampoline : BitVec 64) (m : Machine) :
    WritesOnlyUser m.pages (deliver trampoline m) ↔ DeliveryOk trampoline m := by
  unfold deliver DeliveryOk
  cases m.signals.hasUnmaskedPending m.signals.blocked with
  | false => simp [Delivery.writes]
  | true =>
    simp only [Bool.true_eq_false, ↓reduceIte, false_or]
    by_cases hbit : sigBit m.signals < 32
    · simp only [hbit, ↓reduceDIte, exists_true_left]
      by_cases h1 : m.signalHandlers ⟨sigBit m.signals, hbit⟩ = 1
      · simp [h1, Delivery.writes]
      by_cases h0 : m.signalHandlers ⟨sigBit m.signals, hbit⟩ = 0
      · simp [h0, Delivery.writes]
      · simp only [h1, ↓reduceIte, h0, false_or]
        exact buildFrame_userWritable_iff _ _ _ _ _
    · simp [hbit]

/-- A machine with signal 2 pending and a handler for it, whose stack pointer is in the
kernel half, where the kernel has a page of its own. -/
def kernelStack : Machine where
  regs := fun r => if r = .rsp then 0xFFFF800000002000 else 0
  fpu := []
  signals := ⟨2, 0, none⟩
  signalHandlers := fun _ => 0x401000
  signalRestorers := fun _ => 0
  pages := fun page => if page = 0xFFFF800000001 then some ⟨5, 3⟩ else none
  memory := fun _ => 0

/-- The first byte of the frame lands in the kernel's page. -/
theorem kernel_stack_written :
    (∃ d w, deliver 0 kernelStack = .ok d ∧ w ∈ d.writes ∧ w.va = 0xFFFF800000001F60 ∧
      w.pa = 0x5F60) ∧ (kernelStack.pages 0xFFFF800000001).map PageEntry.user = some false ∧
      ¬ WritesOnlyUser kernelStack.pages (deliver 0 kernelStack) := by
  have hfirst : (deliver 0 kernelStack >>= fun d =>
      Outcome.ok (d.writes.head?.map fun w => (w.va, w.pa))) =
      .ok (some (0xFFFF800000001F60, 0x5F60)) := by decide +kernel
  obtain ⟨d, hd, hhead⟩ := Outcome.bind_eq_ok.mp hfirst
  obtain ⟨w, hw, hplace⟩ := Option.map_eq_some_iff.mp (Outcome.ok.inj hhead)
  have hmem := List.mem_of_mem_head? hw
  obtain ⟨hva, hpa⟩ := Prod.mk.inj hplace
  refine ⟨⟨d, w, hd, hmem, hva, hpa⟩, rfl, ?_⟩
  rw [hd, writesOnlyUser_ok]
  intro h
  have huser := (h w hmem).1
  rw [hva] at huser
  exact absurd huser (by decide)

end Vahi.Syscalls
