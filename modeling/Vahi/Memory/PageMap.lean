import Mathlib.Tactic.Ring
import Vahi.Lib.Outcome

/-!
# Page mappings

What an address space maps, page by page. `virtAddrNew` is `VirtAddr::new`, which sign-extends an
address that only lacks its upper bits and panics on any other non-canonical one.
-/

namespace Vahi.Memory

open Vahi.Lib

structure PageEntry where
  frame : ℕ
  flags : BitVec 64
  deriving DecidableEq

namespace PageEntry

def present (e : PageEntry) : Bool := e.flags.getLsbD 0

def writable (e : PageEntry) : Bool := e.flags.getLsbD 1

def user (e : PageEntry) : Bool := e.flags.getLsbD 2

def huge (e : PageEntry) : Bool := e.flags.getLsbD 7

end PageEntry

abbrev PageMap := ℕ → Option PageEntry

def userEnd : ℕ := 2 ^ 47

/-- `VirtAddr::new` of the `x86_64` crate: a lone bit 47 is extended, other upper bits panic. -/
def virtAddrNew (addr : BitVec 64) : Outcome (BitVec 64) :=
  let top := addr.toNat / 2 ^ 47
  if top = 0 ∨ top = 0x1FFFF then .ok addr
  else if top = 1 then .ok ((addr.setWidth 48).signExtend 64)
  else .panic

/-- `VirtAddr::new` does not panic on the address. -/
def Extendable (addr : BitVec 64) : Prop :=
  addr.toNat / 2 ^ 47 = 0 ∨ addr.toNat / 2 ^ 47 = 1 ∨ addr.toNat / 2 ^ 47 = 0x1FFFF

def extended (addr : BitVec 64) : BitVec 64 :=
  if addr.toNat / 2 ^ 47 = 1 then (addr.setWidth 48).signExtend 64 else addr

def translate (pages : PageMap) (va : ℕ) : Option ℕ :=
  (pages (va / 4096)).map fun e => 4096 * e.frame + va % 4096

/-- The byte at `va` is in user memory, may be written from user mode, and is stored at
physical address `pa`. -/
def UserWritable (pages : PageMap) (va pa : ℕ) : Prop :=
  va < userEnd ∧ ∃ e, pages (va / 4096) = some e ∧ e.user ∧ e.writable ∧
    pa = 4096 * e.frame + va % 4096

/-- The span of `n` bytes at `va` lies in user memory, its pages may be written from
user mode, and if it reaches a second page that page follows in physical memory. -/
def UserPages (pages : PageMap) (va n : ℕ) : Prop :=
  va + n ≤ userEnd ∧ ∃ e, pages (va / 4096) = some e ∧ e.user ∧ e.writable ∧
    (4096 < va % 4096 + n → ∃ e', pages (va / 4096 + 1) = some e' ∧ e'.user ∧ e'.writable ∧
      e'.frame = e.frame + 1)

theorem virtAddrNew_eq (addr : BitVec 64) :
    (Extendable addr ∧ virtAddrNew addr = .ok (extended addr)) ∨
      (¬ Extendable addr ∧ virtAddrNew addr = .panic) := by
  simp only [Extendable, extended, virtAddrNew]
  by_cases h0 : addr.toNat / 2 ^ 47 = 0
  · exact .inl ⟨.inl h0, by rw [if_pos (.inl h0), if_neg (by omega)]⟩
  by_cases h1 : addr.toNat / 2 ^ 47 = 1
  · exact .inl ⟨.inr (.inl h1), by rw [if_neg (by omega), if_pos h1, if_pos h1]⟩
  by_cases h2 : addr.toNat / 2 ^ 47 = 0x1FFFF
  · exact .inl ⟨.inr (.inr h2), by rw [if_pos (.inr h2), if_neg h1]⟩
  · exact .inr ⟨by tauto, by rw [if_neg (by tauto), if_neg h1]⟩

/-- A write of at most a page, byte by byte to consecutive physical addresses, stays
in user-writable memory exactly if its pages are in order. -/
theorem userWritable_span_iff {pages : PageMap} {va pa n : ℕ} (hpos : 0 < n) (hn : n ≤ 4096)
    (hpa : translate pages va = some pa) :
    (∀ i < n, UserWritable pages (va + i) (pa + i)) ↔ UserPages pages va n := by
  obtain ⟨e, he, rfl⟩ := Option.map_eq_some_iff.mp hpa
  constructor
  · intro h
    obtain ⟨-, e₀, he₀, huser, hwrite, -⟩ := h 0 hpos
    obtain ⟨hlast, e₁, he₁, huser₁, hwrite₁, hpa₁⟩ := h (n - 1) (by omega)
    rw [Nat.add_zero, he] at he₀
    cases he₀
    refine ⟨by omega, e, he, huser, hwrite, fun hcross => ?_⟩
    -- the last byte lies on the second page
    have hpage : (va + (n - 1)) / 4096 = va / 4096 + 1 := by omega
    rw [hpage] at he₁
    exact ⟨e₁, he₁, huser₁, hwrite₁, by omega⟩
  · rintro ⟨hend, e₀, he₀, huser, hwrite, hcross⟩ i hi
    rw [he] at he₀
    cases he₀
    refine ⟨by omega, ?_⟩
    by_cases hsame : va % 4096 + i < 4096
    · have hpage : (va + i) / 4096 = va / 4096 := by omega
      exact ⟨e, hpage ▸ he, huser, hwrite, by omega⟩
    · obtain ⟨e', he', huser', hwrite', hframe⟩ := hcross (by omega)
      have hpage : (va + i) / 4096 = va / 4096 + 1 := by omega
      exact ⟨e', hpage ▸ he', huser', hwrite', by omega⟩

end Vahi.Memory
