/-
  Ostoo.Memory.Page — page arithmetic on 64-bit addresses (`consts.rs`, and what the
  memory code uses of the x86_64 crate's `VirtAddr` and `PageTableFlags`).

  Addresses are numbers below 2^64. The build meant, here and in every other module but
  `CompletionPort.RingPages`, is the `Makefile`'s, which has overflow checks: an addition
  that leaves the range panics, `addU64` gives `none` there, and every function over it
  gives `none` where the code panics.
-/

import Mathlib.Data.Nat.Bitwise

namespace Ostoo.Memory

open Option

def PAGE_SIZE : Nat := 0x1000

def PAGE_MASK : Nat := 0xFFF

def addU64 (a b : Nat) : Option Nat := if a + b < 2 ^ 64 then some (a + b) else none

/-- `a & !PAGE_MASK` on 64 bits. -/
def andNotMask (a : Nat) : Nat := a &&& (2 ^ 64 - 1 - PAGE_MASK)

/-- `(len + PAGE_MASK) & !PAGE_MASK`. -/
def alignUp (len : Nat) : Option Nat := (addU64 len PAGE_MASK).map andNotMask

/-- `addr & PAGE_MASK == 0`. -/
def Aligned (addr : Nat) : Prop := addr &&& PAGE_MASK = 0

deriving instance Decidable for Aligned

theorem addU64_of_lt {a b : Nat} (h : a + b < 2 ^ 64) : addU64 a b = some (a + b) := if_pos h

theorem addU64_eq_some {a b c : Nat} : addU64 a b = some c ↔ a + b < 2 ^ 64 ∧ c = a + b := by
  simp only [addU64]
  split
  · rename_i h
    simp only [some.injEq, h, true_and]
    exact eq_comm
  · rename_i h
    simp only [h, false_and, reduceCtorEq]

theorem aligned_iff {a : Nat} : Aligned a ↔ PAGE_SIZE ∣ a := by
  have h : a &&& PAGE_MASK = a % PAGE_SIZE := Nat.and_two_pow_sub_one_eq_mod a 12
  rw [Aligned, h, Nat.dvd_iff_mod_eq_zero]

theorem andNotMask_eq {a : Nat} (h : a < 2 ^ 64) : andNotMask a = a / PAGE_SIZE * PAGE_SIZE := by
  have h1 : 2 ^ 64 - 1 - PAGE_MASK = (2 ^ 52 - 1) <<< 12 := by decide
  have h2 : a / PAGE_SIZE * PAGE_SIZE = (a >>> 12) <<< 12 := by
    rw [Nat.shiftLeft_eq, Nat.shiftRight_eq_div_pow]; rfl
  rw [andNotMask, h1, h2]
  refine Nat.eq_of_testBit_eq fun i => ?_
  simp only [Nat.testBit_and, Nat.testBit_shiftLeft, Nat.testBit_two_pow_sub_one, Nat.testBit_shiftRight]
  by_cases hi : 12 ≤ i
  · by_cases h64 : i < 64
    · have : i - 12 < 52 := by omega
      simp [hi, this]
    have hz : a.testBit i = false :=
      Nat.testBit_lt_two_pow (Nat.lt_of_lt_of_le h (Nat.pow_le_pow_right (by decide) (by omega)))
    have : 12 + (i - 12) = i := by omega
    simp [hi, hz, this]
  · simp [hi]

/-- The number of pages that hold `n` bytes. -/
def pagesOf (n : Nat) : Nat := (n + PAGE_MASK) / PAGE_SIZE

theorem alignUp_of_lt {len : Nat} (h : len + PAGE_MASK < 2 ^ 64) : alignUp len = some (pagesOf len * PAGE_SIZE) := by
  rw [alignUp, addU64_of_lt h, map_some, andNotMask_eq h]
  rfl

theorem alignUp_of_le {len : Nat} (h : 2 ^ 64 ≤ len + PAGE_MASK) : alignUp len = none := by
  rw [alignUp, addU64, if_neg (not_lt.mpr h)]
  rfl

theorem alignUp_pages {len r : Nat} (h : alignUp len = some r) :
    len + PAGE_MASK < 2 ^ 64 ∧ r = pagesOf len * PAGE_SIZE := by
  by_cases hlt : len + PAGE_MASK < 2 ^ 64
  · rw [alignUp_of_lt hlt] at h
    exact ⟨hlt, (some.inj h).symm⟩
  · rw [alignUp_of_le (Nat.le_of_not_lt hlt)] at h
    cases h

/-- `VirtAddr::new`: panics unless bits 48 to 63 repeat bit 47. -/
def virtAddrNew (a : Nat) : Option Nat :=
  if a < 2 ^ 47 ∨ (2 ^ 64 - 2 ^ 47 ≤ a ∧ a < 2 ^ 64) then some a else none

theorem virtAddrNew_eq_some {a v : Nat} : virtAddrNew a = some v ↔ (a < 2 ^ 47 ∨ (2 ^ 64 - 2 ^ 47 ≤ a ∧ a < 2 ^ 64)) ∧
      v = a := by
  unfold virtAddrNew
  split
  · rename_i h
    simp only [some.injEq, h, true_and]
    exact eq_comm
  · rename_i h
    simp only [h, false_and, reduceCtorEq]

/-- The top-level table index of an address: bits 39 to 47. -/
def p4Index (vaddr : Nat) : Nat := vaddr / 2 ^ 39 % 512

structure PtFlags where
  present : Bool
  writable : Bool
  user : Bool
  noExecute : Bool
  deriving DecidableEq, Repr

end Ostoo.Memory
