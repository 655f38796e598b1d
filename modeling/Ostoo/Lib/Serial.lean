/-
  Ostoo.Lib.Serial — counters that wrap. A counter of `b` bits that started at `start`
  and has been bumped `n` times reads `reading start n`. Two such readings less than `2^b`
  bumps apart have an exact difference, and masking a reading with `c - 1` for a power
  of two `c` keeps it modulo `c`, wraps included.
-/

import Mathlib.Data.BitVec
import Mathlib.Data.Nat.ModEq
import Mathlib.Tactic.Ring

namespace Ostoo.Lib.Serial

open BitVec

variable {b : Nat}

/-- The reading of a counter that started at `start`, after `n` bumps. -/
def reading (start : BitVec b) (n : Nat) : BitVec b := start + BitVec.ofNat b n

/-- A power of two that fits the counter. -/
def Pow2 (c : BitVec b) : Prop := ∃ k, c.toNat = 2 ^ k

variable (start : BitVec b)
include start

@[simp] theorem reading_zero : reading start 0 = start := by simp [reading]

theorem reading_succ (n : Nat) : reading start n + 1 = reading start (n + 1) := by
  apply eq_of_toNat_eq
  simp [reading, add_assoc]

theorem reading_add (m n : Nat) : reading start m + BitVec.ofNat b n = reading start (m + n) := by
  apply eq_of_toNat_eq
  simp [reading, add_assoc]

theorem reading_toNat (n : Nat) : (reading start n).toNat = (start.toNat + n) % 2 ^ b := by
  simp [reading]

variable {m n : Nat} {c : BitVec b}

theorem reading_sub (hle : m ≤ n) (hlt : n - m < 2 ^ b) : (reading start n - reading start m).toNat = n - m := by
  obtain ⟨d, rfl⟩ := Nat.exists_eq_add_of_le hle
  have hd : reading start (m + d) - reading start m = BitVec.ofNat b d := by
    simp only [reading, ofNat_add]
    ring
  rw [hd, toNat_ofNat, Nat.mod_eq_of_lt (by omega)]
  omega

theorem reading_inj (hle : m ≤ n) (hlt : n - m < 2 ^ b) (h : reading start m = reading start n) : m = n := by
  have := reading_sub start hle hlt
  rw [h, sub_self] at this
  simp at this
  omega

omit start

variable (hc : Pow2 c)
include hc

theorem pow2_pos : 0 < c.toNat := by
  obtain ⟨k, hk⟩ := hc
  rw [hk]; exact Nat.two_pow_pos k

theorem pow2_dvd : c.toNat ∣ 2 ^ b := by
  obtain ⟨k, hk⟩ := hc
  have hlt := c.isLt
  rw [hk] at hlt ⊢
  exact Nat.pow_dvd_pow 2 (Nat.le_of_lt ((Nat.pow_lt_pow_iff_right (by omega)).mp hlt))

theorem mask_toNat (x : BitVec b) : (x &&& (c - 1)).toNat = x.toNat % c.toNat := by
  have hpos := pow2_pos hc
  have h1 : (c - 1).toNat = c.toNat - 1 := by
    have hlt := c.isLt
    have hb : 1 < 2 ^ b := by
      obtain ⟨k, hk⟩ := hc
      rcases eq_zero_or_pos b with rfl | hb
      · simp at hlt; omega
      · exact Nat.one_lt_two_pow (by omega)
    have h1 : (1 : BitVec b).toNat = 1 := by simp [Nat.mod_eq_of_lt hb]
    rw [toNat_sub, h1]
    rw [show 2 ^ b - 1 + c.toNat = (c.toNat - 1) + 2 ^ b by omega, Nat.add_mod_right, Nat.mod_eq_of_lt (by omega)]
  obtain ⟨k, hk⟩ := hc
  rw [toNat_and, h1, hk, Nat.and_two_pow_sub_one_eq_mod]

theorem reading_mask (start : BitVec b) (n : Nat) :
    (reading start n &&& (c - 1)).toNat = (start.toNat + n) % c.toNat := by
  rw [mask_toNat hc, reading_toNat, Nat.mod_mod_of_dvd _ (pow2_dvd hc)]

theorem slot_ne (start : BitVec b) (hlt : m < n) (hnear : n - m < c.toNat) :
    (reading start m &&& (c - 1)).toNat ≠ (reading start n &&& (c - 1)).toNat := by
  rw [reading_mask hc, reading_mask hc]
  intro h
  have hd : c.toNat ∣ (start.toNat + n) - (start.toNat + m) := (Nat.modEq_iff_dvd' (by omega)).mp h
  have := Nat.le_of_dvd (by omega) hd
  omega

end Ostoo.Lib.Serial
