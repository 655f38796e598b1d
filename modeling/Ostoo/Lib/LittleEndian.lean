/-
  Ostoo.Lib.LittleEndian — numbers as bytes, the lowest byte first.
-/

import Mathlib.Algebra.GroupWithZero.Nat
import Mathlib.Data.List.Basic

namespace Ostoo.Lib

open List

def leBytes (bytes : List UInt8) : Nat := bytes.foldr (fun b n => b.toNat + 256 * n) 0

/-- The little-endian number in the `n` bytes at `off`. -/
def field (data : List UInt8) (off n : Nat) : Nat := leBytes ((data.drop off).take n)

theorem leBytes_lt (bytes : List UInt8) : leBytes bytes < 2 ^ (8 * bytes.length) := by
  induction bytes with
  | nil => simp [leBytes]
  | cons b rest ih =>
    have hb : b.toNat < 256 := b.toNat_lt
    have he : 2 ^ (8 * (b :: rest).length) = 256 * 2 ^ (8 * rest.length) := by
      rw [length_cons, Nat.mul_succ, Nat.pow_add, Nat.mul_comm]
    rw [he]
    show b.toNat + 256 * leBytes rest < _
    omega

theorem field_lt (data : List UInt8) (off n : Nat) : field data off n < 2 ^ (8 * n) :=
  Nat.lt_of_lt_of_le (leBytes_lt _)
    (Nat.pow_le_pow_right (by decide) (Nat.mul_le_mul_left 8 (length_take_le n _)))

/-- `to_le_bytes` of an integer of `n` bytes. -/
def toLeBytes : (n v : Nat) → List UInt8
  | 0, _ => []
  | n + 1, v => UInt8.ofNat v :: toLeBytes n (v / 256)

@[simp] theorem length_toLeBytes (n v : Nat) : (toLeBytes n v).length = n := by
  induction n generalizing v with
  | zero => rfl
  | succ n ih => exact congrArg Nat.succ (ih _)

theorem leBytes_toLeBytes (n v : Nat) : leBytes (toLeBytes n v) = v % 256 ^ n := by
  induction n generalizing v with
  | zero => exact (Nat.mod_one v).symm
  | succ n ih =>
    show (UInt8.ofNat v).toNat + 256 * leBytes (toLeBytes n (v / 256)) = _
    rw [ih, Nat.pow_succ', Nat.mod_mul, UInt8.toNat_ofNat']

end Ostoo.Lib
