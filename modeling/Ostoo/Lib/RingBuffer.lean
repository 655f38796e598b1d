/-
  Ostoo.Lib.RingBuffer — a queue in an array of `n` places, one of them always free.

  `head` is where the oldest element is and `tail` where the next one goes; when they are equal
  the buffer is empty, so it is full with `n - 1` elements, and a push is then ignored. `toList`
  is the queue that the buffer stands for: a push appends to it (`toList_push`), a pop takes its
  first element (`pop_nil`, `pop_cons`), and popping until there is none takes all of it,
  in order (`drain_fst`).
-/

import Mathlib.Algebra.GroupWithZero.Nat
import Mathlib.Data.Fin.Basic
import Mathlib.Data.List.Basic
import Mathlib.Logic.Function.Basic

namespace Ostoo.Lib

open List

variable {α : Type} {n : Nat}

structure RingBuffer (α : Type) (n : Nat) where
  buf : Fin n → α
  head : Fin n
  tail : Fin n

namespace RingBuffer

/-- The number of elements in the buffer. -/
def count (r : RingBuffer α n) : Nat := if r.head ≤ r.tail then r.tail - r.head else r.tail + n - r.head

variable {r : RingBuffer α n}

theorem count_cases (r : RingBuffer α n) : (r.head : Nat) ≤ r.tail ∧ r.count = r.tail - r.head ∨
    (r.tail : Nat) < r.head ∧ r.count = r.tail + n - r.head := by
  unfold count
  split
  · rename_i h
    exact .inl ⟨h, rfl⟩
  · rename_i h
    exact .inr ⟨Nat.lt_of_not_le h, rfl⟩

theorem count_lt (r : RingBuffer α n) : r.count < n := by
  have hc := r.count_cases
  omega

theorem head_eq_tail_iff : r.head = r.tail ↔ r.count = 0 := by
  have hc := r.count_cases
  rw [Fin.ext_iff]
  omega

variable [NeZero n]

/-- The place after `i`. -/
def next (i : Fin n) : Fin n := Fin.ofNat n (i + 1)

/-- All places hold `a`, and none is in use. -/
def new (a : α) : RingBuffer α n := ⟨fun _ => a, 0, 0⟩

def push (r : RingBuffer α n) (a : α) : RingBuffer α n :=
  if next r.tail ≠ r.head then { r with buf := Function.update r.buf r.tail a, tail := next r.tail } else r

def pop (r : RingBuffer α n) : Option α × RingBuffer α n :=
  if r.head = r.tail then (none, r) else (some (r.buf r.head), { r with head := next r.head })

/-- The queue, oldest element first. -/
def toList (r : RingBuffer α n) : List α := (List.range r.count).map fun i => r.buf (Fin.ofNat n (r.head + i))

theorem length_toList (r : RingBuffer α n) : r.toList.length = r.count := by
  rw [toList, length_map, length_range]

theorem next_cases (i : Fin n) : (i : Nat) + 1 = n ∧ (next i : Nat) = 0 ∨ (i : Nat) + 1 < n ∧
      (next i : Nat) = i + 1 := by
  rw [next, Fin.val_ofNat]
  by_cases h : (i : Nat) + 1 = n
  · exact .inl ⟨h, by rw [h, Nat.mod_self]⟩
  · exact .inr ⟨by omega, Nat.mod_eq_of_lt (by omega)⟩

theorem next_tail_eq_head_iff : next r.tail = r.head ↔ r.count + 1 = n := by
  have hc := r.count_cases
  have hn := next_cases r.tail
  rw [Fin.ext_iff]
  omega

theorem place_cases (h : Fin n) {i : Nat} (hi : i < n) : (h : Nat) + i < n ∧ (Fin.ofNat n (h + i) : Nat) = h + i ∨
    n ≤ (h : Nat) + i ∧ (Fin.ofNat n (h + i) : Nat) = h + i - n := by
  rw [Fin.val_ofNat]
  by_cases hlt : (h : Nat) + i < n
  · exact .inl ⟨hlt, Nat.mod_eq_of_lt hlt⟩
  · exact .inr ⟨by omega, by rw [Nat.mod_eq_sub_mod (by omega), Nat.mod_eq_of_lt (by omega)]⟩

theorem place_count : Fin.ofNat n (r.head + r.count) = r.tail := by
  have hc := r.count_cases
  have hp := place_cases r.head r.count_lt
  rw [Fin.ext_iff]
  omega

theorem place_ne_tail {i : Nat} (hi : i < r.count) : Fin.ofNat n (r.head + i) ≠ r.tail := by
  have hc := r.count_cases
  have hp := place_cases r.head (lt_trans hi r.count_lt)
  intro h
  omega

theorem toList_push (r : RingBuffer α n) (a : α) :
    (r.push a).toList = if r.toList.length + 1 = n then r.toList else r.toList ++ [a] := by
  rw [length_toList, push]
  by_cases hfull : r.count + 1 = n
  · rw [if_pos hfull, if_neg (not_not.mpr (next_tail_eq_head_iff.mpr hfull))]
  have hne := next_tail_eq_head_iff.not.mpr hfull
  rw [if_neg hfull, if_pos hne]
  have hcount : count { r with buf := Function.update r.buf r.tail a, tail := next r.tail } = r.count + 1 := by
    have hc := r.count_cases
    have hc' := count_cases { r with buf := Function.update r.buf r.tail a, tail := next r.tail }
    have hn := next_cases r.tail
    dsimp only at hc'
    omega
  rw [toList, hcount, range_succ, map_append, toList]
  refine congrArg₂ (· ++ ·) (map_congr_left fun i hi => ?_) ?_
  · exact Function.update_of_ne (place_ne_tail (mem_range.mp hi)) _ _
  · dsimp only [map_singleton]
    rw [place_count, Function.update_self]

theorem pop_nil (h : r.toList = []) : r.pop = (none, r) := by
  have hc : r.count = 0 := by rw [← length_toList, h, length_nil]
  rw [pop, if_pos (head_eq_tail_iff.mpr hc)]

theorem pop_cons {a : α} {l : List α} (h : r.toList = a :: l) : ∃ r', r.pop = (some a, r') ∧ r'.toList = l := by
  have hc : r.count = l.length + 1 := by rw [← length_toList, h, length_cons]
  have hne : r.head ≠ r.tail := head_eq_tail_iff.not.mpr (by omega)
  have hcount : count { r with head := next r.head } = l.length := by
    have hc₁ := r.count_cases
    have hc₂ := count_cases { r with head := next r.head }
    have hn := next_cases r.head
    dsimp only at hc₂
    omega
  rw [toList, hc, range_succ_eq_map, map_cons, map_map] at h
  obtain ⟨ha, hl⟩ := cons.inj h
  have hhead : Fin.ofNat n (r.head + 0) = r.head := by
    rw [Nat.add_zero]
    exact Fin.ofNat_val_eq_self r.head
  refine ⟨{ r with head := next r.head }, ?_, ?_⟩
  · rw [pop, if_neg hne, ← ha, hhead]
  · rw [toList, hcount]
    refine Eq.trans (map_congr_left fun i _ => ?_) hl
    -- one place further from the old head is as far as from the new one
    have hplace : Fin.ofNat n (next r.head + i) = Fin.ofNat n (r.head + (i + 1)) := by
      refine Fin.ext ?_
      simp only [next, Fin.val_ofNat]
      rw [Nat.mod_add_mod, Nat.add_assoc, Nat.add_comm 1 i]
    exact congrArg r.buf hplace

/-- `pop` until there is nothing, at most `fuel` times. -/
def drainAux : Nat → RingBuffer α n → List α × RingBuffer α n
  | 0, r => ([], r)
  | fuel + 1, r => match r.pop with
    | (some a, r') => (a :: (drainAux fuel r').1, (drainAux fuel r').2)
    | (none, r') => ([], r')

/-- `while let Some(a) = r.pop()`: no more than `n` pops can find something. -/
def drain (r : RingBuffer α n) : List α × RingBuffer α n := drainAux n r

theorem drainAux_eq {fuel : Nat} (h : r.toList.length ≤ fuel) :
    (drainAux fuel r).1 = r.toList ∧ (drainAux fuel r).2.toList = [] := by
  induction fuel generalizing r with
  | zero =>
    have hnil := eq_nil_of_length_eq_zero (Nat.le_zero.mp h)
    exact ⟨hnil.symm, hnil⟩
  | succ fuel ih =>
    cases hl : r.toList with
    | nil =>
      rw [drainAux, pop_nil hl]
      exact ⟨rfl, hl⟩
    | cons a l =>
      obtain ⟨r', hp, hr'⟩ := pop_cons hl
      rw [hl, length_cons] at h
      obtain ⟨h₁, h₂⟩ := ih (r := r') (by rw [hr']; omega)
      rw [drainAux, hp]
      exact ⟨congrArg (a :: ·) (h₁.trans hr'), h₂⟩

theorem drain_fst (r : RingBuffer α n) : r.drain.1 = r.toList :=
  (drainAux_eq (by rw [length_toList]; exact le_of_lt r.count_lt)).1

theorem toList_drain (r : RingBuffer α n) : r.drain.2.toList = [] :=
  (drainAux_eq (by rw [length_toList]; exact le_of_lt r.count_lt)).2

end RingBuffer

end Ostoo.Lib
