/-
  Ostoo.CompletionPort.SqLoop — the submission side of `sys_io_ring_enter` (`io_port.rs`,
  phase 1), with any number of threads calling it on one port.

  A caller reads head and tail of the SQ once, processes the entries between them one by
  one, and at the end advances the head it finds then by the number it has processed. The
  kernel is not preempted, but `process_submission` may wake a thread, and the caller then
  yields inside the loop: other callers run from there (`onCpu`). User space publishes
  entries with `push_sqe`, which writes the slot and bumps the tail while there is room.

  A second caller that begins while the first is in its loop processes the same entries
  again, and the head is advanced for both, past the tail
  (`overlapping_callers_process_twice`). In the runs in which no caller begins while another
  is in its loop, the published entries are processed in order, each once
  (`sq_entries_processed_in_order`).
-/

import Mathlib.Logic.Function.Basic
import Ostoo.Lib.Machine
import Ostoo.Lib.Serial
import Ostoo.CompletionPort.Ring

namespace Ostoo.CompletionPort.SqLoop

open Ostoo.Lib Ostoo.Lib.Serial List
open Ostoo.CompletionPort.Ring (U32 slotOf)
open Function (update_self update_of_ne update)

variable {E : Type}

/-- Where a thread is. -/
inductive Call
  | out
  /-- In the loop: the head it read, the entries it has processed, and how many it will. -/
  | loop (sqHead : U32) (i count : Nat)
  deriving DecidableEq

structure St (E : Type) where
  head : U32
  tail : U32
  slots : Nat → E
  calls : Nat → Call
  /-- The thread that is in the kernel and has not yielded. -/
  onCpu : Option Nat
  published : List E
  /-- What `process_submission` was called with. -/
  processed : List E

inductive Ev (E : Type)
  /-- `push_sqe` in user space. -/
  | publish (e : E)
  | enter (t toSubmit : Nat)
  /-- The next entry of the loop; `woken`: a thread was woken, and the caller yields. -/
  | process (t : Nat) (woken : Bool)
  /-- `advance_sq_head` after the loop. -/
  | advance (t : Nat)

section Step

variable (entryCount : U32)

section

variable (s : St E)

/-- `sq_tail.wrapping_sub(sq_head)` -/
def sqPending : Nat := (s.tail - s.head).toNat

def publish (e : E) : Option (St E) :=
  if entryCount ≤ s.tail - s.head then none
  else some { s with
    slots := Function.update s.slots (slotOf entryCount s.tail) e
    tail := s.tail + 1
    published := s.published ++ [e] }

def enter (t toSubmit : Nat) : St E :=
  { s with calls := Function.update s.calls t (.loop s.head 0 (Nat.min (sqPending s) toSubmit)), onCpu := some t }

def process (t : Nat) (woken : Bool) (sqHead : U32) (i count : Nat) : St E :=
  { s with
    calls := Function.update s.calls t (.loop sqHead (i + 1) count)
    processed := s.processed ++ [s.slots (slotOf entryCount (sqHead + BitVec.ofNat 32 i))]
    onCpu := if woken then none else some t }

def advance (t count : Nat) : St E :=
  { s with head := s.head + BitVec.ofNat 32 count, calls := Function.update s.calls t .out, onCpu := none }

def step : Ev E → Option (St E)
  | .publish e => publish entryCount s e
  | .enter t toSubmit => if s.onCpu = none ∧ s.calls t = .out ∧ 0 < toSubmit then some (enter s t toSubmit) else none
  | .process t woken =>
    match s.calls t with
    | .loop sqHead i count =>
      if (s.onCpu = none ∨ s.onCpu = some t) ∧ i < count then some (process entryCount s t woken sqHead i count)
      else none
    | .out => none
  | .advance t =>
    match s.calls t with
    | .loop _ i count => if (s.onCpu = none ∨ s.onCpu = some t) ∧ i = count then some (advance s t count) else none
    | .out => none

end

/-- An empty ring whose counters read `start`, and nobody in the call. -/
def Start (start : U32) (s : St E) : Prop :=
  s.head = start ∧ s.tail = start ∧ (∀ t, s.calls t = .out) ∧ s.onCpu = none ∧ s.published = [] ∧ s.processed = []

def machine (start : U32) : Machine (St E) (Ev E) := ⟨Start start, step entryCount⟩

end Step

/-- A caller begins only while no other is in its loop. -/
def Alone (s : St E) : Ev E → Prop
  | .enter _ _ => ∀ u, s.calls u = .out
  | _ => True

/-! ## The invariant -/

variable {entryCount start : U32} {s s' : St E} {n : Nat}

/-- The one caller in its loop, if any: it has processed `done` entries from the head on, and
    all it will are published. -/
def InLoop (s : St E) (n done : Nat) : Prop :=
  ((∀ t, s.calls t = .out) ∧ done = 0) ∨
  ∃ t count, s.calls t = .loop s.head done count ∧ (∀ u, u ≠ t → s.calls u = .out) ∧ done ≤ count ∧
    n + count ≤ s.published.length

/-- The head has been advanced over `n` entries. -/
structure Inv (entryCount start : U32) (n : Nat) (s : St E) : Prop where
  head : s.head = reading start n
  tail : s.tail = reading start s.published.length
  le : n ≤ s.published.length
  room : s.published.length ≤ n + entryCount.toNat
  placed : ∀ (j : Nat) e, n ≤ j → s.published[j]? = some e → s.slots (slotOf entryCount (reading start j)) = e
  calls : ∃ done, InLoop s n done ∧ s.processed.length = n + done
  order : s.processed = s.published.take s.processed.length

theorem start_inv (h : Start start s) : Inv entryCount start 0 s := by
  obtain ⟨hh, ht, hc, -, hpub, hproc⟩ := h
  refine ⟨by simp [hh], by simp [ht, hpub], by simp, by simp [hpub], by simp [hpub],
    ⟨0, .inl ⟨hc, rfl⟩, by simp [hproc]⟩, ?_⟩
  simp [hproc]

variable (h : Inv entryCount start n s) {sqHead : U32}
include h

theorem Inv.pending : sqPending s = s.published.length - n := by
  have hle := h.le
  have hroom := h.room
  rw [sqPending, h.tail, h.head, reading_sub start hle (by omega)]

theorem publish_inv (hp : Pow2 entryCount) {e : E} (hs : publish entryCount s e = some s') :
    Inv entryCount start n s' := by
  obtain ⟨hfull, hs⟩ := of_unless hs
  have hpend := h.pending
  have hle := h.le
  have hroom : s.published.length < n + entryCount.toNat := by
    rw [sqPending] at hpend
    rw [BitVec.le_def, hpend] at hfull
    omega
  cases hs
  refine ⟨h.head, ?_, ?_, ?_, ?_, ?_, ?_⟩
  · show s.tail + 1 = reading start (s.published ++ [e]).length
    rw [h.tail, reading_succ, length_append, length_singleton]
  · show n ≤ (s.published ++ [e]).length
    rw [length_append]
    omega
  · show (s.published ++ [e]).length ≤ n + entryCount.toNat
    rw [length_append, length_singleton]
    omega
  · intro j x hj hx
    simp only at hx ⊢
    rw [h.tail]
    by_cases hlast : j = s.published.length
    · subst hlast
      rw [update_self]
      simpa using hx
    -- the slot that is written is no pending entry's
    have hlt : j < s.published.length := by
      have := (List.getElem?_eq_some_iff.mp hx).1
      simp only [length_append, length_singleton] at this
      omega
    have hslot : slotOf entryCount (reading start j) ≠ slotOf entryCount (reading start s.published.length) :=
      slot_ne hp start hlt (by omega)
    rw [update_of_ne hslot]
    rw [getElem?_append_left hlt] at hx
    exact h.placed j x hj hx
  · obtain ⟨d, hloop, hlen⟩ := h.calls
    refine ⟨d, ?_, hlen⟩
    rcases hloop with hout | ⟨t, count, ht, hu, hd, _⟩
    · exact .inl hout
    refine .inr ⟨t, count, ht, hu, hd, ?_⟩
    show n + count ≤ (s.published ++ [e]).length
    rw [length_append]
    omega
  · show s.processed = (s.published ++ [e]).take s.processed.length
    have hlen : s.processed.length ≤ s.published.length := by
      have := congrArg length h.order
      rw [length_take] at this
      omega
    rw [take_append_of_le_length hlen]
    exact h.order

theorem enter_inv (hout : ∀ u, s.calls u = .out) (t toSubmit : Nat) : Inv entryCount start n (enter s t toSubmit) := by
  refine ⟨h.head, h.tail, h.le, h.room, h.placed,
    ⟨0, .inr ⟨t, Nat.min (sqPending s) toSubmit, ?_, ?_, Nat.zero_le _, ?_⟩, ?_⟩, h.order⟩
  · exact update_self ..
  · intro u hu
    exact (update_of_ne hu ..).trans (hout u)
  · show n + min (sqPending s) toSubmit ≤ s.published.length
    have hpend := h.pending
    have hle := h.le
    have : min (sqPending s) toSubmit ≤ sqPending s := min_le_left ..
    omega
  · obtain ⟨_, hloop, hlen⟩ := h.calls
    rcases hloop with ⟨-, rfl⟩ | ⟨u, _, hu, -⟩
    · exact hlen
    · rw [hout u] at hu
      cases hu

omit h in
theorem InLoop.of_loop {d : Nat} (h : InLoop s n d) {t i count : Nat} (ht : s.calls t = .loop sqHead i count) :
    sqHead = s.head ∧ i = d ∧ (∀ u, u ≠ t → s.calls u = .out) ∧ d ≤ count ∧ n + count ≤ s.published.length := by
  rcases h with ⟨hout, -⟩ | ⟨u, _, hu, hothers, hd, hcount⟩
  · rw [hout t] at ht
    cases ht
  by_cases htu : t = u
  · subst htu
    rw [hu] at ht
    cases ht
    exact ⟨rfl, rfl, hothers, hd, hcount⟩
  · rw [hothers t htu] at ht
    cases ht

theorem process_inv {t i count : Nat} {woken : Bool} (ht : s.calls t = .loop sqHead i count) (hi : i < count) :
    Inv entryCount start n (process entryCount s t woken sqHead i count) := by
  obtain ⟨_, hloop, hlen⟩ := h.calls
  obtain ⟨rfl, rfl, hothers, -, hcount⟩ := hloop.of_loop ht
  have hlt : n + i < s.published.length := by omega
  -- the entry is still where it was published
  have hentry : s.slots (slotOf entryCount (s.head + BitVec.ofNat 32 i)) = s.published[n + i] := by
    rw [h.head, reading_add]
    exact h.placed (n + i) _ (Nat.le_add_right ..) (getElem?_eq_getElem hlt)
  refine ⟨h.head, h.tail, h.le, h.room, h.placed, ⟨i + 1, .inr ⟨t, count, ?_, ?_, hi, hcount⟩, ?_⟩, ?_⟩
  · exact update_self ..
  · intro u hu
    exact (update_of_ne hu ..).trans (hothers u hu)
  · show (s.processed ++ [_]).length = n + (i + 1)
    rw [length_append, length_singleton, hlen]
    omega
  · show s.processed ++ [_] = s.published.take (s.processed ++ [_]).length
    rw [length_append, length_singleton, hlen, hentry, take_add_one, getElem?_eq_getElem hlt]
    have horder := h.order
    rw [hlen] at horder
    rw [← horder]
    rfl

theorem advance_inv {t count : Nat} (ht : s.calls t = .loop sqHead count count) :
    Inv entryCount start (n + count) (advance s t count) := by
  obtain ⟨_, hloop, hlen⟩ := h.calls
  obtain ⟨-, rfl, hothers, -, hcount⟩ := hloop.of_loop ht
  refine ⟨?_, h.tail, hcount, ?_, fun j e hj => h.placed j e (by omega), ⟨0, .inl ⟨?_, rfl⟩, hlen⟩, h.order⟩
  · show s.head + BitVec.ofNat 32 count = reading start (n + count)
    rw [h.head, reading_add]
  · have := h.room
    show s.published.length ≤ n + count + entryCount.toNat
    omega
  · intro u
    by_cases hu : u = t
    · rw [hu]
      exact update_self ..
    · exact (update_of_ne hu ..).trans (hothers u hu)

theorem step_inv (hp : Pow2 entryCount) {e : Ev E} (hg : Alone s e)
    (hs : step entryCount s e = some s') : ∃ m, Inv entryCount start m s' := by
  cases e with
  | publish e => exact ⟨n, publish_inv h hp hs⟩
  | enter t toSubmit =>
    obtain ⟨-, ⟨⟩⟩ := of_guard hs
    exact ⟨n, enter_inv h hg t toSubmit⟩
  | process t woken =>
    simp only [step] at hs
    split at hs
    · rename_i ht
      split at hs
      · rename_i hc
        cases hs
        exact ⟨n, process_inv h ht hc.2⟩
      · cases hs
    · cases hs
  | advance t =>
    simp only [step] at hs
    split at hs
    · rename_i count ht
      obtain ⟨hc, ⟨⟩⟩ := of_guard hs
      rw [hc.2] at ht
      exact ⟨n + count, advance_inv h ht⟩
    · cases hs

omit h

theorem sq_entries_processed_in_order (entryCount start : U32) (hp : Pow2 entryCount) (s : St E)
    (h : (machine entryCount start).Reach Alone s) :
    s.processed = s.published.take s.processed.length ∧ s.processed.length ≤ s.published.length ∧
    (∃ n ≤ s.processed.length, s.head = reading start n ∧ s.tail = reading start s.published.length) ∧
    (s.tail - s.head).toNat ≤ entryCount.toNat ∧
    -- with nobody in the loop the pending entries are those not processed yet
    ((∀ t, s.calls t = .out) → sqPending s = s.published.length - s.processed.length) := by
  obtain ⟨n, hi⟩ : ∃ n, Inv entryCount start n s :=
    Machine.Reach.inv (I := fun s => ∃ n, Inv entryCount start n s) (fun _ h0 => ⟨0, start_inv h0⟩)
      (fun _ _ _ ⟨_, hi⟩ hg hs => step_inv hi hp hg hs) h
  obtain ⟨_, hloop, hlen⟩ := hi.calls
  have hpend := hi.pending
  have hroom := hi.room
  refine ⟨hi.order, ?_, ⟨n, by omega, hi.head, hi.tail⟩, ?_, fun hout => ?_⟩
  · have := congrArg length hi.order
    rw [length_take] at this
    omega
  · rw [sqPending] at hpend
    omega
  · rcases hloop with ⟨-, rfl⟩ | ⟨t, _, ht, -⟩
    · rw [hpend, hlen]
      rfl
    · rw [hout t] at ht
      cases ht

/-- A ring of four entries, and nobody in the call. -/
def emptyRing : St Nat := ⟨0, 0, fun _ => 0, fun _ => .out, none, [], []⟩

theorem emptyRing_start : Start 0 emptyRing := ⟨rfl, rfl, fun _ => rfl, rfl, rfl, rfl⟩

/-- Two entries are published; one thread processes the first, the next call the second. -/
def twoCalls : List (Ev Nat) :=
  [.publish 7, .publish 8, .enter 1 1, .process 1 true, .advance 1, .enter 2 5, .process 2 false, .advance 2]

theorem sq_entries_processed_in_order_two_calls : ∃ s : St Nat, (machine 4 0).Reach Alone s ∧ s.processed = [7, 8] ∧
    s.processed = s.published.take s.processed.length ∧ (s.tail - s.head).toNat ≤ 4 := by
  have hout : ∀ {x : Call} {c : Nat → Call}, (∀ u, c u = .out) → ∀ u, update (update
      (update c 1 (.loop 0 0 1)) 1 x) 1 .out u = .out := by
    intro x c hc u
    by_cases hu : u = 1
    · rw [hu, update_self]
    · rw [update_of_ne hu, update_of_ne hu, update_of_ne hu, hc]
  have hg : (machine 4 0).Guarded Alone emptyRing twoCalls :=
    ⟨trivial, trivial, fun _ => rfl, trivial, trivial, hout fun _ => rfl, trivial, trivial, trivial⟩
  obtain ⟨s, hr, hproc⟩ : ∃ s, (machine 4 0).run emptyRing twoCalls = some s ∧ s.processed = [7, 8] := ⟨_, rfl, rfl⟩
  have h := Machine.reach_of_run emptyRing twoCalls emptyRing_start hg hr
  have hres := sq_entries_processed_in_order 4 0 ⟨2, rfl⟩ s h
  exact ⟨s, h, hproc, hres.1, hres.2.2.2.1⟩

/-- One entry is published. Thread 1 processes it, which wakes thread 2, and yields in its
    loop; thread 2 calls in turn, finds the entry pending, processes it and advances the
    head; thread 1 advances it again. -/
def overlapTrace : List (Ev Nat) :=
  [.publish 7, .enter 1 1, .process 1 true, .enter 2 1, .process 2 false, .advance 2, .advance 1]

theorem overlapping_callers_process_twice : ∃ s : St Nat, (machine 4 0).Reachable s ∧ s.published = [7] ∧
    s.processed = [7, 7] ∧ s.head = 2 ∧ s.tail = 1 :=
  ⟨_, Machine.reachable_of_run emptyRing overlapTrace emptyRing_start rfl, rfl, rfl, rfl, rfl⟩

end Ostoo.CompletionPort.SqLoop
