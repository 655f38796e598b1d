/-
  Ostoo.CompletionPort.Port — the generic completion port (`completion-port/src/port.rs`):
  a bounded queue with one slot for the thread that waits on it. Each function is one call
  under the port's lock; where the code wakes a thread the call gives its index, and
  `Waker::wake` is `scheduler::unblock` (`unblockWoken`).
-/

import Ostoo.Task.Sleeping

namespace Ostoo.CompletionPort

open Ostoo.Task Ostoo.Task.Scheduler

variable {C κ : Type} {s : Scheduler κ} {i : Nat}

def DEFAULT_MAX_QUEUED : Nat := 256

structure Port (C : Type) where
  queue : List C
  waiter : Option Nat
  maxQueued : Nat

namespace Port

def new : Port C := ⟨[], none, DEFAULT_MAX_QUEUED⟩

variable (p : Port C)

/-- `wake_waiter`: the slot is emptied and its thread woken. -/
def wakeWaiter : Port C × Option Nat := ({ p with waiter := none }, p.waiter)

/-- The queue takes a completion only while it has room. -/
def push (c : C) : Port C := if p.queue.length < p.maxQueued then { p with queue := p.queue ++ [c] } else p

def post (c : C) : Port C × Option Nat := (p.push c).wakeWaiter

def drain (max : Nat) : List C × Port C := (p.queue.take max, { p with queue := p.queue.drop max })

def setWaiter (token : Nat) : Port C := { p with waiter := some token }

def pending : Nat := p.queue.length

@[simp] theorem push_waiter (c : C) : (p.push c).waiter = p.waiter := by
  unfold push
  split <;> rfl

@[simp] theorem push_maxQueued (c : C) : (p.push c).maxQueued = p.maxQueued := by
  unfold push
  split <;> rfl

end Port

/-- `SchedulerWaker`: `scheduler::unblock` where a call woke a thread. -/
def unblockWoken (s : Scheduler κ) : Option Nat → Scheduler κ
  | some t => s.unblock t
  | none => s

theorem unblockWoken_stirs {w : Option Nat} : Stirs s (unblockWoken s w) i := by
  cases w with
  | none => exact Stirs.of_threads rfl
  | some t => exact (unblock_turns t).stirs

theorem unblock_wakes (h : s.Asleep i) :
    ¬ (s.unblock i).Asleep i ∧ i ∈ (s.unblock i).readyQueue ∧ ∃ t, (s.unblock i).threads[i]? = some t ∧
      t.state = .ready := by
  obtain ⟨t, ht, hb⟩ := h
  have hthread : (s.unblock i).threads[i]? = some { t with state := .ready } := by
    simp only [unblock, ht, hb, if_true]
    show (s.setState i .ready).threads[i]? = _
    rw [getElem?_setState, ht]
    simp
  refine ⟨?_, ?_, _, hthread, rfl⟩
  · intro ⟨u, hu, hbu⟩
    rw [hthread] at hu
    cases hu
    cases hbu
  · simp [unblock, ht, hb]

end Ostoo.CompletionPort
