/-
  Ostoo.Task.Sleeping — what the rest of the system can do to one thread.

  A thread goes to sleep only by marking itself. Whatever other threads, the timer and
  interrupt handlers do to the scheduler, a thread that is not Blocked does not become so
  and none dies but by its own hand (`othersStep_stirs`).
-/

import Ostoo.Task.ReadyQueue

namespace Ostoo.Task

variable {κ : Type}

namespace Scheduler

/-- The thread is Blocked. -/
def Asleep (s : Scheduler κ) (i : Nat) : Prop := ∃ t, s.threads[i]? = some t ∧ t.state = .blocked

/-- There is such a thread and it is not Dead. -/
def Alive (s : Scheduler κ) (i : Nat) : Prop := ∃ t, s.threads[i]? = some t ∧ t.state ≠ .dead

variable {s s' : Scheduler κ} {i : Nat}

/-- Thread `i` is still there, as it was or runnable. -/
def Stirs (s s' : Scheduler κ) (i : Nat) : Prop :=
  ∀ t, s.threads[i]? = some t → ∃ t', s'.threads[i]? = some t' ∧ (t'.state = t.state ∨ t'.state.isRunnable = true)

theorem Stirs.of_threads (h : s'.threads[i]? = s.threads[i]?) : Stirs s s' i :=
  fun t ht => ⟨t, h.trans ht, .inl rfl⟩

theorem Stirs.alive (h : Stirs s s' i) (ha : s.Alive i) : s'.Alive i := by
  obtain ⟨t, ht, hd⟩ := ha
  obtain ⟨t', ht', hs⟩ := h t ht
  refine ⟨t', ht', fun e => ?_⟩
  rcases hs with hs | hs
  · exact hd (hs ▸ e)
  · rw [e] at hs
    cases hs

theorem Stirs.asleep (h : Stirs s s' i) (ha : s.Alive i) (hs : s'.Asleep i) : s.Asleep i := by
  obtain ⟨t, ht, -⟩ := ha
  obtain ⟨_, hu, hb⟩ := hs
  obtain ⟨_, ht', h⟩ := h t ht
  rw [hu] at ht'
  cases ht'
  refine ⟨t, ht, ?_⟩
  rcases h with h | h
  · rw [← h]
    exact hb
  · rw [hb] at h
    cases h

theorem Turns.stirs (h : Turns s s') : Stirs s s' i := by
  intro t ht
  obtain ⟨f, he, hf⟩ := h.thread i
  exact ⟨f t, he.trans (by rw [ht]; rfl), (hf t).2⟩

theorem setState_stirs {st : ThreadState} (h : s.currentIdx ≠ i) : Stirs s (s.setState s.currentIdx st) i := by
  apply Stirs.of_threads
  rw [getElem?_setState]
  simp [h]

theorem spawn_stirs {kind : SchedulableKind} {stack : Nat} {owns : Bool} {x : κ} (ha : s.Alive i) :
    Stirs s (s.spawn kind stack owns x).1 i := by
  apply Stirs.of_threads
  obtain ⟨_, ht, hd⟩ := ha
  rw [spawn_threads]
  split
  · rename_i e
    rw [e] at ht
    exact absurd (spawn_slot ht) hd
  · rfl

end Scheduler

open Scheduler

/-- A step of the scheduler that is not the doing of thread `tid`: while that thread is on
    the CPU, only interrupts are not. -/
def othersStep (tid : Nat) (s : Scheduler κ) : SchedEv κ → Option (Scheduler κ)
  | .unblock i => schedStep s (.unblock i)
  | .preemptTick => schedStep s .preemptTick
  | e => if s.currentIdx = tid then none else schedStep s e

theorem othersStep_stirs {tid : Nat} {s s' : Scheduler κ} {e : SchedEv κ} (ha : s.Alive tid)
    (h : othersStep tid s e = some s') : Stirs s s' tid := by
  cases e with
  | unblock i =>
    cases h
    exact (unblock_turns i).stirs
  | preemptTick => exact (preemptTick_turns h).stirs
  | yieldTick =>
    simp only [othersStep] at h
    split at h
    · cases h
    · exact (yieldTick_turns h).stirs
  | setDonateTarget i =>
    simp only [othersStep] at h
    split at h
    · cases h
    · cases h
      exact Stirs.of_threads rfl
  | spawn kind stack owns ctx =>
    simp only [othersStep, schedStep] at h
    split at h
    · cases h
    split at h
    · cases h
      exact spawn_stirs ha
    · cases h
  | markBlocked | markDead =>
    simp only [othersStep, schedStep] at h
    split at h
    · cases h
    rename_i hne
    split at h
    · cases h
      exact setState_stirs hne
    · cases h

end Ostoo.Task
