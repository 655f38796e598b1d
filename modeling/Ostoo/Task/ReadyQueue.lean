/-
  Ostoo.Task.ReadyQueue — the ready queue over whole runs of the scheduler, step by step.

  The running thread spawns threads, names a donate target, marks itself Blocked or Dead,
  and yields; the timer ticks at any time; anyone, an interrupt handler included, unblocks
  any thread at any time. Once a thread has marked itself it does nothing but yield: it is
  in the window between `mark_blocked` (or the kill) and its switch. The idle thread only
  halts.

  An `unblock` that reaches a thread in its own window queues it while it is still the
  current thread, and its yield queues it again. So an index can stand on the queue twice,
  and be dispatched though it is Blocked (`a_wake_in_the_window_queues_twice`). In the runs in
  which no wake-up reaches a thread in its own window the queue holds Ready threads, each
  once, and only a runnable thread is dispatched (`ready_queue_integrity`).
-/

import Ostoo.Lib.Machine
import Ostoo.Task.Scheduler

namespace Ostoo.Task

open Ostoo.Lib List

variable {κ : Type}

namespace Scheduler

/-- The current thread runs code of its own: it is not in a window, and not the idle thread. -/
def acting (s : Scheduler κ) : Bool :=
  s.current?.any (·.state = .running) && s.currentIdx != s.idleThreadIdx

/-- After `scheduler::init`. -/
def boot (main idle : κ) : Scheduler κ where
  threads := [⟨0, .running, main, QUANTUM_TICKS, .kernel, 0, false⟩, ⟨1, .ready, idle, QUANTUM_TICKS, .kernel, 1, true⟩]
  currentIdx := 0
  readyQueue := []
  idleThreadIdx := 1
  donateTarget := none
  nextThreadId := 2

end Scheduler

inductive SchedEv (κ : Type)
  | spawn (kind : SchedulableKind) (stack : Nat) (ownsStack : Bool) (ctx : κ)
  | markBlocked
  /-- `kill_current_thread` before its yield. -/
  | markDead
  | setDonateTarget (i : Nat)
  | unblock (i : Nat)
  | yieldTick
  | preemptTick

def schedStep (s : Scheduler κ) : SchedEv κ → Option (Scheduler κ)
  | .spawn kind stack owns ctx => if s.acting then some (s.spawn kind stack owns ctx).1 else none
  | .markBlocked => if s.acting then some s.markBlocked else none
  | .markDead => if s.acting then some s.markDead else none
  | .setDonateTarget i => some (s.setDonateTarget i)
  | .unblock i => some (s.unblock i)
  | .yieldTick => s.yieldTick
  | .preemptTick => s.preemptTick

def schedMachine (main idle : κ) : Machine (Scheduler κ) (SchedEv κ) where
  start := (· = .boot main idle)
  step := schedStep

/-- No wake-up reaches the current thread after it marked itself Blocked. -/
def NoWindowWake (s : Scheduler κ) : SchedEv κ → Prop
  | .unblock i => ∀ t, s.current? = some t → t.state = .blocked → i ≠ s.currentIdx
  | _ => True

namespace Scheduler

variable {s s' : Scheduler κ}

/-- The scheduler at any time: the current thread is Running, or in its window. -/
structure Sound (s : Scheduler κ) : Prop extends Queue s where
  fresh : s.currentIdx ∉ s.readyQueue
  current : ∃ t, s.current? = some t ∧ t.state ≠ .ready ∧ 0 < t.ticksRemaining

theorem Ok.sound (h : Ok s) : Sound s := by
  obtain ⟨t, ht, hr, hticks⟩ := h.running
  exact ⟨h.toQueue, h.fresh, t, ht, by simp [hr], hticks⟩

theorem Sound.ok (h : Sound s) (ha : s.acting = true) : Ok s ∧ s.currentIdx ≠ s.idleThreadIdx := by
  obtain ⟨hrun, hidle⟩ := Bool.and_eq_true_iff.mp ha
  obtain ⟨t, ht, -, hticks⟩ := h.current
  rw [ht] at hrun
  exact ⟨⟨h.toQueue, h.fresh, t, ht, by simpa using hrun, hticks⟩, by simpa using hidle⟩

theorem Ok.mark (h : Ok s) (hidle : s.currentIdx ≠ s.idleThreadIdx) {st : ThreadState} (hst : st ≠ .ready) :
    Sound (s.setState s.currentIdx st) := by
  obtain ⟨t, ht, -, hticks⟩ := h.running
  simp only [current?] at ht
  refine ⟨h.modify_queue (fun _ => rfl) (fun e => absurd e hidle), h.fresh, { t with state := st }, ?_, hst, hticks⟩
  simp [setState, current?, ht]

theorem Sound.unblock (h : Sound s) {i : Nat} (hi : NoWindowWake s (.unblock i)) : Sound (s.unblock i) := by
  obtain ⟨hmem, hcur⟩ := unblock_current hi
  refine ⟨unblock_queue h.toQueue, ?_, hcur ▸ h.current⟩
  rw [unblock_currentIdx]
  exact fun hm => h.fresh (hmem hm)

theorem Sound.preemptTick (h : Sound s) (hs : s.preemptTick = some s') : Sound s' := by
  obtain ⟨t, ht, ⟨-, hticks, rfl⟩ | ⟨-, n, hs⟩⟩ := preemptTick_cases hs
  · obtain ⟨c, hc, hready, -⟩ := h.current
    cases hc.symm.trans ht
    rw [current?] at hc
    exact ⟨h.toQueue.setTicks _, h.fresh, { t with ticksRemaining := t.ticksRemaining - 1 }, by simp [setTicks,
      current?, hc], hready, Nat.sub_pos_of_lt hticks⟩
  · exact (dispatch_ok (popReady_chosen (requeueCurrent_queue (h.toQueue.setTicks n) h.fresh)) hs).sound

theorem Sound.step {e : SchedEv κ} (h : Sound s) (hg : NoWindowWake s e) (hs : schedStep s e = some s') : Sound s' := by
  cases e with
  | spawn kind stack owns ctx =>
    obtain ⟨ha, ⟨⟩⟩ := of_guard hs
    exact (spawn_ok (h.ok ha).1).sound
  | markBlocked | markDead =>
    obtain ⟨ha, ⟨⟩⟩ := of_guard hs
    exact (h.ok ha).1.mark (h.ok ha).2 (by decide)
  | setDonateTarget i =>
    cases hs
    exact ⟨⟨h.ready, h.nodup, h.idle⟩, h.fresh, h.current⟩
  | unblock i =>
    cases hs
    exact h.unblock hg
  | yieldTick => exact (yieldTick_ok h.toQueue h.fresh hs).sound
  | preemptTick => exact h.preemptTick hs

theorem boot_sound (main idle : κ) : Sound (boot main idle) := by
  refine ⟨⟨?_, nodup_nil, _, rfl, rfl, rfl⟩, ?_, _, rfl, ?_, ?_⟩
  · intro i hi
    cases hi
  · intro hi
    cases hi
  · intro h
    cases h
  · show 0 < QUANTUM_TICKS
    decide

theorem reach_sound {main idle : κ} (h : (schedMachine main idle).Reach NoWindowWake s) : Sound s :=
  Machine.Reach.inv (fun _ h0 => h0 ▸ boot_sound main idle) (fun _ _ _ hi hg hs => hi.step hg hs) h

/-! ## What is dispatched -/

theorem requeueCurrent_runnable {i : Nat} {t : Thread κ} (ht : s.requeueCurrent.threads[i]? = some t)
    (hr : t.state.isRunnable = true) : ∃ u, s.threads[i]? = some u ∧ u.state.isRunnable = true := by
  obtain ⟨he, -⟩ | ⟨c, hc, hrc, he⟩ := s.requeueCurrent_cases <;> rw [he] at ht
  · exact ⟨t, ht, hr⟩
  simp only [getElem?_setState] at ht
  obtain ⟨u, hu, rfl⟩ := of_map ht
  refine ⟨u, hu, ?_⟩
  by_cases hi : s.currentIdx = i
  · rw [current?, hi, hu] at hc
    cases hc
    exact hrc
  · simpa [hi] using hr

theorem Chosen.dispatched {r : Scheduler κ × Nat} (h : Chosen r) (hthreads : r.1.threads = s.requeueCurrent.threads)
    (hs : r.1.dispatch r.2 = some s') : ∃ t, s.threads[s'.currentIdx]? = some t ∧ t.state.isRunnable = true := by
  obtain ⟨-, -, t, ht, hr⟩ := h
  rw [hthreads] at ht
  rw [dispatch_eq hs]
  exact requeueCurrent_runnable ht hr

theorem Sound.yieldTick_dispatched (h : Sound s) (hs : s.yieldTick = some s') :
    ∃ t, s.threads[s'.currentIdx]? = some t ∧ t.state.isRunnable = true :=
  (pickNext_chosen (requeueCurrent_queue h.toQueue h.fresh)).dispatched pickNext_rest.2 (yieldTick_switch hs)

theorem Sound.preemptTick_dispatched (h : Sound s) (hs : s.preemptTick = some s') :
    ∃ t, s.threads[s'.currentIdx]? = some t ∧ t.state.isRunnable = true := by
  obtain ⟨t, ht, ⟨hr, -, rfl⟩ | ⟨-, n, hs⟩⟩ := preemptTick_cases hs
  · exact ⟨t, ht, hr⟩
  -- the threads are the same but for the current one's ticks
  obtain ⟨t, ht, hrt⟩ := (popReady_chosen (requeueCurrent_queue (h.toQueue.setTicks n) h.fresh)).dispatched
    popReady_rest.2 hs
  rw [setTicks, getElem?_modify] at ht
  obtain ⟨u, hu, rfl⟩ := of_map ht
  refine ⟨u, hu, ?_⟩
  split at hrt <;> exact hrt

end Scheduler

open Scheduler

theorem ready_queue_integrity (main idle : κ) (s : Scheduler κ) (h : (schedMachine main idle).Reach NoWindowWake s) :
    s.readyQueue.Nodup ∧ (∀ i ∈ s.readyQueue, ∃ t, s.threads[i]? = some t ∧ t.state = .ready) ∧
      ∀ s', s.yieldTick = some s' ∨ s.preemptTick = some s' →
        ∃ t, s.threads[s'.currentIdx]? = some t ∧ t.state ≠ .blocked ∧ t.state ≠ .dead := by
  have hs := reach_sound h
  refine ⟨hs.nodup, hs.ready, fun s' hs' => ?_⟩
  obtain ⟨t, ht, hr⟩ := hs'.elim hs.yieldTick_dispatched hs.preemptTick_dispatched
  refine ⟨t, ht, ?_, ?_⟩
  · intro hb
    rw [hb] at hr
    cases hr
  · intro hd
    rw [hd] at hr
    cases hr

/-- Thread 2 is spawned; the boot thread blocks and yields to it; thread 2 wakes it. -/
def wakeTrace : List (SchedEv Unit) := [.spawn .kernel 2 true (), .markBlocked, .yieldTick, .unblock 0]

theorem ready_queue_integrity_wake : ∃ s, (schedMachine () ()).Reach NoWindowWake s ∧ s.currentIdx = 2 ∧
      s.readyQueue = [0] ∧
    ∃ s', s.yieldTick = some s' ∧ s'.currentIdx = 0 ∧ ∃ t, s.threads[s'.currentIdx]? = some t ∧ t.state ≠ .blocked := by
  have hg : (schedMachine () ()).Guarded NoWindowWake (boot () ()) wakeTrace := by
    refine ⟨trivial, trivial, trivial, ?_⟩
    refine ⟨?_, trivial⟩
    intro t ht hb
    cases ht
    cases hb
  obtain ⟨s, hr, hcur, hq, s', hs', hcur'⟩ : ∃ s, (schedMachine () ()).run (boot () ()) wakeTrace = some s ∧
      s.currentIdx = 2 ∧ s.readyQueue = [0] ∧ ∃ s', s.yieldTick = some s' ∧ s'.currentIdx = 0 :=
    ⟨_, rfl, rfl, rfl, _, rfl, rfl⟩
  have h := Machine.reach_of_run (boot () ()) wakeTrace rfl hg hr
  obtain ⟨t, ht, hb, -⟩ := (ready_queue_integrity () () s h).2.2 s' (.inl hs')
  exact ⟨s, h, hcur, hq, s', hs', hcur', t, ht, hb⟩

/-- Thread 2 is spawned; the boot thread marks itself Blocked and is woken before it
    yields. It is then on the queue twice. Thread 2 yields to it, and it goes back to
    sleep: its second index is dispatched though it is Blocked. -/
def windowTrace : List (SchedEv Unit) := [.spawn .kernel 2 true (), .markBlocked, .unblock 0, .yieldTick]

theorem a_wake_in_the_window_queues_twice :
    (∃ s, (schedMachine () ()).Reachable s ∧ s.readyQueue = [0, 0]) ∧
    (∃ s t, (schedMachine () ()).Reachable s ∧ 0 ∈ s.readyQueue ∧ s.threads[0]? = some t ∧ t.state = .running) ∧
    ∃ s s' t, (schedMachine () ()).Reachable s ∧ s.yieldTick = some s' ∧
      s.threads[s'.currentIdx]? = some t ∧ t.state = .blocked := by
  refine ⟨⟨_, Machine.reachable_of_run (boot () ()) windowTrace rfl rfl, rfl⟩, ?_, ?_⟩
  · exact ⟨_, _, Machine.reachable_of_run (boot () ()) (windowTrace ++ [.yieldTick]) rfl rfl, mem_cons_self .., rfl,
      rfl⟩
  · exact ⟨_, _, _, Machine.reachable_of_run (boot () ()) (windowTrace ++ [.yieldTick, .markBlocked]) rfl rfl,
      rfl, rfl, rfl⟩

end Ostoo.Task
