/-
  Ostoo.CompletionPort.IoWait — one thread in `sys_io_wait` without a timeout
  (`io_port.rs`), beside any number of posts, at the granularity of the port's lock.

  The waiting thread is thread `tid` of the scheduler. Holding the lock it looks at the
  queue, and either drains it and returns, or fills the waiter slot and marks itself
  Blocked (`check`). It then yields, and looks again when it is next dispatched. Everything
  else is done by other threads and interrupt handlers at any time, also in the window
  before the yield: they post, unblock any thread, block, exit, spawn, and the timer ticks.
  The call may start on a port whose queue and waiter slot are left from earlier calls.

  While the thread is Blocked the slot names it and fewer than `m` completions are queued,
  so the post that brings the `m`-th wakes it (`io_wait_wakes`).
-/

import Ostoo.Lib.Machine
import Ostoo.CompletionPort.Port

namespace Ostoo.CompletionPort.IoWait

open Ostoo.Lib Ostoo.Task Ostoo.Task.Scheduler List

variable {C κ : Type}

/-- Where the call is. -/
inductive Phase (C : Type)
  /-- About to take the lock: at the head of the loop, or on its way back there. -/
  | checking
  /-- In `wait_while`, marked Blocked under the lock, before its yield. -/
  | parking
  | returned (drained : List C)

def Phase.drained : Phase C → List C
  | .returned l => l
  | _ => []

structure St (C κ : Type) where
  port : Port C
  sched : Scheduler κ
  phase : Phase C
  /-- The completions queued at the call and those the port has taken in since, in order. -/
  log : List C

inductive Ev (C κ : Type)
  /-- `post`, by anyone. -/
  | post (c : C)
  | others (e : SchedEv κ)
  /-- The waiting thread takes the lock. -/
  | check
  /-- `yield_now` at the end of `wait_while`. -/
  | yield

section Step

variable (tid max min : Nat)

def post (s : St C κ) (c : C) : St C κ :=
  let r := s.port.post c
  { s with
    port := r.1
    sched := unblockWoken s.sched r.2
    log := if s.port.queue.length < s.port.maxQueued then s.log ++ [c] else s.log }

/-- The body of the loop up to the release of the lock; `min` is already at most `max`. -/
def check (s : St C κ) : St C κ :=
  if Nat.min min max ≤ s.port.pending then
    let r := s.port.drain max
    { s with port := r.2, phase := .returned r.1 }
  else { s with port := s.port.setWaiter tid, sched := s.sched.markBlocked, phase := .parking }

def step (s : St C κ) : Ev C κ → Option (St C κ)
  | .post c => some (post s c)
  | .others e => (othersStep tid s.sched e).map fun sched => { s with sched }
  | .check =>
    match s.phase with
    | .checking => if s.sched.currentIdx = tid then some (check tid max min s) else none
    | _ => none
  | .yield =>
    match s.phase with
    | .parking =>
      if s.sched.currentIdx = tid then s.sched.yieldTick.map fun sched => { s with sched, phase := .checking } else none
    | _ => none

/-- The thread runs and calls `io_wait`. -/
def Start (s : St C κ) : Prop :=
  s.phase = .checking ∧ s.log = s.port.queue ∧ s.port.maxQueued = DEFAULT_MAX_QUEUED ∧ s.sched.currentIdx = tid ∧
    ∃ t, s.sched.current? = some t ∧ t.state = .running

def machine : Machine (St C κ) (Ev C κ) := ⟨Start tid, step tid max min⟩

end Step

/-! ## The invariant -/

variable {tid max min : Nat} {s s' : St C κ}

structure Inv (tid max min : Nat) (s : St C κ) : Prop where
  alive : s.sched.Alive tid
  /-- Asleep means registered, with too little to return. -/
  asleep : s.sched.Asleep tid → s.port.waiter = some tid ∧ s.port.queue.length < Nat.min min max
  bound : s.port.maxQueued = DEFAULT_MAX_QUEUED
  log : s.phase.drained ++ s.port.queue = s.log
  drained : ∀ l, s.phase = .returned l → Nat.min min max ≤ l.length ∧ l.length ≤ max

theorem start_inv (h : Start tid s) : Inv tid max min s := by
  obtain ⟨hphase, hlog, hbound, hcur, t, ht, hrun⟩ := h
  rw [current?, hcur] at ht
  refine ⟨⟨t, ht, by simp [hrun]⟩, ?_, hbound, by simp [hphase, Phase.drained, hlog], by simp [hphase]⟩
  intro hs
  obtain ⟨_, hu, hb⟩ := hs
  rw [ht] at hu
  cases hu
  rw [hrun] at hb
  cases hb

variable (h : Inv tid max min s)
include h

theorem post_not_asleep (c : C) : ¬ (post s c).sched.Asleep tid := by
  intro hs
  have hasleep : s.sched.Asleep tid := unblockWoken_stirs.asleep h.alive hs
  have hw : (s.port.push c).waiter = some tid := by rw [Port.push_waiter, (h.asleep hasleep).1]
  simp only [post, Port.post, Port.wakeWaiter, hw, unblockWoken] at hs
  exact (unblock_wakes hasleep).1 hs

theorem post_inv (c : C) : Inv tid max min (post s c) := by
  refine ⟨unblockWoken_stirs.alive h.alive, fun hs => absurd hs (post_not_asleep h c), ?_, ?_, h.drained⟩
  · show (s.port.push c).maxQueued = _
    rw [Port.push_maxQueued, h.bound]
  · show s.phase.drained ++ (s.port.push c).queue =
      if s.port.queue.length < s.port.maxQueued then s.log ++ [c] else s.log
    unfold Port.push
    split
    · rw [← h.log, append_assoc]
    · exact h.log

theorem Inv.stirs {sched : Scheduler κ} (hs : Stirs s.sched sched tid) : Inv tid max min { s with sched } :=
  ⟨hs.alive h.alive, fun ha => h.asleep (hs.asleep h.alive ha), h.bound, h.log, h.drained⟩

theorem check_inv (hphase : s.phase = .checking) (hcur : s.sched.currentIdx = tid) :
    Inv tid max min (check tid max min s) := by
  have hlog : s.port.queue = s.log := by
    have := h.log
    rwa [hphase] at this
  unfold check
  split
  · rename_i hge
    simp only [Port.pending] at hge
    refine ⟨h.alive, fun hs => ?_, h.bound, ?_, ?_⟩
    · exact absurd (h.asleep hs).2 (by omega)
    · show s.port.queue.take max ++ s.port.queue.drop max = s.log
      rw [take_append_drop, hlog]
    · intro l hl
      cases hl
      show Nat.min min max ≤ (s.port.queue.take max).length ∧ (s.port.queue.take max).length ≤ max
      rw [length_take]
      have : Nat.min min max ≤ max := Nat.min_le_right min max
      omega
  · rename_i hlt
    refine ⟨?_, fun _ => ⟨rfl, Nat.lt_of_not_le hlt⟩, h.bound, ?_, ?_⟩
    · obtain ⟨t, ht, -⟩ := h.alive
      refine ⟨{ t with state := .blocked }, ?_, by simp⟩
      show (s.sched.setState s.sched.currentIdx .blocked).threads[tid]? = _
      rw [getElem?_setState, ht, hcur]
      simp
    · show ([] : List C) ++ s.port.queue = s.log
      exact hlog
    · intro l hl
      cases hl

theorem step_inv {e : Ev C κ} (hs : step tid max min s e = some s') : Inv tid max min s' := by
  cases e with
  | post c =>
    cases hs
    exact post_inv h c
  | others e =>
    obtain ⟨sched, he, rfl⟩ := of_map hs
    exact h.stirs (othersStep_stirs h.alive he)
  | check =>
    simp only [step] at hs
    split at hs
    · rename_i hphase
      split at hs
      · rename_i hcur
        cases hs
        exact check_inv h hphase hcur
      · cases hs
    · cases hs
  | yield =>
    simp only [step] at hs
    split at hs
    · rename_i hphase
      split at hs
      · obtain ⟨_, he, rfl⟩ := of_map hs
        have hi := h.stirs (yieldTick_turns he).stirs
        have hlog := h.log
        rw [hphase] at hlog
        exact ⟨hi.alive, hi.asleep, hi.bound, hlog, nofun⟩
      · cases hs
    · cases hs

omit h

theorem reach_inv (h : (machine tid max min).Reachable s) : Inv tid max min s :=
  Machine.Reachable.inv (I := Inv tid max min) (fun _ h0 => start_inv h0) (fun _ _ _ hi hs => step_inv hi hs) h

/-! ## No lost wake-up -/

theorem io_wait_wakes (tid max min : Nat) (hm : Nat.min min max ≤ DEFAULT_MAX_QUEUED) (s : St C κ)
    (h : (machine tid max min).Reachable s) :
    (s.sched.Asleep tid → s.port.waiter = some tid ∧ s.port.pending < Nat.min min max) ∧
    -- every post is queued then and wakes the thread, so also the one that brings the m-th
    (s.sched.Asleep tid → ∀ c, (post s c).port.queue = s.port.queue ++ [c] ∧ (s.port.post c).2 = some tid ∧
      tid ∈ (post s c).sched.readyQueue ∧ ∃ t, (post s c).sched.threads[tid]? = some t ∧ t.state = .ready) ∧
    -- once there is enough, the next look at the queue is the last
    (s.phase = .checking → s.sched.currentIdx = tid → Nat.min min max ≤ s.port.pending →
      ∃ s', step tid max min s .check = some s' ∧ s'.phase = .returned (s.port.queue.take max)) ∧
    ∀ l, s.phase = .returned l → Nat.min min max ≤ l.length ∧ l.length ≤ max ∧ l ++ s.port.queue = s.log := by
  have hi := reach_inv h
  refine ⟨hi.asleep, fun hs c => ?_, fun hphase hcur hge => ?_, fun l hl => ?_⟩
  · obtain ⟨hw, _⟩ := hi.asleep hs
    have hroom : s.port.queue.length < s.port.maxQueued := by
      rw [hi.bound]
      omega
    have hwoken : (s.port.post c).2 = some tid := by
      show (s.port.push c).waiter = some tid
      rw [Port.push_waiter, hw]
    refine ⟨?_, hwoken, ?_⟩
    · show (s.port.push c).queue = _
      simp [Port.push, hroom]
    · have hsched : (post s c).sched = s.sched.unblock tid := by
        simp only [post, hwoken, unblockWoken]
      rw [hsched]
      exact (unblock_wakes hs).2
  · refine ⟨check tid max min s, ?_, ?_⟩
    · simp [step, hphase, hcur]
    · simp [check, hge, Port.drain]
  · obtain ⟨h1, h2⟩ := hi.drained l hl
    have hlog := hi.log
    rw [hl] at hlog
    exact ⟨h1, h2, hlog⟩

/-- The boot thread calls `io_wait` on a new port. -/
def idlePort : St Nat Unit := ⟨.new, .boot () (), .checking, []⟩

/-- It finds the port empty, a post comes before its yield, and it returns what was posted. -/
theorem io_wait_wakes_window :
    (∃ s : St Nat Unit, (machine 0 2 1).Reachable s ∧ s.sched.Asleep 0 ∧ s.port.waiter = some 0 ∧
      s.port.pending < Nat.min 1 2) ∧
    ∃ s : St Nat Unit, (machine 0 2 1).Reachable s ∧ s.phase = .returned [7] ∧ Nat.min 1 2 ≤ [7].length ∧
      [7] ++ s.port.queue = s.log := by
  have h0 : Start 0 idlePort := ⟨rfl, rfl, rfl, rfl, _, rfl, rfl⟩
  constructor
  · obtain ⟨s, hr, hs⟩ : ∃ s, (machine 0 2 1).run idlePort [.check] = some s ∧ s.sched.Asleep 0 := ⟨_, rfl, _, rfl, rfl⟩
    have h := Machine.reachable_of_run idlePort _ h0 hr
    obtain ⟨hw, hlt⟩ := (io_wait_wakes 0 2 1 (by decide) s h).1 hs
    exact ⟨s, h, hs, hw, hlt⟩
  · obtain ⟨s, hr, hs⟩ : ∃ s, (machine 0 2 1).run idlePort [.check, .post 7, .yield, .check] = some s ∧
        s.phase = .returned [7] := ⟨_, rfl, rfl⟩
    have h := Machine.reachable_of_run idlePort _ h0 hr
    obtain ⟨hge, -, hlog⟩ := (io_wait_wakes 0 2 1 (by decide) s h).2.2.2 [7] hs
    exact ⟨s, h, hs, hge, hlog⟩

end Ostoo.CompletionPort.IoWait
