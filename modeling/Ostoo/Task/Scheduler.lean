/-
  Ostoo.Task.Scheduler — the thread scheduler (`task/scheduler.rs`), after `init`, on the
  one CPU.

  A thread's saved registers are its context `ctx`: where it goes on when it is next
  dispatched, of whatever type the code that runs on the threads needs. A kernel stack is
  its slot of the stack arena. Stack frames, `user_rsp`, FS_BASE and CR3 are not
  modelled. `none` is a panic: an index out of range, or an overflow.

  What matters to whoever owns the threads (`Thread.core`: who a thread is, where it goes
  on, whether it is dead) is changed by no wake-up and no dispatcher (`yieldTick_core`),
  and the ready queue stays free of the current thread and of every thread that is not
  Ready (`Ok`), so no dead thread runs.
-/

import Mathlib.Data.List.Nodup
import Mathlib.Logic.Function.Basic

namespace Ostoo.Task

open List Option
open Function (update update_of_ne)

def QUANTUM_TICKS : Nat := 10

inductive ThreadState
  | ready | running | blocked | dead
  deriving DecidableEq

/-- Neither Dead nor Blocked. -/
def ThreadState.isRunnable : ThreadState → Bool
  | .ready | .running => true
  | .blocked | .dead => false

inductive SchedulableKind
  | kernel
  | userProcess (pid : Nat)
  deriving DecidableEq

structure Thread (κ : Type) where
  id : Nat
  state : ThreadState
  /-- The saved registers. -/
  ctx : κ
  ticksRemaining : Nat
  kind : SchedulableKind
  /-- The arena slot the thread runs on. -/
  stack : Nat
  /-- Whether the thread itself owns that slot (`_stack`); a process owns its thread's. -/
  ownsStack : Bool
  deriving DecidableEq

structure Scheduler (κ : Type) where
  threads : List (Thread κ)
  currentIdx : Nat
  readyQueue : List Nat
  idleThreadIdx : Nat
  /-- `DONATE_TARGET` -/
  donateTarget : Option Nat
  /-- `NEXT_THREAD_ID` -/
  nextThreadId : Nat

namespace Scheduler

variable {κ : Type}

section

variable (s : Scheduler κ)

/-- The current thread. -/
def current? : Option (Thread κ) := s.threads[s.currentIdx]?

def setState (i : Nat) (st : ThreadState) : Scheduler κ :=
  { s with threads := s.threads.modify i ({ · with state := st }) }

/-- What the current thread does when it is next dispatched. -/
def setCtx (c : κ) : Scheduler κ :=
  { s with threads := s.threads.modify s.currentIdx ({ · with ctx := c }) }

/-- `alloc_thread_slot`: the first Dead slot, or a new one. -/
def allocThreadSlot (t : Thread κ) : Scheduler κ × Nat :=
  match s.threads.findIdx? (·.state = .dead) with
  | some i => ({ s with threads := s.threads.set i t }, i)
  | none => ({ s with threads := s.threads ++ [t] }, s.threads.length)

/-- The end of `spawn_thread`, `spawn_user_thread` and `spawn_clone_thread`: a new Ready
    thread, queued. -/
def spawn (kind : SchedulableKind) (stack : Nat) (ownsStack : Bool) (ctx : κ) : Scheduler κ × Nat :=
  let r := { s with nextThreadId := s.nextThreadId + 1 }.allocThreadSlot
    ⟨s.nextThreadId, .ready, ctx, QUANTUM_TICKS, kind, stack, ownsStack⟩
  ({ r.1 with readyQueue := r.1.readyQueue ++ [r.2] }, r.2)

/-- `is_thread_dead`: a slot that does not exist counts as dead. -/
def isThreadDead (i : Nat) : Bool :=
  match s.threads[i]? with
  | some t => t.state = .dead
  | none => true

/-- `mark_blocked`, on the current thread. -/
def markBlocked : Scheduler κ := s.setState s.currentIdx .blocked

/-- `kill_current_thread` before its yield. -/
def markDead : Scheduler κ := s.setState s.currentIdx .dead

def unblock (i : Nat) : Scheduler κ :=
  match s.threads[i]? with
  | some t =>
    if t.state = .blocked then { s.setState i .ready with readyQueue := s.readyQueue ++ [i] } else s
  | none => s

def setDonateTarget (i : Nat) : Scheduler κ := { s with donateTarget := some i }

/-- The current thread goes to the back of the queue if it is still runnable. -/
def requeueCurrent : Scheduler κ :=
  match s.current? with
  | some t =>
    if t.state.isRunnable then
      { s.setState s.currentIdx .ready with readyQueue := s.readyQueue ++ [s.currentIdx] }
    else s
  | none => s

/-- The front of the ready queue, or the idle thread. -/
def popReady : Scheduler κ × Nat :=
  match s.readyQueue with
  | i :: q => ({ s with readyQueue := q }, i)
  | [] => (s, s.idleThreadIdx)

/-- `yield_tick`'s choice: the donate target if it is Ready, else the front of the queue. -/
def pickNext : Scheduler κ × Nat :=
  match s.donateTarget with
  | some d =>
    let s := { s with donateTarget := none }
    match s.threads[d]? with
    | some t => if t.state = .ready then ({ s with readyQueue := s.readyQueue.erase d }, d) else s.popReady
    | none => s.popReady
  | none => s.popReady

/-- Switch to a thread; its quantum starts again. Going back to the current thread is no
    switch but has the same effect. -/
def dispatch (i : Nat) : Option (Scheduler κ) :=
  if i < s.threads.length then
    some { s with
      threads := s.threads.modify i ({ · with state := .running, ticksRemaining := QUANTUM_TICKS })
      currentIdx := i }
  else none

/-- `yield_tick` -/
def yieldTick : Option (Scheduler κ) :=
  if s.currentIdx < s.threads.length then
    let r := s.requeueCurrent.pickNext
    r.1.dispatch r.2
  else none

/-- `preempt_tick`: a runnable thread with ticks left goes on. -/
def preemptTick : Option (Scheduler κ) :=
  match s.current? with
  | none => none
  | some t =>
    if t.state.isRunnable then
      if t.ticksRemaining = 0 then none
      else
        let s := { s with threads := s.threads.modify s.currentIdx ({ · with ticksRemaining := t.ticksRemaining - 1 }) }
        if 0 < t.ticksRemaining - 1 then some s
        else
          let r := s.requeueCurrent.popReady
          r.1.dispatch r.2
    else
      let r := s.requeueCurrent.popReady
      r.1.dispatch r.2

/-- `preempt_tick`'s switch. -/
def preempt : Option (Scheduler κ) := s.requeueCurrent.popReady.1.dispatch s.requeueCurrent.popReady.2

/-- `preempt_tick`'s count: the ticks the current thread has left. -/
def setTicks (n : Nat) : Scheduler κ :=
  { s with threads := s.threads.modify s.currentIdx ({ · with ticksRemaining := n }) }

end

/-! ## What a thread is, whatever the scheduler does -/

end Scheduler

/-- What only the thread itself and its creator change. -/
structure Core (κ : Type) where
  id : Nat
  ctx : κ
  kind : SchedulableKind
  stack : Nat
  ownsStack : Bool
  dead : Bool

def Thread.core {κ : Type} (t : Thread κ) : Core κ := ⟨t.id, t.ctx, t.kind, t.stack, t.ownsStack, t.state = .dead⟩

namespace Scheduler

variable {κ : Type} {s s' : Scheduler κ} {i : Nat}

/-- The threads, but for their place in the scheduler. -/
def core? (s : Scheduler κ) (i : Nat) : Option (Core κ) := (s.threads[i]?).map Thread.core

variable {f : Thread κ → Thread κ} {t : Thread κ} {c : Core κ} {r : Scheduler κ × Nat} {st : ThreadState}

theorem core?_modify (ht : s.threads[i]? = some t) :
    (fun j => ((s.threads.modify i f)[j]?).map Thread.core) = update s.core? i (some (f t).core) := by
  funext j
  rw [getElem?_modify]
  by_cases hj : j = i
  · subst hj
    rw [Function.update_self, ht]
    simp
  · rw [update_of_ne hj]
    have hj : i ≠ j := Ne.symm hj
    simp [core?, hj]

theorem core?_modify_same (h : ∀ t, s.threads[i]? = some t → (f t).core = t.core) :
    (fun j => ((s.threads.modify i f)[j]?).map Thread.core) = s.core? := by
  cases ht : s.threads[i]? with
  | none =>
    funext j
    by_cases hj : i = j
    · subst hj
      simp [core?, ht]
    · simp [core?, hj]
  | some t =>
    rw [core?_modify ht, h t ht]
    exact Function.update_eq_self_iff.mpr (by simp [core?, ht])

theorem setState_core (h : ∀ t, s.threads[i]? = some t → (t.state = .dead ↔ st = .dead)) :
    (s.setState i st).core? = s.core? := by
  apply core?_modify_same
  intro t ht
  simp only [Thread.core, Core.mk.injEq, true_and]
  exact decide_eq_decide.mpr (h t ht).symm

theorem unblock_cases (s : Scheduler κ) (i : Nat) : s.unblock i = s ∨ ∃ t, s.threads[i]? = some t ∧ t.state = .blocked ∧
    s.unblock i = { s.setState i .ready with readyQueue := s.readyQueue ++ [i] } := by
  unfold unblock
  split
  · rename_i t ht
    split
    · rename_i hb
      exact .inr ⟨t, ht, hb, rfl⟩
    · exact .inl rfl
  · exact .inl rfl

theorem unblock_core : (s.unblock i).core? = s.core? := by
  obtain he | ⟨_, ht, hb, he⟩ := s.unblock_cases i <;> rw [he]
  show (s.setState i .ready).core? = s.core?
  apply setState_core
  intro t' ht'
  cases ht.symm.trans ht'
  simp [hb]

theorem requeueCurrent_cases (s : Scheduler κ) :
    (s.requeueCurrent = s ∧ ∀ t, s.current? = some t → t.state.isRunnable = false) ∨
    ∃ t, s.current? = some t ∧ t.state.isRunnable = true ∧
      s.requeueCurrent = { s.setState s.currentIdx .ready with readyQueue := s.readyQueue ++ [s.currentIdx] } := by
  unfold requeueCurrent
  split
  · rename_i t ht
    split
    · rename_i hr
      exact .inr ⟨t, ht, hr, rfl⟩
    rename_i hr
    refine .inl ⟨rfl, fun u hu => ?_⟩
    cases ht.symm.trans hu
    exact eq_false_of_ne_true hr
  · rename_i hnone
    exact .inl ⟨rfl, fun u hu => nomatch hnone.symm.trans hu⟩

theorem requeueCurrent_core : s.requeueCurrent.core? = s.core? := by
  obtain ⟨he, -⟩ | ⟨t, ht, _, he⟩ := s.requeueCurrent_cases <;> rw [he]
  show (s.setState s.currentIdx .ready).core? = s.core?
  apply setState_core
  intro t' ht'
  cases ht.symm.trans ht'
  cases hs : t.state <;> simp_all [ThreadState.isRunnable]

theorem popReady_rest : s.popReady.1.nextThreadId = s.nextThreadId ∧ s.popReady.1.threads = s.threads := by
  unfold popReady
  split <;> exact ⟨rfl, rfl⟩

theorem pickNext_rest : s.pickNext.1.nextThreadId = s.nextThreadId ∧ s.pickNext.1.threads = s.threads := by
  unfold pickNext
  split
  · dsimp only
    split
    · split
      · exact ⟨rfl, rfl⟩
      · exact popReady_rest
    · exact popReady_rest
  · exact popReady_rest

theorem dispatch_eq (h : s.dispatch i = some s') : s' = { s with
    threads := s.threads.modify i ({ · with state := .running, ticksRemaining := QUANTUM_TICKS }),
    currentIdx := i } := by
  unfold dispatch at h
  split at h
  · exact (some.inj h).symm
  · cases h

theorem dispatch_core (hi : ∀ t, s.threads[i]? = some t → t.state ≠ .dead) (h : s.dispatch i = some s') :
    s'.core? = s.core? := by
  obtain rfl := dispatch_eq h
  apply core?_modify_same
  intro t ht
  simp [Thread.core, hi t ht]

/-! ## The ready queue -/

/-- Queued threads are Ready, each is queued once, and the idle thread can be fallen back on. -/
structure Queue (s : Scheduler κ) : Prop where
  ready : ∀ i ∈ s.readyQueue, ∃ t, s.threads[i]? = some t ∧ t.state = .ready
  nodup : s.readyQueue.Nodup
  idle : ∃ t, s.threads[s.idleThreadIdx]? = some t ∧ t.state.isRunnable = true ∧ t.kind = .kernel

/-- The scheduler between two switches. -/
structure Ok (s : Scheduler κ) : Prop extends Queue s where
  fresh : s.currentIdx ∉ s.readyQueue
  running : ∃ t, s.current? = some t ∧ t.state = .running ∧ 0 < t.ticksRemaining

theorem getElem?_setState {j : Nat} :
    (s.setState i st).threads[j]? = (s.threads[j]?).map fun t => if i = j then { t with state := st } else t := by
  simp only [setState, getElem?_modify]
  rfl

theorem Queue.enqueue (h : Queue s) (ht : s.threads[i]? = some t) (hi : i ∉ s.readyQueue) :
    Queue { s.setState i .ready with readyQueue := s.readyQueue ++ [i] } := by
  have hself : (s.setState i .ready).threads[i]? = some { t with state := .ready } := by
    rw [getElem?_setState, ht]
    simp
  refine ⟨?_, ?_, ?_⟩
  · intro j hj
    show ∃ t, (s.setState i .ready).threads[j]? = some t ∧ t.state = .ready
    by_cases hji : i = j
    · subst hji
      exact ⟨_, hself, rfl⟩
    have hj : j ∈ s.readyQueue := by
      rcases mem_append.mp hj with hj | hj
      · exact hj
      · exact absurd (mem_singleton.mp hj).symm hji
    obtain ⟨u, hu, hr⟩ := h.ready j hj
    refine ⟨u, ?_, hr⟩
    rw [getElem?_setState, hu]
    simp [hji]
  · exact nodup_append.mpr ⟨h.nodup, nodup_singleton i, fun a ha b hb e =>
      hi (mem_singleton.mp hb ▸ e ▸ ha)⟩
  · obtain ⟨_, hu, hr⟩ := h.idle
    show ∃ t, (s.setState i .ready).threads[s.idleThreadIdx]? = some t ∧ t.state.isRunnable = true ∧ t.kind = .kernel
    rw [getElem?_setState, hu]
    by_cases hii : i = s.idleThreadIdx
    · exact ⟨_, rfl, by simp [hii, ThreadState.isRunnable], by simpa [hii] using hr.2⟩
    · exact ⟨_, rfl, by simpa [hii] using hr⟩

theorem Queue.setTicks (h : Queue s) (n : Nat) : Queue (s.setTicks n) := by
  have hkeep : ∀ (j : Nat) (t : Thread κ), s.threads[j]? = some t →
      ∃ u, (s.setTicks n).threads[j]? = some u ∧ u.state = t.state ∧ u.kind = t.kind := by
    intro j t ht
    rw [Scheduler.setTicks, getElem?_modify, ht]
    exact ⟨_, rfl, by split <;> rfl, by split <;> rfl⟩
  refine ⟨fun j hj => ?_, h.nodup, ?_⟩
  · obtain ⟨t, ht, hr⟩ := h.ready j hj
    obtain ⟨u, hu, hs, -⟩ := hkeep j t ht
    exact ⟨u, hu, hs.trans hr⟩
  · obtain ⟨t, ht, hr, hk⟩ := h.idle
    obtain ⟨u, hu, hs, hk'⟩ := hkeep _ t ht
    exact ⟨u, hu, by rw [hs, hr], hk'.trans hk⟩

theorem unblock_queue (h : Queue s) : Queue (s.unblock i) := by
  obtain he | ⟨_, ht, hb, he⟩ := s.unblock_cases i <;> rw [he]
  · exact h
  apply h.enqueue ht
  intro hi
  obtain ⟨_, hu, hr⟩ := h.ready i hi
  cases ht.symm.trans hu
  rw [hb] at hr
  cases hr

theorem unblock_current (hne : ∀ t, s.current? = some t → t.state = .blocked → i ≠ s.currentIdx) :
    (s.currentIdx ∈ (s.unblock i).readyQueue → s.currentIdx ∈ s.readyQueue) ∧ (s.unblock i).current? = s.current? := by
  obtain he | ⟨t, ht, hb, he⟩ := s.unblock_cases i <;> rw [he]
  · exact ⟨id, rfl⟩
  have hi : i ≠ s.currentIdx := by
    intro e
    exact hne t (by rw [current?, ← e, ht]) hb e
  refine ⟨fun hm => ?_, ?_⟩
  · rcases mem_append.mp hm with hm | hm
    · exact hm
    · exact absurd (mem_singleton.mp hm).symm hi
  · show (s.setState i .ready).threads[s.currentIdx]? = s.threads[s.currentIdx]?
    rw [getElem?_setState]
    simp [hi]

theorem unblock_currentIdx : (s.unblock i).currentIdx = s.currentIdx := by
  obtain he | ⟨_, -, -, he⟩ := s.unblock_cases i <;> rw [he]
  rfl

theorem unblock_ok (h : Ok s) : Ok (s.unblock i) := by
  obtain ⟨c, hc, hrun, hticks⟩ := h.running
  obtain ⟨hmem, hcur⟩ := unblock_current (s := s) (i := i) fun t ht hb => by
    rw [hc] at ht
    cases ht
    rw [hb] at hrun
    cases hrun
  refine ⟨unblock_queue h.toQueue, ?_, c, hcur.trans hc, hrun, hticks⟩
  rw [unblock_currentIdx]
  exact fun hm => h.fresh (hmem hm)

theorem requeueCurrent_queue (h : Queue s) (hf : s.currentIdx ∉ s.readyQueue) : Queue s.requeueCurrent := by
  obtain ⟨he, -⟩ | ⟨_, ht, -, he⟩ := s.requeueCurrent_cases <;> rw [he]
  · exact h
  · exact h.enqueue ht hf

/-- What the dispatchers choose: a runnable thread that is not left on the queue. -/
def Chosen (r : Scheduler κ × Nat) : Prop :=
  Queue r.1 ∧ r.2 ∉ r.1.readyQueue ∧ ∃ t, r.1.threads[r.2]? = some t ∧ t.state.isRunnable = true

theorem popReady_chosen (h : Queue s) : Chosen s.popReady := by
  unfold popReady
  split
  · rename_i i _ hq
    have hn := hq ▸ h.nodup
    obtain ⟨t, ht, hr⟩ := h.ready i (by simp [hq])
    refine ⟨⟨fun j hj => h.ready j ?_, (nodup_cons.mp hn).2, h.idle⟩, (nodup_cons.mp hn).1, t, ht, ?_⟩
    · rw [hq]
      exact mem_cons_of_mem _ hj
    · rw [hr]
      rfl
  · rename_i hq
    obtain ⟨t, ht, hr, -⟩ := h.idle
    exact ⟨h, by simp [hq], t, ht, hr⟩

theorem pickNext_chosen (h : Queue s) : Chosen s.pickNext := by
  have hq : Queue { s with donateTarget := none } := ⟨h.ready, h.nodup, h.idle⟩
  unfold pickNext
  split
  · rename_i d _
    dsimp only
    split
    · rename_i t ht
      split
      · rename_i hr
        refine ⟨⟨fun j hj => h.ready j (mem_of_mem_erase hj), h.nodup.erase d, h.idle⟩,
          h.nodup.not_mem_erase, t, ht, ?_⟩
        rw [hr]
        rfl
      · exact popReady_chosen hq
    · exact popReady_chosen hq
  · exact popReady_chosen h

theorem dispatch_ok (h : Chosen r) (hs : r.1.dispatch r.2 = some s') : Ok s' := by
  obtain ⟨hq, hn, t, ht, hr⟩ := h
  obtain rfl := dispatch_eq hs
  refine ⟨⟨?_, hq.nodup, ?_⟩, hn, { t with state := .running, ticksRemaining := QUANTUM_TICKS }, ?_, rfl, ?_⟩
  · intro j hj
    obtain ⟨u, hu, hr⟩ := hq.ready j hj
    have hne : r.2 ≠ j := fun e => hn (e ▸ hj)
    exact ⟨u, by simp [hne, hu], hr⟩
  · obtain ⟨u, hu, hr, hk⟩ := hq.idle
    by_cases hi : r.2 = r.1.idleThreadIdx
    · exact ⟨_, by simp only [getElem?_modify, hu]; rfl, by simp [hi, ThreadState.isRunnable], by simpa [hi] using hk⟩
    · exact ⟨u, by simp [hi, hu], hr, hk⟩
  · simp [current?, ht]
  · show 0 < QUANTUM_TICKS
    decide

theorem Chosen.dispatch_core (h : Chosen r) (hs : r.1.dispatch r.2 = some s') : s'.core? = r.1.core? := by
  obtain ⟨-, -, _, ht, hr⟩ := h
  apply Scheduler.dispatch_core ?_ hs
  intro u hu hd
  rw [ht] at hu
  cases hu
  rw [hd] at hr
  cases hr

theorem yieldTick_ok (h : Queue s) (hf : s.currentIdx ∉ s.readyQueue) (hs : s.yieldTick = some s') : Ok s' := by
  unfold yieldTick at hs
  split at hs
  · exact dispatch_ok (pickNext_chosen (requeueCurrent_queue h hf)) hs
  · cases hs

/-! ## What the scheduler itself does to the threads -/

/-- `preempt_tick` counts one tick off a runnable thread that has more, and else switches. -/
theorem preemptTick_cases (hs : s.preemptTick = some s') : ∃ t, s.current? = some t ∧
    ((t.state.isRunnable = true ∧ 1 < t.ticksRemaining ∧ s' = s.setTicks (t.ticksRemaining - 1)) ∨
      ¬ (t.state.isRunnable = true ∧ 1 < t.ticksRemaining) ∧ ∃ n, (s.setTicks n).preempt = some s') := by
  unfold preemptTick at hs
  split at hs
  · cases hs
  rename_i t ht
  refine ⟨t, ht, ?_⟩
  split at hs
  · rename_i hr
    split at hs
    · cases hs
    split at hs
    · cases hs
      exact .inl ⟨hr, by omega, rfl⟩
    · exact .inr ⟨by omega, _, hs⟩
  · rename_i hr
    have hself : s.setTicks t.ticksRemaining = s := by
      have hsame : s.threads.modify s.currentIdx ({ · with ticksRemaining := t.ticksRemaining }) = s.threads := by
        refine ext_getElem? fun j => ?_
        by_cases hj : s.currentIdx = j
        · simp [← hj, show s.threads[s.currentIdx]? = some t from ht]
        · simp [hj]
      rw [setTicks, hsame]
    exact .inr ⟨fun h => hr h.1, t.ticksRemaining, by rwa [hself]⟩

/-- Threads become Ready or Running, or have other quanta. -/
structure Turns (s s' : Scheduler κ) : Prop where
  next : s'.nextThreadId = s.nextThreadId
  thread (j : Nat) : ∃ f : Thread κ → Thread κ, s'.threads[j]? = (s.threads[j]?).map f ∧
    ∀ t, (f t).ctx = t.ctx ∧ ((f t).state = t.state ∨ (f t).state.isRunnable = true)

theorem Turns.of_rest (h : s'.nextThreadId = s.nextThreadId ∧ s'.threads = s.threads) : Turns s s' :=
  ⟨h.1, fun j => ⟨id, by simp [h.2], fun _ => ⟨rfl, .inl rfl⟩⟩⟩

theorem Turns.trans {s'' : Scheduler κ} (h : Turns s s') (h' : Turns s' s'') : Turns s s'' := by
  refine ⟨h'.next.trans h.next, fun j => ?_⟩
  obtain ⟨f, ht, hf⟩ := h.thread j
  obtain ⟨f', ht', hf'⟩ := h'.thread j
  refine ⟨f' ∘ f, by rw [ht', ht, Option.map_map], fun t => ⟨(hf' _).1.trans (hf t).1, ?_⟩⟩
  rcases (hf' (f t)).2 with he | he
  · exact he.symm ▸ (hf t).2
  · exact .inr he

theorem Turns.of_modify (h : s'.threads = s.threads.modify i f) (hnext : s'.nextThreadId = s.nextThreadId)
    (hf : ∀ t, (f t).ctx = t.ctx ∧ ((f t).state = t.state ∨ (f t).state.isRunnable = true)) : Turns s s' := by
  refine ⟨hnext, fun j => ?_⟩
  rw [h, getElem?_modify]
  by_cases hj : i = j
  · exact ⟨f, by simp [hj], hf⟩
  · exact ⟨id, by simp [hj], fun _ => ⟨rfl, .inl rfl⟩⟩

theorem unblock_turns (i : Nat) : Turns s (s.unblock i) := by
  obtain he | ⟨_, -, -, he⟩ := s.unblock_cases i <;> rw [he]
  · exact .of_rest ⟨rfl, rfl⟩
  · exact .of_modify rfl rfl fun _ => ⟨rfl, .inr rfl⟩

theorem requeueCurrent_turns : Turns s s.requeueCurrent := by
  obtain ⟨he, -⟩ | ⟨_, -, -, he⟩ := s.requeueCurrent_cases <;> rw [he]
  · exact .of_rest ⟨rfl, rfl⟩
  · exact .of_modify rfl rfl fun _ => ⟨rfl, .inr rfl⟩

theorem dispatch_turns (h : s.dispatch i = some s') : Turns s s' := by
  obtain rfl := dispatch_eq h
  exact .of_modify rfl rfl fun _ => ⟨rfl, .inr rfl⟩

theorem yieldTick_switch (hs : s.yieldTick = some s') :
    s.requeueCurrent.pickNext.1.dispatch s.requeueCurrent.pickNext.2 = some s' := by
  unfold yieldTick at hs
  split at hs
  · exact hs
  · cases hs

theorem yieldTick_turns (hs : s.yieldTick = some s') : Turns s s' :=
  (requeueCurrent_turns.trans (.of_rest pickNext_rest)).trans (dispatch_turns (yieldTick_switch hs))

theorem preemptTick_turns (hs : s.preemptTick = some s') : Turns s s' := by
  have hcount : ∀ n, Turns s (s.setTicks n) := fun n => .of_modify rfl rfl fun _ => ⟨rfl, .inl rfl⟩
  obtain ⟨-, -, ⟨-, -, rfl⟩ | ⟨-, n, hs⟩⟩ := preemptTick_cases hs
  · exact hcount _
  · exact ((hcount n).trans (requeueCurrent_turns.trans (.of_rest popReady_rest))).trans (dispatch_turns hs)

theorem core?_congr {s₁ s₂ : Scheduler κ} (h : s₁.threads = s₂.threads) : s₁.core? = s₂.core? := by
  funext i
  simp [core?, h]

theorem yieldTick_core (h : Queue s) (hf : s.currentIdx ∉ s.readyQueue) (hs : s.yieldTick = some s') :
    s'.core? = s.core? := by
  rw [(pickNext_chosen (requeueCurrent_queue h hf)).dispatch_core (yieldTick_switch hs), core?_congr pickNext_rest.2,
    requeueCurrent_core]

variable (h : Ok s)
include h

theorem Ok.modify_queue (hk : ∀ t, (f t).kind = t.kind)
    (hr : s.currentIdx = s.idleThreadIdx → ∀ t, t.state.isRunnable = true → (f t).state.isRunnable = true) :
    Queue { s with threads := s.threads.modify s.currentIdx f } := by
  refine ⟨?_, h.nodup, ?_⟩
  · intro j hj
    obtain ⟨u, hu, hru⟩ := h.ready j hj
    have hne : s.currentIdx ≠ j := fun e => h.fresh (e ▸ hj)
    exact ⟨u, by simp [hne, hu], hru⟩
  · obtain ⟨u, hu, hru, hku⟩ := h.idle
    by_cases hi : s.currentIdx = s.idleThreadIdx
    · exact ⟨f u, by simp [hi, hu], hr hi u hru, by rw [hk]; exact hku⟩
    · exact ⟨u, by simp [hi, hu], hru, hku⟩

theorem preemptTick_ok (hs : s.preemptTick = some s') : Ok s' := by
  obtain ⟨t, ht, ⟨-, hticks, rfl⟩ | ⟨-, n, hs⟩⟩ := preemptTick_cases hs
  · obtain ⟨_, hc, hrun, -⟩ := h.running
    cases hc.symm.trans ht
    rw [current?] at hc
    exact ⟨h.toQueue.setTicks _, h.fresh, { t with ticksRemaining := t.ticksRemaining - 1 }, by simp [setTicks,
      current?, hc], hrun, Nat.sub_pos_of_lt hticks⟩
  · exact dispatch_ok (popReady_chosen (requeueCurrent_queue (h.toQueue.setTicks n) h.fresh)) hs

theorem preemptTick_core (hs : s.preemptTick = some s') : s'.core? = s.core? := by
  have hcore : ∀ n, (s.setTicks n).core? = s.core? := fun n => core?_modify_same fun _ _ => rfl
  obtain ⟨-, -, ⟨-, -, rfl⟩ | ⟨-, n, hs⟩⟩ := preemptTick_cases hs
  · exact hcore _
  · rw [(popReady_chosen (requeueCurrent_queue (h.toQueue.setTicks n) h.fresh)).dispatch_core hs,
      core?_congr popReady_rest.2, requeueCurrent_core, hcore]

/-! ## The current thread's own steps -/

theorem Ok.current_core : ∃ c, s.core? s.currentIdx = some c ∧ c.dead = false := by
  obtain ⟨t, ht, hr, -⟩ := h.running
  simp only [current?] at ht
  exact ⟨t.core, by simp [core?, ht], by simp [Thread.core, hr]⟩

variable (hc : s.core? s.currentIdx = some c)
include hc

variable (hk : c.kind ≠ .kernel)
include hk

theorem Ok.current_ne_idle : s.currentIdx ≠ s.idleThreadIdx := by
  intro e
  obtain ⟨_, ht, -, hkt⟩ := h.idle
  rw [e, core?, ht] at hc
  cases hc
  exact hk hkt

omit hk in
omit hc in
theorem setCtx_ok (x : κ) : Ok (s.setCtx x) := by
  obtain ⟨t, ht, hr, hticks⟩ := h.running
  simp only [current?] at ht
  exact ⟨h.modify_queue (fun _ => rfl) (fun _ _ hr => hr), h.fresh, { t with ctx := x }, by simp [setCtx, current?, ht],
    hr, hticks⟩

omit h in
omit hk in
theorem setCtx_core (x : κ) : (s.setCtx x).core? = update s.core? s.currentIdx (some { c with ctx := x }) := by
  obtain ⟨_, ht, rfl⟩ := map_eq_some_iff.mp hc
  exact core?_modify ht

theorem Ok.setState_queue (st : ThreadState) : Queue (s.setState s.currentIdx st) :=
  h.modify_queue (fun _ => rfl) fun e => absurd e (h.current_ne_idle hc hk)

theorem block_ok (hs : s.markBlocked.yieldTick = some s') : Ok s' :=
  yieldTick_ok (h.setState_queue hc hk .blocked) h.fresh hs

theorem block_core (hs : s.markBlocked.yieldTick = some s') : s'.core? = s.core? := by
  rw [yieldTick_core (h.setState_queue hc hk .blocked) h.fresh hs]
  apply setState_core
  intro t ht
  obtain ⟨_, hu, hr, -⟩ := h.running
  rw [current?, ht] at hu
  cases hu
  simp [hr]

theorem kill_ok (hs : s.markDead.yieldTick = some s') : Ok s' :=
  yieldTick_ok (h.setState_queue hc hk .dead) h.fresh hs

theorem kill_core (hs : s.markDead.yieldTick = some s') :
    s'.core? = update s.core? s.currentIdx (some { c with dead := true }) := by
  rw [yieldTick_core (h.setState_queue hc hk .dead) h.fresh hs]
  obtain ⟨_, ht, rfl⟩ := map_eq_some_iff.mp hc
  exact core?_modify ht

omit h

omit hk

omit hc

/-! ## New threads -/

variable {kind : SchedulableKind} {stack : Nat} {owns : Bool} {x : κ}

theorem allocThreadSlot_slot (t : Thread κ) :
    (∀ u, s.threads[(s.allocThreadSlot t).2]? = some u → u.state = .dead) ∧
    ∀ j, (s.allocThreadSlot t).1.threads[j]? = if j = (s.allocThreadSlot t).2 then some t else s.threads[j]? := by
  unfold allocThreadSlot
  split
  · rename_i i hi
    obtain ⟨hlt, hd, -⟩ := findIdx?_eq_some_iff_getElem.mp hi
    refine ⟨?_, ?_⟩
    · intro u hu
      rw [getElem?_eq_getElem hlt] at hu
      cases hu
      simpa using hd
    · intro j
      rw [getElem?_set]
      by_cases hj : i = j
      · subst hj
        simp [hlt]
      · simp [hj, Ne.symm hj]
  · refine ⟨by simp, ?_⟩
    intro j
    by_cases hj : j = s.threads.length
    · simp [hj]
    rw [getElem?_append]
    split
    · rfl
    · rw [getElem?_eq_none (by simp; omega), getElem?_eq_none (by omega)]

theorem spawn_slot {u : Thread κ} (hu : s.threads[(s.spawn kind stack owns x).2]? = some u) : u.state = .dead :=
  (allocThreadSlot_slot (s := { s with nextThreadId := s.nextThreadId + 1 }) _).1 u hu

theorem spawn_threads (j : Nat) : (s.spawn kind stack owns x).1.threads[j]? =
    if j = (s.spawn kind stack owns x).2 then some ⟨s.nextThreadId, .ready, x, QUANTUM_TICKS, kind, stack, owns⟩
    else s.threads[j]? :=
  (allocThreadSlot_slot (s := { s with nextThreadId := s.nextThreadId + 1 }) _).2 j

theorem spawn_core : (s.spawn kind stack owns x).1.core? =
    update s.core? (s.spawn kind stack owns x).2 (some ⟨s.nextThreadId, x, kind, stack, owns, false⟩) := by
  funext j
  rw [core?, spawn_threads]
  by_cases hj : j = (s.spawn kind stack owns x).2
  · subst hj
    rw [Function.update_self]
    simp [Thread.core]
  · rw [update_of_ne hj]
    simp [hj, core?]

theorem spawn_rest (s : Scheduler κ) (kind : SchedulableKind) (stack : Nat) (owns : Bool) (x : κ) :
    (s.spawn kind stack owns x).1.readyQueue = s.readyQueue ++ [(s.spawn kind stack owns x).2] ∧
    (s.spawn kind stack owns x).1.currentIdx = s.currentIdx ∧
    (s.spawn kind stack owns x).1.idleThreadIdx = s.idleThreadIdx ∧
    (s.spawn kind stack owns x).1.nextThreadId = s.nextThreadId + 1 := by
  unfold spawn allocThreadSlot
  split <;> exact ⟨rfl, rfl, rfl, rfl⟩

theorem spawn_slot_core (hc : s.core? (s.spawn kind stack owns x).2 = some c) : c.dead = true := by
  obtain ⟨_, ht, rfl⟩ := map_eq_some_iff.mp hc
  simp [Thread.core, spawn_slot ht]

theorem spawn_ne_current (h : Ok s) : (s.spawn kind stack owns x).2 ≠ s.currentIdx := by
  intro e
  obtain ⟨_, ht, hr, -⟩ := h.running
  rw [current?, ← e] at ht
  rw [spawn_slot ht] at hr
  cases hr

theorem isThreadDead_core (h : s.isThreadDead i = true) (hc : s.core? i = some c) : c.dead = true := by
  obtain ⟨_, ht, rfl⟩ := map_eq_some_iff.mp hc
  simpa [isThreadDead, ht, Thread.core] using h

theorem spawn_ok (h : Ok s) : Ok (s.spawn kind stack owns x).1 := by
  obtain ⟨hq, hc, hi, -⟩ := spawn_rest s kind stack owns x
  -- the slot was free, so it is no thread's that the scheduler still runs
  have hslot : ∀ (j : Nat) (t : Thread κ), s.threads[j]? = some t → t.state ≠ .dead →
      j ≠ (s.spawn kind stack owns x).2 := by
    intro j t ht hd e
    rw [e] at ht
    exact hd (spawn_slot ht)
  have hkeep : ∀ (j : Nat) (t : Thread κ), s.threads[j]? = some t → t.state ≠ .dead →
      (s.spawn kind stack owns x).1.threads[j]? = some t := by
    intro j t ht hd
    rw [spawn_threads, if_neg (hslot j t ht hd), ht]
  have hready : ∀ j ∈ s.readyQueue, ∃ t, s.threads[j]? = some t ∧ t.state = .ready := h.ready
  refine ⟨⟨?_, ?_, ?_⟩, ?_, ?_⟩
  · intro j hj
    rw [hq, mem_append, mem_singleton] at hj
    rcases hj with hj | rfl
    · obtain ⟨t, ht, hr⟩ := hready j hj
      exact ⟨t, hkeep j t ht (by simp [hr]), hr⟩
    · exact ⟨_, by rw [spawn_threads, if_pos rfl], rfl⟩
  · rw [hq]
    refine nodup_append.mpr ⟨h.nodup, nodup_singleton _, fun a ha b hb e => ?_⟩
    obtain ⟨t, ht, hr⟩ := hready a ha
    exact hslot a t ht (by simp [hr]) (e.trans (mem_singleton.mp hb))
  · obtain ⟨t, ht, hr, hk⟩ := h.idle
    rw [hi]
    refine ⟨t, hkeep _ t ht ?_, hr, hk⟩
    intro hd
    rw [hd] at hr
    cases hr
  · obtain ⟨t, ht, hr, -⟩ := h.running
    rw [hq, hc, mem_append, mem_singleton, not_or]
    exact ⟨h.fresh, hslot _ t ht (by simp [hr])⟩
  · obtain ⟨t, ht, hr, hticks⟩ := h.running
    rw [current?, hc]
    exact ⟨t, hkeep _ t ht (by simp [hr]), hr, hticks⟩

/-! ## Where threads go on -/

/-- Where thread `i` goes on, in whatever state it is. -/
def ctx? (s : Scheduler κ) (i : Nat) : Option κ := (s.threads[i]?).map (·.ctx)

theorem Turns.ctx? (h : Turns s s') : s'.ctx? = s.ctx? := by
  funext j
  obtain ⟨f, ht, hf⟩ := h.thread j
  rw [Scheduler.ctx?, Scheduler.ctx?, ht, Option.map_map, show (·.ctx) ∘ f = (·.ctx) from funext fun t => (hf t).1]

theorem setState_ctx? (i : Nat) (st : ThreadState) : (s.setState i st).ctx? = s.ctx? := by
  funext j
  rw [ctx?, ctx?, getElem?_setState, Option.map_map]
  congr 1
  funext t
  split <;> rfl

theorem ctx?_congr (h : s'.threads = s.threads) : s'.ctx? = s.ctx? := by
  unfold ctx?
  rw [h]

theorem setCtx_ctx? (ht : s.current? = some t) (x : κ) : (s.setCtx x).ctx? = update s.ctx? s.currentIdx (some x) := by
  funext j
  rw [current?] at ht
  by_cases hj : j = s.currentIdx
  · subst hj
    simp [ctx?, setCtx, ht]
  · rw [update_of_ne hj]
    simp [ctx?, setCtx, Ne.symm hj]

theorem spawn_ctx? : (s.spawn kind stack owns x).1.ctx? = update s.ctx? (s.spawn kind stack owns x).2 (some x) := by
  funext j
  rw [ctx?, spawn_threads]
  by_cases hj : j = (s.spawn kind stack owns x).2
  · subst hj
    simp
  · rw [update_of_ne hj]
    simp [hj, ctx?]

end Scheduler

end Ostoo.Task
