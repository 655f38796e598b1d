/-
  Ostoo.Task.Runnable — no thread that could run is forgotten by the scheduler.

  Here nothing is assumed about who calls what when: any of the scheduler's operations is
  made at any time (`SchedEv.apply`), so a wake-up may hit the current thread, a thread
  that marked itself may be marked again, and an index may stand on the queue twice or
  name a thread that is Blocked. All the same a dispatcher first puts the current thread
  back (`Kept.requeueCurrent`: from there on nobody is Running and every Ready thread is
  queued), then takes one thread out and makes only that one Running (`Rested.dispatch`).

  The idle thread is the exception: `init` takes it off the queue and leaves it Ready
  (`the_idle_thread_waits_off_the_queue`). Once it has run it is queued like every other
  thread (`no_runnable_thread_lost`, `the_idle_thread_takes_its_turn`). It stays a fallback
  in the runs in which no tick ends its turn, and nobody donates to it, while another thread
  is Ready (`idle_thread_is_a_fallback`).
-/

import Ostoo.Task.Sleeping

namespace Ostoo.Task

open Ostoo.Lib List

variable {κ : Type}

namespace Scheduler

/-- `scheduler::init`: the boot thread, and the idle thread, spawned and taken off the queue. -/
def init (main idle : κ) : Option (Scheduler κ) :=
  let s : Scheduler κ := ⟨[⟨0, .running, main, QUANTUM_TICKS, .kernel, 0, false⟩], 0, [], 0, none, 1⟩
  let s := (s.spawn .kernel 1 true idle).1
  match s.readyQueue.getLast? with
  | some i => some (setState { s with readyQueue := s.readyQueue.dropLast, idleThreadIdx := i } i .ready)
  -- "idle thread should be on the ready queue"
  | none => none

theorem init_eq_boot (main idle : κ) : init main idle = some (boot main idle) := rfl

end Scheduler

/-- An operation of the scheduler, whoever calls it. -/
def SchedEv.apply (s : Scheduler κ) : SchedEv κ → Option (Scheduler κ)
  | .spawn kind stack owns ctx => some (s.spawn kind stack owns ctx).1
  | .markBlocked => some s.markBlocked
  | .markDead => some s.markDead
  | .setDonateTarget i => some (s.setDonateTarget i)
  | .unblock i => some (s.unblock i)
  | .yieldTick => s.yieldTick
  | .preemptTick => s.preemptTick

def anyCaller (main idle : κ) : Machine (Scheduler κ) (SchedEv κ) where
  start s := Scheduler.init main idle = some s
  step := SchedEv.apply

namespace Scheduler

variable {s s' : Scheduler κ} {k i : Nat} {E : Nat → Prop}

/-- Between the requeue and the dispatch: nobody runs, and every Ready thread but those in `E`
    is queued. The idle thread is `k`. -/
structure Rested (k : Nat) (E : Nat → Prop) (s : Scheduler κ) : Prop where
  ready : ∀ (j : Nat) (t : Thread κ), s.threads[j]? = some t → t.state = .ready → j ∈ s.readyQueue ∨ E j
  still : ∀ (j : Nat) (t : Thread κ), s.threads[j]? = some t → t.state ≠ .running
  queue : ∀ j ∈ s.readyQueue, j < s.threads.length
  idle : s.idleThreadIdx = k ∧ k < s.threads.length

/-- At any other time there is a current thread, and only it may be Running, or Ready without
    being queued. -/
structure Kept (k : Nat) (E : Nat → Prop) (s : Scheduler κ) : Prop where
  current : ∃ t, s.current? = some t
  ready : ∀ (j : Nat) (t : Thread κ), s.threads[j]? = some t → t.state = .ready → j ≠ s.currentIdx →
    j ∈ s.readyQueue ∨ E j
  running : ∀ (j : Nat) (t : Thread κ), s.threads[j]? = some t → t.state = .running → j = s.currentIdx
  queue : ∀ j ∈ s.readyQueue, j < s.threads.length
  idle : s.idleThreadIdx = k ∧ k < s.threads.length

/-- The current thread has ticks left. -/
def HasTicks (s : Scheduler κ) : Prop := ∃ t, s.current? = some t ∧ 0 < t.ticksRemaining

theorem quantum_pos : 0 < QUANTUM_TICKS := by decide

theorem length_setState {st : ThreadState} : (s.setState i st).threads.length = s.threads.length := by
  simp [setState]

theorem Kept.lt (h : Kept k E s) : s.currentIdx < s.threads.length := by
  obtain ⟨_, ht⟩ := h.current
  exact (List.getElem?_eq_some_iff.mp ht).1

/-! ## A switch -/

theorem Kept.requeueCurrent (h : Kept k E s) : Rested k E s.requeueCurrent := by
  obtain ⟨he, hcur⟩ | ⟨-, -, -, he⟩ := s.requeueCurrent_cases <;> rw [he]
  · -- in its window, the current thread is neither Ready nor Running
    refine ⟨?_, ?_, h.queue, h.idle⟩
    · intro j t ht hst
      refine h.ready j t ht hst fun hj => ?_
      have := hcur t (by rw [current?, ← hj, ht])
      rw [hst] at this
      cases this
    · intro j t ht hst
      have := hcur t (by rw [current?, ← h.running j t ht hst, ht])
      rw [hst] at this
      cases this
  · refine ⟨?_, ?_, ?_, by simpa [setState] using h.idle⟩
    · intro j t ht hst
      by_cases hj : s.currentIdx = j
      · exact .inl (mem_append_right _ (mem_singleton.mpr hj.symm))
      rw [getElem?_setState] at ht
      simp only [hj, if_false, Option.map_id'] at ht
      exact (h.ready j t ht hst (Ne.symm hj)).imp_left (mem_append_left _)
    · intro j t ht hst
      rw [getElem?_setState] at ht
      obtain ⟨u, hu, rfl⟩ := of_map ht
      by_cases hj : s.currentIdx = j
      · simp [hj] at hst
      · simp only [hj, if_false] at hst
        exact hj (h.running j u hu hst).symm
    · intro j hj
      show j < (s.setState s.currentIdx .ready).threads.length
      rw [length_setState]
      rcases mem_append.mp hj with hj | hj
      · exact h.queue j hj
      · exact mem_singleton.mp hj ▸ h.lt

theorem Rested.popReady (h : Rested k E s) :
    Rested k (fun j => E j ∨ j = s.popReady.2) s.popReady.1 ∧ s.popReady.2 < s.popReady.1.threads.length := by
  unfold Scheduler.popReady
  split
  · rename_i i _ hq
    refine ⟨⟨?_, h.still, fun j hj => h.queue j (hq ▸ mem_cons_of_mem _ hj), h.idle⟩, h.queue i (hq ▸ mem_cons_self ..)⟩
    intro j t ht hst
    rcases h.ready j t ht hst with hj | hj
    · rw [hq, mem_cons] at hj
      exact hj.elim (fun e => .inr (.inr e)) .inl
    · exact .inr (.inl hj)
  · refine ⟨⟨?_, h.still, h.queue, h.idle⟩, ?_⟩
    · intro j t ht hst
      exact (h.ready j t ht hst).imp_right .inl
    · rw [h.idle.1]
      exact h.idle.2

theorem Rested.pickNext (h : Rested k E s) :
    Rested k (fun j => E j ∨ j = s.pickNext.2) s.pickNext.1 ∧ s.pickNext.2 < s.pickNext.1.threads.length := by
  have hpop := Rested.popReady (s := { s with donateTarget := none }) ⟨h.ready, h.still, h.queue, h.idle⟩
  unfold Scheduler.pickNext
  split
  · rename_i d _
    dsimp only
    split
    · rename_i ht
      split
      · refine ⟨⟨?_, h.still, fun j hj => h.queue j (List.mem_of_mem_erase hj), h.idle⟩,
          (List.getElem?_eq_some_iff.mp ht).1⟩
        intro j u hu hst
        by_cases hj : j = d
        · exact .inr (.inr hj)
        · exact (h.ready j u hu hst).imp (mem_erase_of_ne hj).mpr .inl
      · exact hpop
    · exact hpop
  · exact h.popReady

theorem Rested.dispatch (h : Rested k (fun j => E j ∨ j = i) s) (hi : i < s.threads.length) :
    ∃ s', s.dispatch i = some s' ∧ Kept k E s' ∧ s'.HasTicks := by
  refine ⟨_, if_pos hi, ?_⟩
  have hcur : (s.threads.modify i ({ · with state := .running, ticksRemaining := QUANTUM_TICKS }))[i]? =
      some { s.threads[i] with state := .running, ticksRemaining := QUANTUM_TICKS } := by
    simp [hi]
  have hother : ∀ (j : Nat) (t : Thread κ),
      (s.threads.modify i ({ · with state := .running, ticksRemaining := QUANTUM_TICKS }))[j]? = some t → j ≠ i →
        s.threads[j]? = some t := by
    intro j t ht hj
    rwa [getElem?_modify_ne _ _ (Ne.symm hj)] at ht
  refine ⟨⟨⟨_, hcur⟩, ?_, ?_, ?_, by simpa using h.idle⟩, _, hcur, quantum_pos⟩
  · intro j t ht hst hj
    rcases h.ready j t (hother j t ht hj) hst with hq | hq | hq
    · exact .inl hq
    · exact .inr hq
    · exact absurd hq hj
  · intro j t ht hst
    by_contra hj
    exact h.still j t (hother j t ht hj) hst
  · intro j hj
    simpa using h.queue j hj

theorem Kept.yieldTick (h : Kept k E s) : ∃ s', s.yieldTick = some s' ∧ Kept k E s' ∧ s'.HasTicks := by
  unfold Scheduler.yieldTick
  rw [if_pos h.lt]
  obtain ⟨hnext, hlt⟩ := h.requeueCurrent.pickNext
  exact hnext.dispatch hlt

theorem Kept.preempt (h : Kept k E s) : ∃ s', s.preempt = some s' ∧ Kept k E s' ∧ s'.HasTicks := by
  obtain ⟨hnext, hlt⟩ := h.requeueCurrent.popReady
  exact hnext.dispatch hlt

theorem Kept.setTicks (h : Kept k E s) (n : Nat) : Kept k E (s.setTicks n) := by
  have hstate : ∀ (j : Nat) (t : Thread κ), (s.setTicks n).threads[j]? = some t → ∃ u, s.threads[j]? = some u ∧
      u.state = t.state := by
    intro j t ht
    rw [Scheduler.setTicks, getElem?_modify] at ht
    obtain ⟨u, hu, rfl⟩ := of_map ht
    exact ⟨u, hu, by split <;> rfl⟩
  refine ⟨?_, ?_, ?_, ?_, by simpa [Scheduler.setTicks] using h.idle⟩
  · obtain ⟨t, ht⟩ := h.current
    rw [current?] at ht
    exact ⟨{ t with ticksRemaining := n }, by simp [current?, Scheduler.setTicks, ht]⟩
  · intro j t ht hst
    obtain ⟨u, hu, he⟩ := hstate j t ht
    exact h.ready j u hu (he.trans hst)
  · intro j t ht hst
    obtain ⟨u, hu, he⟩ := hstate j t ht
    exact h.running j u hu (he.trans hst)
  · intro j hj
    simpa [Scheduler.setTicks] using h.queue j hj

theorem Kept.preemptTick (h : Kept k E s) (hticks : s.HasTicks) :
    ∃ s', s.preemptTick = some s' ∧ Kept k E s' ∧ s'.HasTicks := by
  obtain ⟨t, ht, hpos⟩ := hticks
  unfold Scheduler.preemptTick
  rw [ht]
  dsimp only
  split
  · rw [if_neg (Nat.ne_of_gt hpos)]
    split
    · rename_i hleft
      refine ⟨_, rfl, h.setTicks _, { t with ticksRemaining := t.ticksRemaining - 1 }, ?_, hleft⟩
      rw [current?] at ht
      simp [current?, ht]
    · exact (h.setTicks _).preempt
  · exact h.preempt

/-! ## The other operations -/

theorem Kept.markSelf (h : Kept k E s) (st : ThreadState) : Kept k E (s.setState s.currentIdx st) := by
  refine ⟨?_, ?_, ?_, ?_, by simpa [setState] using h.idle⟩
  · obtain ⟨t, ht⟩ := h.current
    rw [current?] at ht
    exact ⟨{ t with state := st }, by simp [current?, setState, ht]⟩
  · intro j t ht hr hj
    have hj : s.currentIdx ≠ j := Ne.symm hj
    rw [getElem?_setState] at ht
    simp only [hj, if_false, Option.map_id'] at ht
    exact h.ready j t ht hr (Ne.symm hj)
  · intro j t ht hr
    rw [getElem?_setState] at ht
    obtain ⟨u, hu, rfl⟩ := of_map ht
    by_cases hj : s.currentIdx = j
    · exact hj.symm
    · simp only [hj, if_false] at hr
      exact h.running j u hu hr
  · intro j hj
    rw [length_setState]
    exact h.queue j hj

theorem HasTicks.setState (h : s.HasTicks) {st : ThreadState} : (s.setState i st).HasTicks := by
  obtain ⟨t, ht, hpos⟩ := h
  refine ⟨if i = s.currentIdx then { t with state := st } else t, ?_, by split <;> exact hpos⟩
  show (s.setState i st).threads[s.currentIdx]? = _
  rw [getElem?_setState, show s.threads[s.currentIdx]? = some t from ht]
  rfl

theorem Kept.unblock (h : Kept k E s) : Kept k E (s.unblock i) := by
  obtain he | ⟨_, ht, -, he⟩ := s.unblock_cases i <;> rw [he]
  · exact h
  refine ⟨?_, ?_, ?_, ?_, by simpa [setState] using h.idle⟩
  · obtain ⟨c, hc⟩ := h.current
    refine ⟨if i = s.currentIdx then { c with state := .ready } else c, ?_⟩
    show (s.setState i .ready).threads[s.currentIdx]? = _
    rw [getElem?_setState, show s.threads[s.currentIdx]? = some c from hc]
    rfl
  · intro j u hu hr hj
    by_cases hij : i = j
    · exact .inl (mem_append_right _ (mem_singleton.mpr hij.symm))
    rw [getElem?_setState] at hu
    simp only [hij, if_false, Option.map_id'] at hu
    exact (h.ready j u hu hr hj).imp_left (mem_append_left _)
  · intro j u hu hr
    rw [getElem?_setState] at hu
    obtain ⟨v, hv, rfl⟩ := of_map hu
    by_cases hij : i = j
    · simp [hij] at hr
    · simp only [hij, if_false] at hr
      exact h.running j v hv hr
  · intro j hj
    show j < (s.setState i .ready).threads.length
    rw [length_setState]
    rcases mem_append.mp hj with hj | hj
    · exact h.queue j hj
    · exact List.mem_singleton.mp hj ▸ (List.getElem?_eq_some_iff.mp ht).1

theorem HasTicks.unblock (h : s.HasTicks) : (s.unblock i).HasTicks := by
  obtain he | ⟨_, -, -, he⟩ := s.unblock_cases i <;> rw [he]
  · exact h
  · exact h.setState

theorem spawn_length (kind : SchedulableKind) (stack : Nat) (owns : Bool) (x : κ) {j : Nat}
    (hj : j < s.threads.length ∨ j = (s.spawn kind stack owns x).2) :
    j < (s.spawn kind stack owns x).1.threads.length := by
  by_contra hn
  have hnone : (s.spawn kind stack owns x).1.threads[j]? = _ := spawn_threads j
  rw [getElem?_eq_none (Nat.le_of_not_lt hn)] at hnone
  split at hnone
  · cases hnone
  rename_i hne
  have hlt := hj.resolve_right hne
  rw [getElem?_eq_getElem hlt] at hnone
  cases hnone

theorem Kept.spawn (h : Kept k E s) (hticks : s.HasTicks) (kind : SchedulableKind) (stack : Nat) (owns : Bool) (x : κ) :
    Kept k E (s.spawn kind stack owns x).1 ∧ (s.spawn kind stack owns x).1.HasTicks := by
  obtain ⟨hq, hc, hi, -⟩ := spawn_rest s kind stack owns x
  have hcur : (s.spawn kind stack owns x).1.HasTicks := by
    obtain ⟨t, ht, hpos⟩ := hticks
    rw [HasTicks, current?, hc, spawn_threads]
    split
    · exact ⟨_, rfl, quantum_pos⟩
    · exact ⟨t, ht, hpos⟩
  refine ⟨⟨?_, ?_, ?_, ?_, ?_⟩, hcur⟩
  · obtain ⟨t, ht, -⟩ := hcur
    exact ⟨t, ht⟩
  · intro j t ht hr hj
    rw [hc] at hj
    rw [hq, mem_append, mem_singleton]
    rw [spawn_threads] at ht
    split at ht
    · rename_i he
      exact .inl (.inr he)
    · exact (h.ready j t ht hr hj).imp_left .inl
  · intro j t ht hr
    rw [hc]
    rw [spawn_threads] at ht
    split at ht
    · cases ht
      cases hr
    · exact h.running j t ht hr
  · intro j hj
    rw [hq, mem_append, mem_singleton] at hj
    exact spawn_length kind stack owns x (hj.imp_left (h.queue j))
  · rw [hi]
    exact ⟨h.idle.1, spawn_length kind stack owns x (.inl h.idle.2)⟩

/-! ## Any run -/

theorem Kept.apply (h : Kept k E s) (hticks : s.HasTicks) (e : SchedEv κ) :
    ∃ s', e.apply s = some s' ∧ Kept k E s' ∧ s'.HasTicks := by
  cases e with
  | spawn kind stack owns ctx => exact ⟨_, rfl, h.spawn hticks kind stack owns ctx⟩
  | markBlocked | markDead => exact ⟨_, rfl, h.markSelf _, hticks.setState⟩
  | setDonateTarget i => exact ⟨_, rfl, ⟨h.current, h.ready, h.running, h.queue, h.idle⟩, hticks⟩
  | unblock i => exact ⟨_, rfl, h.unblock, hticks.unblock⟩
  | yieldTick => exact h.yieldTick
  | preemptTick => exact h.preemptTick hticks

theorem kept_step {e : SchedEv κ} (h : Kept k E s ∧ s.HasTicks) (hs : e.apply s = some s') :
    Kept k E s' ∧ s'.HasTicks := by
  obtain ⟨_, hs'', h⟩ := h.1.apply h.2 e
  cases hs.symm.trans hs''
  exact h

theorem boot_kept (main idle : κ) : Kept 1 (· = 1) (boot main idle) ∧ (boot main idle).HasTicks := by
  refine ⟨⟨⟨_, rfl⟩, ?_, ?_, by simp [boot], by simp [boot]⟩, _, rfl, quantum_pos⟩
  · intro j t ht hr hj
    obtain _ | _ | j := j
    · exact absurd rfl hj
    · exact .inr rfl
    · cases ht
  · intro j t ht hr
    obtain _ | _ | j := j
    · rfl
    · cases ht
      cases hr
    · cases ht

theorem reachable_kept {main idle : κ} (h : (anyCaller main idle).Reachable s) : Kept 1 (· = 1) s ∧ s.HasTicks := by
  refine Machine.Reach.inv (I := fun s => Kept 1 (· = 1) s ∧ s.HasTicks) (fun s hs => ?_)
    (fun _ _ _ hi _ hs => kept_step hi hs) h
  cases (init_eq_boot main idle).symm.trans hs
  exact boot_kept main idle

theorem Kept.no_exception (h : Kept k (· = k) s) (hcur : s.currentIdx = k) : Kept k (fun _ => False) s where
  current := h.current
  ready j t ht hr hj := (h.ready j t ht hr hj).imp_right fun e => hj (e.trans hcur.symm)
  running := h.running
  queue := h.queue
  idle := h.idle

end Scheduler

open Scheduler

/-- Whatever is called, in whatever order: there is a current thread with ticks left, no other
    one is Running, every other Ready thread but the idle one is queued, and no dispatcher
    panics. Once the idle thread has run, it is no exception any more. -/
theorem no_runnable_thread_lost (main idle : κ) (s : Scheduler κ) (h : (anyCaller main idle).Reachable s) :
    (∃ t, s.current? = some t ∧ 0 < t.ticksRemaining) ∧
    (∀ (i : Nat) t, s.threads[i]? = some t → t.state = .ready → i ≠ s.currentIdx → i ∈ s.readyQueue ∨
      i = s.idleThreadIdx) ∧
    (∀ (i : Nat) t, s.threads[i]? = some t → t.state = .running → i = s.currentIdx) ∧
    s.preemptTick.isSome = true ∧ s.yieldTick.isSome = true ∧
    (s.currentIdx = s.idleThreadIdx → ∀ s', ((anyCaller main idle).startedAt s).Reachable s' →
      ∀ (i : Nat) t, s'.threads[i]? = some t → t.state = .ready → i ≠ s'.currentIdx → i ∈ s'.readyQueue) := by
  obtain ⟨hk, hticks⟩ := reachable_kept h
  obtain ⟨_, hp, -⟩ := hk.preemptTick hticks
  obtain ⟨_, hy, -⟩ := hk.yieldTick
  refine ⟨hticks, ?_, hk.running, by rw [hp]; rfl, by rw [hy]; rfl, ?_⟩
  · intro i t ht hr hi
    rw [hk.idle.1]
    exact hk.ready i t ht hr hi
  · intro hcur s' hs' i t ht hr hi
    have hk' : Kept 1 (fun _ => False) s' ∧ s'.HasTicks :=
      Machine.Reach.inv_from (I := fun s => Kept 1 (fun _ => False) s ∧ s.HasTicks)
        ⟨hk.no_exception (hcur.trans hk.idle.1), hticks⟩ (fun _ _ _ hi _ hs => kept_step hi hs) hs'
    exact (hk'.1.ready i t ht hr hi).resolve_right id

/-- The boot thread blocks and is woken while the idle thread runs. -/
theorem no_runnable_thread_lost_after_idling : ∃ s, (anyCaller () ()).Reachable s ∧ s.currentIdx = s.idleThreadIdx ∧
    s.readyQueue = [0] ∧ s.preemptTick.isSome = true := by
  have h := Machine.reachable_of_run (M := anyCaller () ()) (boot () ()) [.markBlocked, .yieldTick, .unblock 0] rfl rfl
  exact ⟨_, h, rfl, rfl, (no_runnable_thread_lost () () _ h).2.2.2.1⟩

/-- `init` leaves the idle thread Ready and off the queue. -/
theorem the_idle_thread_waits_off_the_queue : ∃ s t, (anyCaller () ()).Reachable s ∧ s.threads[1]? = some t ∧
    t.state = .ready ∧ s.currentIdx ≠ 1 ∧ 1 ∉ s.readyQueue :=
  ⟨boot () (), _, Machine.reachable_of_run (boot () ()) [] rfl rfl, rfl, rfl, by decide, by decide⟩

/-! ## The idle thread -/

/-- The idle thread does nothing but halt, no tick ends its turn while another thread is queued,
    and no donation goes to it then. -/
def IdleAside (s : Scheduler κ) : SchedEv κ → Prop
  | .markBlocked | .markDead => s.currentIdx ≠ s.idleThreadIdx
  | .yieldTick => (s.currentIdx = s.idleThreadIdx → s.readyQueue = []) ∧
      (s.donateTarget = some s.idleThreadIdx → ∀ i ∈ s.requeueCurrent.readyQueue, i = s.idleThreadIdx)
  | .preemptTick => s.currentIdx = s.idleThreadIdx → s.readyQueue = [] ∨ ∃ t, s.current? = some t ∧ 1 < t.ticksRemaining
  | _ => True

namespace Scheduler

variable {s s' : Scheduler κ} {k i : Nat} {e : SchedEv κ}

/-- The idle thread could run and is not queued. -/
structure Aside (k : Nat) (s : Scheduler κ) : Prop where
  kept : Kept k (· = k) s
  unqueued : k ∉ s.readyQueue
  runnable : ∃ t, s.threads[k]? = some t ∧ t.state.isRunnable = true

theorem requeueCurrent_left (hq : k ∉ s.readyQueue) (hg : s.currentIdx = k → s.readyQueue = []) :
    (k ∉ s.requeueCurrent.readyQueue ∨ s.requeueCurrent.readyQueue = [k]) ∧
    s.requeueCurrent.donateTarget = s.donateTarget := by
  obtain ⟨he, -⟩ | ⟨_, -, -, he⟩ := s.requeueCurrent_cases <;> rw [he]
  · exact ⟨.inl hq, rfl⟩
  refine ⟨?_, rfl⟩
  by_cases hk : s.currentIdx = k
  · exact .inr (by simp [hk, hg hk])
  · exact .inl (by simp [hq, Ne.symm hk])

theorem popReady_left (hq : k ∉ s.readyQueue ∨ s.readyQueue = [k]) :
    k ∉ s.popReady.1.readyQueue ∧ (s.popReady.2 = k → s.popReady.1.readyQueue = []) := by
  unfold popReady
  split
  · rename_i he
    rw [he] at hq
    rcases hq with hq | hq
    · rw [mem_cons, not_or] at hq
      exact ⟨hq.2, fun e => absurd e.symm hq.1⟩
    · cases hq
      exact ⟨not_mem_nil, fun _ => rfl⟩
  · rename_i he
    exact ⟨by simp [he], fun _ => he⟩

theorem Rested.pickNext_left (h : Rested k (· = k) s) (hq : k ∉ s.readyQueue ∨ s.readyQueue = [k])
    (hd : s.donateTarget = some k → ∀ i ∈ s.readyQueue, i = k) :
    k ∉ s.pickNext.1.readyQueue ∧ (s.pickNext.2 = k → s.pickNext.1.readyQueue = []) := by
  have hpop := popReady_left (s := { s with donateTarget := none }) hq
  unfold Scheduler.pickNext
  split
  · rename_i d hdt
    dsimp only
    split
    · rename_i t ht
      split
      · rename_i hready
        by_cases he : d = k
        · have hnil : s.readyQueue.erase d = [] := by
            rcases hq with hq | hq
            · rw [eq_nil_iff_forall_not_mem.mpr fun i hi => hq (hd (he ▸ hdt) i hi ▸ hi)]
              rfl
            · simp [hq, he]
          exact ⟨by simp [hnil], fun _ => hnil⟩
        · -- a Ready thread is queued, so the idle thread is not
          have hm := (h.ready d t ht hready).resolve_right he
          have hq := hq.resolve_right fun hq => he (mem_singleton.mp (hq ▸ hm))
          exact ⟨fun hm => hq (mem_of_mem_erase hm), fun e => absurd e he⟩
      · exact hpop
    · exact hpop
  · exact popReady_left hq

theorem Aside.step (h : Aside k s) (hticks : s.HasTicks) (hg : IdleAside s e) (hs : e.apply s = some s') :
    Aside k s' ∧ (s'.currentIdx = k → s.currentIdx = k ∨ s'.readyQueue = []) := by
  obtain ⟨u, hu, hru⟩ := h.runnable
  obtain rfl := h.kept.idle.1
  have hkept := (kept_step ⟨h.kept, hticks⟩ hs).1
  have hrun (hst : Stirs s s' s.idleThreadIdx) : ∃ t, s'.threads[s.idleThreadIdx]? = some t ∧
      t.state.isRunnable = true := by
    obtain ⟨t, ht, hst⟩ := hst u hu
    exact ⟨t, ht, hst.elim (fun he => he ▸ hru) id⟩
  cases e with
  | spawn kind stack owns ctx =>
    cases hs
    obtain ⟨hq, hc, -⟩ := spawn_rest s kind stack owns ctx
    refine ⟨⟨hkept, ?_, hrun (spawn_stirs ⟨u, hu, ?_⟩)⟩, fun he => .inl (hc ▸ he)⟩
    · rw [hq, mem_append, mem_singleton]
      rintro (hm | hm)
      · exact h.unqueued hm
      · rw [spawn_slot (hm ▸ hu)] at hru
        cases hru
    · intro hd
      rw [hd] at hru
      cases hru
  | markBlocked | markDead =>
    cases hs
    exact ⟨⟨hkept, h.unqueued, hrun (setState_stirs hg)⟩, .inl⟩
  | setDonateTarget i =>
    cases hs
    exact ⟨⟨hkept, h.unqueued, u, hu, hru⟩, .inl⟩
  | unblock i =>
    cases hs
    refine ⟨⟨hkept, ?_, hrun (unblock_turns i).stirs⟩, fun he => .inl (unblock_currentIdx ▸ he)⟩
    obtain he | ⟨t, ht, hb, he⟩ := s.unblock_cases i <;> rw [he]
    · exact h.unqueued
    rw [mem_append, mem_singleton]
    rintro (hm | rfl)
    · exact h.unqueued hm
    · cases ht.symm.trans hu
      rw [hb] at hru
      cases hru
  | yieldTick =>
    obtain ⟨hq, hd⟩ := requeueCurrent_left h.unqueued hg.1
    obtain ⟨hleft, hnil⟩ := h.kept.requeueCurrent.pickNext_left hq fun he => hg.2 (hd ▸ he)
    have hr := hrun (yieldTick_turns hs).stirs
    obtain rfl := dispatch_eq (yieldTick_switch hs)
    exact ⟨⟨hkept, hleft, hr⟩, fun he => .inr (hnil he)⟩
  | preemptTick =>
    have hr := hrun (preemptTick_turns hs).stirs
    obtain ⟨_, ht, ⟨-, -, rfl⟩ | ⟨hno, n, hs⟩⟩ := preemptTick_cases hs
    · exact ⟨⟨hkept, h.unqueued, hr⟩, .inl⟩
    have hgo : s.currentIdx = s.idleThreadIdx → s.readyQueue = [] := by
      intro he
      refine (hg he).resolve_right ?_
      rintro ⟨_, ht', hmore⟩
      cases ht.symm.trans ht'
      cases (he ▸ hu :).symm.trans ht
      exact hno ⟨hru, hmore⟩
    obtain ⟨hq, -⟩ := requeueCurrent_left (s := s.setTicks n) h.unqueued hgo
    obtain ⟨hleft, hnil⟩ := popReady_left hq
    obtain rfl := dispatch_eq hs
    exact ⟨⟨hkept, hleft, hr⟩, fun he => .inr (hnil he)⟩

end Scheduler

/-- In these runs the idle thread is never queued, and it is dispatched only if no other thread is Ready. -/
theorem idle_thread_is_a_fallback (main idle : κ) (s : Scheduler κ) (h : (anyCaller main idle).Reach IdleAside s) :
    s.idleThreadIdx ∉ s.readyQueue ∧ ∀ e s', IdleAside s e → e.apply s = some s' → s.currentIdx ≠ s.idleThreadIdx →
      s'.currentIdx = s.idleThreadIdx → ∀ (i : Nat) t, s'.threads[i]? = some t → i ≠ s.idleThreadIdx →
        t.state ≠ .ready := by
  have hi : Aside 1 s ∧ s.HasTicks := by
    refine Machine.Reach.inv (I := fun s => Aside 1 s ∧ s.HasTicks) (fun s hs => ?_) (fun s e s' hi hg hs => ?_) h
    · cases (init_eq_boot main idle).symm.trans hs
      exact ⟨⟨(boot_kept main idle).1, by simp [boot], _, rfl, rfl⟩, (boot_kept main idle).2⟩
    · exact ⟨(hi.1.step hi.2 hg hs).1, (kept_step ⟨hi.1.kept, hi.2⟩ hs).2⟩
  rw [hi.1.kept.idle.1]
  refine ⟨hi.1.unqueued, fun e s' hg hs hne hcur i t ht hi' hr => ?_⟩
  obtain ⟨ha, hnil⟩ := hi.1.step hi.2 hg hs
  rcases ha.kept.ready i t ht hr (hcur ▸ hi') with hq | hq
  · rw [(hnil hcur).resolve_left hne] at hq
    cases hq
  · exact hi' hq

/-- The boot thread blocks: the idle thread is dispatched, and nobody is Ready. -/
theorem idle_thread_is_a_fallback_at_boot : ∃ s s', (anyCaller () ()).Reach IdleAside s ∧ s.yieldTick = some s' ∧
    s'.currentIdx = s.idleThreadIdx ∧ ∀ (i : Nat) t, s'.threads[i]? = some t → i ≠ s.idleThreadIdx →
      t.state ≠ .ready := by
  have h : (anyCaller () ()).Reach IdleAside (markBlocked (boot () ())) :=
    .step .markBlocked (.start (s := boot () ()) rfl) Nat.zero_ne_one rfl
  exact ⟨_, _, h, rfl, rfl, (idle_thread_is_a_fallback () () _ h).2 .yieldTick _ ⟨nofun, nofun⟩ rfl Nat.zero_ne_one rfl⟩

/-- The boot thread blocks and is woken while the idle thread runs. The tick that ends the idle
    thread's turn queues it; ten ticks later it is dispatched while the boot thread is Ready. -/
theorem the_idle_thread_takes_its_turn : ∃ s s' t, (anyCaller () ()).Reachable s ∧ s.idleThreadIdx ∈ s.readyQueue ∧
    s.preemptTick = some s' ∧ s.currentIdx ≠ s.idleThreadIdx ∧ s'.currentIdx = s.idleThreadIdx ∧
    s'.threads[0]? = some t ∧ t.state = .ready :=
  ⟨_, _, _, Machine.reachable_of_run (boot () ()) ([.markBlocked, .yieldTick, .unblock 0] ++ replicate 19 .preemptTick)
    rfl rfl, by decide, rfl, by decide, rfl, rfl, rfl⟩

end Ostoo.Task
