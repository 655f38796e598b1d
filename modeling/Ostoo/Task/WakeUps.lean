/-
  Ostoo.Task.WakeUps — whether a waker that was fired gets its task polled again.

  A wake is a task id in `WAKE_QUEUE`. The worker that pops it either moves the task from
  `WAIT_MAP` to `TASK_QUEUE`, or misses it there and leaves the id in `DEFERRED_WAKES` for
  the worker that has the task in flight. Three races lose it: the queue is full; the
  worker in flight parks the task and looks into `DEFERRED_WAKES` between the miss and the
  insert (`a_wake_is_lost_between_miss_and_insert`); a worker's late look takes an entry
  that was meant for a later poll of the same task. In the runs without the three
  (`InTime`) a woken task is found until it is polled again (`no_lost_wakeup`).
-/

import Ostoo.Task.Executor

namespace Ostoo.Task

open Ostoo.Lib List Option

namespace Pc

variable (id : TaskId)

/-- The task is in the worker's hands and will be queued or polled. -/
def Ahead (pc : Pc) : Prop := pc = .wakePush id ∨ pc = .requeue id ∨ pc = .runCache id

/-- The worker missed the task in `WAIT_MAP` and has not filled `DEFERRED_WAKES` yet. -/
def Missed (pc : Pc) : Prop := pc = .wakeLookup id ∨ pc = .wakeDefer id

/-- The worker polls the task, or is about to park it. -/
def Polls (pc : Pc) : Prop := pc = .polling id ∨ pc = .park id

/-- The worker has the id, and not in order to poll the task now. -/
def Holds (pc : Pc) : Prop := pc.Ahead id ∨ pc.Missed id ∨ pc = .wakeTake id ∨ pc = .retake id

deriving instance Decidable for Ahead
deriving instance Decidable for Missed
deriving instance Decidable for Polls
deriving instance Decidable for Holds

end Pc

namespace Executor

/-- Some worker is at such a place. -/
def Somewhere (s : Executor) (P : Pc → Prop) : Prop := ∃ pc ∈ s.workers, P pc

instance (s : Executor) (P : Pc → Prop) [DecidablePred P] : Decidable (s.Somewhere P) :=
  inferInstanceAs (Decidable (∃ pc ∈ _, _))

/-- What a woken task is owed until its next poll: it is queued, or its id is in
    `WAKE_QUEUE`, or a worker has it, or the id is in `DEFERRED_WAKES` and the worker that
    has the task in flight has not looked there yet. -/
def Covered (s : Executor) (id : TaskId) : Prop :=
  id ∈ s.taskQueue ∨ id ∈ s.wakeQueue ∨ s.Somewhere (Pc.Holds id) ∨
    (id ∈ s.deferredWakes ∧ s.Somewhere fun pc => pc.Polls id ∨ pc = .check id)

/-- Something will take the task out of `WAIT_MAP`. -/
def WillRequeue (s : Executor) (id : TaskId) : Prop :=
  id ∈ s.wakeQueue ∨ s.Somewhere (· = .wakeTake id) ∨ s.Somewhere (· = .retake id) ∨
    ((id ∈ s.deferredWakes ∨ s.Somewhere (Pc.Missed id)) ∧ s.Somewhere (· = .check id))

deriving instance Decidable for Covered

deriving instance Decidable for WillRequeue

/-- No wake is fired into a full `WAKE_QUEUE` that does not hold it already. At a worker's
    look into `DEFERRED_WAKES` for its task: an entry is not meant for a poll that another
    worker is in, and without one no other worker is about to make it. -/
def InTime (s : Executor) : Ev → Bool
  | .wake id => s.wakeQueue.length < WAKE_QUEUE_CAP || s.wakeQueue.contains id
  | .turn w => match s.workers[w]? with
    | some (.check id) =>
      if id ∈ s.deferredWakes then !decide (s.Somewhere (Pc.Polls id))
      else decide (id ∉ s.waitMap) || !decide (s.Somewhere (Pc.Missed id))
    | _ => true
  | _ => true

/-! ## What a turn does to a wake -/

section

variable {s e : Executor} {pc q : Pc} {id : TaskId}

variable (hs : s.turn pc = some (e, q)) {w : Nat} {P : Pc → Prop}
include hs

theorem turn_taskQueue (h : id ∈ s.taskQueue) : id ∈ e.taskQueue ∨ q.Ahead id := by
  revert hs
  fun_cases turn s pc <;> intro hs <;> cases hs
  case case10 t q hq =>
    rw [hq, mem_cons] at h
    rcases h with rfl | h
    · exact .inr (.inr (.inr rfl))
    · exact .inl h
  case case6 | case22 => exact .inl (mem_append_left _ h)
  all_goals exact .inl h

theorem turn_ahead (h : pc.Ahead id) (hc : pc ≠ .runCache id) : id ∈ e.taskQueue := by
  rcases h with rfl | rfl | rfl
  · cases hs
    exact mem_append_right _ (mem_singleton_self id)
  · cases hs
    exact mem_append_right _ (mem_singleton_self id)
  · exact absurd rfl hc

theorem turn_wakeQueue (h : id ∈ s.wakeQueue) : id ∈ e.wakeQueue ∨ q = .wakeTake id := by
  revert hs
  fun_cases turn s pc <;> intro hs <;> cases hs
  case case2 i q hq =>
    rw [hq, mem_cons] at h
    rcases h with rfl | h
    · exact .inr rfl
    · exact .inl h
  all_goals exact .inl h

omit hs in
theorem turn_wakeTake (hs : s.turn (.wakeTake id) = some (e, q)) : q.Ahead id ∨ (q.Missed id ∧ id ∉ s.waitMap) := by
  simp only [turn] at hs
  split at hs
  · cases hs
  split at hs
  · cases hs
    exact .inl (.inl rfl)
  · rename_i hm
    cases hs
    exact .inr ⟨.inl rfl, hm⟩

theorem turn_deferredWakes (h : id ∈ s.deferredWakes) (hc : pc ≠ .check id)
    (hd : pc ≠ .doneDeferred id) : id ∈ e.deferredWakes := by
  revert hs
  fun_cases turn s pc <;> intro hs <;> cases hs
  case case8 => exact Finset.mem_insert_of_mem h
  case case14 i => exact Finset.mem_erase.mpr ⟨fun he => hd (he ▸ rfl), h⟩
  case case17 i _ => exact Finset.mem_erase.mpr ⟨fun he => hc (he ▸ rfl), h⟩
  all_goals exact h

theorem turn_missed (h : pc.Missed id) (hc : id ∈ s.wakerCache) : q.Missed id ∨ id ∈ e.deferredWakes := by
  rcases h with rfl | rfl
  · simp only [turn, if_pos hc] at hs
    cases hs
    exact .inl (.inr rfl)
  · cases hs
    exact .inr (Finset.mem_insert_self ..)

theorem turn_polls (h : pc.Polls id) : id ∈ e.waitMap ∧ q = .check id := by
  rcases h with rfl | rfl
  · cases hs
  · obtain ⟨-, ⟨⟩⟩ := of_unless hs
    exact ⟨Finset.mem_insert_self .., rfl⟩

theorem turn_waitMap (h : id ∈ s.waitMap) : id ∈ e.waitMap ∨ q.Ahead id := by
  revert hs
  fun_cases turn s pc <;> intro hs <;> cases hs
  case case4 i _ _ =>
    by_cases he : id = i
    · exact .inr (.inl (he ▸ rfl))
    · exact .inl (Finset.mem_erase.mpr ⟨he, h⟩)
  case case20 i _ _ =>
    by_cases he : id = i
    · exact .inr (.inr (.inl (he ▸ rfl)))
    · exact .inl (Finset.mem_erase.mpr ⟨he, h⟩)
  case case16 => exact .inl (Finset.mem_insert_of_mem h)
  all_goals exact .inl h

omit hs

theorem turn_retake (hs : s.turn (.retake id) = some (e, q)) (h : id ∈ s.waitMap) : q.Ahead id := by
  simp only [turn, if_pos h] at hs
  obtain ⟨-, ⟨⟩⟩ := of_unless hs
  exact .inr (.inl rfl)

/-! ## What keeps a wake -/

theorem Somewhere.goto (hw : s.At w pc) (he : e.workers = s.workers) (h : s.Somewhere P) :
    (e.goto w q).Somewhere P ∨ P pc := by
  obtain ⟨p, hm, hp⟩ := h
  obtain ⟨v, hv⟩ := mem_iff_getElem?.mp hm
  have hv : e.At v p := (At.congr he).mpr hv
  rcases hv.goto (w := w) (q := q) with rfl | hv
  · exact .inr (hw.unique ((At.congr he).mp hv) ▸ hp)
  · exact .inl ⟨p, mem_of_getElem? hv, hp⟩

theorem somewhere_goto (hw : s.At w pc) (he : e.workers = s.workers) (hq : P q) : (e.goto w q).Somewhere P :=
  ⟨q, mem_of_getElem? (at_goto_self ((At.congr he).mpr hw)), hq⟩

section

variable (s : Executor)

/-- The task is on its way to its next poll. -/
def Coming (id : TaskId) : Prop := id ∈ s.taskQueue ∨ s.Somewhere (Pc.Ahead id)

/-- The wake has not met the task yet. -/
def Sent (id : TaskId) : Prop := id ∈ s.wakeQueue ∨ s.Somewhere (· = .wakeTake id)

/-- The wake is left, or about to be left, in `DEFERRED_WAKES`. -/
def Deferred (id : TaskId) : Prop := id ∈ s.deferredWakes ∨ s.Somewhere (Pc.Missed id)

/-- The worker that has the task in flight will look there. -/
def Unchecked (id : TaskId) : Prop :=
  s.Somewhere (Pc.Polls id) ∨ (id ∈ s.waitMap ∧ s.Somewhere (· = .check id))

/-- Why a wake that was fired since the last poll began is not lost. -/
def Kept (id : TaskId) : Prop :=
  s.Coming id ∨ s.Sent id ∨ (s.Deferred id ∧ s.Unchecked id) ∨ (id ∈ s.waitMap ∧ s.Somewhere (· = .retake id))

end

theorem Sound.whereabouts (h : Sound s) (hk : id ∈ s.wakers) (hne : s.places id ≠ 0) :
    s.Coming id ∨ s.Somewhere (Pc.Polls id) ∨ id ∈ s.waitMap := by
  have hun : s.unspawned.count id = 0 := count_eq_zero.mpr (h.woken id hk).2
  by_cases hm : id ∈ s.waitMap
  · exact .inr (.inr hm)
  by_cases hq : id ∈ s.taskQueue
  · exact .inl (.inl hq)
  have hh : s.inHands id ≠ 0 := by
    unfold places at hne
    rw [if_neg hm, count_eq_zero.mpr hq, hun] at hne
    omega
  obtain ⟨_, pc, hw, ht⟩ := exists_of_inHands hh
  have hm := mem_of_getElem? hw
  cases pc with
  | wakePush t => exact .inl (.inr ⟨_, hm, .inl (congrArg _ (some.inj ht))⟩)
  | requeue t => exact .inl (.inr ⟨_, hm, .inr (.inl (congrArg _ (some.inj ht)))⟩)
  | runCache t => exact .inl (.inr ⟨_, hm, .inr (.inr (congrArg _ (some.inj ht)))⟩)
  | polling t => exact .inr (.inl ⟨_, hm, .inl (congrArg _ (some.inj ht))⟩)
  | park t => exact .inr (.inl ⟨_, hm, .inr (congrArg _ (some.inj ht))⟩)
  | _ => cases ht

theorem Sound.not_parked (h : Sound s) (hc : s.Coming id ∨ s.Somewhere (Pc.Polls id)) : id ∉ s.waitMap := by
  intro hm
  have hone := h.one id
  have hhand : ∀ pc ∈ s.workers, pc.task? = some id → False := by
    intro pc hpc ht
    obtain ⟨_, hw⟩ := mem_iff_getElem?.mp hpc
    exact (h.in_hands hw ht).2.2.2.1 hm
  rcases hc with (hq | ⟨_, hpc, hp⟩) | ⟨_, hpc, hp⟩
  · have := count_pos_iff.mpr hq
    unfold places at hone
    rw [if_pos hm] at hone
    omega
  · rcases hp with rfl | rfl | rfl <;> exact hhand _ hpc rfl
  · rcases hp with rfl | rfl <;> exact hhand _ hpc rfl

theorem Kept.covered (h : s.Kept id) : s.Covered id := by
  rcases h with (h | ⟨pc, hm, h⟩) | (h | ⟨pc, hm, h⟩) | ⟨h | ⟨pc, hm, h⟩, hu⟩ | ⟨-, pc, hm, h⟩
  · exact .inl h
  · exact .inr (.inr (.inl ⟨pc, hm, .inl h⟩))
  · exact .inr (.inl h)
  · exact .inr (.inr (.inl ⟨pc, hm, .inr (.inr (.inl h))⟩))
  · refine .inr (.inr (.inr ⟨h, ?_⟩))
    rcases hu with ⟨pc, hm, hp⟩ | ⟨-, pc, hm, hp⟩
    · exact ⟨pc, hm, .inl hp⟩
    · exact ⟨pc, hm, .inr hp⟩
  · exact .inr (.inr (.inl ⟨pc, hm, .inr (.inl h)⟩))
  · exact .inr (.inr (.inl ⟨pc, hm, .inr (.inr (.inr h))⟩))

theorem Kept.willRequeue (h : s.Kept id) (hs : Sound s) (hm : id ∈ s.waitMap) : s.WillRequeue id := by
  rcases h with h | (h | h) | ⟨hd, hp | ⟨-, hc⟩⟩ | ⟨-, h⟩
  · exact absurd hm (hs.not_parked (.inl h))
  · exact .inl h
  · exact .inr (.inl h)
  · exact absurd hm (hs.not_parked (.inr hp))
  · exact .inr (.inr (.inr ⟨hd, hc⟩))
  · exact .inr (.inr (.inl h))

theorem inTime_check (hw : s.At w (.check id)) (hg : s.InTime (.turn w) = true) :
    if id ∈ s.deferredWakes then ¬ s.Somewhere (Pc.Polls id) else id ∈ s.waitMap → ¬ s.Somewhere (Pc.Missed id) := by
  simp only [InTime, show s.workers[w]? = some (.check id) from hw] at hg
  by_cases hm : id ∈ s.deferredWakes
  · rw [if_pos hm] at hg ⊢
    simpa using hg
  · rw [if_neg hm] at hg ⊢
    intro hp
    simpa [hp] using hg

/-- The look into `DEFERRED_WAKES` finds the wake, or another worker has the task in flight. -/
theorem Kept.check (hd : s.Deferred id) (hu : s.Unchecked id) (hw : s.At w (.check id))
    (ht : s.turn (.check id) = some (e, q))
    (hg : if id ∈ s.deferredWakes then ¬ s.Somewhere (Pc.Polls id) else id ∈ s.waitMap → ¬ s.Somewhere (Pc.Missed id)) :
    (e.goto w q).Kept id := by
  have he := (turn_frame ht).1
  simp only [turn] at ht
  by_cases hm : id ∈ s.deferredWakes
  · rw [if_pos hm] at hg ht
    cases ht
    rcases hu with h | ⟨hp, -⟩
    · exact absurd h hg
    · exact .inr (.inr (.inr ⟨hp, somewhere_goto hw he rfl⟩))
  · rw [if_neg hm] at hg ht
    cases ht
    rcases hd with h | hd
    · exact absurd h hm
    rcases hu with h | ⟨hp, -⟩
    · rcases hd.goto (q := .wakePop) hw he with hd | hd
      · rcases h.goto (q := .wakePop) hw he with h | h
        · exact .inr (.inr (.inl ⟨.inr hd, .inl h⟩))
        · rcases h with h | h <;> cases h
      · rcases hd with h | h <;> cases h
    · exact absurd hd (hg hp)

/-- A turn that meets the condition keeps the wake, unless it starts the task's next poll. -/
theorem Kept.turn (h : s.Kept id) (hs : Sound s) (hk : id ∈ s.wakers) (hne : s.places id ≠ 0) (hw : s.At w pc)
    (ht : s.turn pc = some (e, q)) (hc : pc ≠ .runCache id) (hg : s.InTime (.turn w) = true) :
    (e.goto w q).Kept id := by
  have he := (turn_frame ht).1
  have hstay : ∀ {P : Pc → Prop}, s.Somewhere P → (e.goto w q).Somewhere P ∨ P pc := fun h => h.goto hw he
  have hnow : ∀ {P : Pc → Prop}, P q → (e.goto w q).Somewhere P := fun h => somewhere_goto hw he h
  have hahead : q.Ahead id → (e.goto w q).Kept id := fun h => .inl (.inr (hnow h))
  have hcoming : s.Coming id → (e.goto w q).Kept id := by
    intro h
    rcases h with h | h
    · exact (turn_taskQueue ht h).elim (fun h => .inl (.inl h)) hahead
    · rcases hstay h with h | h
      · exact .inl (.inr h)
      · exact .inl (.inl (show id ∈ e.taskQueue from turn_ahead ht h hc))
  rcases h with h | (h | h) | ⟨hd, hu⟩ | ⟨hm, hr⟩
  · exact hcoming h
  · exact .inr (.inl ((turn_wakeQueue ht h).imp_right fun h => hnow h))
  · rcases hstay h with h | rfl
    · exact .inr (.inl (.inr h))
    rcases turn_wakeTake ht with h | ⟨hq, hm⟩
    · exact hahead h
    -- not parked, so it is queued or in another worker's hands
    rcases hs.whereabouts hk hne with h | h | h
    · exact hcoming h
    · rcases hstay h with h | h
      · exact .inr (.inr (.inl ⟨.inr (hnow hq), .inl h⟩))
      · rcases h with h | h <;> cases h
    · exact absurd h hm
  · by_cases hpc : pc = .check id
    · subst hpc
      exact Kept.check hd hu hw ht (inTime_check hw hg)
    have hd' : (e.goto w q).Deferred id := by
      rcases hd with h | h
      · have hf : pc ≠ .doneDeferred id := fun hf => hne (hs.finishing id ⟨w, .inr (hf ▸ hw)⟩).1
        exact .inl (show id ∈ e.deferredWakes from turn_deferredWakes ht h hpc hf)
      rcases hstay h with h | h
      · exact .inr h
      · rcases turn_missed ht h (hs.cached id hk hne) with h | h
        · exact .inr (hnow h)
        · exact .inl h
    rcases hu with h | ⟨hm, h⟩
    · rcases hstay h with h | h
      · exact .inr (.inr (.inl ⟨hd', .inl h⟩))
      · obtain ⟨hm, hq⟩ := turn_polls ht h
        exact .inr (.inr (.inl ⟨hd', .inr ⟨hm, hnow hq⟩⟩))
    · rcases hstay h with h | h
      · rcases turn_waitMap ht hm with hm | hq
        · exact .inr (.inr (.inl ⟨hd', .inr ⟨hm, h⟩⟩))
        · exact hahead hq
      · exact absurd h hpc
  · rcases hstay hr with h | rfl
    · rcases turn_waitMap ht hm with hm | hq
      · exact .inr (.inr (.inr ⟨hm, h⟩))
      · exact hahead hq
    · exact hahead (turn_retake ht hm)

/-- More wakes and more queued tasks keep a wake. -/
theorem Kept.of_more (h : s.Kept id) (ht : ∀ i ∈ s.taskQueue, i ∈ e.taskQueue) (hk : ∀ i ∈ s.wakeQueue, i ∈ e.wakeQueue)
    (hw : e.workers = s.workers) (hd : e.deferredWakes = s.deferredWakes) (hm : e.waitMap = s.waitMap) : e.Kept id := by
  have he : ∀ P, e.Somewhere P ↔ s.Somewhere P := by
    intro P
    unfold Somewhere
    rw [hw]
  unfold Kept Coming Sent Deferred Unchecked
  simp only [he, hd, hm]
  exact h.imp (Or.imp_left (ht id)) (Or.imp_left (Or.imp_left (hk id)))

/-- The end of a poll keeps the wakes of the task that is polled, unless it has finished, and all others. -/
theorem Kept.polled {t : TaskId} {ready : Bool} (h : s.Kept id) (hw : s.At w (.polling t))
    (hr : ¬ (ready = true ∧ t = id)) : (s.goto w (if ready then .doneCache t else .park t)).Kept id := by
  have hstay : ∀ {P : Pc → Prop}, ¬ P (.polling t) → s.Somewhere P →
      (s.goto w (if ready then .doneCache t else .park t)).Somewhere P :=
    fun hn h => (h.goto hw rfl).resolve_right hn
  have hpolls : s.Somewhere (Pc.Polls id) → (s.goto w (if ready then .doneCache t else .park t)).Somewhere
      (Pc.Polls id) := by
    intro h
    by_cases ht : t = id
    · have hf : ready = false := by
        cases ready with
        | false => rfl
        | true => exact absurd ⟨rfl, ht⟩ hr
      subst hf ht
      exact somewhere_goto hw rfl (.inr rfl)
    · refine hstay ?_ h
      intro h
      rcases h with h | h
      · exact ht (Pc.polling.inj h)
      · cases h
  rcases h with h | h | ⟨hd, hu⟩ | ⟨hm, h⟩
  · exact .inl (h.imp_right (hstay (by simp [Pc.Ahead])))
  · exact .inr (.inl (h.imp_right (hstay (by simp))))
  · refine .inr (.inr (.inl ⟨hd.imp_right (hstay (by simp [Pc.Missed])), ?_⟩))
    exact hu.imp hpolls fun ⟨hm, h⟩ => ⟨hm, hstay (by simp) h⟩
  · exact .inr (.inr (.inr ⟨hm, hstay (by simp) h⟩))

end

/-! ## Runs -/

/-- The executor, and the unfinished tasks of which a waker was fired since their last
    poll began. -/
structure Watched where
  exec : Executor
  owed : Finset TaskId

def owedAfter (s : Executor) (owed : Finset TaskId) : Ev → Finset TaskId
  | .wake id => if s.places id = 0 then owed else insert id owed
  | .turn w => match s.workers[w]? with
    | some (.runCache t) => owed.erase t
    | _ => owed
  | .polled w true => match s.workers[w]? with
    | some (.polling t) => owed.erase t
    | _ => owed
  | _ => owed

/-- Any number of workers. -/
def watched : Machine Watched Ev where
  start s := ∃ n, s = ⟨boot n, ∅⟩
  step s ev := (s.exec.step ev).map fun e => ⟨e, owedAfter s.exec s.owed ev⟩

structure Watched.Inv (s : Watched) : Prop where
  sound : Sound s.exec
  unfinished : ∀ id ∈ s.owed, id ∈ s.exec.wakers ∧ s.exec.places id ≠ 0
  kept : ∀ id ∈ s.owed, s.exec.Kept id

section

variable {s : Watched} {e : Executor} {w : Nat} {t id : TaskId} {owed : Finset TaskId}

theorem Watched.Inv.newTask (h : s.Inv) :
    Watched.Inv ⟨{ s.exec with nextId := s.exec.nextId + 1, unspawned := s.exec.unspawned ++ [s.exec.nextId] },
      s.owed⟩ := by
  refine ⟨h.sound.newTask, ?_, ?_⟩
  · intro id hid
    obtain ⟨hk, _⟩ := h.unfinished id hid
    refine ⟨hk, ?_⟩
    rw [newTask_places]
    omega
  · intro id hid
    exact (h.kept id hid).of_more (fun _ hi => hi) (fun _ hi => hi) rfl rfl rfl

theorem Watched.Inv.spawn (h : s.Inv) (hm : t ∈ s.exec.unspawned) :
    Watched.Inv ⟨{ s.exec with unspawned := s.exec.unspawned.erase t, taskQueue := s.exec.taskQueue ++ [t] },
      s.owed⟩ := by
  refine ⟨h.sound.spawn hm, ?_, ?_⟩
  · intro id hid
    rw [spawn_places hm]
    exact h.unfinished id hid
  · intro id hid
    exact (h.kept id hid).of_more (fun _ => mem_append_left _) (fun _ hi => hi) rfl rfl rfl

theorem mem_wakeTask {s : Executor} (hg : s.InTime (.wake t) = true) : t ∈ (s.wakeTask t).wakeQueue := by
  simp only [InTime, Bool.or_eq_true, decide_eq_true_eq, contains_iff_mem] at hg
  unfold wakeTask
  split
  · exact mem_append_right _ (mem_singleton_self t)
  · rename_i hn
    exact hg.resolve_left hn

theorem wakeTask_mono (s : Executor) (t i : TaskId) (h : i ∈ s.wakeQueue) : i ∈ (s.wakeTask t).wakeQueue := by
  unfold wakeTask
  split
  · exact mem_append_left _ h
  · exact h

theorem Watched.Inv.wake (h : s.Inv) (hk : t ∈ s.exec.wakers) (hg : s.exec.InTime (.wake t) = true) :
    Watched.Inv ⟨s.exec.wakeTask t, owedAfter s.exec s.owed (.wake t)⟩ := by
  have hmono := wakeTask_mono s.exec t
  have hmem := mem_wakeTask hg
  obtain ⟨q, he⟩ := wakeTask_eq s.exec t
  rw [he] at hmono hmem ⊢
  have hold : ∀ id ∈ s.owed, Kept { s.exec with wakeQueue := q } id := fun id hid =>
    (h.kept id hid).of_more (fun _ hi => hi) hmono rfl rfl rfl
  refine ⟨he ▸ h.sound.wakeTask t, ?_, ?_⟩
  · intro id hid
    simp only [owedAfter] at hid
    split at hid
    · exact h.unfinished id hid
    rename_i hne
    rcases Finset.mem_insert.mp hid with rfl | hid
    · exact ⟨hk, hne⟩
    · exact h.unfinished id hid
  · intro id hid
    simp only [owedAfter] at hid
    split at hid
    · exact hold id hid
    · rcases Finset.mem_insert.mp hid with rfl | hid
      · exact .inr (.inl (.inl hmem))
      · exact hold id hid

theorem owedAfter_turn {s : Executor} {pc : Pc} (hw : s.At w pc)
    (h : id ∈ owedAfter s owed (.turn w)) : id ∈ owed ∧ pc ≠ .runCache id := by
  simp only [owedAfter, show s.workers[w]? = some pc from hw] at h
  split at h
  · rename_i ht
    obtain ⟨hne, h⟩ := Finset.mem_erase.mp h
    refine ⟨h, ?_⟩
    intro he
    exact hne (Pc.runCache.inj (some.inj (ht.symm.trans (congrArg some he)))).symm
  · rename_i hn
    exact ⟨h, fun he => hn id (congrArg some he)⟩

theorem Watched.Inv.turn (h : s.Inv) {pc q : Pc} (hw : s.exec.At w pc) (ht : s.exec.turn pc = some (e, q))
    (hg : s.exec.InTime (.turn w) = true) : Watched.Inv ⟨e.goto w q, owedAfter s.exec s.owed (.turn w)⟩ := by
  refine ⟨h.sound.turn hw ht, ?_, ?_⟩
  · intro id hid
    obtain ⟨hid, -⟩ := owedAfter_turn hw hid
    obtain ⟨hk, hne⟩ := h.unfinished id hid
    rw [turn_goto_places h.sound hw ht]
    refine ⟨?_, hne⟩
    show id ∈ e.wakers
    rcases turn_wakers ht with ⟨he, -⟩ | ⟨_, -, he, -⟩ | ⟨-, -, he, -⟩
    · exact he ▸ hk
    · exact he ▸ Finset.mem_insert_of_mem hk
    · exact he ▸ hk
  · intro id hid
    obtain ⟨hid, hc⟩ := owedAfter_turn hw hid
    obtain ⟨hk, hne⟩ := h.unfinished id hid
    exact (h.kept id hid).turn h.sound hk hne hw ht hc hg

theorem owedAfter_polled {s : Executor} {ready : Bool} (hw : s.At w (.polling t))
    (h : id ∈ owedAfter s owed (.polled w ready)) : id ∈ owed ∧ ¬ (ready = true ∧ t = id) := by
  cases ready with
  | false => exact ⟨h, fun he => Bool.noConfusion he.1⟩
  | true =>
    simp only [owedAfter, show s.workers[w]? = some (.polling t) from hw] at h
    obtain ⟨hne, h⟩ := Finset.mem_erase.mp h
    exact ⟨h, fun he => hne he.2.symm⟩

theorem Watched.Inv.polled (h : s.Inv) (hw : s.exec.At w (.polling t)) (ready : Bool) :
    Watched.Inv ⟨s.exec.goto w (if ready then .doneCache t else .park t),
      owedAfter s.exec s.owed (.polled w ready)⟩ := by
  refine ⟨h.sound.polled hw ready, ?_, ?_⟩
  · intro id hid
    obtain ⟨hid, hr⟩ := owedAfter_polled hw hid
    obtain ⟨hk, hne⟩ := h.unfinished id hid
    have hp := polled_places hw ready id
    rw [if_neg hr] at hp
    exact ⟨hk, fun h0 => hne (hp.symm.trans h0)⟩
  · intro id hid
    obtain ⟨hid, hr⟩ := owedAfter_polled hw hid
    exact (h.kept id hid).polled hw hr

end

theorem watched_inv {s : Watched} (h : watched.Reach (fun s ev => s.exec.InTime ev = true) s) : s.Inv := by
  refine h.inv ?_ ?_
  · intro s hs
    obtain ⟨n, rfl⟩ := hs
    exact ⟨boot_sound n, fun id hid => absurd hid (Finset.notMem_empty id), fun id hid =>
      absurd hid (Finset.notMem_empty id)⟩
  · intro s ev s' h hg hs
    obtain ⟨e, he, rfl⟩ := of_map hs
    cases ev with
    | newTask =>
      cases he
      exact h.newTask
    | spawn t =>
      obtain ⟨hm, ⟨⟩⟩ := of_guard he
      exact h.spawn hm
    | wake t =>
      obtain ⟨hk, ⟨⟩⟩ := of_guard he
      exact h.wake hk hg
    | turn w =>
      obtain ⟨_, hw, he⟩ := of_bind he
      obtain ⟨⟨_, q⟩, ht, rfl⟩ := of_map he
      exact h.turn hw ht hg
    | polled w ready =>
      simp only [Executor.step] at he
      split at he
      · rename_i t hw
        cases he
        exact h.polled hw ready
      · cases he

/-- In every run that meets the condition, an unfinished task of which a waker was fired
    since its last poll began is on its way to the next one. If it is parked, something is
    left that takes it out of `WAIT_MAP`. -/
theorem no_lost_wakeup {s : Watched} (h : watched.Reach (fun s ev => s.exec.InTime ev = true) s) {id : TaskId}
    (hid : id ∈ s.owed) : s.exec.Covered id ∧ (id ∈ s.exec.waitMap → s.exec.WillRequeue id) := by
  have hi := watched_inv h
  have hk := hi.kept id hid
  exact ⟨hk.covered, fun hm => hk.willRequeue hi.sound hm⟩

/-- Worker 0 polls task 0, whose waker fires meanwhile; worker 1 pops the wake and misses
    the task in `WAIT_MAP`. -/
def missedTrace : List Ev :=
  [.newTask, .spawn 0, .turn 0, .turn 0, .turn 0, .wake 0, .turn 1, .turn 1, .turn 1]

/-- The wake is left in `DEFERRED_WAKES` before the task is parked. -/
theorem no_lost_wakeup_deferred : ∃ s : Watched, watched.Reach (fun s ev => s.exec.InTime ev = true) s ∧
    0 ∈ s.owed ∧ 0 ∈ s.exec.waitMap ∧ s.exec.Covered 0 ∧ s.exec.WillRequeue 0 := by
  obtain ⟨s, hr, howed, hwait⟩ : ∃ s : Watched, watched.Reach (fun s ev => s.exec.InTime ev = true) s ∧ 0 ∈ s.owed ∧
      0 ∈ s.exec.waitMap :=
    Machine.exists_reach ⟨boot 2, ∅⟩ (missedTrace ++ [.turn 1, .polled 0 false, .turn 0]) ⟨2, rfl⟩ (by decide)
  obtain ⟨hc, hw⟩ := no_lost_wakeup hr howed
  exact ⟨s, hr, howed, hwait, hc, hw hwait⟩

/-- Worker 0 parks the task and looks into `DEFERRED_WAKES` before worker 1 has filled it.
    The wake is consumed, the task is parked and nothing takes it out: both workers halt. -/
theorem a_wake_is_lost_between_miss_and_insert : ∃ s : Watched, watched.Reachable s ∧
    0 ∈ s.owed ∧ 0 ∈ s.exec.waitMap ∧ ¬ s.exec.Covered 0 ∧ ¬ s.exec.WillRequeue 0 ∧
    s.exec.taskQueue = [] ∧ s.exec.wakeQueue = [] ∧ s.exec.workers = [.halted, .halted] :=
  Machine.exists_reachable ⟨boot 2, ∅⟩ (missedTrace ++
    [.polled 0 false, .turn 0, .turn 0, .turn 1,
      .turn 0, .turn 0, .turn 0, .turn 0, .turn 1, .turn 1, .turn 1, .turn 1]) ⟨2, rfl⟩ (by decide)

end Executor

end Ostoo.Task
