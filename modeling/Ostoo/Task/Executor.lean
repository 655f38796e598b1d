/-
  Ostoo.Task.Executor — the async executor: any number of worker threads over one
  `TASK_QUEUE`, `WAIT_MAP`, `WAKE_QUEUE`, `WAKER_CACHE` and `DEFERRED_WAKES`.

  A step is one lock acquisition or one operation on `WAKE_QUEUE`, so a worker's place
  (`Pc`) names the next one it will make. A task is its id: the future is opaque to the
  executor, and what a poll answers is the event's choice. Wakers are clones of an
  `Arc<TaskWaker>` that anybody may keep and fire, from an interrupt too, once the task's
  first poll has created it.

  A task is in one place at a time: not spawned yet, queued, parked, or in the hands of
  one worker (`Sound`).
-/

import Mathlib.Data.Finset.Insert
import Mathlib.Data.Finset.Erase
import Mathlib.Data.List.Count
import Ostoo.Lib.Machine

namespace Ostoo.Task

open Ostoo.Lib List Option

abbrev TaskId := Nat

/-- Capacity of `WAKE_QUEUE`. -/
def WAKE_QUEUE_CAP : Nat := 256

/-- What a worker does next. -/
inductive Pc where
  -- wake_tasks
  | wakePop
  | wakeTake (id : TaskId)
  | wakePush (task : TaskId)
  | wakeLookup (id : TaskId)
  | wakeDefer (id : TaskId)
  -- run_ready_tasks
  | runPop
  | runCache (task : TaskId)
  | polling (task : TaskId)
  | doneCache (id : TaskId)
  | doneDeferred (id : TaskId)
  | park (task : TaskId)
  | check (id : TaskId)
  | retake (id : TaskId)
  | requeue (task : TaskId)
  -- sleep_if_idle
  | idle
  | idleAgain
  | halted
  deriving DecidableEq, Repr

/-- The task a worker has in its hands. -/
def Pc.task? : Pc → Option TaskId
  | .wakePush t | .runCache t | .polling t | .park t | .requeue t => some t
  | _ => none

structure Executor where
  taskQueue : List TaskId
  waitMap : Finset TaskId
  wakeQueue : List TaskId
  wakerCache : Finset TaskId
  deferredWakes : Finset TaskId
  workers : List Pc
  nextId : TaskId
  /-- Created by `Task::new`, not passed to `spawn` yet. -/
  unspawned : List TaskId
  /-- The tasks a waker was created for. -/
  wakers : Finset TaskId

namespace Executor

/-- `n` workers enter `run_worker`. -/
def boot (n : Nat) : Executor :=
  ⟨[], ∅, [], ∅, ∅, List.replicate n .wakePop, 0, [], ∅⟩

section

variable (s : Executor)

def goto (w : Nat) (pc : Pc) : Executor := { s with workers := s.workers.set w pc }

/-- `ArrayQueue::push` fails when the queue is full, and `wake_task` ignores it. -/
def wakeTask (id : TaskId) : Executor :=
  if s.wakeQueue.length < WAKE_QUEUE_CAP then { s with wakeQueue := s.wakeQueue ++ [id] } else s

/-- The guard of `if let Some(t) = WAIT_MAP.lock().remove(..)` lives to the end of the
    statement: `WAIT_MAP` stays locked while the task is pushed. -/
def waitMapLocked : Bool :=
  s.workers.any fun
    | .requeue _ => true
    | _ => false

/-- The next lock acquisition or queue operation of a worker at the place, and where the
    worker is after it. -/
def turn : Pc → Option (Executor × Pc)
  | .wakePop => match s.wakeQueue with
    | [] => some (s, .runPop)
    | id :: q => some ({ s with wakeQueue := q }, .wakeTake id)
  | .wakeTake id =>
    if s.waitMapLocked then none
    else if id ∈ s.waitMap then some ({ s with waitMap := s.waitMap.erase id }, .wakePush id)
    else some (s, .wakeLookup id)
  | .wakePush t => some ({ s with taskQueue := s.taskQueue ++ [t] }, .wakePop)
  | .wakeLookup id => some (s, if id ∈ s.wakerCache then .wakeDefer id else .wakePop)
  | .wakeDefer id => some ({ s with deferredWakes := insert id s.deferredWakes }, .wakePop)
  | .runPop => match s.taskQueue with
    | [] => some (s, .idle)
    | t :: q => some ({ s with taskQueue := q }, .runCache t)
  | .runCache t =>
    some ({ s with wakerCache := insert t s.wakerCache, wakers := insert t s.wakers }, .polling t)
  -- the event `polled` ends a poll
  | .polling _ => none
  | .doneCache id => some ({ s with wakerCache := s.wakerCache.erase id }, .doneDeferred id)
  | .doneDeferred id => some ({ s with deferredWakes := s.deferredWakes.erase id }, .runPop)
  | .park t =>
    if s.waitMapLocked then none
    else some ({ s with waitMap := insert t s.waitMap }, .check t)
  | .check id =>
    if id ∈ s.deferredWakes then some ({ s with deferredWakes := s.deferredWakes.erase id }, .retake id)
    else some (s, .wakePop)
  | .retake id =>
    if s.waitMapLocked then none
    else if id ∈ s.waitMap then some ({ s with waitMap := s.waitMap.erase id }, .requeue id)
    else some (s, .runPop)
  | .requeue t => some ({ s with taskQueue := s.taskQueue ++ [t] }, .runPop)
  | .idle => some (s, if s.wakeQueue = [] then .idleAgain else .wakePop)
  | .idleAgain => some (s, if s.wakeQueue = [] then .halted else .wakePop)
  | .halted => some (s, .wakePop)

inductive Ev where
  | newTask
  | spawn (id : TaskId)
  | wake (id : TaskId)
  | turn (w : Nat)
  /-- The poll that worker `w` is in returns. -/
  | polled (w : Nat) (ready : Bool)
  deriving DecidableEq, Repr

def step : Ev → Option Executor
  | .newTask => some { s with nextId := s.nextId + 1, unspawned := s.unspawned ++ [s.nextId] }
  | .spawn id =>
    if id ∈ s.unspawned then
      some { s with unspawned := s.unspawned.erase id, taskQueue := s.taskQueue ++ [id] }
    else none
  | .wake id => if id ∈ s.wakers then some (s.wakeTask id) else none
  | .turn w => s.workers[w]?.bind fun pc => (s.turn pc).map fun (e, q) => e.goto w q
  | .polled w ready => match s.workers[w]? with
    | some (.polling t) => some (s.goto w (if ready then .doneCache t else .park t))
    | _ => none

/-! ## Where a worker is -/

/-- Worker `w` is at the place. -/
def At (w : Nat) (pc : Pc) : Prop := s.workers[w]? = some pc

end

variable {s s' e : Executor} {w v : Nat} {pc q : Pc} {id t : TaskId}

theorem At.unique (h : s.At w pc) (h' : s.At w q) : pc = q := some.inj (h.symm.trans h')

@[simp] theorem at_goto_self (h : s.At w pc) : (s.goto w q).At w q := by
  obtain ⟨hw, -⟩ := List.getElem?_eq_some_iff.mp h
  exact getElem?_set_self hw

theorem at_goto_ne (hv : v ≠ w) : (s.goto w q).At v pc ↔ s.At v pc := by
  unfold At goto
  rw [getElem?_set_ne (Ne.symm hv)]

theorem At.goto (h : s.At v pc) : v = w ∨ (s.goto w q).At v pc := by
  by_cases hv : v = w
  · exact .inl hv
  · exact .inr ((at_goto_ne hv).mpr h)

theorem at_of_goto (hw : s.At w pc) {p : Pc} (h : (s.goto w q).At v p) : (v = w ∧ p = q) ∨ (v ≠ w ∧ s.At v p) := by
  by_cases hv : v = w
  · subst hv
    exact .inl ⟨rfl, h.unique (at_goto_self hw)⟩
  · exact .inr ⟨hv, (at_goto_ne hv).mp h⟩

/-! ## Each task is in one place -/

/-- The number of workers with the task in their hands. -/
def inHands (s : Executor) (id : TaskId) : Nat := s.workers.countP (·.task? == some id)

/-- The number of places the task is in: 0 once it has returned `Ready`, or before it exists. -/
def places (s : Executor) (id : TaskId) : Nat :=
  s.unspawned.count id + s.taskQueue.count id + (if id ∈ s.waitMap then 1 else 0) + s.inHands id

theorem inHands_goto (h : s.At w pc) (q : Pc) (id : TaskId) :
    (s.goto w q).inHands id + (if pc.task? = some id then 1 else 0) =
      s.inHands id + (if q.task? = some id then 1 else 0) := by
  obtain ⟨hw, hpc⟩ := List.getElem?_eq_some_iff.mp h
  have hle : (if pc.task? = some id then 1 else 0) ≤ s.inHands id := by
    split
    · rename_i ht
      exact countP_pos_iff.mpr ⟨pc, hpc ▸ getElem_mem hw, by simp [ht]⟩
    · exact Nat.zero_le _
  unfold inHands at hle ⊢
  unfold goto
  rw [countP_set hw, hpc]
  simp only [beq_iff_eq]
  omega

theorem At.inHands_pos (h : s.At w pc) (ht : pc.task? = some id) : 0 < s.inHands id :=
  countP_pos_iff.mpr ⟨pc, mem_of_getElem? h, by simp [ht]⟩

theorem exists_of_inHands (h : s.inHands id ≠ 0) : ∃ w pc, s.At w pc ∧ pc.task? = some id := by
  obtain ⟨pc, hm, ht⟩ := countP_pos_iff.mp (Nat.pos_of_ne_zero h)
  obtain ⟨w, hw⟩ := mem_iff_getElem?.mp hm
  exact ⟨w, pc, hw, by simpa using ht⟩

theorem places_goto (h : s.At w pc) (q : Pc) (id : TaskId) :
    (s.goto w q).places id + (if pc.task? = some id then 1 else 0) =
      s.places id + (if q.task? = some id then 1 else 0) := by
  have hh := inHands_goto h q id
  show s.unspawned.count id + s.taskQueue.count id + (if id ∈ s.waitMap then 1 else 0) + (s.goto w q).inHands id + _ = _
  unfold places
  omega

theorem places_push (t id : TaskId) :
    places { s with taskQueue := s.taskQueue ++ [t] } id = s.places id + (if t = id then 1 else 0) := by
  simp only [places, inHands, count_append, count_singleton, beq_iff_eq]
  omega

theorem places_pop {q : List TaskId} (hq : s.taskQueue = t :: q) (id : TaskId) :
    places { s with taskQueue := q } id + (if t = id then 1 else 0) = s.places id := by
  simp only [places, inHands, hq, count_cons, beq_iff_eq]
  omega

theorem places_unpark (ht : t ∈ s.waitMap) (id : TaskId) :
    places { s with waitMap := s.waitMap.erase t } id + (if t = id then 1 else 0) = s.places id := by
  simp only [places, inHands, Finset.mem_erase]
  by_cases he : t = id
  · subst he
    simp only [ne_eq, not_true_eq_false, false_and, if_false, ht, if_true]
    omega
  · simp only [Ne.symm he, ne_eq, not_false_eq_true, true_and, he, if_false]
    omega

theorem places_park (ht : t ∉ s.waitMap) (id : TaskId) :
    places { s with waitMap := insert t s.waitMap } id = s.places id + (if t = id then 1 else 0) := by
  simp only [places, inHands, Finset.mem_insert]
  by_cases he : t = id
  · subst he
    simp only [true_or, if_true, ht, if_false]
    omega
  · simp only [Ne.symm he, false_or, he, if_false]
    omega

/-- Some worker is finishing the task. -/
def Finishing (s : Executor) (id : TaskId) : Prop := ∃ w, s.At w (.doneCache id) ∨ s.At w (.doneDeferred id)

/-- What the code keeps at every step, races or not. -/
structure Sound (s : Executor) : Prop where
  one : ∀ id, s.places id ≤ 1
  fresh : ∀ id, s.nextId ≤ id → s.places id = 0
  finishing : ∀ id, s.Finishing id → s.places id = 0 ∧ id < s.nextId
  woken : ∀ id ∈ s.wakers, id < s.nextId ∧ id ∉ s.unspawned
  cached : ∀ id ∈ s.wakers, s.places id ≠ 0 → id ∈ s.wakerCache

/-- A task that is in a worker's hands is nowhere else. -/
theorem Sound.in_hands (h : Sound s) (hw : s.At w pc) (ht : pc.task? = some t) :
    t < s.nextId ∧ t ∉ s.unspawned ∧ t ∉ s.taskQueue ∧ t ∉ s.waitMap ∧ s.places t = 1 := by
  have hone := h.one t
  have hpos := hw.inHands_pos ht
  have hlt : t < s.nextId := by
    by_contra hn
    have h0 := h.fresh t (Nat.le_of_not_lt hn)
    unfold places at h0
    omega
  unfold places at hone ⊢
  refine ⟨hlt, ?_, ?_, ?_, ?_⟩
  · intro hm
    have := count_pos_iff.mpr hm
    omega
  · intro hm
    have := count_pos_iff.mpr hm
    omega
  · intro hm
    rw [if_pos hm] at hone
    omega
  · omega

theorem turn_frame (hs : s.turn pc = some (e, q)) :
    e.workers = s.workers ∧ e.nextId = s.nextId ∧ e.unspawned = s.unspawned := by
  revert hs
  fun_cases turn s pc <;> intro hs <;> cases hs <;> exact ⟨rfl, rfl, rfl⟩

/-- Only a poll creates a waker, and only the end of the last one drops the cached copy. -/
theorem turn_wakers (hs : s.turn pc = some (e, q)) :
    (e.wakers = s.wakers ∧ e.wakerCache = s.wakerCache) ∨
    (∃ t, pc = .runCache t ∧ e.wakers = insert t s.wakers ∧ e.wakerCache = insert t s.wakerCache) ∨
    ∃ id, pc = .doneCache id ∧ e.wakers = s.wakers ∧ e.wakerCache = s.wakerCache.erase id := by
  revert hs
  fun_cases turn s pc <;> intro hs <;> cases hs <;> simp

theorem turn_finishing (hs : s.turn pc = some (e, q)) (id : TaskId) :
    q ≠ .doneCache id ∧ (q = .doneDeferred id → pc = .doneCache id) := by
  revert hs
  fun_cases turn s pc <;> intro hs <;> cases hs <;> simp <;> split <;> simp

theorem turn_places (hp : ∀ t, pc.task? = some t → t ∉ s.waitMap) (hs : s.turn pc = some (e, q)) (id : TaskId) :
    e.places id + (if q.task? = some id then 1 else 0) = s.places id + (if pc.task? = some id then 1 else 0) := by
  revert hp hs
  fun_cases turn s pc <;> intro hp hs <;> cases hs
  -- a task goes from the wait map to a worker
  case case4 t _ hm | case20 t _ hm =>
    have hu := places_unpark hm id
    simp only [Pc.task?, some.injEq, reduceCtorEq, if_false]
    omega
  -- from a worker to the queue
  case case6 t | case22 t =>
    have hu := places_push (s := s) t id
    simp only [Pc.task?, some.injEq, reduceCtorEq, if_false]
    omega
  -- from the queue to a worker
  case case10 t q hq =>
    have hu := places_pop hq id
    simp only [Pc.task?, some.injEq, reduceCtorEq, if_false]
    omega
  -- from a worker to the wait map
  case case16 t _ =>
    have hu := places_park (hp t rfl) id
    simp only [Pc.task?, some.injEq, reduceCtorEq, if_false]
    omega
  case case7 | case23 | case24 => split <;> rfl
  all_goals rfl

theorem Sound.of_moved (h : Sound s) (hp : ∀ id, s'.places id = s.places id) (hn : s'.nextId = s.nextId)
    (hu : ∀ id ∈ s'.unspawned, id ∈ s.unspawned) (hf : ∀ id, s'.Finishing id → s.Finishing id)
    (hw : ∀ id ∈ s'.wakers, id ∈ s.wakers ∨ (id < s.nextId ∧ id ∉ s.unspawned))
    (hc : ∀ id ∈ s'.wakers, s.places id ≠ 0 → id ∈ s'.wakerCache) : Sound s' where
  one id := hp id ▸ h.one id
  fresh id hid := hp id ▸ h.fresh id (hn ▸ hid)
  finishing id hid := by
    rw [hp, hn]
    exact h.finishing id (hf id hid)
  woken id hid := by
    rw [hn]
    rcases hw id hid with hid | ⟨hlt, hid⟩
    · exact ⟨(h.woken id hid).1, fun hm => (h.woken id hid).2 (hu id hm)⟩
    · exact ⟨hlt, fun hm => hid (hu id hm)⟩
  cached id hid := hp id ▸ hc id hid

theorem At.congr (he : e.workers = s.workers) : e.At w pc ↔ s.At w pc := by
  unfold At
  rw [he]

theorem turn_goto_places (h : Sound s) (hw : s.At w pc) (hs : s.turn pc = some (e, q)) (id : TaskId) :
    (e.goto w q).places id = s.places id := by
  have ht := turn_places (fun t ht => (h.in_hands hw ht).2.2.2.1) hs id
  have hg := places_goto ((At.congr (turn_frame hs).1).mpr hw) q id
  omega

theorem turn_goto_finishing (hw : s.At w pc) (hs : s.turn pc = some (e, q)) (h : (e.goto w q).Finishing id) :
    s.Finishing id := by
  have hc : ∀ {v p}, e.At v p ↔ s.At v p := At.congr (turn_frame hs).1
  obtain ⟨hne, hd⟩ := turn_finishing hs id
  obtain ⟨v, hv | hv⟩ := h
  · rcases at_of_goto (hc.mpr hw) hv with ⟨-, he⟩ | ⟨-, hv⟩
    · exact absurd he.symm hne
    · exact ⟨v, .inl (hc.mp hv)⟩
  · rcases at_of_goto (hc.mpr hw) hv with ⟨-, he⟩ | ⟨-, hv⟩
    · exact ⟨w, .inl (hd he.symm ▸ hw)⟩
    · exact ⟨v, .inr (hc.mp hv)⟩

theorem Sound.turn (h : Sound s) (hw : s.At w pc) (hs : s.turn pc = some (e, q)) : Sound (e.goto w q) := by
  obtain ⟨-, hn, hu⟩ := turn_frame hs
  refine h.of_moved (turn_goto_places h hw hs) hn (fun id hid => hu ▸ hid) (fun id => turn_goto_finishing hw hs) ?_ ?_
  · intro id hid
    rcases turn_wakers hs with ⟨hk, -⟩ | ⟨t, rfl, hk, -⟩ | ⟨i, -, hk, -⟩
    · exact .inl (hk ▸ hid)
    · change id ∈ e.wakers at hid
      rw [hk, Finset.mem_insert] at hid
      rcases hid with rfl | hid
      · obtain ⟨hlt, hun, -⟩ := h.in_hands hw rfl
        exact .inr ⟨hlt, hun⟩
      · exact .inl hid
    · exact .inl (hk ▸ hid)
  · intro id hid hne
    change id ∈ e.wakers at hid
    show id ∈ e.wakerCache
    rcases turn_wakers hs with ⟨hk, hc⟩ | ⟨_, rfl, hk, hc⟩ | ⟨_, rfl, hk, hc⟩
    · exact hc ▸ h.cached id (hk ▸ hid) hne
    · rw [hk, Finset.mem_insert] at hid
      rw [hc, Finset.mem_insert]
      exact hid.imp_right fun hid => h.cached id hid hne
    · rw [hc, Finset.mem_erase]
      refine ⟨?_, h.cached id (hk ▸ hid) hne⟩
      intro he
      subst he
      exact hne (h.finishing id ⟨w, .inl hw⟩).1

theorem newTask_places (id : TaskId) :
    places { s with nextId := s.nextId + 1, unspawned := s.unspawned ++ [s.nextId] } id =
      s.places id + (if s.nextId = id then 1 else 0) := by
  simp only [places, inHands, count_append, count_singleton, beq_iff_eq]
  omega

theorem Sound.newTask (h : Sound s) :
    Sound { s with nextId := s.nextId + 1, unspawned := s.unspawned ++ [s.nextId] } where
  one id := by
    rw [newTask_places]
    split
    · rename_i he
      rw [h.fresh id (le_of_eq he)]
    · exact h.one id
  fresh id hid := by
    rw [newTask_places, h.fresh id (le_of_lt hid), if_neg (ne_of_lt hid)]
  finishing id hid := by
    obtain ⟨h0, hlt⟩ := h.finishing id hid
    rw [newTask_places, h0, if_neg (ne_of_gt hlt)]
    exact ⟨rfl, Nat.lt_succ_of_lt hlt⟩
  woken id hid := by
    obtain ⟨hlt, hun⟩ := h.woken id hid
    refine ⟨Nat.lt_succ_of_lt hlt, ?_⟩
    simp only [mem_append, mem_singleton, not_or]
    exact ⟨hun, ne_of_lt hlt⟩
  cached id hid hne := by
    obtain ⟨hlt, -⟩ := h.woken id hid
    rw [newTask_places, if_neg (ne_of_gt hlt)] at hne
    exact h.cached id hid hne

theorem spawn_places (hm : t ∈ s.unspawned) (id : TaskId) :
    places { s with unspawned := s.unspawned.erase t, taskQueue := s.taskQueue ++ [t] } id = s.places id := by
  simp only [places, inHands, count_append, count_singleton, beq_iff_eq]
  by_cases he : t = id
  · subst he
    have := count_pos_iff.mpr hm
    rw [count_erase_self, if_pos rfl]
    omega
  · rw [count_erase_of_ne (Ne.symm he), if_neg he]
    omega

theorem Sound.spawn (h : Sound s) (hm : t ∈ s.unspawned) :
    Sound { s with unspawned := s.unspawned.erase t, taskQueue := s.taskQueue ++ [t] } :=
  h.of_moved (spawn_places hm) rfl (fun _ => mem_of_mem_erase) (fun _ => id) (fun _ => .inl) h.cached

theorem wakeTask_eq (s : Executor) (t : TaskId) : ∃ q, s.wakeTask t = { s with wakeQueue := q } := by
  unfold wakeTask
  split
  · exact ⟨_, rfl⟩
  · exact ⟨_, rfl⟩

theorem Sound.wakeTask (h : Sound s) (t : TaskId) : Sound (s.wakeTask t) := by
  obtain ⟨_, he⟩ := wakeTask_eq s t
  rw [he]
  exact h.of_moved (fun _ => rfl) rfl (fun _ => id) (fun _ => id) (fun _ => .inl) h.cached

theorem polled_places (hw : s.At w (.polling t)) (ready : Bool) (id : TaskId) :
    (s.goto w (if ready then .doneCache t else .park t)).places id + (if ready = true ∧ t = id then 1 else 0) =
      s.places id := by
  have hg := places_goto hw (if ready then .doneCache t else .park t) id
  cases ready with
  | true =>
    simp only [if_true, Pc.task?, some.injEq, reduceCtorEq, if_false, true_and] at hg ⊢
    exact hg
  | false =>
    simp only [Bool.false_eq_true, if_false, Pc.task?, some.injEq, false_and] at hg ⊢
    omega

theorem Sound.polled (h : Sound s) (hw : s.At w (.polling t)) (ready : Bool) :
    Sound (s.goto w (if ready then .doneCache t else .park t)) := by
  have hp := polled_places hw ready
  have hle : ∀ id, (s.goto w (if ready then .doneCache t else .park t)).places id ≤ s.places id := by
    intro id
    have := hp id
    omega
  obtain ⟨hlt, -, -, -, _⟩ := h.in_hands hw rfl
  refine ⟨fun id => (hle id).trans (h.one id), fun id hid => Nat.le_zero.mp (h.fresh id hid ▸ hle id), ?_, h.woken, ?_⟩
  · intro id hid
    obtain ⟨v, hv⟩ := hid
    by_cases hf : s.Finishing id
    · obtain ⟨h0, hlt⟩ := h.finishing id hf
      exact ⟨Nat.le_zero.mp (h0 ▸ hle id), hlt⟩
    -- only the poll that just returned can have begun to finish its task
    have hq : ready = true ∧ t = id := by
      rcases hv with hv | hv
      · rcases at_of_goto hw hv with ⟨-, he⟩ | ⟨-, hv⟩
        · cases ready <;> simp_all
        · exact absurd ⟨v, .inl hv⟩ hf
      · rcases at_of_goto hw hv with ⟨-, _⟩ | ⟨-, hv⟩
        · cases ready <;> simp_all
        · exact absurd ⟨v, .inr hv⟩ hf
    have h1 := hp id
    rw [if_pos hq] at h1
    obtain ⟨-, rfl⟩ := hq
    exact ⟨by omega, hlt⟩
  · intro id hid hne
    refine h.cached id hid ?_
    have := hle id
    omega

theorem Sound.step {ev : Ev} (h : Sound s) (hs : s.step ev = some s') : Sound s' := by
  cases ev with
  | newTask =>
    cases hs
    exact h.newTask
  | spawn t =>
    obtain ⟨hm, ⟨⟩⟩ := of_guard hs
    exact h.spawn hm
  | wake id =>
    obtain ⟨-, ⟨⟩⟩ := of_guard hs
    exact h.wakeTask id
  | turn w =>
    obtain ⟨_, hw, hs⟩ := of_bind hs
    obtain ⟨⟨_, q⟩, ht, rfl⟩ := of_map hs
    exact h.turn hw ht
  | polled w ready =>
    simp only [Executor.step] at hs
    split at hs
    · rename_i t hw
      cases hs
      exact h.polled hw ready
    · cases hs

theorem boot_sound (n : Nat) : Sound (boot n) := by
  have hp : ∀ id, (boot n).places id = 0 := by
    intro id
    simp [places, boot, inHands, Pc.task?]
  refine ⟨fun id => hp id ▸ Nat.zero_le 1, fun id _ => hp id, ?_, by simp [boot], by simp [boot]⟩
  intro id hid
  obtain ⟨_, hw⟩ := hid
  simp [At, boot, getElem?_replicate] at hw

end Executor

end Ostoo.Task
