/-
  Ostoo.Task.Conservation — what becomes of a task that was spawned.

  Beside the executor it is recorded which tasks were passed to `spawn` and which returned
  `Ready`. Whatever the workers, the wakers and the spawners do, lock by lock, a task that
  was spawned and has not returned `Ready` is in `TASK_QUEUE`, in `WAIT_MAP` or in the
  hands of one worker, in one of them and once; any other task is in none
  (`Recorded.Conserved`). So a poll is made by one worker, of a task that is not done.
-/

import Mathlib.Data.Finset.Lattice.Lemmas
import Ostoo.Task.Executor

namespace Ostoo.Task

open Ostoo.Lib List

namespace Executor

variable {s s' e : Executor} {w v : Nat} {pc q : Pc} {id t : TaskId}

/-- The number of places in the executor that the task is in. -/
def held (s : Executor) (id : TaskId) : Nat :=
  s.taskQueue.count id + (if id ∈ s.waitMap then 1 else 0) + s.inHands id

theorem places_eq_held (s : Executor) (id : TaskId) : s.places id = s.unspawned.count id + s.held id := by
  unfold places held
  omega

/-- The task that an event passes to the executor. -/
def Ev.spawned? : Ev → Option TaskId
  | .spawn id => some id
  | _ => none

/-- The task that an event reports as done. -/
def finished? (s : Executor) : Ev → Option TaskId
  | .polled w true => match s.workers[w]? with
    | some (.polling t) => some t
    | _ => none
  | _ => none

/-! ## What an event does to a task -/

theorem held_turn (h : Sound s) (hw : s.At w pc) (hs : s.turn pc = some (e, q)) (id : TaskId) :
    (e.goto w q).held id = s.held id := by
  have hp := turn_goto_places h hw hs id
  rw [places_eq_held, places_eq_held, show (e.goto w q).unspawned = s.unspawned from (turn_frame hs).2.2] at hp
  omega

theorem held_spawn (t id : TaskId) :
    held { s with unspawned := s.unspawned.erase t, taskQueue := s.taskQueue ++ [t] } id =
      s.held id + (if t = id then 1 else 0) := by
  simp only [held, inHands, count_append, count_singleton, beq_iff_eq]
  omega

theorem held_polled (hw : s.At w (.polling t)) (ready : Bool) (id : TaskId) :
    (s.goto w (if ready then .doneCache t else .park t)).held id + (if ready = true ∧ t = id then 1 else 0) =
      s.held id := by
  have hp := polled_places hw ready id
  rw [places_eq_held, places_eq_held] at hp
  change s.unspawned.count id + _ + _ = _ at hp
  omega

/-- Two workers do not have one task in their hands. -/
theorem Sound.one_worker (h : Sound s) {p : Pc} (hw : s.At w pc) (hv : s.At v p) (ht : pc.task? = some t)
    (ht' : p.task? = some t) : w = v := by
  by_contra hne
  have hone := h.one t
  rw [places_eq_held] at hone
  unfold held at hone
  have hmoved := inHands_goto hw .wakePop t
  rw [if_pos ht, if_neg (by simp [Pc.task?])] at hmoved
  have hpos := ((at_goto_ne (q := .wakePop) (Ne.symm hne)).mpr hv).inHands_pos ht'
  omega

end Executor

open Executor

/-- The executor, the tasks passed to `spawn` and those that returned `Ready`. -/
structure Recorded where
  exec : Executor
  spawned : Finset TaskId
  finished : Finset TaskId

namespace Recorded

variable {r r' : Recorded} {t : TaskId} {w : Nat}

def step (r : Recorded) (ev : Ev) : Option Recorded :=
  (r.exec.step ev).map fun e =>
    ⟨e, ev.spawned?.elim r.spawned (insert · r.spawned), (r.exec.finished? ev).elim r.finished (insert · r.finished)⟩

/-- Any number of workers. -/
def machine : Machine Recorded Ev where
  start r := ∃ n, r = ⟨boot n, ∅, ∅⟩
  step := step

structure Conserved (r : Recorded) : Prop where
  sound : Sound r.exec
  held : ∀ id, r.exec.held id = if id ∈ r.spawned ∧ id ∉ r.finished then 1 else 0
  spawned : ∀ id ∈ r.spawned, id ∉ r.exec.unspawned ∧ id < r.exec.nextId
  finished : r.finished ⊆ r.spawned

/-- An event that neither spawns a task nor finishes one. -/
theorem Conserved.keep (h : Conserved r) {e : Executor} (hs : Sound e) (hheld : ∀ id, e.held id = r.exec.held id)
    (hu : ∀ id, id < r.exec.nextId → id ∈ e.unspawned → id ∈ r.exec.unspawned) (hn : r.exec.nextId ≤ e.nextId) :
    Conserved ⟨e, r.spawned, r.finished⟩ where
  sound := hs
  held id := (hheld id).trans (h.held id)
  spawned id hid := by
    obtain ⟨hun, hlt⟩ := h.spawned id hid
    exact ⟨fun hm => hun (hu id hlt hm), hlt.trans_le hn⟩
  finished := h.finished

theorem Conserved.spawn (h : Conserved r) (ht : t ∈ r.exec.unspawned) :
    Conserved ⟨{ r.exec with unspawned := r.exec.unspawned.erase t, taskQueue := r.exec.taskQueue ++ [t] },
      insert t r.spawned, r.finished⟩ := by
  have hnew : t ∉ r.spawned := fun hm => (h.spawned t hm).1 ht
  have hone := h.sound.one t
  rw [places_eq_held] at hone
  have hpos := count_pos_iff.mpr ht
  refine ⟨h.sound.spawn ht, ?_, ?_, h.finished.trans (Finset.subset_insert _ _)⟩
  · intro id
    rw [held_spawn, h.held id]
    by_cases he : t = id
    · subst he
      rw [if_neg (fun hm => hnew hm.1), if_pos rfl, if_pos ⟨Finset.mem_insert_self _ _, fun hm => hnew (h.finished hm)⟩]
    · simp [he, Ne.symm he]
  · intro id hid
    rcases Finset.mem_insert.mp hid with rfl | hid
    · refine ⟨fun hm => ?_, ?_⟩
      · have := count_pos_iff.mpr hm
        rw [count_erase_self] at this
        omega
      · by_contra hn
        have := h.sound.fresh id (Nat.le_of_not_lt hn)
        rw [places_eq_held] at this
        omega
    · obtain ⟨hun, hlt⟩ := h.spawned id hid
      exact ⟨fun hm => hun (mem_of_mem_erase hm), hlt⟩

theorem Conserved.in_hands (h : Conserved r) {pc : Pc} (hw : r.exec.At w pc) (ht : pc.task? = some t) :
    t ∈ r.spawned ∧ t ∉ r.finished := by
  have hpos := hw.inHands_pos ht
  have hheld := h.held t
  unfold Executor.held at hheld
  by_contra hn
  rw [if_neg hn] at hheld
  omega

theorem Conserved.finish (h : Conserved r) (hw : r.exec.At w (.polling t)) :
    Conserved ⟨r.exec.goto w (.doneCache t), r.spawned, insert t r.finished⟩ := by
  have hs := h.sound.polled hw true
  obtain ⟨hsp, hfin⟩ := h.in_hands hw rfl
  refine ⟨hs, ?_, h.spawned, Finset.insert_subset hsp h.finished⟩
  intro id
  have hp := held_polled hw true id
  simp only [if_true, true_and] at hp
  rw [h.held id] at hp
  by_cases he : t = id
  · subst he
    rw [if_pos rfl, if_pos ⟨hsp, hfin⟩] at hp
    rw [if_neg (fun hm => hm.2 (Finset.mem_insert_self _ _))]
    show (r.exec.goto w (.doneCache t)).held t = 0
    omega
  · rw [if_neg he] at hp
    simpa [Ne.symm he] using hp

theorem Conserved.step {ev : Ev} (h : Conserved r) (hs : r.step ev = some r') : Conserved r' := by
  obtain ⟨e, he, rfl⟩ := of_map hs
  have hsound := h.sound.step he
  cases ev with
  | newTask =>
    cases he
    refine h.keep hsound (fun _ => rfl) ?_ (Nat.le_succ _)
    intro id hlt hm
    rcases mem_append.mp hm with hm | hm
    · exact hm
    · exact absurd (mem_singleton.mp hm) (ne_of_lt hlt)
  | spawn t =>
    obtain ⟨hm, ⟨⟩⟩ := of_guard he
    exact h.spawn hm
  | wake id =>
    obtain ⟨-, ⟨⟩⟩ := of_guard he
    obtain ⟨q, hq⟩ := wakeTask_eq r.exec id
    rw [hq] at hsound ⊢
    exact h.keep hsound (fun _ => rfl) (fun _ _ hm => hm) le_rfl
  | turn w =>
    obtain ⟨_, hw, he⟩ := of_bind he
    obtain ⟨⟨_, _⟩, ht, rfl⟩ := of_map he
    obtain ⟨-, hn, hu⟩ := turn_frame ht
    refine h.keep hsound (held_turn h.sound hw ht) ?_ (le_of_eq hn.symm)
    intro id _ hm
    exact hu ▸ hm
  | polled w ready =>
    simp only [Executor.step] at he
    split at he
    · rename_i t hw
      cases he
      cases ready with
      | true =>
        have hfin : r.exec.finished? (.polled w true) = some t := by
          simp only [finished?, hw]
        rw [hfin]
        exact h.finish hw
      | false =>
        have hheld := held_polled hw false
        exact h.keep hsound hheld (fun _ _ hm => hm) le_rfl
    · cases he

theorem boot_conserved (n : Nat) : Conserved ⟨boot n, ∅, ∅⟩ := by
  refine ⟨boot_sound n, ?_, by simp, Finset.Subset.refl _⟩
  intro id
  simp [Executor.held, boot, inHands, Pc.task?]

theorem reachable_conserved (h : machine.Reachable r) : Conserved r := by
  refine Machine.Reach.inv (fun r hr => ?_) (fun _ _ _ hi _ hs => hi.step hs) h
  obtain ⟨n, rfl⟩ := hr
  exact boot_conserved n

theorem finished_subset (h : (machine.startedAt r).Reachable r') : r.finished ⊆ r'.finished := by
  refine Machine.Reach.inv_from (I := fun x => r.finished ⊆ x.finished) (Finset.Subset.refl _)
    (fun x ev y hi _ hs => ?_) h
  obtain ⟨-, -, rfl⟩ := of_map hs
  show r.finished ⊆ (x.exec.finished? ev).elim x.finished (insert · x.finished)
  cases x.exec.finished? ev with
  | none => exact hi
  | some t => exact hi.trans (Finset.subset_insert t _)

end Recorded

open Recorded

theorem executor_conservation (r : Recorded) (h : machine.Reachable r) :
    (∀ id ∈ r.spawned, id ∉ r.finished →
      r.exec.taskQueue.count id + (if id ∈ r.exec.waitMap then 1 else 0) + r.exec.inHands id = 1) ∧
    (∀ id w v, r.exec.At w (.polling id) → r.exec.At v (.polling id) → w = v) ∧
    ∀ r', (machine.startedAt r).Reachable r' → ∀ id ∈ r.finished,
      id ∉ r'.exec.taskQueue ∧ id ∉ r'.exec.waitMap ∧ ∀ w pc, r'.exec.At w pc → pc.task? ≠ some id := by
  have hc := reachable_conserved h
  refine ⟨?_, fun id w v hw hv => hc.sound.one_worker hw hv rfl rfl, ?_⟩
  · intro id hsp hfin
    exact (hc.held id).trans (if_pos ⟨hsp, hfin⟩)
  · intro r' hr' id hid
    have hc' := reachable_conserved (Machine.Reach.append h hr')
    have hheld := hc'.held id
    rw [if_neg (fun hm => hm.2 (finished_subset hr' hid))] at hheld
    unfold Executor.held at hheld
    refine ⟨?_, ?_, ?_⟩
    · intro hm
      have := count_pos_iff.mpr hm
      omega
    · intro hm
      rw [if_pos hm] at hheld
      omega
    · intro w pc hw ht
      exact (hc'.in_hands hw ht).2 (finished_subset hr' hid)

/-- Two workers and two tasks: one is parked, the other one done. -/
def twoTasks : List Ev :=
  [.newTask, .newTask, .spawn 0, .spawn 1, .turn 0, .turn 1, .turn 0, .turn 1, .turn 0, .turn 1, .polled 0 false,
    .polled 1 true, .turn 0]

theorem executor_conservation_two_tasks : ∃ r, machine.Reachable r ∧ r.spawned = {0, 1} ∧ r.finished = {1} ∧
    r.exec.waitMap = {0} ∧ r.exec.taskQueue.count 0 + (if 0 ∈ r.exec.waitMap then 1 else 0) + r.exec.inHands 0 = 1 := by
  obtain ⟨r, h, hsp, hfin, hwait⟩ : ∃ r, machine.Reachable r ∧ r.spawned = {0, 1} ∧ r.finished = {1} ∧
      r.exec.waitMap = {0} :=
    Machine.exists_reachable ⟨boot 2, ∅, ∅⟩ twoTasks ⟨2, rfl⟩ (by decide)
  exact ⟨r, h, hsp, hfin, hwait, (executor_conservation r h).1 0 (by simp [hsp]) (by simp [hfin])⟩

end Ostoo.Task
