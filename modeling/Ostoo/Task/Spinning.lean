/-
  Ostoo.Task.Spinning — who can meet a taken `SpinMutex` of the executor on the one CPU.

  The executor's four collections are behind `SpinMutex`es. A worker takes them with
  interrupts enabled, so the timer may end its quantum while it holds one. A syscall runs
  with interrupts disabled (`IA32_FMASK`) and calls `executor::spawn` for submissions, for
  an `io_wait` with a timeout and for every `blocking` call. A step is one attempt to take a
  lock, one critical section up to its unlock, or one operation without a lock; the timer
  ticks between any two of them if the thread that runs can be interrupted.

  A syscall that finds `TASK_QUEUE` taken by a worker that was preempted spins with
  interrupts disabled: nobody else runs until `SpinMutex::lock` panics
  (`a_syscall_spins_until_the_panic`). Without a tick that takes the CPU from a worker
  with one of the locks nobody meets it taken (`no_spinning_on_a_preempted_holder`).
-/

import Ostoo.Task.Executor
import Ostoo.Task.ReadyQueue

namespace Ostoo.Task

open Ostoo.Lib Scheduler Option

def SPIN_LIMIT : Nat := 100000000

inductive Lock where
  | taskQueue
  | waitMap
  | wakerCache
  | deferredWakes
  deriving DecidableEq, Repr

/-- The lock under which a worker at the place makes its next operation. -/
def Pc.lock? : Pc → Option Lock
  | .wakePush _ | .runPop | .requeue _ => some .taskQueue
  | .wakeTake _ | .park _ | .retake _ => some .waitMap
  | .wakeLookup _ | .runCache _ | .doneCache _ => some .wakerCache
  | .wakeDefer _ | .doneDeferred _ | .check _ => some .deferredWakes
  | .wakePop | .polling _ | .idle | .idleAgain | .halted => none

/-- Where a thread is in an operation under a lock. -/
inductive Phase where
  /-- In `SpinMutex::lock`, after so many spins. -/
  | trying (spins : Nat)
  | inside
  deriving DecidableEq, Repr

/-- What a thread is at. -/
inductive Code where
  | idle
  | worker (w : Nat) (ph : Phase)
  /-- A worker whose poll is in `executor::spawn`. -/
  | pollSpawn (w : Nat) (task : TaskId) (ph : Phase)
  | ring3
  | syscall
  /-- A syscall that is in `executor::spawn`. -/
  | sysSpawn (task : TaskId) (ph : Phase)
  deriving DecidableEq, Repr

structure Cpu where
  sched : Scheduler Code
  exec : Executor
  /-- The thread that holds a lock. -/
  holder : Lock → Option Nat
  /-- "deadlock detected in SpinMutex" -/
  panicked : Bool

namespace Cpu

/-- `m` tasks are spawned, then the boot thread and `n` more become workers. -/
def boot (n m : Nat) : Cpu where
  sched := (List.range n).foldl (fun s w => (s.spawn .kernel (w + 2) true (.worker (w + 1) (.trying 0))).1)
    (.boot (.worker 0 (.trying 0)) .idle)
  exec := { Executor.boot (n + 1) with taskQueue := List.range m, nextId := m }
  holder _ := none
  panicked := false

variable (k : Cpu)

def code? : Option Code := k.sched.current?.map (·.ctx)

def setCode (c : Code) : Cpu := { k with sched := k.sched.setCtx c }

/-- Whether the interrupt flag is set. `sleep_if_idle` clears it for its second look. -/
def interruptible : Code → Bool
  | .worker w _ => k.exec.workers[w]? ≠ some .idleAgain
  | .idle | .pollSpawn .. | .ring3 => true
  | .syscall | .sysSpawn .. => false

/-- One round of the loop of `SpinMutex::lock`. -/
def tryLock (l : Lock) (spins : Nat) (code : Phase → Code) : Cpu :=
  match k.holder l with
  | none => { k with holder := Function.update k.holder l (some k.sched.currentIdx) }.setCode (code .inside)
  | some _ => if SPIN_LIMIT ≤ spins + 1 then { k with panicked := true } else k.setCode (code (.trying (spins + 1)))

def unlock (l : Lock) : Cpu := { k with holder := Function.update k.holder l none }

/-- The guards that a worker drops after its operation. -/
def dropGuards (l : Lock) : Pc → Pc → Cpu
  | .requeue _, _ => (k.unlock .taskQueue).unlock .waitMap
  -- the guard of WAIT_MAP lives to the end of the `if let`
  | .retake _, .requeue _ => k
  | _, _ => k.unlock l

def runWorker (w : Nat) (ph : Phase) : Option Cpu :=
  match k.exec.workers[w]? with
  | none => none
  | some pc => match pc.lock?, ph with
    | some l, .trying n => some (k.tryLock l n (.worker w))
    | some l, .inside => (k.exec.turn pc).map fun (e, q) =>
      ({ k with exec := e.goto w q }.dropGuards l pc q).setCode (.worker w (.trying 0))
    | none, _ => (k.exec.turn pc).map fun (e, q) => { k with exec := e.goto w q }

/-- `executor::spawn` -/
def runSpawn (task : TaskId) (code : Phase → Code) (after : Code) : Phase → Option Cpu
  | .trying n => some (k.tryLock .taskQueue n code)
  | .inside => (k.exec.step (.spawn task)).map fun e => ({ k with exec := e }.unlock .taskQueue).setCode after

/-- The next operation of the thread that runs. -/
def run : Code → Option Cpu
  | .worker w ph => k.runWorker w ph
  | .pollSpawn w t ph => k.runSpawn t (.pollSpawn w t) (.worker w (.trying 0)) ph
  | .sysSpawn t ph => k.runSpawn t (.sysSpawn t) .syscall ph
  | .idle | .ring3 | .syscall => some k

end Cpu

inductive CpuEv where
  /-- The thread that runs makes its next operation. -/
  | run
  | polled (ready : Bool)
  /-- `Task::new`, and the call of `executor::spawn`. -/
  | newTask
  /-- A thread for a new user process. -/
  | spawnUserThread (pid stack : Nat)
  | syscall
  | sysret
  /-- `mark_blocked` and `yield_now`. -/
  | block
  | yieldNow
  /-- `kill_current_thread` -/
  | kill
  | setDonateTarget (i : Nat)
  | unblock (i : Nat)
  | wake (id : TaskId)
  /-- The timer. -/
  | tick
  deriving DecidableEq, Repr

namespace Cpu

section

variable (k : Cpu)

/-- Worker `w` is in a task's `poll`. -/
def polls (w : Nat) : Bool :=
  match k.exec.workers[w]? with
  | some (.polling _) => true
  | _ => false

/-- A task's `poll` and a syscall can call what they like. -/
def calls : Code → Bool
  | .worker w _ => k.polls w
  | .syscall => true
  | _ => false

/-- `executor::spawn` is entered. -/
def enterSpawn (task : TaskId) : Code → Code
  | .worker w _ => .pollSpawn w task (.trying 0)
  | _ => .sysSpawn task (.trying 0)

def setSched (s : Scheduler Code) : Cpu := { k with sched := s }

/-- What the current thread does, or what happens while it is there. -/
def stepAt (c : Code) : CpuEv → Option Cpu
  | .run => k.run c
  | .polled ready => match c with
    | .worker w _ => (k.exec.step (.polled w ready)).map fun e => { k with exec := e }
    | _ => none
  | .newTask =>
    if k.calls c then (k.exec.step .newTask).map fun e => { k with exec := e }.setCode (enterSpawn k.exec.nextId c)
    else none
  | .spawnUserThread pid stack =>
    if k.calls c then some (k.setSched (k.sched.spawn (.userProcess pid) stack false .ring3).1) else none
  | .syscall => if c = .ring3 then some (k.setCode .syscall) else none
  | .sysret => if c = .syscall then some (k.setCode .ring3) else none
  | .block => if c = .syscall then k.sched.markBlocked.yieldTick.map k.setSched else none
  | .yieldNow => if c = .syscall then k.sched.yieldTick.map k.setSched else none
  | .kill => if c = .syscall then k.sched.markDead.yieldTick.map k.setSched else none
  | .setDonateTarget i => some (k.setSched (k.sched.setDonateTarget i))
  | .unblock i => some (k.setSched (k.sched.unblock i))
  | .wake id => (k.exec.step (.wake id)).map fun e => { k with exec := e }
  | .tick => if k.interruptible c then k.sched.preemptTick.map k.setSched else none

def step (e : CpuEv) : Option Cpu :=
  if k.panicked then none else k.code?.bind fun c => k.stepAt c e

end

/-- Any number of workers. -/
def machine : Machine Cpu CpuEv where
  start k := ∃ n m, k = boot n m
  step := step

/-- The lock that a thread tries to take. -/
def wants (k : Cpu) : Code → Option Lock
  | .worker w (.trying _) => k.exec.workers[w]?.bind Pc.lock?
  | .pollSpawn _ _ (.trying _) | .sysSpawn _ (.trying _) => some .taskQueue
  | _ => none

/-- The tick, if it comes now, ends the current thread's turn. -/
def switches (k : Cpu) : Bool := k.sched.current?.any fun t => !(t.state.isRunnable && decide (1 < t.ticksRemaining))

/-- No tick takes the CPU from a thread that holds one of the locks. -/
def Undisturbed (L : List Lock) (k : Cpu) (ev : CpuEv) : Prop :=
  ev = .tick → k.switches = true → ∀ l ∈ L, k.holder l ≠ some k.sched.currentIdx

deriving instance Decidable for Undisturbed

/-! ## A lock is held by the thread that runs -/

/-- The thread has the lock. -/
def Has (k : Cpu) : Code → Lock → Prop
  | .worker w ph, l => ∃ pc, k.exec.At w pc ∧
      ((ph = .inside ∧ pc.lock? = some l) ∨ (l = .waitMap ∧ ∃ t, pc = .requeue t))
  | .pollSpawn _ _ ph, l | .sysSpawn _ ph, l => ph = .inside ∧ l = .taskQueue
  | .idle, _ | .ring3, _ | .syscall, _ => False

variable {L : List Lock} {k k' : Cpu} {c : Code} {l : Lock} {w n : Nat} {ph : Phase} {pc q : Pc} {e : Executor}

/-- The thread that runs holds every lock of `L` that is taken. -/
def Inv (L : List Lock) (k : Cpu) : Prop :=
  ∀ l ∈ L, ∀ i, k.holder l = some i → i = k.sched.currentIdx ∧ ∃ c, k.code? = some c ∧ k.Has c l

variable {i : Nat} {code : Phase → Code} {l' : Lock} {t : TaskId} {ev : CpuEv}

theorem Inv.has (h : Inv L k) (hc : k.code? = some c) (hl : l ∈ L) (hi : k.holder l = some i) : k.Has c l := by
  obtain ⟨-, _, hc', hhas⟩ := h l hl i hi
  cases hc.symm.trans hc'
  exact hhas

theorem Inv.free (h : Inv L k) (hc : k.code? = some c) (hn : ∀ l, ¬ k.Has c l) (hl : l ∈ L) : k.holder l = none := by
  cases hi : k.holder l with
  | none => rfl
  | some i => exact absurd (h.has hc hl hi) (hn l)

theorem inv_of_free (h : ∀ l ∈ L, k.holder l = none) : Inv L k := by
  intro l hl i hi
  rw [h l hl] at hi
  cases hi

theorem Inv.unlocked (h : Inv L k) (hc : k.code? = some c) (hn : ∀ l, ¬ k.Has c l) (hk : k'.holder = k.holder) :
    Inv L k' :=
  inv_of_free fun _ hl => hk ▸ h.free hc hn hl

theorem has_congr (he : k'.exec.workers = k.exec.workers) : k'.Has c l ↔ k.Has c l := by
  cases c <;> simp only [Has, Executor.At, he]

theorem Inv.same (h : Inv L k) (hk : k'.holder = k.holder) (hidx : k'.sched.currentIdx = k.sched.currentIdx)
    (hcode : k'.code? = k.code?) (he : k'.exec.workers = k.exec.workers) : Inv L k' := by
  intro l hl i hi
  rw [hk] at hi
  obtain ⟨hcur, c, hc, hhas⟩ := h l hl i hi
  exact ⟨hidx ▸ hcur, c, hcode ▸ hc, (has_congr he).mpr hhas⟩

@[simp] theorem setCode_holder (k : Cpu) (c : Code) : (k.setCode c).holder = k.holder := rfl
@[simp] theorem setCode_exec (k : Cpu) (c : Code) : (k.setCode c).exec = k.exec := rfl
@[simp] theorem setCode_currentIdx (k : Cpu) (c : Code) : (k.setCode c).sched.currentIdx = k.sched.currentIdx := rfl

theorem code?_setCode (hc : k.code? = some c) (c' : Code) : (k.setCode c').code? = some c' := by
  obtain ⟨_, ht, -⟩ := of_map hc
  rw [current?] at ht
  simp [code?, setCode, setCtx, current?, ht]

/-! ## What the current thread does -/

/-- A round in `SpinMutex::lock`: only the thread's phase changes, and the lock's holder if it was free. -/
theorem Inv.tryLock (h : Inv L k) (hc : k.code? = some (code (.trying n))) (hin : k.Has (code .inside) l)
    (hkeep : ∀ l' ph, k.Has (code (.trying n)) l' → k.Has (code ph) l') : Inv L (k.tryLock l n code) := by
  unfold Cpu.tryLock
  split
  · intro l' hl' i hi
    simp only [setCode_holder, Function.update_apply] at hi
    refine ⟨?_, _, code?_setCode (k := { k with holder := _ }) hc _, (has_congr rfl).mpr ?_⟩
    · split at hi
      · cases hi
        rfl
      · exact (h l' hl' i hi).1
    · split at hi
      · rename_i he
        exact he ▸ hin
      · exact hkeep l' _ (h.has hc hl' hi)
  · split
    · exact h.same rfl rfl rfl rfl
    · intro l' hl' i hi
      obtain ⟨hcur, -⟩ := h l' hl' i hi
      exact ⟨hcur, _, code?_setCode hc _, (has_congr rfl).mpr (hkeep l' _ (h.has hc hl' hi))⟩

theorem has_worker (hw : k.exec.At w pc) (hhas : k.Has (.worker w ph) l) :
    (ph = .inside ∧ pc.lock? = some l) ∨ (l = .waitMap ∧ ∃ t, pc = .requeue t) := by
  obtain ⟨_, hp, h⟩ := hhas
  cases hw.unique hp
  exact h

theorem unlock_holder (hi : (k.unlock l).holder l' = some i) : k.holder l' = some i ∧ l' ≠ l := by
  simp only [unlock, Function.update_apply] at hi
  obtain ⟨hne, hi⟩ := of_unless hi
  exact ⟨hi, hne⟩

theorem dropGuards_holder (hi : (k.dropGuards l pc q).holder l' = some i) : k.holder l' = some i := by
  unfold dropGuards at hi
  split at hi
  · exact (unlock_holder (unlock_holder hi).1).1
  · exact hi
  · exact (unlock_holder hi).1

/-- Of the locks that a worker had in its operation it only keeps `WAIT_MAP`, for the requeue. -/
theorem dropGuards_keeps (hl : pc.lock? = some l) (hhas : pc.lock? = some l' ∨ (l' = .waitMap ∧ ∃ t, pc = .requeue t))
    (hi : (k.dropGuards l pc q).holder l' = some i) : l' = .waitMap ∧ ∃ t, q = .requeue t := by
  unfold dropGuards at hi
  split at hi
  · obtain ⟨hi, hmap⟩ := unlock_holder hi
    obtain ⟨-, hqueue⟩ := unlock_holder hi
    rcases hhas with he | ⟨he, -⟩
    · exact absurd (some.inj he).symm hqueue
    · exact absurd he hmap
  · refine ⟨?_, _, rfl⟩
    rcases hhas with he | ⟨he, -⟩
    · exact (some.inj he).symm
    · exact he
  · rename_i hpc _
    obtain ⟨-, hne⟩ := unlock_holder hi
    rcases hhas with he | ⟨-, t, he⟩
    · rw [hl] at he
      exact absurd (some.inj he).symm hne
    · exact absurd he (hpc t)

theorem dropGuards_rest (k : Cpu) (l : Lock) (pc q : Pc) :
    (k.dropGuards l pc q).sched = k.sched ∧ (k.dropGuards l pc q).exec = k.exec ∧
    (k.dropGuards l pc q).panicked = k.panicked := by
  unfold dropGuards
  split <;> exact ⟨rfl, rfl, rfl⟩

theorem Inv.runWorker (h : Inv L k) (hc : k.code? = some (.worker w ph)) (hs : k.runWorker w ph = some k') :
    Inv L k' := by
  unfold Cpu.runWorker at hs
  split at hs
  · cases hs
  rename_i pc hw
  split at hs
  · rename_i l _ hl
    cases hs
    refine h.tryLock hc ⟨pc, hw, .inl ⟨rfl, hl⟩⟩ ?_
    intro l' ph hhas
    rcases has_worker hw hhas with ⟨he, -⟩ | he
    · cases he
    · exact ⟨pc, hw, .inr he⟩
  · rename_i l hl
    obtain ⟨⟨e, q⟩, ht, rfl⟩ := of_map hs
    obtain ⟨hsched, hexec, -⟩ := dropGuards_rest { k with exec := e.goto w q } l pc q
    intro l' hl' i hi
    have hbefore : k.holder l' = some i := dropGuards_holder (k := { k with exec := e.goto w q }) hi
    have hhas := has_worker hw (h.has hc hl' hbefore)
    obtain ⟨rfl, t, rfl⟩ := dropGuards_keeps hl (hhas.imp_left And.right) hi
    have hwork : (e.goto w (.requeue t)).At w (.requeue t) :=
      Executor.at_goto_self ((Executor.At.congr (Executor.turn_frame ht).1).mpr hw)
    refine ⟨?_, _, code?_setCode (c := .worker w .inside) ?_ _, ?_⟩
    · rw [setCode_currentIdx, hsched]
      exact (h _ hl' i hbefore).1
    · rw [code?, hsched]
      exact hc
    · refine ⟨.requeue t, ?_, .inr ⟨rfl, t, rfl⟩⟩
      rw [setCode_exec, hexec]
      exact hwork
  · rename_i hl
    obtain ⟨⟨-, -⟩, -, rfl⟩ := of_map hs
    refine h.unlocked hc ?_ rfl
    intro l' hhas
    rcases has_worker hw hhas with ⟨-, he⟩ | ⟨-, _, rfl⟩
    · rw [hl] at he
      cases he
    · cases hl

theorem Inv.runSpawn {after : Code} (h : Inv L k) (hc : k.code? = some (code ph))
    (hcode : ∀ ph l, k.Has (code ph) l ↔ ph = .inside ∧ l = .taskQueue) (hs : k.runSpawn t code after ph = some k') :
    Inv L k' := by
  cases ph with
  | trying n =>
    cases hs
    refine h.tryLock hc ((hcode _ _).mpr ⟨rfl, rfl⟩) ?_
    intro l' ph hhas
    cases ((hcode _ _).mp hhas).1
  | inside =>
    obtain ⟨e, -, rfl⟩ := of_map hs
    intro l hl i hi
    obtain ⟨hi, hne⟩ := unlock_holder (k := { k with exec := e }) hi
    exact absurd ((hcode _ _).mp (h.has hc hl hi)).2 hne

theorem Inv.run (h : Inv L k) (hc : k.code? = some c) (hs : k.run c = some k') : Inv L k' := by
  cases c with
  | worker w ph => exact h.runWorker hc hs
  | pollSpawn w t ph | sysSpawn t ph => exact h.runSpawn hc (fun _ _ => Iff.rfl) hs
  | idle =>
    cases hs
    exact h
  | ring3 =>
    cases hs
    exact h
  | syscall =>
    cases hs
    exact h

/-! ## What happens to the current thread -/

theorem code?_core (k : Cpu) : k.code? = (k.sched.core? k.sched.currentIdx).map (·.ctx) := by
  unfold code? core? current?
  cases k.sched.threads[k.sched.currentIdx]? <;> rfl

theorem preemptTick_stays {s s' : Scheduler Code} {t : Thread Code} (ht : s.current? = some t)
    (hr : t.state.isRunnable = true) (hticks : 1 < t.ticksRemaining) (hs : s.preemptTick = some s') :
    s'.currentIdx = s.currentIdx ∧ s'.current?.map (·.ctx) = some t.ctx := by
  obtain ⟨_, hu, ⟨-, -, rfl⟩ | ⟨hno, -⟩⟩ := preemptTick_cases hs
  · rw [current?] at ht
    simp [setTicks, current?, ht]
  · cases ht.symm.trans hu
    exact absurd ⟨hr, hticks⟩ hno

theorem Inv.tick (h : Inv L k) (hg : k.Undisturbed L .tick) {s : Scheduler Code} (hs : k.sched.preemptTick = some s) :
    Inv L (k.setSched s) := by
  by_cases hsw : k.switches = true
  · apply inv_of_free
    intro l hl
    cases hi : k.holder l with
    | none => exact hi
    | some i => exact absurd ((h l hl i hi).1 ▸ hi) (hg rfl hsw l hl)
  · obtain ⟨t, ht, -⟩ := preemptTick_cases hs
    obtain ⟨hr, hticks⟩ : t.state.isRunnable = true ∧ 1 < t.ticksRemaining := by
      simpa [switches, ht] using hsw
    obtain ⟨hidx, hcode⟩ := preemptTick_stays ht hr hticks hs
    refine h.same rfl hidx ?_ rfl
    show s.current?.map (·.ctx) = k.sched.current?.map (·.ctx)
    rw [hcode, ht]
    rfl

/-- A thread in a poll has no lock of the executor. -/
theorem not_has_of_polling (hw : k.exec.At w (.polling t)) (l : Lock) : ¬ k.Has (.worker w ph) l := by
  intro hhas
  rcases has_worker hw hhas with ⟨-, he⟩ | ⟨-, _, he⟩
  · cases he
  · cases he

theorem not_has_of_calls (hcalls : k.calls c = true) (l : Lock) : ¬ k.Has c l := by
  cases c with
  | worker w ph =>
    simp only [calls] at hcalls
    unfold polls at hcalls
    split at hcalls
    · rename_i hw
      exact not_has_of_polling hw l
    · cases hcalls
  | syscall => exact id
  | _ => cases hcalls

/-- What a thread calls from a poll, from a syscall or from ring 3 it calls without a lock of the
    executor; the rest leaves the thread that runs as it is. -/
theorem stepAt_cases (hs : k.stepAt c ev = some k') (hrun : ev ≠ .run) :
    k'.holder = k.holder ∧ k'.panicked = k.panicked ∧ ((∀ l, ¬ k.Has c l) ∨
      (k'.sched.currentIdx = k.sched.currentIdx ∧ k'.code? = k.code? ∧ k'.exec.workers = k.exec.workers) ∨
      (ev = .tick ∧ ∃ s, k.sched.preemptTick = some s ∧ k' = k.setSched s)) := by
  cases ev with
  | run => exact absurd rfl hrun
  | polled ready =>
    cases c with
    | worker w ph =>
      obtain ⟨e, he, rfl⟩ := of_map hs
      simp only [Executor.step] at he
      split at he
      · rename_i hw
        exact ⟨rfl, rfl, .inl (not_has_of_polling hw)⟩
      · cases he
    | _ => cases hs
  | newTask =>
    obtain ⟨hcalls, hs⟩ := of_guard hs
    obtain ⟨e, he, rfl⟩ := of_map hs
    exact ⟨rfl, rfl, .inl (not_has_of_calls hcalls)⟩
  | spawnUserThread pid stack =>
    obtain ⟨hcalls, hs⟩ := of_guard hs
    cases hs
    exact ⟨rfl, rfl, .inl (not_has_of_calls hcalls)⟩
  | syscall | sysret =>
    obtain ⟨rfl, hs⟩ := of_guard hs
    cases hs
    exact ⟨rfl, rfl, .inl fun _ => id⟩
  | block | yieldNow | kill =>
    obtain ⟨rfl, hs⟩ := of_guard hs
    obtain ⟨s, -, rfl⟩ := of_map hs
    exact ⟨rfl, rfl, .inl fun _ => id⟩
  | setDonateTarget i =>
    cases hs
    exact ⟨rfl, rfl, .inr (.inl ⟨rfl, rfl, rfl⟩)⟩
  | unblock i =>
    cases hs
    refine ⟨rfl, rfl, .inr (.inl ⟨unblock_currentIdx, ?_, rfl⟩)⟩
    rw [code?_core, code?_core]
    show ((k.sched.unblock i).core? (k.sched.unblock i).currentIdx).map _ = _
    rw [unblock_core, unblock_currentIdx]
  | wake id =>
    obtain ⟨_, he, rfl⟩ := of_map hs
    obtain ⟨-, he⟩ := of_guard he
    cases he
    obtain ⟨_, hq⟩ := Executor.wakeTask_eq k.exec id
    exact ⟨rfl, rfl, .inr (.inl ⟨rfl, rfl, show (k.exec.wakeTask id).workers = _ by rw [hq]⟩)⟩
  | tick =>
    obtain ⟨-, hs⟩ := of_guard hs
    obtain ⟨s, ht, rfl⟩ := of_map hs
    exact ⟨rfl, rfl, .inr (.inr ⟨rfl, s, ht, rfl⟩)⟩

theorem Inv.stepAt (h : Inv L k) (hg : k.Undisturbed L ev) (hc : k.code? = some c) (hs : k.stepAt c ev = some k') :
    Inv L k' := by
  by_cases hrun : ev = .run
  · subst hrun
    exact h.run hc hs
  obtain ⟨hholder, -, hn | ⟨hidx, hcode, hw⟩ | ⟨rfl, _, ht, rfl⟩⟩ := stepAt_cases hs hrun
  · exact h.unlocked hc hn hholder
  · exact h.same hholder hidx hcode hw
  · exact h.tick hg ht

/-! ## Nobody meets a taken lock -/

theorem Inv.wants_free (h : Inv L k) (hc : k.code? = some c) (hw : k.wants c = some l) (hl : l ∈ L) :
    k.holder l = none := by
  cases hi : k.holder l with
  | none => rfl
  | some i =>
    -- who tries to take a lock does not have it
    have hhas := h.has hc hl hi
    unfold wants at hw
    split at hw
    · obtain ⟨_, hpc, hlock⟩ := of_bind hw
      rcases has_worker hpc hhas with ⟨he, -⟩ | ⟨rfl, _, rfl⟩
      · cases he
      · cases hlock
    · cases hhas.1
    · cases hhas.1
    · cases hw

theorem tryLock_panicked (k : Cpu) (l : Lock) (n : Nat) (code : Phase → Code) :
    (k.tryLock l n code).panicked = k.panicked ∨
    (k.tryLock l n code = { k with panicked := true } ∧ k.holder l ≠ none) := by
  unfold tryLock
  split
  · exact .inl rfl
  rename_i hi
  split
  · exact .inr ⟨rfl, by simp [hi]⟩
  · exact .inl rfl

theorem runSpawn_panicked {after : Code} (hw : ∀ n, k.wants (code (.trying n)) = some .taskQueue)
    (hs : k.runSpawn t code after ph = some k') :
    k'.panicked = k.panicked ∨ (k' = { k with panicked := true } ∧ ∃ l, k.wants (code ph) = some l ∧
      k.holder l ≠ none) := by
  cases ph with
  | trying n =>
    cases hs
    exact (tryLock_panicked k .taskQueue n code).imp_right fun h => ⟨h.1, _, hw n, h.2⟩
  | inside =>
    obtain ⟨-, -, rfl⟩ := of_map hs
    exact .inl rfl

/-- Only a lock that is taken makes a thread panic. -/
theorem run_panicked (hs : k.run c = some k') :
    k'.panicked = k.panicked ∨ (k' = { k with panicked := true } ∧ ∃ l, k.wants c = some l ∧ k.holder l ≠ none) := by
  cases c with
  | worker w ph =>
    simp only [run] at hs
    unfold runWorker at hs
    split at hs
    · cases hs
    rename_i hw
    split at hs
    · rename_i l n hl
      cases hs
      exact (tryLock_panicked k l n _).imp_right fun h => ⟨h.1, l, by simp [wants, hw, hl], h.2⟩
    · obtain ⟨⟨e, q⟩, -, rfl⟩ := of_map hs
      exact .inl (dropGuards_rest _ _ _ _).2.2
    · obtain ⟨⟨-, -⟩, -, rfl⟩ := of_map hs
      exact .inl rfl
  | pollSpawn w t ph | sysSpawn t ph => exact runSpawn_panicked (fun _ => rfl) hs
  | idle | ring3 | syscall =>
    cases hs
    exact .inl rfl

/-- With interrupts disabled only `TASK_QUEUE` is taken. -/
theorem wants_uninterruptible (hi : k.interruptible c = false) (hw : k.wants c = some l) : l = .taskQueue := by
  cases c with
  | worker w ph =>
    have hidle : k.exec.workers[w]? = some .idleAgain := by simpa [interruptible] using hi
    cases ph with
    | trying n =>
      simp only [wants, hidle] at hw
      cases hw
    | inside => cases hw
  | sysSpawn t ph =>
    cases ph with
    | trying n =>
      cases hw
      rfl
    | inside => cases hw
  | syscall => cases hw
  | _ => cases hi

/-- The panic is left to threads that want a lock outside `L`. -/
def PanicsFor (L : List Lock) (k : Cpu) : Prop :=
  k.panicked = true → ∃ c l, k.code? = some c ∧ k.wants c = some l ∧ l ∉ L

theorem Inv.step (h : Inv L k) (hg : k.Undisturbed L ev) (hs : k.step ev = some k') : Inv L k' ∧ PanicsFor L k' := by
  obtain ⟨hnp, hs⟩ := ite_none_left_eq_some.mp hs
  obtain ⟨c, hc, hs⟩ := of_bind hs
  refine ⟨h.stepAt hg hc hs, fun hp => ?_⟩
  by_cases hrun : ev = .run
  · subst hrun
    rcases run_panicked hs with he | ⟨rfl, l, hw, htaken⟩
    · exact absurd (he ▸ hp) hnp
    · exact ⟨c, l, hc, hw, fun hl => htaken (h.wants_free hc hw hl)⟩
  · exact absurd ((stepAt_cases hs hrun).2.1 ▸ hp) hnp

theorem reach_inv (h : machine.Reach (fun k ev => k.Undisturbed L ev) k) : Inv L k ∧ PanicsFor L k := by
  refine Machine.Reach.inv (I := fun k => Inv L k ∧ PanicsFor L k) (fun k hk => ?_)
    (fun _ _ _ hi hg hs => hi.1.step hg hs) h
  obtain ⟨-, -, rfl⟩ := hk
  exact ⟨inv_of_free fun _ _ => rfl, nofun⟩

end Cpu

open Cpu

/-- The locks of the executor. -/
def executorLocks : List Lock := [.taskQueue, .waitMap, .wakerCache, .deferredWakes]

theorem mem_executorLocks (l : Lock) : l ∈ executorLocks := by
  cases l <;> decide

/-- In the runs in which no tick takes the CPU from a thread with `TASK_QUEUE`, no thread that
    runs with interrupts disabled finds a lock taken, let alone panics; without one that takes
    it from a thread with any of the locks, no thread at all. -/
theorem no_spinning_on_a_preempted_holder (k : Cpu) :
    (machine.Reach (fun k ev => k.Undisturbed [.taskQueue] ev) k → ∀ c, k.code? = some c → k.interruptible c = false →
      k.panicked = false ∧ ∀ l, k.wants c = some l → k.holder l = none) ∧
    (machine.Reach (fun k ev => k.Undisturbed executorLocks ev) k →
      k.panicked = false ∧ ∀ c l, k.code? = some c → k.wants c = some l → k.holder l = none) := by
  refine ⟨fun h c hc hi => ?_, fun h => ?_⟩
  · obtain ⟨hinv, hpanic⟩ := reach_inv h
    refine ⟨?_, fun l hw => hinv.wants_free hc hw (by simp [wants_uninterruptible hi hw])⟩
    by_contra hp
    obtain ⟨_, l, hc', hw, hl⟩ := hpanic (by simpa using hp)
    cases hc.symm.trans hc'
    exact hl (by simp [wants_uninterruptible hi hw])
  · obtain ⟨hinv, hpanic⟩ := reach_inv h
    refine ⟨?_, fun c l hc hw => hinv.wants_free hc hw (mem_executorLocks l)⟩
    by_contra hp
    obtain ⟨-, l, -, -, hl⟩ := hpanic (by simpa using hp)
    exact hl (mem_executorLocks l)

/-- The one worker polls the one task, which starts a user process. -/
def processStarted : List CpuEv := [.run, .run, .run, .run, .run, .spawnUserThread 1 2]

/-- The quantum of the thread that runs ends. -/
def wholeQuantum : List CpuEv := List.replicate 10 .tick

/-- The worker loses the CPU in the poll. The process submits an OP_TIMEOUT. -/
theorem no_spinning_on_a_preempted_holder_in_a_poll :
    ∃ k, machine.Reach (fun k ev => k.Undisturbed executorLocks ev) k ∧
    k.code? = some (.sysSpawn 1 (.trying 0)) ∧ k.holder .taskQueue = none ∧ k.panicked = false := by
  obtain ⟨k, h, hc⟩ : ∃ k, machine.Reach (fun k ev => k.Undisturbed executorLocks ev) k ∧
      k.code? = some (.sysSpawn 1 (.trying 0)) :=
    Machine.exists_reach (boot 0 1) (processStarted ++ wholeQuantum ++ [CpuEv.syscall, CpuEv.newTask]) ⟨0, 1, rfl⟩
      (by decide)
  obtain ⟨hp, hfree⟩ := (no_spinning_on_a_preempted_holder k).2 h
  exact ⟨k, h, hc, hfree _ _ hc rfl, hp⟩

/-- A thread that spins with interrupts disabled spins on until it panics. -/
theorem spins_until_panic {k₀ : Cpu} {t : TaskId} {i : Nat} :
    ∀ (m n : Nat) (k : Cpu), (machine.startedAt k₀).Reachable k →
    k.panicked = false → k.code? = some (.sysSpawn t (.trying n)) → k.holder .taskQueue = some i →
      n + m + 1 = SPIN_LIMIT →
    ∃ k', (machine.startedAt k₀).Reachable k' ∧ k'.panicked = true := by
  intro m
  induction m with
  | zero =>
    intro n k hk hp hc hi hm
    refine ⟨{ k with panicked := true }, .step .run hk trivial ?_, rfl⟩
    show k.step .run = _
    rw [step, hp, if_neg (by simp), hc]
    show some (k.tryLock .taskQueue n (.sysSpawn t)) = _
    rw [tryLock, hi]
    simp only [if_pos (show SPIN_LIMIT ≤ n + 1 by omega)]
  | succ m ih =>
    intro n k hk hp hc hi hm
    refine ih (n + 1) (k.setCode (.sysSpawn t (.trying (n + 1)))) (.step .run hk trivial ?_) hp (code?_setCode hc _) hi
      (by omega)
    show k.step .run = _
    rw [step, hp, if_neg (by simp), hc]
    show some (k.tryLock .taskQueue n (.sysSpawn t)) = _
    rw [tryLock, hi]
    simp only [if_neg (show ¬ SPIN_LIMIT ≤ n + 1 by omega)]

/-- The worker parks the task and loses the CPU with `TASK_QUEUE`. The process submits an
    OP_TIMEOUT and spins. -/
theorem a_syscall_spins_until_the_panic : ∃ k t, machine.Reachable k ∧ k.code? = some (.sysSpawn 1 (.trying 0)) ∧
    k.interruptible (.sysSpawn 1 (.trying 0)) = false ∧ k.wants (.sysSpawn 1 (.trying 0)) = some .taskQueue ∧
    k.holder .taskQueue = some 0 ∧ k.sched.currentIdx = 2 ∧ k.sched.threads[0]? = some t ∧ t.state = .ready ∧
    ∃ k', (machine.startedAt k).Reachable k' ∧ k'.panicked = true := by
  obtain ⟨k, hk, hp, hc, hi, hcur, t, ht, hst⟩ : ∃ k, machine.Reachable k ∧ k.panicked = false ∧
      k.code? = some (.sysSpawn 1 (.trying 0)) ∧ k.holder .taskQueue = some 0 ∧ k.sched.currentIdx = 2 ∧
      ∃ t, k.sched.threads[0]? = some t ∧ t.state = .ready :=
    Machine.exists_reachable (boot 0 1)
      (processStarted ++ [CpuEv.polled false, CpuEv.run, CpuEv.run, CpuEv.run, CpuEv.run,
      CpuEv.run, CpuEv.run] ++ wholeQuantum ++ [CpuEv.syscall, CpuEv.newTask]) ⟨0, 1, rfl⟩ (by decide)
  refine ⟨k, t, hk, hc, rfl, rfl, hi, hcur, ht, hst, ?_⟩
  exact spins_until_panic (SPIN_LIMIT - 1) 0 k (.start rfl) hp hc hi (by simp [SPIN_LIMIT])

end Ostoo.Task
