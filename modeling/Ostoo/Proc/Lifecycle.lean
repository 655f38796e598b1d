/-
  Ostoo.Proc.Lifecycle — processes from their creation to their reaping
  (`process.rs`, `clone.rs`, `spawn.rs`, `syscalls/process.rs`), with the threads that
  run them and the arena their kernel stacks come from (`stack_arena.rs`).

  A step is what the current thread does up to its next yield. Code of a user process
  runs in the kernel with interrupts off, so a call is one step from one yield to the
  next; a kernel thread can be preempted between any two locks it takes, so there each
  lock is a step of its own (`Ctx` says where the thread stands). A timer interrupt,
  and a wake-up, a donation or a signal from any other call or handler, may come
  between any two steps. `none` is a panic, or a step the current thread is not at.

  Left out: fds, address spaces and the console, and the status word `wait4` writes to
  user memory. The first run of a new thread (its trampoline) is part of its first step.
-/

import Mathlib.Order.Nat
import Ostoo.Lib.Machine
import Ostoo.Lib.OrdMap
import Ostoo.Task.Scheduler

namespace Ostoo.Proc

open Ostoo.Lib Ostoo.Task BitVec

/-! ## The stack arena -/

/-- `stack_arena::alloc`: the lowest free slot of the bitmap. -/
def allocStack (freeBitmap : BitVec 32) : Option (Nat × BitVec 32) :=
  match (List.range 32).find? freeBitmap.getLsbD with
  | some i => some (i, freeBitmap &&& ~~~(1#32 <<< i))
  | none => none

/-- `StackSlot::drop` -/
def dropStack (freeBitmap : BitVec 32) (i : Nat) : BitVec 32 := freeBitmap ||| 1#32 <<< i

variable {i : Nat} {a b : BitVec 32}

theorem allocStack_free (h : allocStack a = some (i, b)) : a.getLsbD i = true := by
  unfold allocStack at h
  split at h
  · rename_i hj
    cases h
    simpa using List.find?_some hj
  · cases h

theorem allocStack_rest (h : allocStack a = some (i, b)) (j : Nat) : b.getLsbD j = (a.getLsbD j && j ≠ i) := by
  unfold allocStack at h
  split at h
  · cases h
    rw [getLsbD_and, getLsbD_not]
    by_cases hj : j < 32
    · by_cases hji : j = i
      · subst hji
        simp [hj]
      · simp [hj, hji]
        omega
    · rw [getLsbD_of_ge a j (by omega)]
      simp
  · cases h

theorem dropStack_getLsbD (hi : i < 32) (j : Nat) : (dropStack a i).getLsbD j = (a.getLsbD j || j = i) := by
  unfold dropStack
  rw [getLsbD_or]
  by_cases hji : j = i
  · subst hji
    simp [hi]
  · simp [hji, getLsbD_shiftLeft]
    omega

/-! ## Processes -/

/-- `ProcessId::KERNEL` -/
def KERNEL : Nat := 0

def EINTR : Int := 4
def ECHILD : Int := 10
def ENOSYS : Int := 38

inductive ProcessState
  | running | zombie
  deriving DecidableEq

structure Process where
  pid : Nat
  state : ProcessState
  kernelStack : Nat
  threadIdx : Option Nat
  exitCode : Option Int
  parentPid : Nat
  waitThread : Option Nat
  vforkParentThread : Option Nat
  signalThread : Option Nat
  /-- `signal.pending` -/
  pending : BitVec 64
  /-- `signal.blocked` -/
  blocked : BitVec 64
  deriving DecidableEq

/-- `Process::new`, with the pid and the stack it takes. -/
def Process.new (pid kernelStack : Nat) : Process :=
  ⟨pid, .running, kernelStack, none, none, KERNEL, none, none, none, 0, 0⟩

/-- Where a thread goes on. -/
inductive Ctx
  /-- In user code; the last call returned `ret`. -/
  | user (ret : Int)
  /-- In `sys_wait4`'s loop, after `wait_while`. -/
  | wait4 (target : BitVec 64)
  /-- In `terminate_process`, after `yield_now`. -/
  | dying
  /-- `idle_thread_main` -/
  | idle
  /-- A kernel thread between two of the jobs below. -/
  | kernel
  /-- Holds a new process that is not in the table yet. -/
  | made (p : Process)
  /-- The new process is in the table and has no thread yet. -/
  | inserted (pid : Nat)
  /-- The thread of the new process is queued; its index is not recorded yet. -/
  | spawned (pid idx : Nat)
  /-- In `reap_zombies`, with the pids still to reap. -/
  | reaping (pids : List Nat)
  /-- In `wait_and_reap`, after `is_zombie` answered yes. -/
  | zombieSeen (pid : Nat)
  deriving DecidableEq

structure Kernel where
  sched : Scheduler Ctx
  table : OrdMap Nat Process
  nextPid : Nat
  freeBitmap : BitVec 32

namespace Kernel

variable (k : Kernel)

def withProcess (pid : Nat) (f : Process → Process) : Kernel := { k with table := k.table.alter pid f }

def unblock (k : Kernel) (i : Nat) : Kernel := { k with sched := k.sched.unblock i }

/-- The current thread is left at `c`. -/
def goto (c : Ctx) : Kernel := { k with sched := k.sched.setCtx c }

/-- `yield_now` -/
def yieldNow : Option Kernel := k.sched.yieldTick.map fun sched => { k with sched }

/-- `mark_blocked`, then `yield_now`. -/
def blockCurrentThread : Option Kernel := { k with sched := k.sched.markBlocked }.yieldNow

def killCurrentThread : Option Kernel := { k with sched := k.sched.markDead }.yieldNow

def isZombie (pid : Nat) : Bool :=
  match k.table.get? pid with
  | some p => p.state = .zombie
  | none => false

def markZombie (pid : Nat) (code : Int) : Kernel :=
  k.withProcess pid ({ · with state := .zombie, exitCode := some code })

/-- The entry goes, and its stack with it. -/
def reap (pid : Nat) : Kernel :=
  match k.table.get? pid with
  | some p => { k with table := k.table.remove pid, freeBitmap := dropStack k.freeBitmap p.kernelStack }
  | none => k

/-- The processes `reap_zombies` collects. -/
def deadZombies : List Nat :=
  let threadDead (p : Process) : Bool := match p.threadIdx with
    | some i => k.sched.isThreadDead i
    | none => true
  ((k.table.values.filter (·.state = .zombie)).filter threadDead).map (·.pid)

/-- A new thread; one whose slot it takes is dropped, with the stack it owned. -/
def spawn (k : Kernel) (kind : SchedulableKind) (stack : Nat) (ownsStack : Bool) (ctx : Ctx) : Kernel × Nat :=
  let r := k.sched.spawn kind stack ownsStack ctx
  let freeBitmap := match k.sched.threads[r.2]? with
    | some t => if t.ownsStack then dropStack k.freeBitmap t.stack else k.freeBitmap
    | none => k.freeBitmap
  ({ k with sched := r.1, freeBitmap }, r.2)

/-- The parent that waits for its vfork child to exit or to call `execve`. -/
def releaseVforkParent (pid : Nat) : Kernel :=
  match k.table.get? pid with
  | some p =>
    let k := k.withProcess pid ({ · with vforkParentThread := none })
    match p.vforkParentThread with
    | some i => k.unblock i
    | none => k
  | none => k

/-- `wait_thread.take()` of the parent, and the thread it woke. -/
def wakeWaitThread (parent : Nat) : Kernel × Option Nat :=
  match k.table.get? parent with
  | some pp =>
    let k := k.withProcess parent ({ · with waitThread := none })
    match pp.waitThread with
    | some i => (k.unblock i, some i)
    | none => (k, none)
  | none => (k, none)

/-- `signal.queue(SIGCHLD)` -/
def queueSigchld (parent : Nat) : Kernel :=
  if parent = KERNEL then k else k.withProcess parent fun p => { p with pending := p.pending ||| 1#64 <<< 16 }

/-- `kill_user_process`; `terminate_process` goes through the same steps. -/
def killUserProcess (pid : Nat) (code : Int) : Kernel × Option Nat :=
  let parent := (k.table.get? pid).map (·.parentPid)
  let k := k.markZombie pid code
  match parent with
  | some pp => (k.queueSigchld pp).wakeWaitThread pp
  | none => (k, none)

/-- `terminate_process` as far as its `yield_now`. -/
def terminateProcess (pid : Nat) (code : Int) : Option Kernel :=
  let r := (k.releaseVforkParent pid).killUserProcess pid code
  let k := match r.2 with
    | some i => { r.1 with sched := r.1.sched.setDonateTarget i }
    | none => r.1
  (k.goto .dying).yieldNow

end Kernel

/-- `find_zombie_child_in` -/
def findZombieChildIn (table : OrdMap Nat Process) (parent : Nat) (target : BitVec 64) : Option (Nat × Int) :=
  (table.values.find? fun p => p.parentPid = parent ∧ p.state = .zombie ∧
    (target = BitVec.allOnes 64 ∨ p.pid = target.toNat)).map fun p => (p.pid, p.exitCode.getD 0)

/-- `has_children_in` -/
def hasChildrenIn (table : OrdMap Nat Process) (parent : Nat) : Bool := table.values.any (·.parentPid = parent)

namespace Kernel

section

variable (k : Kernel)

/-- A pending signal that is not blocked. -/
def hasSignal (pid : Nat) : Bool :=
  match k.table.get? pid with
  | some p => p.pending &&& ~~~p.blocked ≠ 0
  | none => false

/-- `sys_wait4`'s `wait_while`. -/
def waitForChild (parent : Nat) (target : BitVec 64) : Option Kernel :=
  let i := k.sched.currentIdx
  ((k.withProcess parent ({ · with waitThread := some i, signalThread := some i })).goto
    (.wait4 target)).blockCurrentThread

/-- One turn of `sys_wait4`'s loop: it returns, or parks the thread. -/
def sysWait4 (parent : Nat) (target : BitVec 64) : Option Kernel :=
  match findZombieChildIn k.table parent target with
  | some (child, _) => some ((k.reap child).goto (.user child))
  | none =>
    if !hasChildrenIn k.table parent then some (k.goto (.user (-ECHILD)))
    else if k.hasSignal parent then some (k.goto (.user (-EINTR)))
    else k.waitForChild parent target

/-- `spawn_clone_thread`, the thread recorded, and the caller parked until the child exits
    or calls `execve`. -/
def startChild (pid stack : Nat) : Option Kernel :=
  let r := k.spawn (.userProcess pid) stack false (.user 0)
  ((r.1.withProcess pid ({ · with threadIdx := some r.2 })).goto (.user pid)).blockCurrentThread

/-- `sys_clone` with the flags it supports. -/
def sysClone (parent : Nat) : Option Kernel :=
  match k.table.get? parent with
  | none => some (k.goto (.user (-ENOSYS)))
  | some _ =>
    match allocStack k.freeBitmap with
    | none => none
    | some (stack, freeBitmap) =>
      let pid := k.nextPid
      let child := { Process.new pid stack with parentPid := parent, vforkParentThread := some k.sched.currentIdx }
      { k with freeBitmap, nextPid := pid + 1, table := k.table.insert pid child }.startChild pid stack

end

/-! ## Steps -/

end Kernel

inductive Ev
  /-- The timer interrupt. -/
  | tick
  /-- A wake-up of a thread by anything else. -/
  | wake (i : Nat)
  /-- `set_donate_target` by anything else. -/
  | donate (i : Nat)
  /-- The signal state of a process changes: a signal is queued, delivered or masked. -/
  | signals (pid : Nat) (pending blocked : BitVec 64)
  /-- The process's thread yields in some other call, or parks itself there. -/
  | yield
  | park
  | clone
  | execve
  /-- `sys_exit`, or a signal that terminates. -/
  | exit (code : Int)
  /-- A fault in ring 3 that no handler takes. -/
  | fault (code : Int)
  | wait4 (target : BitVec 64)
  /-- The end of `terminate_process`. -/
  | die
  | spawnThread
  /-- `spawn_process_full` and `spawn_blob`: the four locks it takes, one after the other. -/
  | newProcess (parent : Nat)
  | insert
  | spawnUserThread
  | recordThread
  /-- `reap_zombies`: collect, then reap one by one. -/
  | reapZombies
  | reapNext
  /-- `wait_and_reap`, once its delay is over. -/
  | isZombie (pid : Nat)
  | reap

namespace Kernel

section

variable (k : Kernel)

/-- A step of a process's thread in user code. -/
def userStep (pid : Nat) : Ev → Option Kernel
  | .yield => k.yieldNow
  | .park => k.blockCurrentThread
  | .clone => k.sysClone pid
  | .execve => some (k.releaseVforkParent pid)
  | .exit code => k.terminateProcess pid code
  | .fault code => (k.killUserProcess pid code).1.killCurrentThread
  | .wait4 target => k.sysWait4 pid target
  | _ => none

/-- A kernel thread starts a job. -/
def kernelStep : Ev → Option Kernel
  | .spawnThread =>
    match allocStack k.freeBitmap with
    | some (stack, freeBitmap) => some ({ k with freeBitmap }.spawn .kernel stack true .kernel).1
    | none => none
  | .newProcess parent =>
    match allocStack k.freeBitmap with
    | some (stack, freeBitmap) =>
      some ({ k with freeBitmap, nextPid := k.nextPid + 1 }.goto
        (.made { Process.new k.nextPid stack with parentPid := parent }))
    | none => none
  | .reapZombies => some (k.goto (.reaping k.deadZombies))
  | .isZombie pid => some (if k.isZombie pid then k.goto (.zombieSeen pid) else k)
  | _ => none

/-- `spawn_user_thread`: the process must be in the table. -/
def spawnUserThread (pid : Nat) : Option Kernel :=
  match k.table.get? pid with
  | some p =>
    let r := k.spawn (.userProcess pid) p.kernelStack false (.user 0)
    some (r.1.goto (.spawned pid r.2))
  | none => none

/-- A step of the thread `t`, which is running. -/
def threadStep (t : Thread Ctx) (e : Ev) : Option Kernel :=
  match t.kind, t.ctx, e with
  | .userProcess pid, .user _, e => k.userStep pid e
  | .userProcess pid, .wait4 target, .wait4 target' =>
    if target' = target then (k.withProcess pid ({ · with signalThread := none })).sysWait4 pid target else none
  | .userProcess _, .dying, .die => k.killCurrentThread
  | .kernel, .kernel, e => k.kernelStep e
  | .kernel, .made p, .insert =>
      some ({ k with table := k.table.insert p.pid { p with state := .running } }.goto (.inserted p.pid))
  | .kernel, .inserted pid, .spawnUserThread => k.spawnUserThread pid
  | .kernel, .spawned pid i, .recordThread => some ((k.withProcess pid ({ · with threadIdx := some i })).goto .kernel)
  | .kernel, .reaping [], .reapNext => some (k.goto .kernel)
  | .kernel, .reaping (pid :: pids), .reapNext => some ((k.reap pid).goto (.reaping pids))
  | .kernel, .zombieSeen pid, .reap => some ((k.reap pid).goto .kernel)
  | _, _, _ => none

def step : Ev → Option Kernel
  | .tick => k.sched.preemptTick.map fun sched => { k with sched }
  | .wake i => some (k.unblock i)
  | .donate i => some { k with sched := k.sched.setDonateTarget i }
  | .signals pid pending blocked => some (k.withProcess pid ({ · with pending, blocked }))
  | e => match k.sched.current? with
    | some t => k.threadStep t e
    | none => none

end

/-- After `scheduler::init`: the boot thread runs on the slot it moved to and never gives
    back, the idle thread on the next one. -/
def boot : Kernel where
  sched :=
    { threads := [⟨0, .running, .kernel, QUANTUM_TICKS, .kernel, 0, false⟩,
      ⟨1, .ready, .idle, QUANTUM_TICKS, .kernel, 1, true⟩]
      currentIdx := 0, readyQueue := [], idleThreadIdx := 1, donateTarget := none, nextThreadId := 2 }
  table := .empty
  nextPid := 1
  freeBitmap := 0xFFFC

end Kernel

def machine : Machine Kernel Ev := ⟨fun k => k = Kernel.boot, Kernel.step⟩

end Ostoo.Proc
