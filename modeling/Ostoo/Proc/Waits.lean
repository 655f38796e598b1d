/-
  Ostoo.Proc.Waits — threads that wait in `blocking`, `io_wait`, `wait4`, a pipe or the console
  (`blocking.rs`, `io_port.rs`, `syscalls/process.rs`, `file.rs`, `console.rs`), and the places
  where their indices are kept for waking them.

  A wake-up is `scheduler::unblock` of a bare thread index. It is read from a slot, or a timer
  task or the task of a future has it; where the lock of the slot is dropped before the call,
  other threads run in between (`Slot.underway`). All waits but `blocking` look again after
  they were woken. `blocking` takes the result at once, so it must not be woken by anybody
  else. The threads are those of processes; a kernel thread does not set `signal_thread`.

  A sleep that a signal or a timeout cuts short leaves its index behind in the slot, and the
  next `blocking` of that thread is woken through it: `stale_reader_wakes_blocking`. In runs
  in which no thread returns from such a sleep, or before an `unblock` that is under way
  (`Undisturbed`), every index is that of a thread still in the wait it was left for
  (`blocking_resumed_by_its_future`).
-/

import Mathlib.Logic.Function.Basic
import Ostoo.Lib.Machine

namespace Ostoo.Proc.Waits

open Ostoo.Lib List Option

/-- Where the index of a thread is kept. -/
inductive Slot
  /-- A completion port's waiter. -/
  | waiter (port : Nat)
  | waitThread (pid : Nat)
  | signalThread (pid : Nat)
  | readerThread (pipe : Nat)
  | blockedReader
  /-- The timer task of an `io_wait`, until it is cancelled or has expired. -/
  | timer (id : Nat)
  /-- The task that `blocking` spawned, until it has called `unblock`. -/
  | future (id : Nat)
  /-- Somebody has the index and is about to call `unblock`: the end of a child, which has
      `taken` it out of `wait_thread`, or a `kill` or an expired timer, which have not. -/
  | underway (taken : Bool) (id : Nat)
  deriving DecidableEq

/-- How far a pipe read is: `signal_thread` is set before the pipe's lock is taken. -/
inductive PipePhase
  | entered | listening | parked
  deriving DecidableEq

/-- The wait a thread is in. -/
inductive Wait
  | blocking (id : Nat) (parked : Bool)
  | ioWait (port : Nat) (timer : Option Nat)
  | wait4 (pid : Nat) (parked : Bool)
  | pipeRead (pid pipe : Nat) (phase : PipePhase)
  | readInput
  deriving DecidableEq

/-- Ready and Running are one here: a thread that is either may take the next step. `cut`: a
    signal or the timer of its `io_wait` has ended its last sleep. The code does not record it. -/
inductive Status
  | runnable (cut : Bool)
  | blocked | dead
  deriving DecidableEq

structure Thr where
  status : Status
  wait : Option Wait
  deriving DecidableEq

/-- `scheduler::unblock` -/
def Thr.unblock (cut : Bool) (thr : Thr) : Thr :=
  if thr.status = .blocked then { thr with status := .runnable cut } else thr

structure St where
  threads : Nat → Thr
  slots : Slot → Option Nat
  /-- The futures whose result is there. -/
  stored : List Nat
  next : Nat
  /-- The `expect` of `blocking` has failed. -/
  failed : Bool

namespace St

variable (s : St)

def clear (x : Slot) : St := { s with slots := Function.update s.slots x none }

def set (x : Slot) (t : Nat) : St := { s with slots := Function.update s.slots x (some t) }

def put (t : Nat) (thr : Thr) : St := { s with threads := Function.update s.threads t thr }

def goOn (t : Nat) (w : Wait) : St := s.put t { s.threads t with wait := some w }

def leave (t : Nat) : St := s.put t ⟨.runnable false, none⟩

/-- `mark_blocked`, under the lock of the slot. -/
def park (t : Nat) (w : Wait) : St := s.put t ⟨.blocked, some w⟩

/-- The slot is emptied and its thread unblocked. -/
def wake (x : Slot) (cut : Bool) : St :=
  match s.slots x with
  | some t => (s.clear x).put t ((s.threads t).unblock cut)
  | none => s

/-- An index has been read, and `unblock` is still to be called. -/
def launch (taken : Bool) (t : Nat) : St := { s.set (.underway taken s.next) t with next := s.next + 1 }

end St

inductive Ev
  | blocking (t : Nat)
  /-- `blocking` looks for the result, and parks if it is not there. -/
  | check (t : Nat)
  /-- The future has ended and its result is stored. -/
  | store (id : Nat)
  | notify (id : Nat)
  /-- `blocking` goes on and takes the result. -/
  | resume (t : Nat)
  | ioWait (t port : Nat) (timeout : Bool)
  /-- `ready`: enough completions, or the deadline has passed. -/
  | ioCheck (t : Nat) (ready : Bool)
  | post (port : Nat)
  /-- The timer task sees that the time is over and that it was not cancelled. -/
  | expire (id : Nat)
  | wait4 (t pid : Nat)
  /-- `ready`: a zombie child, no child, or a signal. -/
  | wait4Check (t : Nat) (ready : Bool)
  | wait4Woken (t : Nat)
  /-- The end of a child of `pid`. -/
  | childExit (pid : Nat)
  | kill (pid : Nat)
  | pipeRead (t pid pipe : Nat)
  | pipeListen (t : Nat)
  /-- `ready`: data, end of file, or a signal. -/
  | pipeCheck (t : Nat) (ready : Bool)
  | pipeWoken (t : Nat)
  /-- `pipe_wake_reader`, from a write or the last close. -/
  | pipeWake (pipe : Nat)
  | readInput (t : Nat)
  | readInputCheck (t : Nat) (ready : Bool)
  /-- `push_input` or `wake_blocked_reader`. -/
  | consoleWake
  /-- The `unblock` that was under way. -/
  | deliver (taken : Bool) (id : Nat)
  | exit (t : Nat)
  /-- A new thread in a Dead slot. -/
  | spawn (t : Nat)

open St

def step (s : St) : Ev → Option St
  | .blocking t =>
    if s.threads t = ⟨.runnable false, none⟩ then
      some { (s.set (.future s.next) t).goOn t (.blocking s.next false) with next := s.next + 1 }
    else none
  | .check t => match s.threads t with
    | ⟨.runnable _, some (.blocking id false)⟩ =>
      some (if id ∈ s.stored then s.leave t else s.park t (.blocking id true))
    | _ => none
  | .store id =>
    if id ∈ s.stored then none else (s.slots (.future id)).map fun _ => { s with stored := id :: s.stored }
  | .notify id => if id ∈ s.stored then some (s.wake (.future id) false) else none
  | .resume t => match s.threads t with
    | ⟨.runnable _, some (.blocking id true)⟩ =>
      some (if id ∈ s.stored then s.leave t else { s with failed := true })
    | _ => none
  | .ioWait t port timeout =>
    if s.threads t = ⟨.runnable false, none⟩ then
      if timeout then
        some { (s.set (.timer s.next) t).goOn t (.ioWait port (some s.next)) with next := s.next + 1 }
      else some (s.goOn t (.ioWait port none))
    else none
  | .ioCheck t ready => match s.threads t with
    | ⟨.runnable _, some (.ioWait port timer)⟩ =>
      -- on the way out the timer task is cancelled
      some (if ready then (timer.elim s fun id => s.clear (.timer id)).leave t
        else (s.set (.waiter port) t).park t (.ioWait port timer))
    | _ => none
  | .post port => some (s.wake (.waiter port) false)
  | .expire id => (s.slots (.timer id)).map fun t => (s.clear (.timer id)).launch false t
  | .wait4 t pid => if s.threads t = ⟨.runnable false, none⟩ then some (s.goOn t (.wait4 pid false)) else none
  | .wait4Check t ready => match s.threads t with
    | ⟨.runnable _, some (.wait4 pid false)⟩ =>
      some (if ready then s.leave t
        else ((s.set (.waitThread pid) t).set (.signalThread pid) t).park t (.wait4 pid true))
    | _ => none
  | .wait4Woken t => match s.threads t with
    | ⟨.runnable _, some (.wait4 pid true)⟩ => some ((s.clear (.signalThread pid)).goOn t (.wait4 pid false))
    | _ => none
  | .childExit pid => (s.slots (.waitThread pid)).map fun t => (s.clear (.waitThread pid)).launch true t
  | .kill pid => (s.slots (.signalThread pid)).map fun t => s.launch false t
  | .pipeRead t pid pipe =>
    if s.threads t = ⟨.runnable false, none⟩ then some (s.goOn t (.pipeRead pid pipe .entered)) else none
  | .pipeListen t => match s.threads t with
    | ⟨.runnable _, some (.pipeRead pid pipe .entered)⟩ =>
      some ((s.set (.signalThread pid) t).goOn t (.pipeRead pid pipe .listening))
    | _ => none
  | .pipeCheck t ready => match s.threads t with
    | ⟨.runnable _, some (.pipeRead pid pipe .listening)⟩ =>
      some (if ready then (s.clear (.signalThread pid)).leave t
        else (s.set (.readerThread pipe) t).park t (.pipeRead pid pipe .parked))
    | _ => none
  | .pipeWoken t => match s.threads t with
    | ⟨.runnable _, some (.pipeRead pid pipe .parked)⟩ =>
      some ((s.clear (.signalThread pid)).goOn t (.pipeRead pid pipe .entered))
    | _ => none
  | .pipeWake pipe => some (s.wake (.readerThread pipe) false)
  | .readInput t => if s.threads t = ⟨.runnable false, none⟩ then some (s.goOn t .readInput) else none
  | .readInputCheck t ready => match s.threads t with
    | ⟨.runnable _, some .readInput⟩ =>
      some (if ready then s.leave t else (s.set .blockedReader t).park t .readInput)
    | _ => none
  | .consoleWake => some (s.wake .blockedReader false)
  | .deliver taken id => (s.slots (.underway taken id)).map fun _ => s.wake (.underway taken id) (!taken)
  | .exit t => if s.threads t = ⟨.runnable false, none⟩ then some (s.put t ⟨.dead, none⟩) else none
  | .spawn t => if s.threads t = ⟨.dead, none⟩ then some (s.put t ⟨.runnable false, none⟩) else none

/-- Every thread slot is free. -/
def boot : St := ⟨fun _ => ⟨.dead, none⟩, fun _ => none, [], 0, false⟩

def machine : Machine St Ev where
  start s := s = boot
  step := step

/-! ## What the code relies on -/

/-- The slot is one that a thread in the wait may be in. -/
def Fits : Slot → Wait → Prop
  | .waiter port, .ioWait port' _ => port = port'
  | .waitThread pid, .wait4 pid' _ => pid = pid'
  | .signalThread pid, .wait4 pid' parked => pid = pid' ∧ parked = true
  | .signalThread pid, .pipeRead pid' _ phase => pid = pid' ∧ phase ≠ .entered
  | .readerThread pipe, .pipeRead _ pipe' _ => pipe = pipe'
  | .blockedReader, .readInput => True
  | .timer id, .ioWait _ timer => timer = some id
  | .future id, .blocking id' _ => id = id'
  | .underway _ _, .wait4 _ _ => True
  | .underway _ _, .blocking _ _ => False
  | .underway taken _, _ => taken = false
  | _, _ => False

/-- No `unblock` of the thread is still to come. -/
def NoneUnderway (s : St) (t : Nat) : Prop := ∀ id ∈ range s.next, ∀ taken, s.slots (.underway taken id) ≠ some t

deriving instance Decidable for NoneUnderway

/-- The task of a future that has stored its result has called `unblock` as well. -/
def Notified (s : St) : Wait → Prop
  | .blocking id false => id ∈ s.stored → s.slots (.future id) = none
  | _ => True

/-- `blocking` does not look between the two steps of its task. Any other wait ends with no
    `unblock` under way, and not after a sleep that a signal or a timer has ended; nor does
    `wait4` go back to sleep with an `unblock` under way. -/
def Undisturbed (s : St) : Ev → Prop
  | .check t => ∀ w ∈ (s.threads t).wait, Notified s w
  | .wait4Check t ready => NoneUnderway s t ∧ (ready = true → (s.threads t).status ≠ .runnable true)
  | .ioCheck t ready | .pipeCheck t ready | .readInputCheck t ready =>
    ready = true → NoneUnderway s t ∧ (s.threads t).status ≠ .runnable true
  | _ => True

/-! ## The invariant -/

/-- What is known of a thread in `blocking`: its task will unblock it, or the result is there.
    A thread that was woken is named by its task no more. -/
structure Own (s : St) (t : Nat) (status : Status) (id : Nat) (parked : Bool) : Prop where
  coming : s.slots (.future id) = some t ∨ id ∈ s.stored
  asleep : status = .blocked → s.slots (.future id) = some t
  awake : ∀ cut, status = .runnable cut → parked = true → id ∈ s.stored ∧ s.slots (.future id) ≠ some t

variable {s s' : St} {x y : Slot} {t u id : Nat} {w w' : Wait} {thr : Thr} {e : Ev} {status : Status}

theorem Own.congr {parked : Bool} (h : Own s t status id parked)
    (hslots : s'.slots (.future id) = some t ↔ s.slots (.future id) = some t)
    (hstored : id ∈ s.stored → id ∈ s'.stored) : Own s' t status id parked where
  coming := h.coming.imp hslots.mpr hstored
  asleep hb := hslots.mpr (h.asleep hb)
  awake cut hr hp := ⟨hstored (h.awake cut hr hp).1, fun hm => (h.awake cut hr hp).2 (hslots.mp hm)⟩

/-- The slot is one that a thread sleeps in until it is taken out of it. -/
def Slot.Slept : Slot → Prop
  | .waiter _ | .waitThread _ | .readerThread _ | .blockedReader => True
  | _ => False

/-- The slot may hold the index of such a thread. -/
def Names (x : Slot) (thr : Thr) : Prop :=
  ∃ w, thr.wait = some w ∧ Fits x w ∧ (x.Slept → thr.status ≠ .runnable false)

structure Inv (s : St) : Prop where
  named : ∀ x t, s.slots x = some t → Names x (s.threads t)
  taken : ∀ id pid t, s.slots (.underway true id) = some t → s.slots (.waitThread pid) ≠ some t
  future : ∀ id t, s.slots (.future id) = some t → id < s.next
  under : ∀ b id t, s.slots (.underway b id) = some t → id < s.next
  stored : ∀ id ∈ s.stored, id < s.next
  own : ∀ t id b, (s.threads t).wait = some (.blocking id b) → Own s t (s.threads t).status id b
  ok : s.failed = false

/-- In each wait there is one slot to sleep in. -/
theorem Fits.unique (h : Fits x w) (h' : Fits y w) (hx : x.Slept) (hy : y.Slept) : x = y := by
  cases w <;> cases x <;> cases hx <;> cases h <;> cases y <;> cases hy <;> cases h' <;> rfl

/-- Only its own future names a thread in `blocking`. -/
theorem Fits.of_blocking {b : Bool} (h : Fits x (.blocking id b)) : x = .future id := by
  cases x <;> cases h
  rfl

theorem clear_slots : (s.clear x).slots y = some u ↔ y ≠ x ∧ s.slots y = some u := by
  by_cases he : y = x <;> simp [St.clear, he]

theorem set_slots : (s.set x t).slots y = some u ↔ (y = x ∧ u = t) ∨ y ≠ x ∧ s.slots y = some u := by
  by_cases he : y = x <;> simp [St.set, he, eq_comm]

@[simp] theorem put_self (s : St) (t : Nat) (thr : Thr) : (s.put t thr).threads t = thr := Function.update_self ..

theorem put_other (h : u ≠ t) : (s.put t thr).threads u = s.threads u := Function.update_of_ne h ..

theorem unblock_wait (cut : Bool) (thr : Thr) : (thr.unblock cut).wait = thr.wait := by
  unfold Thr.unblock
  split <;> rfl

theorem unblock_status (cut : Bool) (thr : Thr) : (thr.unblock cut).status ≠ .blocked := by
  unfold Thr.unblock
  split
  · exact nofun
  · assumption

namespace Inv

variable (h : Inv s) {ready : Bool}
include h

theorem fits (ht : (s.threads t).wait = some w) (hx : s.slots x = some t) : Fits x w := by
  obtain ⟨_, hw, hf, -⟩ := h.named _ _ hx
  cases ht.symm.trans hw
  exact hf

/-- Nothing names a thread outside every wait. -/
theorem unnamed (ht : (s.threads t).wait = none) : s.slots x ≠ some t := by
  intro hx
  obtain ⟨_, hw, -⟩ := h.named _ _ hx
  cases ht.symm.trans hw

theorem clear (hx : ∀ id, x ≠ .future id) : Inv (s.clear x) where
  named y t hy := h.named y t (clear_slots.mp hy).2
  taken id pid t hu hw := h.taken id pid t (clear_slots.mp hu).2 (clear_slots.mp hw).2
  future id t hf := h.future id t (clear_slots.mp hf).2
  under b id t hu := h.under b id t (clear_slots.mp hu).2
  stored := h.stored
  own t id b ht := (h.own t id b ht).congr (clear_slots.trans (and_iff_right (hx id).symm)) fun hid => hid
  ok := h.ok

theorem set (hx : ∀ id, x ≠ .future id) (hn : Names x (s.threads t)) (hnext : ∀ b id, x = .underway b id → id < s.next)
    (hunder : ∀ id pid, x = .underway true id → s.slots (.waitThread pid) ≠ some t)
    (hwait : ∀ id pid, x = .waitThread pid → s.slots (.underway true id) ≠ some t) : Inv (s.set x t) where
  named y u hy := by
    rcases set_slots.mp hy with ⟨rfl, rfl⟩ | ⟨-, hy⟩
    · exact hn
    · exact h.named y u hy
  taken id pid u hu hw := by
    rcases set_slots.mp hu with ⟨rfl, rfl⟩ | ⟨-, hu⟩ <;> rcases set_slots.mp hw with ⟨he, hut⟩ | ⟨-, hw⟩
    · cases he
    · exact hunder id pid rfl hw
    · exact hwait id pid he.symm (hut ▸ hu)
    · exact h.taken id pid u hu hw
  future id u hf := h.future id u ((set_slots.mp hf).resolve_left fun he => hx id he.1.symm).2
  under b id u hu := (set_slots.mp hu).elim (fun he => hnext b id he.1.symm) fun hu => h.under b id u hu.2
  stored := h.stored
  own u id b hu := by
    refine (h.own u id b hu).congr (set_slots.trans ⟨fun hs => ?_, fun hs => .inr ⟨(hx id).symm, hs⟩⟩) fun hid => hid
    exact (hs.resolve_left fun he => hx id he.1.symm).2
  ok := h.ok

theorem put (hn : ∀ x, s.slots x = some t → Names x thr)
    (ho : ∀ id b, thr.wait = some (.blocking id b) → Own s t thr.status id b) : Inv (s.put t thr) where
  named x u hx := by
    by_cases he : u = t
    · rw [he, put_self]
      exact hn x (he ▸ hx)
    · rw [put_other he]
      exact h.named x u hx
  taken := h.taken
  future := h.future
  under := h.under
  stored := h.stored
  own u id b hu := by
    by_cases he : u = t
    · rw [he, put_self] at hu ⊢
      exact (ho id b hu).congr Iff.rfl fun hid => hid
    · rw [put_other he] at hu ⊢
      exact (h.own u id b hu).congr Iff.rfl fun hid => hid
  ok := h.ok

/-- The thread goes on from one wait to another that the same slots fit, not `blocking`. -/
theorem goOn (ht : (s.threads t).wait = some w) (hf : ∀ x, s.slots x = some t → Fits x w → Fits x w')
    (hb : ∀ id b, w' ≠ .blocking id b) : Inv (s.goOn t w') := by
  refine h.put (fun x hx => ?_) fun id b he => absurd (some.inj he) (hb id b)
  obtain ⟨_, hw, hfit, hslept⟩ := h.named x t hx
  cases ht.symm.trans hw
  exact ⟨w', rfl, hf x hx hfit, hslept⟩

theorem enter (ht : (s.threads t).wait = none) (hb : ∀ id b, w ≠ .blocking id b) : Inv (s.goOn t w) :=
  h.put (fun _ hx => absurd hx (h.unnamed ht)) fun id b he => absurd (some.inj he) (hb id b)

theorem leave (ht : ∀ x, s.slots x ≠ some t) : Inv (s.put t ⟨status, none⟩) :=
  h.put (fun x hx => absurd hx (ht x)) nofun

theorem sleep (ht : (s.threads t).wait = some w) (hf : ∀ y, Fits y w → Fits y w') (hb : ∀ id b, w' ≠ .blocking id b)
    (hx : Fits x w') (hslept : x.Slept) (hwait : ∀ id pid, x = .waitThread pid → s.slots (.underway true id) ≠ some t) :
    Inv ((s.set x t).park t w') := by
  have hpark : Inv (s.park t w') :=
    h.put (fun y hy => ⟨w', rfl, hf y (h.fits ht hy), nofun⟩) fun id b he => absurd (some.inj he) (hb id b)
  refine hpark.set ?_ ⟨w', congrArg Thr.wait (put_self ..), hx, fun _ => ?_⟩ ?_ ?_ hwait
  · rintro _ rfl
    exact hslept
  · rw [St.park, put_self]
    exact nofun
  all_goals
    rintro _ _ rfl
    exact hslept.elim

/-- The thread in the slot, which no thread in `blocking` fits, is unblocked. -/
theorem wake {cut : Bool} (hb : ∀ id b, ¬ Fits x (.blocking id b))
    (hs : ∀ t y, s.slots x = some t → s.slots y = some t → y.Slept → y = x ∨ cut = true) : Inv (s.wake x cut) := by
  unfold St.wake
  split
  · rename_i t ht
    obtain ⟨w, hw, hfx, -⟩ := h.named x t ht
    refine (h.clear fun id he => ?_).put (fun y hy => ?_) fun id b he => ?_
    · subst he
      cases w <;> first | exact hb _ _ hfx | exact hfx
    · obtain ⟨hne, hy⟩ := clear_slots.mp hy
      refine ⟨w, (unblock_wait ..).trans hw, h.fits hw hy, fun hsl => ?_⟩
      rw [(hs t y ht hy hsl).resolve_left hne]
      unfold Thr.unblock
      split
      · exact nofun
      · exact ((h.named y t hy).choose_spec.2.2 hsl)
    · rw [unblock_wait, hw] at he
      exact absurd (some.inj he ▸ hfx) (hb id b)
  · exact h

theorem wake_slept {cut : Bool} (hx : x.Slept) : Inv (s.wake x cut) := by
  refine h.wake (fun id b hf => ?_) fun t y ht hy hsl => .inl ?_
  · rw [hf.of_blocking] at hx
    exact hx
  · obtain ⟨w, hw, hf, -⟩ := h.named x t ht
    exact (h.fits hw hy).unique hf hsl hx

theorem bump : Inv { s with next := s.next + 1 } where
  named := h.named
  taken := h.taken
  future id t hf := Nat.lt_succ_of_lt (h.future id t hf)
  under b id t hu := Nat.lt_succ_of_lt (h.under b id t hu)
  stored id hid := Nat.lt_succ_of_lt (h.stored id hid)
  own u id b hu := (h.own u id b hu).congr Iff.rfl fun hid => hid
  ok := h.ok

theorem launch {taken : Bool} (hn : Names (.underway taken s.next) (s.threads t))
    (htaken : taken = true → ∀ pid, s.slots (.waitThread pid) ≠ some t) : Inv (s.launch taken t) := by
  have hnext : Inv { s with next := s.next + 1 } := h.bump
  refine hnext.set (x := .underway taken s.next) nofun hn (fun b id he => ?_) (fun id pid he => ?_) nofun
  · cases he
    exact Nat.lt_succ_self _
  · cases he
    exact htaken rfl pid

/-- The task of a future whose result is stored unblocks its thread, which nothing else names. -/
theorem notify (hid : id ∈ s.stored) : Inv (s.wake (.future id) false) := by
  unfold St.wake
  split
  · rename_i t ht
    obtain ⟨w, hw, hf, -⟩ := h.named _ _ ht
    obtain ⟨b, rfl⟩ : ∃ b, w = .blocking id b := by
      cases w <;> cases hf
      exact ⟨_, rfl⟩
    have hold : ∀ {y u}, (s.clear (.future id)).slots y = some u → s.slots y = some u := fun hy => (clear_slots.mp hy).2
    refine ⟨fun y u hy => ?_, fun id' pid u hu hp => h.taken id' pid u (hold hu) (hold hp), fun id' u hu =>
      h.future id' u (hold hu), fun b id' u hu => h.under b id' u (hold hu), h.stored, fun u id' b' hu => ?_, h.ok⟩
    · obtain ⟨hne, hy⟩ := clear_slots.mp hy
      have hut : u ≠ t := fun he => hne (h.fits hw (he ▸ hy)).of_blocking
      rw [put_other hut]
      exact h.named y u hy
    · by_cases he : u = t
      · rw [he, put_self] at hu ⊢
        rw [unblock_wait, hw] at hu
        cases hu
        exact ⟨.inr hid, fun hbl => (unblock_status _ _ hbl).elim, fun _ _ _ =>
          ⟨hid, fun hin => (clear_slots.mp hin).1 rfl⟩⟩
      · rw [put_other he] at hu ⊢
        refine (h.own u id' b' hu).congr (clear_slots.trans (and_iff_right_of_imp fun hin heq => he ?_)) fun hin => hin
        rw [heq, ht] at hin
        exact (some.inj hin).symm
  · exact h

/-- `blocking` takes the next number for its future and is the one thread that names it. -/
theorem step_blocking (hs : step s (.blocking t) = some s') : Inv s' := by
  obtain ⟨ht, ⟨⟩⟩ := of_guard hs
  have hnone : (s.threads t).wait = none := by rw [ht]
  have hold : ∀ {y u}, (s.set (.future s.next) t).slots y = some u → y ≠ .future s.next → s.slots y = some u :=
    fun hy hne => ((set_slots.mp hy).resolve_left fun he => hne he.1).2
  refine ⟨fun y u hy => ?_, fun id pid u hu hw => h.taken id pid u (hold hu nofun) (hold hw nofun), fun id u hf => ?_,
    fun b id u hu => h.bump.under b id u (hold hu nofun), h.bump.stored, fun u id b hu => ?_, h.ok⟩
  · rcases set_slots.mp hy with ⟨rfl, rfl⟩ | ⟨-, hy⟩
    · exact ⟨_, congrArg Thr.wait (put_self ..), rfl, nofun⟩
    have hut : u ≠ t := fun he => h.unnamed hnone (he ▸ hy)
    exact (put_other (s := s) hut).symm ▸ h.named y u hy
  · rcases set_slots.mp hf with ⟨he, -⟩ | ⟨-, hf⟩
    · cases he
      exact Nat.lt_succ_self _
    · exact h.bump.future id u hf
  · by_cases he : u = t
    · subst he
      cases (congrArg Thr.wait (put_self ..)).symm.trans hu
      have hin : (s.set (.future s.next) u).slots (.future s.next) = some u := set_slots.mpr (.inl ⟨rfl, rfl⟩)
      exact ⟨.inl hin, fun _ => hin, nofun⟩
    · have hsame : (s.goOn t (.blocking s.next false)).threads u = s.threads u := put_other he
      show Own _ u ((s.goOn t (.blocking s.next false)).threads u).status id b
      rw [hsame]
      refine (h.own u id b ((congrArg Thr.wait hsame).symm.trans hu)).congr (set_slots.trans ?_) fun hid => hid
      refine (or_iff_right fun hc => he hc.2).trans (and_iff_right_of_imp fun hin hc => ?_)
      exact Nat.lt_irrefl _ (h.future _ _ (hc ▸ hin))

theorem step_check (hg : Undisturbed s (.check t)) (hs : step s (.check t) = some s') : Inv s' := by
  simp only [Waits.step] at hs
  split at hs
  · rename_i id ht
    cases hs
    have hw : (s.threads t).wait = some (.blocking id false) := by rw [ht]
    split
    · rename_i hid
      refine h.leave fun x hx => ?_
      rw [(h.fits hw hx).of_blocking] at hx
      cases hx.symm.trans (hg _ hw hid)
    rename_i hid
    have hin := (h.own t id false hw).coming.resolve_right hid
    refine h.put (fun x hx => ⟨_, rfl, ?_, nofun⟩) fun id' b he => ?_
    · rw [(h.fits hw hx).of_blocking]
      exact rfl
    · cases he
      exact ⟨.inl hin, fun _ => hin, nofun⟩
  · cases hs

theorem step_store (hs : step s (.store id) = some s') : Inv s' := by
  obtain ⟨-, hs⟩ := of_unless hs
  obtain ⟨_, ht, rfl⟩ := of_map hs
  refine ⟨h.named, h.taken, h.future, h.under, fun n hn => ?_, fun u n b hu => ?_, h.ok⟩
  · rcases mem_cons.mp hn with rfl | hn
    · exact h.future _ _ ht
    · exact h.stored n hn
  · exact (h.own u n b hu).congr Iff.rfl (mem_cons_of_mem _)

/-- A thread resumed in `blocking` has its result, and its slot is empty. -/
theorem step_resume (hs : step s (.resume t) = some s') : Inv s' := by
  simp only [Waits.step] at hs
  split at hs
  · rename_i cut id ht
    cases hs
    have hw : (s.threads t).wait = some (.blocking id true) := by rw [ht]
    obtain ⟨hid, hnot⟩ := (h.own t id true hw).awake cut (by rw [ht]) rfl
    rw [if_pos hid]
    refine h.leave fun x hx => hnot ?_
    rw [← (h.fits hw hx).of_blocking]
    exact hx
  · cases hs

theorem step_ioWait {port : Nat} {timeout : Bool} (hs : step s (.ioWait t port timeout) = some s') : Inv s' := by
  obtain ⟨ht, hs⟩ := of_guard hs
  have hnone : (s.threads t).wait = none := by rw [ht]
  split at hs <;> cases hs
  · -- the same state, with the timer set once the thread is in the wait
    have henter := (h.enter (w := .ioWait port (some s.next)) hnone nofun).bump
    exact henter.set (x := .timer s.next) nofun ⟨_, congrArg Thr.wait (put_self ..), rfl, nofun⟩ nofun nofun nofun
  · exact h.enter hnone nofun

/-- What names a thread that may leave its wait is neither a slot it slept in nor an `unblock` under way. -/
theorem named_leaving {l : List Slot} {cut : Bool} (ht : s.threads t = ⟨.runnable cut, some w⟩)
    (hg : NoneUnderway s t ∧ (s.threads t).status ≠ .runnable true)
    (hl : ∀ x, Fits x w → ¬ x.Slept → (∀ b id, x ≠ .underway b id) → x ∈ l) (hx : s.slots x = some t) : x ∈ l := by
  obtain ⟨_, hw, hf, hs⟩ := h.named x t hx
  rw [ht] at hw hs
  cases hw
  refine hl x hf (fun hsl => hs hsl ?_) fun b id he => ?_
  · cases cut with
    | false => rfl
    | true => exact absurd (by rw [ht]) hg.2
  · exact hg.1 id (mem_range.mpr (h.under b id t (he ▸ hx))) b (he ▸ hx)

/-- The thread leaves its wait; the one slot that may still name it is emptied on the way out. -/
theorem leave_cleared (hx : ∀ id, x ≠ .future id) (honly : ∀ y, s.slots y = some t → y ∈ [x]) :
    Inv ((s.clear x).leave t) := by
  refine (h.clear hx).leave fun y hy => ?_
  obtain ⟨hne, hy⟩ := clear_slots.mp hy
  exact hne (mem_singleton.mp (honly y hy))

theorem step_ioCheck (hg : Undisturbed s (.ioCheck t ready)) (hs : step s (.ioCheck t ready) = some s') : Inv s' := by
  simp only [Waits.step] at hs
  split at hs
  · rename_i port timer ht
    cases hs
    split
    · rename_i hready
      have honly : ∀ x, s.slots x = some t → x ∈ timer.toList.map Slot.timer := by
        refine fun _ => h.named_leaving ht (hg hready) fun x hf hsl hu => ?_
        cases x <;> simp_all [Fits, Slot.Slept]
      cases timer with
      | none => exact h.leave fun x hx => not_mem_nil (honly x hx)
      | some id => exact h.leave_cleared nofun honly
    · exact h.sleep (x := .waiter port) (by rw [ht]) (fun _ hf => hf) nofun rfl trivial nofun
  · cases hs

theorem step_wait4Check (hg : Undisturbed s (.wait4Check t ready))
    (hs : step s (.wait4Check t ready) = some s') : Inv s' := by
  simp only [Waits.step] at hs
  split at hs
  · rename_i pid ht
    cases hs
    split
    · rename_i hready
      refine h.leave fun _ hx => not_mem_nil (h.named_leaving ht ⟨hg.1, hg.2 hready⟩ (fun x hf hsl hu => ?_) hx)
      cases x <;> simp_all [Fits, Slot.Slept]
    have hslept : Inv ((s.set (.waitThread pid) t).park t (.wait4 pid true)) := h.sleep (by rw [ht])
      (fun x hf => ?_) nofun rfl trivial
      fun id _ _ hu => hg.1 id (mem_range.mpr (h.under _ _ _ hu)) true hu
    · exact hslept.set (x := .signalThread pid) nofun
        ⟨_, congrArg Thr.wait (put_self ..), ⟨rfl, rfl⟩, nofun⟩ nofun nofun nofun
    · cases x <;> simp_all [Fits]
  · cases hs

theorem step_pipeCheck (hg : Undisturbed s (.pipeCheck t ready))
    (hs : step s (.pipeCheck t ready) = some s') : Inv s' := by
  simp only [Waits.step] at hs
  split at hs
  · rename_i pid pipe ht
    cases hs
    split
    · rename_i hready
      refine h.leave_cleared nofun fun _ => h.named_leaving ht (hg hready) fun x hf hsl hu => ?_
      cases x <;> simp_all [Fits, Slot.Slept]
    · refine h.sleep (x := .readerThread pipe) (by rw [ht]) (fun x hf => ?_) nofun rfl trivial nofun
      cases x <;> simp_all [Fits]
  · cases hs

theorem unlisten {pid : Nat} {cut : Bool} (ht : s.threads t = ⟨.runnable cut, some w⟩)
    (hf : ∀ x, x ≠ .signalThread pid → Fits x w → Fits x w') (hb : ∀ id b, w' ≠ .blocking id b) :
    Inv ((s.clear (.signalThread pid)).goOn t w') :=
  (h.clear (x := .signalThread pid) nofun).goOn (w := w) (congrArg Thr.wait ht)
    (fun x hx => hf x (clear_slots.mp hx).1) hb

theorem step_deliver {taken : Bool} (hs : step s (.deliver taken id) = some s') : Inv s' := by
  obtain ⟨_, -, rfl⟩ := of_map hs
  refine h.wake (fun _ _ hf => hf) fun t y ht hy hsl => ?_
  cases taken with
  | false => exact .inr rfl
  | true =>
    -- only `wait4` is woken so, and it is in `wait_thread` no more
    obtain ⟨w, hw, hf, -⟩ := h.named _ t ht
    have hfy := h.fits hw hy
    cases w <;> cases hf
    cases y with
    | waitThread pid => exact absurd hy (h.taken id pid t ht)
    | _ => first | exact hsl.elim | exact hfy.elim

theorem step_childExit {pid : Nat} (hs : step s (.childExit pid) = some s') : Inv s' := by
  obtain ⟨t, ht, rfl⟩ := of_map hs
  obtain ⟨w, hw, hf, -⟩ := h.named _ t ht
  refine (h.clear (x := .waitThread pid) nofun).launch ⟨w, hw, ?_, nofun⟩ fun _ pid' hp => ?_
  · cases w <;> cases hf
    trivial
  · obtain ⟨hne, hp⟩ := clear_slots.mp hp
    exact hne ((h.fits hw hp).unique hf trivial trivial)

theorem step (hg : Undisturbed s e) (hs : step s e = some s') : Inv s' := by
  cases e with
  | blocking t => exact h.step_blocking hs
  | check t => exact h.step_check hg hs
  | store id => exact h.step_store hs
  | notify id =>
    obtain ⟨hid, ⟨⟩⟩ := of_guard hs
    exact h.notify hid
  | resume t => exact h.step_resume hs
  | ioWait t port timeout => exact h.step_ioWait hs
  | ioCheck t ready => exact h.step_ioCheck hg hs
  | post port | pipeWake pipe | consoleWake =>
    cases hs
    exact h.wake_slept trivial
  | expire id =>
    obtain ⟨t, ht, rfl⟩ := of_map hs
    obtain ⟨w, hw, hf, -⟩ := h.named _ t ht
    refine (h.clear (x := .timer id) nofun).launch ⟨w, hw, ?_, nofun⟩ nofun
    cases w <;> cases hf
    rfl
  | wait4 t pid | pipeRead t pid pipe | readInput t =>
    obtain ⟨ht, ⟨⟩⟩ := of_guard hs
    exact h.enter (by rw [ht]) fun _ _ he => by cases he
  | wait4Check t ready => exact h.step_wait4Check hg hs
  | wait4Woken t | pipeWoken t =>
    simp only [Waits.step] at hs
    split at hs
    · rename_i ht
      cases hs
      refine h.unlisten ht (fun x hne hf => ?_) fun _ _ he => by cases he
      cases x <;> simp_all [Fits]
    · cases hs
  | childExit pid => exact h.step_childExit hs
  | kill pid =>
    obtain ⟨t, ht, rfl⟩ := of_map hs
    obtain ⟨w, hw, hf, -⟩ := h.named _ t ht
    refine h.launch ⟨w, hw, ?_, nofun⟩ nofun
    cases w <;> cases hf <;> trivial
  | pipeListen t =>
    simp only [Waits.step] at hs
    split at hs
    · rename_i pid pipe ht
      cases hs
      have hturn : Inv (s.goOn t (.pipeRead pid pipe .listening)) :=
        h.goOn (congrArg Thr.wait ht) (fun x _ hf => ?_) nofun
      · exact hturn.set (x := .signalThread pid) nofun
          ⟨_, congrArg Thr.wait (put_self ..), ⟨rfl, nofun⟩, nofun⟩ nofun nofun nofun
      · cases x <;> simp_all [Fits]
    · cases hs
  | pipeCheck t ready => exact h.step_pipeCheck hg hs
  | readInputCheck t ready =>
    simp only [Waits.step] at hs
    split at hs
    · rename_i ht
      cases hs
      split
      · rename_i hready
        refine h.leave fun _ hx => not_mem_nil (h.named_leaving ht (hg hready) (fun x hf hsl hu => ?_) hx)
        cases x <;> simp_all [Fits, Slot.Slept]
      · exact h.sleep (x := .blockedReader) (by rw [ht]) (fun _ hf => hf) nofun trivial trivial nofun
    · cases hs
  | deliver taken id => exact h.step_deliver hs
  | exit t | spawn t =>
    obtain ⟨ht, ⟨⟩⟩ := of_guard hs
    exact h.leave fun _ => h.unnamed (by rw [ht])

end Inv

theorem reach_inv (h : machine.Reach Undisturbed s) : Inv s := by
  refine h.inv (I := Inv) (fun s hs => ?_) fun _ _ _ hi hg hs => hi.step hg hs
  rw [hs]
  exact ⟨nofun, nofun, nofun, nofun, nofun, nofun, rfl⟩

/-! ## Who resumes a thread -/

/-- The slot through which the event unblocks a thread. -/
def wakes : Ev → Option Slot
  | .notify id => some (.future id)
  | .post port => some (.waiter port)
  | .pipeWake pipe => some (.readerThread pipe)
  | .consoleWake => some .blockedReader
  | .deliver taken id => some (.underway taken id)
  | _ => none

theorem wake_threads (s : St) (x : Slot) (cut : Bool) (t : Nat) :
    (s.wake x cut).threads t = s.threads t ∨ s.slots x = some t := by
  unfold St.wake
  split
  · rename_i u hu
    by_cases he : t = u
    · exact .inr (he ▸ hu)
    · exact .inl (put_other he)
  · exact .inl rfl

theorem step_blocked (hs : step s e = some s') (hb : (s.threads t).status = .blocked) :
    s'.threads t = s.threads t ∨ ∃ x, wakes e = some x ∧ s.slots x = some t := by
  -- a thread that takes a step itself is runnable, or dead when it is spawned
  have hrun : ∀ {u : Nat} {st : Status} {w : Option Wait} {thr : Thr} {s₁ : St}, s₁.threads = s.threads →
      s.threads u = ⟨st, w⟩ → st ≠ .blocked → (s₁.put u thr).threads t = s.threads t := by
    intro u st w thr s₁ hsame hu hst
    have hne : t ≠ u := by
      rintro rfl
      rw [hu] at hb
      exact hst hb
    rw [put_other hne, hsame]
  cases e with
  | notify id =>
    obtain ⟨-, ⟨⟩⟩ := of_guard hs
    exact (wake_threads s (.future id) false t).imp_right fun h => ⟨_, rfl, h⟩
  | post port =>
    cases hs
    exact (wake_threads s (.waiter port) false t).imp_right fun h => ⟨_, rfl, h⟩
  | pipeWake pipe =>
    cases hs
    exact (wake_threads s (.readerThread pipe) false t).imp_right fun h => ⟨_, rfl, h⟩
  | consoleWake =>
    cases hs
    exact (wake_threads s .blockedReader false t).imp_right fun h => ⟨_, rfl, h⟩
  | deliver taken id =>
    obtain ⟨u, -, rfl⟩ := of_map hs
    exact (wake_threads s (.underway taken id) (!taken) t).imp_right fun h => ⟨_, rfl, h⟩
  | store id =>
    obtain ⟨-, hs⟩ := of_unless hs
    obtain ⟨u, -, rfl⟩ := of_map hs
    exact .inl rfl
  | expire id | childExit pid | kill pid =>
    obtain ⟨u, -, rfl⟩ := of_map hs
    exact .inl rfl
  | blocking u | wait4 u pid | pipeRead u pid pipe | readInput u | exit u | spawn u | wait4Woken u
  | pipeListen u | pipeWoken u =>
    simp only [step] at hs
    split at hs
    · rename_i hu
      cases hs
      exact .inl (hrun rfl hu nofun)
    · cases hs
  | ioWait u port timeout =>
    obtain ⟨hu, hs⟩ := of_guard hs
    split at hs <;> cases hs <;> exact .inl (hrun rfl hu nofun)
  | check u | wait4Check u ready | pipeCheck u ready | readInputCheck u ready =>
    simp only [step] at hs
    split at hs
    · rename_i hu
      cases hs
      split <;> exact .inl (hrun rfl hu nofun)
    · cases hs
  | resume u =>
    simp only [step] at hs
    split at hs
    · rename_i hu
      cases hs
      split
      · exact .inl (hrun rfl hu nofun)
      · exact .inl rfl
    · cases hs
  | ioCheck u ready =>
    simp only [step] at hs
    split at hs
    · rename_i timer hu
      cases hs
      have hsame : (timer.elim s fun id => s.clear (.timer id)).threads = s.threads := by cases timer <;> rfl
      split
      · exact .inl (hrun hsame hu nofun)
      · exact .inl (hrun rfl hu nofun)
    · cases hs

/-- `blocking` always finds its result, nothing but its own future resumes it, and every
    index kept somewhere is that of a thread in the wait it was put there for. -/
structure Resumes (s : St) : Prop where
  found : s.failed = false
  present : ∀ t id cut, s.threads t = ⟨.runnable cut, some (.blocking id true)⟩ → id ∈ s.stored
  own : ∀ t id e s', s.threads t = ⟨.blocked, some (.blocking id true)⟩ → step s e = some s' →
    (s'.threads t).status ≠ .blocked → e = .notify id ∧ id ∈ s.stored
  inWait : ∀ x t, s.slots x = some t → ∃ w, (s.threads t).wait = some w ∧ Fits x w

theorem blocking_resumed_by_its_future (h : machine.Reach Undisturbed s) : Resumes s := by
  have hi := reach_inv h
  refine ⟨hi.ok, fun t id cut ht => ?_, fun t id e s' ht hs hne => ?_, fun x t hx => ?_⟩
  · exact ((hi.own t id true (by rw [ht])).awake cut (by rw [ht]) rfl).1
  · have hb : (s.threads t).status = .blocked := by rw [ht]
    rcases step_blocked hs hb with hsame | ⟨_, hx, hslot⟩
    · exact absurd (hsame ▸ hb) hne
    have hw : (s.threads t).wait = some (.blocking id true) := by rw [ht]
    have hf := hi.fits hw hslot
    cases e with
    | notify id' =>
      cases hx
      obtain rfl : id' = id := hf
      exact ⟨rfl, (of_guard hs).1⟩
    | post | pipeWake | consoleWake | deliver =>
      cases hx
      exact hf.elim
    | _ => cases hx
  · obtain ⟨w, hw, hf, -⟩ := hi.named x t hx
    exact ⟨w, hw, hf⟩

/-- A thread reads a pipe and is woken by the writer, waits on a port with a timeout and is woken
    by a completion, waits for a child, and then for a future. -/
def readThenOpen : List Ev :=
  [.spawn 1, .pipeRead 1 7 3, .pipeListen 1, .pipeCheck 1 false, .pipeWake 3, .pipeWoken 1, .pipeListen 1,
    .pipeCheck 1 true, .ioWait 1 4 true, .ioCheck 1 false, .post 4, .ioCheck 1 true,
    .wait4 1 7, .wait4Check 1 false, .childExit 7, .deliver true 1, .wait4Woken 1, .wait4Check 1 true,
    .blocking 1, .check 1, .pipeWake 3, .post 4, .store 2, .notify 2]

instance (s : St) (w : Wait) : Decidable (Notified s w) := by
  unfold Notified
  split <;> infer_instance

instance (s : St) (e : Ev) : Decidable (Undisturbed s e) := by
  cases e <;> unfold Undisturbed <;> infer_instance

theorem blocking_resumed_after_a_read : ∃ s, machine.Reach Undisturbed s ∧ Resumes s ∧
    s.threads 1 = ⟨.runnable false, some (.blocking 2 true)⟩ := by
  obtain ⟨s, hs, he⟩ : ∃ s, machine.Reach Undisturbed s ∧ s.threads 1 = ⟨.runnable false, some (.blocking 2 true)⟩ :=
    Machine.exists_reach boot readThenOpen rfl (by decide)
  exact ⟨s, hs, blocking_resumed_by_its_future hs, he⟩

/-- A read is interrupted by a signal and leaves `reader_thread` behind; the thread then waits
    in `blocking` and the next write to the pipe wakes it, without a result. -/
def interruptedRead : List Ev :=
  [.spawn 1, .pipeRead 1 7 3, .pipeListen 1, .pipeCheck 1 false, .kill 7, .deliver false 0, .pipeWoken 1, .pipeListen 1,
    .pipeCheck 1 true, .blocking 1, .check 1, .pipeWake 3, .resume 1]

/-- The same after a timeout: the port's waiter is still the thread when a completion comes. -/
def timedOutWait : List Ev :=
  [.spawn 1, .ioWait 1 4 true, .ioCheck 1 false, .expire 0, .deliver false 1, .ioCheck 1 true, .blocking 1,
    .check 1, .post 4, .resume 1]

theorem stale_reader_wakes_blocking : (∃ s, machine.Reachable s ∧ s.failed = true ∧ ¬ Resumes s) ∧
    (machine.run boot interruptedRead).any (·.failed) = true ∧
    (machine.run boot timedOutWait).any (·.failed) = true := by
  obtain ⟨s, hs, hf⟩ : ∃ s, machine.Reachable s ∧ s.failed = true :=
    Machine.exists_reachable boot interruptedRead rfl (by decide)
  refine ⟨⟨s, hs, hf, fun h => ?_⟩, by decide, by decide⟩
  cases hf.symm.trans h.found

end Ostoo.Proc.Waits
