/-
  Ostoo.Proc.Exhaustion — the tables of fixed size that system calls of any process fill:
  the 16 wakers of the timer (`task/timer.rs`, and its users in `io_port.rs`), the stack arena
  (`stack_arena.rs`) and the frames that new page tables come from.

  A timer task is spawned by an OP_TIMEOUT or by an `io_wait` with a timeout. Whenever it is
  polled before its time it takes a slot for its waker, and all slots are emptied at the next
  tick. A task that is done, or an `io_wait` that is over, keeps its slot until then. A poll
  is three steps, since a tick may come between them.

  Nothing bounds the number of these tasks, and a poll that finds no slot panics
  (`seventeenth_timer_panics`); so do a process without a stack and an address space without a
  frame. Where none of the three is asked for when there is none left, no run panics
  (`exhaustion_never_panics`).

  Slots are never emptied one by one, so the table is the list of its wakers. Kernel tasks
  that use the timer are the event `kernelDelay`.
-/

import Mathlib.Data.Finset.Card
import Ostoo.Memory.Frames
import Ostoo.Proc.Lifecycle

namespace Ostoo.Proc.Exhaustion

open Ostoo.Lib List
open Ostoo.Memory (Frames)

def MAX_WAKERS : Nat := 16

def STACK_ARENA_CAPACITY : Nat := 16

/-! ## The state -/

inductive Panic
  /-- `Delay::poll`: "timer: WAKERS full" -/
  | wakersFull
  /-- `Process::new`: "stack arena exhausted" -/
  | stackArena
  /-- `create_user_page_table`: "out of frames" -/
  | pageTable
  deriving DecidableEq, Repr

/-- Where a timer task stands. -/
inductive Phase
  | queued
  /-- In `Delay::poll`, before it takes a slot. -/
  | registering
  /-- In `Delay::poll`, before it looks at the clock again. -/
  | checking
  | parked
  deriving DecidableEq, Repr

structure Timer where
  ticks : Nat
  /-- `Delay::target`; the delay is made by the first poll. -/
  target : Option Nat
  /-- The flag that `io_wait` sets when it returns. -/
  cancel : Bool
  phase : Phase
  /-- Its waker was fired during a poll. -/
  woken : Bool

def Timer.new (ticks : Nat) : Timer := ⟨ticks, none, false, .queued, false⟩

def Timer.wake (t : Timer) : Timer :=
  match t.phase with
  | .parked => { t with phase := .queued }
  | _ => { t with woken := true }

inductive Waker
  | timer (id : Nat)
  | kernel
  deriving DecidableEq, Repr

structure St where
  tick : Nat
  wakers : List Waker
  /-- The timer tasks that are not done. -/
  live : Finset Nat
  timer : Nat → Timer
  nextId : Nat
  freeBitmap : BitVec 32
  /-- The stacks in use. -/
  used : List Nat
  frames : Frames
  panic : Option Panic

namespace St

def boot (frames : Frames) : St :=
  ⟨0, [], ∅, fun _ => .new 0, 0, BitVec.ofNat 32 (2 ^ STACK_ARENA_CAPACITY - 1), [], frames, none⟩

variable (s : St)

def setTimer (id : Nat) (t : Timer) : St := { s with timer := Function.update s.timer id t }

/-- The task is over. -/
def finish (id : Nat) : St := { s with live := s.live.erase id }

def spawnTimer (ticks : Nat) : St :=
  { s with
    live := insert s.nextId s.live, timer := Function.update s.timer s.nextId (.new ticks), nextId := s.nextId + 1 }

/-- The part of `Delay::poll` that runs without interrupts. -/
def register (w : Waker) : St :=
  if s.wakers.length < MAX_WAKERS then { s with wakers := s.wakers ++ [w] } else { s with panic := some .wakersFull }

/-- The timer interrupt. -/
def onTick : St :=
  { s with
    tick := s.tick + 1
    wakers := []
    timer := fun id => if .timer id ∈ s.wakers then (s.timer id).wake else s.timer id }

/-- A poll up to the slot. -/
def poll (id : Nat) : St :=
  let t := s.timer id
  if t.cancel then s.finish id
  else
    let target := t.target.getD (s.tick + t.ticks)
    if target ≤ s.tick then s.finish id
    else s.setTimer id { t with target := some target, phase := .registering }

/-- The rest of a poll, and what the executor does with its answer. -/
def recheck (id : Nat) : St :=
  let t := s.timer id
  if t.target.getD 0 ≤ s.tick then s.finish id
  else if t.woken then s.setTimer id { t with phase := .queued, woken := false }
  else s.setTimer id { t with phase := .parked }

/-- `Process::new`, or a thread of the kernel. -/
def newStack : St :=
  match allocStack s.freeBitmap with
  | some (i, b) => { s with freeBitmap := b, used := i :: s.used }
  | none => { s with panic := some .stackArena }

def createUserPageTable : St :=
  match s.frames.allocate with
  | (some _, a) => { s with frames := a }
  | (none, a) => { s with frames := a, panic := some .pageTable }

end St

/-! ## Runs -/

inductive Ev
  /-- An OP_TIMEOUT is submitted, or an `io_wait` with a timeout begins. -/
  | timeout (ticks : Nat)
  /-- The `io_wait` whose timer this is returns. -/
  | ioWaitReturns (id : Nat)
  | poll (id : Nat)
  | register (id : Nat)
  | recheck (id : Nat)
  | kernelDelay
  | tick
  /-- `clone` or `spawn`. -/
  | newProcess
  /-- A process is reaped. -/
  | dropStack (i : Nat)
  /-- `execve` or `spawn`. -/
  | newPageTable
  | allocFrame
  | freeFrame (f : Nat)

def step (s : St) : Ev → Option St
  | .timeout ticks => some (s.spawnTimer ticks)
  | .ioWaitReturns id => some (s.setTimer id { s.timer id with cancel := true })
  | .poll id => if id ∈ s.live ∧ (s.timer id).phase = .queued then some (s.poll id) else none
  | .register id =>
    if id ∈ s.live ∧ (s.timer id).phase = .registering then
      some ((s.setTimer id { s.timer id with phase := .checking }).register (.timer id))
    else none
  | .recheck id => if id ∈ s.live ∧ (s.timer id).phase = .checking then some (s.recheck id) else none
  | .kernelDelay => some (s.register .kernel)
  | .tick => some s.onTick
  | .newProcess => some s.newStack
  | .dropStack i =>
    if i ∈ s.used then some { s with freeBitmap := dropStack s.freeBitmap i, used := s.used.erase i } else none
  | .newPageTable => some s.createUserPageTable
  | .allocFrame => some { s with frames := s.frames.allocate.2 }
  | .freeFrame f => some { s with frames := s.frames.deallocate f }

/-- After a panic there is nothing more. -/
def machine : Machine St Ev where
  start := fun s => ∃ frames, s = .boot frames
  step := fun s e => if s.panic = none then step s e else none

/-- The timer tasks that have no slot. -/
def St.waiting (s : St) : Finset Nat := s.live.filter fun id => .timer id ∉ s.wakers

/-- The timers that exist or are still registered. -/
def St.timers (s : St) : Nat := s.wakers.length + s.waiting.card

/-- One more timer, stack or frame is asked for only while there is room for it. -/
def Within (s : St) : Ev → Prop
  | .timeout _ | .kernelDelay => s.timers < MAX_WAKERS
  | .newProcess => s.used.length < STACK_ARENA_CAPACITY
  | .newPageTable => 0 < s.frames.available
  | _ => True

instance (s : St) (e : Ev) : Decidable (Within s e) := by
  cases e <;> unfold Within <;> infer_instance

/-! ## Room -/

/-- How a task that has a slot or has none may stand: the tick that wakes it takes the slot. -/
structure Timer.Fits (t : Timer) (slot : Prop) : Prop where
  idle : slot → t.phase = .parked ∨ t.phase = .checking
  woken : t.woken = true → t.phase = .checking ∧ ¬ slot

theorem Timer.fits_queued {t : Timer} {slot : Prop} (hp : t.phase = .queued ∨ t.phase = .registering)
    (h : t.Fits slot) : t.woken = false ∧ ¬ slot := by
  constructor
  · refine Bool.eq_false_iff.mpr fun hw => ?_
    rcases hp with hp | hp <;> cases hp.symm.trans (h.woken hw).1
  · intro hs
    rcases hp with hp | hp <;> rcases h.idle hs with hc | hc <;> cases hp.symm.trans hc

/-- Every task fits its slot, and the bitmap has the stacks that are not in use. -/
structure Inv (s : St) : Prop where
  timers : s.timers ≤ MAX_WAKERS
  tasks : ∀ id ∈ s.live, (s.timer id).Fits (Waker.timer id ∈ s.wakers)
  fresh : ∀ id, id ∈ s.live ∨ Waker.timer id ∈ s.wakers → id < s.nextId
  bitmap : ∀ i, s.freeBitmap.getLsbD i = true ↔ i < STACK_ARENA_CAPACITY ∧ i ∉ s.used
  used : ∀ i ∈ s.used, i < STACK_ARENA_CAPACITY
  distinct : s.used.Nodup
  panic : s.panic = none

theorem inv_boot (frames : Frames) : Inv (.boot frames) where
  timers := Nat.zero_le _
  tasks id hid := absurd hid (Finset.notMem_empty id)
  fresh id hid := by
    rcases hid with hid | hid
    · exact absurd hid (Finset.notMem_empty id)
    · exact absurd hid not_mem_nil
  bitmap i := by
    have hnone : i ∉ (St.boot frames).used := not_mem_nil
    rw [St.boot, BitVec.getLsbD_ofNat]
    have hbit : (2 ^ STACK_ARENA_CAPACITY - 1).testBit i = decide (i < STACK_ARENA_CAPACITY) :=
      Nat.testBit_two_pow_sub_one _ _
    rw [hbit]
    simp only [Bool.and_eq_true, decide_eq_true_eq]
    constructor
    · exact fun h => ⟨h.2, hnone⟩
    · exact fun h => ⟨lt_trans h.1 (by decide), h.1⟩
  used i hi := absurd hi not_mem_nil
  distinct := .nil
  panic := rfl

variable {s : St} {id i : Nat}

@[simp] theorem setTimer_timer_self (t : Timer) : (s.setTimer id t).timer id = t :=
  Function.update_self ..

theorem setTimer_timer_of_ne (t : Timer) {j : Nat} (h : j ≠ id) : (s.setTimer id t).timer j = s.timer j :=
  Function.update_of_ne h ..

@[simp] theorem spawnTimer_timer_self (ticks : Nat) : (s.spawnTimer ticks).timer s.nextId = .new ticks :=
  Function.update_self ..

theorem spawnTimer_timer_of_ne (ticks : Nat) {j : Nat} (h : j ≠ s.nextId) : (s.spawnTimer ticks).timer j = s.timer j :=
  Function.update_of_ne h ..

theorem onTick_timer : s.onTick.timer id = if .timer id ∈ s.wakers then (s.timer id).wake else s.timer id := rfl

theorem mem_waiting : id ∈ s.waiting ↔ id ∈ s.live ∧ Waker.timer id ∉ s.wakers := by
  rw [St.waiting, Finset.mem_filter]

variable (hi : Inv s)
include hi

theorem Inv.finish (id : Nat) : Inv (s.finish id) where
  timers := by
    have hsub : (s.finish id).waiting ⊆ s.waiting := fun j hj =>
      mem_waiting.mpr ⟨Finset.mem_of_mem_erase (mem_waiting.mp hj).1, (mem_waiting.mp hj).2⟩
    exact Nat.le_trans (Nat.add_le_add_left (Finset.card_le_card hsub) _) hi.timers
  tasks j hj := hi.tasks j (Finset.mem_of_mem_erase hj)
  fresh j hj := hi.fresh j (hj.imp_left Finset.mem_of_mem_erase)
  bitmap := hi.bitmap
  used := hi.used
  distinct := hi.distinct
  panic := hi.panic

theorem Inv.setTimer {t : Timer} (h : id ∈ s.live → t.Fits (Waker.timer id ∈ s.wakers)) :
    Inv (s.setTimer id t) where
  timers := hi.timers
  tasks j hj := by
    by_cases he : j = id
    · subst he
      rw [setTimer_timer_self]
      exact h hj
    · rw [setTimer_timer_of_ne _ he]
      exact hi.tasks j hj
  fresh := hi.fresh
  bitmap := hi.bitmap
  used := hi.used
  distinct := hi.distinct
  panic := hi.panic

theorem Inv.spawnTimer (ticks : Nat) (h : s.timers < MAX_WAKERS) : Inv (s.spawnTimer ticks) where
  timers := by
    have hsub : (s.spawnTimer ticks).waiting ⊆ insert s.nextId s.waiting := by
      intro j hj
      obtain ⟨hlive, hw⟩ := mem_waiting.mp hj
      rcases Finset.mem_insert.mp hlive with rfl | hlive
      · exact Finset.mem_insert_self _ _
      · exact Finset.mem_insert_of_mem (mem_waiting.mpr ⟨hlive, hw⟩)
    have hcard := le_trans (Finset.card_le_card hsub) (Finset.card_insert_le _ _)
    unfold St.timers at h ⊢
    change s.wakers.length + (s.spawnTimer ticks).waiting.card ≤ MAX_WAKERS
    omega
  tasks j hj := by
    rcases Finset.mem_insert.mp hj with rfl | hj
    · -- no slot was taken under the new number
      have hnone : Waker.timer s.nextId ∉ s.wakers := fun hw => lt_irrefl _ (hi.fresh _ (.inr hw))
      rw [spawnTimer_timer_self]
      exact ⟨fun hw => absurd hw hnone, fun hw => absurd hw Bool.false_ne_true⟩
    · rw [spawnTimer_timer_of_ne _ (ne_of_lt (hi.fresh j (.inl hj)))]
      exact hi.tasks j hj
  fresh j hj := by
    change j < s.nextId + 1
    rcases hj with hj | hw
    · rcases Finset.mem_insert.mp hj with rfl | hj
      · exact Nat.lt_succ_self _
      · exact Nat.lt_succ_of_lt (hi.fresh j (.inl hj))
    · exact Nat.lt_succ_of_lt (hi.fresh j (.inr hw))
  bitmap := hi.bitmap
  used := hi.used
  distinct := hi.distinct
  panic := hi.panic

theorem Inv.onTick : Inv s.onTick where
  timers := by
    -- the tasks that had a slot are at most as many as the slots
    have hlive : s.live.image Waker.timer ⊆ s.waiting.image Waker.timer ∪ s.wakers.toFinset := by
      intro w hw
      obtain ⟨j, hj, rfl⟩ := Finset.mem_image.mp hw
      by_cases hw : Waker.timer j ∈ s.wakers
      · exact Finset.mem_union_right _ (mem_toFinset.mpr hw)
      · exact Finset.mem_union_left _ (Finset.mem_image_of_mem _ (mem_waiting.mpr ⟨hj, hw⟩))
    have hinj : Function.Injective Waker.timer := fun _ _ => Waker.timer.inj
    have hcard := le_trans (Finset.card_le_card hlive) (Finset.card_union_le _ _)
    rw [Finset.card_image_of_injective _ hinj, Finset.card_image_of_injective _ hinj] at hcard
    have hslots := toFinset_card_le s.wakers
    have hwait : s.onTick.waiting.card ≤ s.live.card := Finset.card_le_card (Finset.filter_subset _ _)
    have hle := hi.timers
    unfold St.timers at hle ⊢
    change 0 + s.onTick.waiting.card ≤ MAX_WAKERS
    omega
  tasks j hj := by
    have hfits := hi.tasks j hj
    refine ⟨nofun, fun hw => ⟨?_, not_mem_nil⟩⟩
    rw [onTick_timer] at hw ⊢
    split_ifs at hw ⊢ with hmem
    · -- a parked task is queued, so the one whose waker fired in a poll was checking
      rcases hfits.idle hmem with hp | hp
      · simp only [Timer.wake, hp] at hw
        exact absurd hmem (hfits.woken hw).2
      · simp only [Timer.wake, hp]
    · exact (hfits.woken hw).1
  fresh j hj := by
    rcases hj with hj | hw
    · exact hi.fresh j (.inl hj)
    · exact absurd hw not_mem_nil
  bitmap := hi.bitmap
  used := hi.used
  distinct := hi.distinct
  panic := hi.panic

theorem Inv.register_kernel (h : s.timers < MAX_WAKERS) : Inv (s.register .kernel) := by
  have hroom : s.wakers.length < MAX_WAKERS := Nat.lt_of_le_of_lt (Nat.le_add_right _ _) h
  have hmem : ∀ j, Waker.timer j ∈ s.wakers ++ [Waker.kernel] ↔ Waker.timer j ∈ s.wakers := by simp
  rw [St.register, if_pos hroom]
  refine { hi with timers := ?_, tasks := ?_, fresh := ?_ }
  · have hwait : St.waiting { s with wakers := s.wakers ++ [Waker.kernel] } = s.waiting :=
      Finset.filter_congr fun j _ => not_congr (hmem j)
    unfold St.timers at h ⊢
    rw [hwait]
    simp only [length_append, length_singleton]
    omega
  · intro j hj
    change (s.timer j).Fits (Waker.timer j ∈ s.wakers ++ [Waker.kernel])
    rw [hmem j]
    exact hi.tasks j hj
  · exact fun j hj => hi.fresh j (hj.imp_right (hmem j).mp)

theorem Inv.register_timer (hlive : id ∈ s.live) (hnone : Waker.timer id ∉ s.wakers)
    (hphase : (s.timer id).phase = .checking) (hwoken : (s.timer id).woken = false) : Inv (s.register (.timer id)) := by
  have hle := hi.timers
  have hmem := mem_waiting.mpr ⟨hlive, hnone⟩
  have hpos := Finset.card_pos.mpr ⟨id, hmem⟩
  have hroom : s.wakers.length < MAX_WAKERS := by
    unfold St.timers at hle
    omega
  rw [St.register, if_pos hroom]
  refine { hi with timers := ?_, tasks := ?_, fresh := ?_ }
  · have hsub : St.waiting { s with wakers := s.wakers ++ [Waker.timer id] } ⊆ s.waiting.erase id := by
      intro j hj
      obtain ⟨hj, hw⟩ := mem_waiting.mp hj
      simp only [mem_append, mem_singleton, Waker.timer.injEq, not_or] at hw
      exact Finset.mem_erase.mpr ⟨hw.2, mem_waiting.mpr ⟨hj, hw.1⟩⟩
    have hcard := Finset.card_le_card hsub
    rw [Finset.card_erase_of_mem hmem] at hcard
    unfold St.timers at hle ⊢
    simp only [length_append, length_singleton]
    omega
  · intro j hj
    change (s.timer j).Fits (Waker.timer j ∈ s.wakers ++ [Waker.timer id])
    by_cases he : j = id
    · subst he
      exact ⟨fun _ => .inr hphase, fun hw => absurd hw (Bool.eq_false_iff.mp hwoken)⟩
    · rw [mem_append, mem_singleton, Waker.timer.injEq, or_iff_left he]
      exact hi.tasks j hj
  · intro j hj
    rcases hj with hj | hw
    · exact hi.fresh j (.inl hj)
    rcases mem_append.mp hw with hw | hw
    · exact hi.fresh j (.inr hw)
    · cases mem_singleton.mp hw
      exact hi.fresh id (.inl hlive)

theorem Inv.poll (hlive : id ∈ s.live) (hphase : (s.timer id).phase = .queued) : Inv (s.poll id) := by
  unfold St.poll
  dsimp only
  split
  · exact hi.finish id
  split
  · exact hi.finish id
  · obtain ⟨hwoken, hnone⟩ := Timer.fits_queued (.inl hphase) (hi.tasks id hlive)
    exact hi.setTimer fun _ => ⟨fun hw => absurd hw hnone, fun hw => absurd hw (Bool.eq_false_iff.mp hwoken)⟩

/-- A task that was woken while it was polled lost its slot to the same tick. -/
theorem Inv.recheck (hlive : id ∈ s.live) : Inv (s.recheck id) := by
  unfold St.recheck
  dsimp only
  split
  · exact hi.finish id
  split
  · rename_i hwoken
    have hnone := ((hi.tasks id hlive).woken hwoken).2
    exact hi.setTimer fun _ => ⟨fun hw => absurd hw hnone, fun hw => absurd hw Bool.false_ne_true⟩
  · rename_i hwoken
    exact hi.setTimer fun _ => ⟨fun _ => .inl rfl, fun hw => absurd hw hwoken⟩

omit hi in
theorem allocStack_ne_none {b : BitVec 32} (h : b.getLsbD i = true) : allocStack b ≠ none := by
  intro hn
  unfold allocStack at hn
  split at hn
  · cases hn
  · rename_i hfind
    have hlt := BitVec.lt_of_getLsbD h
    exact find?_eq_none.mp hfind i (mem_range.mpr hlt) h

theorem Inv.newStack (h : s.used.length < STACK_ARENA_CAPACITY) : Inv s.newStack := by
  -- one of the 16 is not in use, so its bit is set
  obtain ⟨i, hlt, hfree⟩ : ∃ i < STACK_ARENA_CAPACITY, i ∉ s.used := by
    by_contra hall
    have hsub : Finset.range STACK_ARENA_CAPACITY ⊆ s.used.toFinset := fun i hi =>
      mem_toFinset.mpr (by_contra fun hn => hall ⟨i, Finset.mem_range.mp hi, hn⟩)
    have hcard := le_trans (Finset.card_le_card hsub) (toFinset_card_le _)
    exact absurd hcard (not_le.mpr h)
  have hsome := allocStack_ne_none ((hi.bitmap i).mpr ⟨hlt, hfree⟩)
  unfold St.newStack
  split
  · rename_i j b hb
    have hj := (hi.bitmap j).mp (allocStack_free hb)
    refine { hi with bitmap := fun l => ?_, used := ?_, distinct := nodup_cons.mpr ⟨hj.2, hi.distinct⟩ }
    · rw [allocStack_rest hb, Bool.and_eq_true, hi.bitmap l, decide_eq_true_eq, mem_cons, not_or]
      tauto
    · intro l hl
      rcases mem_cons.mp hl with rfl | hl
      · exact hj.1
      · exact hi.used l hl
  · rename_i hn
    exact absurd hn hsome

theorem Inv.dropStack (h : i ∈ s.used) :
    Inv { s with freeBitmap := dropStack s.freeBitmap i, used := s.used.erase i } := by
  have hlt := hi.used i h
  refine { hi with
    bitmap := fun l => ?_, used := fun l hl => hi.used l (mem_of_mem_erase hl), distinct := hi.distinct.erase i }
  rw [dropStack_getLsbD (lt_trans hlt (by decide)), Bool.or_eq_true, hi.bitmap l, decide_eq_true_eq,
    hi.distinct.mem_erase_iff]
  constructor
  · rintro (⟨hl, hn⟩ | rfl)
    · exact ⟨hl, fun hm => hn hm.2⟩
    · exact ⟨hlt, fun hm => hm.1 rfl⟩
  · rintro ⟨hl, hn⟩
    by_cases he : l = i
    · exact .inr he
    · exact .inl ⟨hl, fun hm => hn ⟨he, hm⟩⟩

theorem Inv.frames (a : Frames) : Inv { s with frames := a } :=
  { hi with }

theorem Inv.createUserPageTable (h : 0 < s.frames.available) : Inv s.createUserPageTable := by
  unfold St.createUserPageTable
  split
  · exact hi.frames _
  · rename_i ha
    have hnone := (Frames.allocate_none_available ha).1
    omega

theorem inv_step {s' : St} {e : Ev} (hg : Within s e) (h : step s e = some s') : Inv s' := by
  cases e with
  | timeout ticks =>
    cases h
    exact hi.spawnTimer ticks hg
  | ioWaitReturns id =>
    cases h
    exact hi.setTimer fun hlive => ⟨(hi.tasks id hlive).idle, (hi.tasks id hlive).woken⟩
  | poll id =>
    obtain ⟨⟨hlive, hphase⟩, hs⟩ := of_guard h
    cases hs
    exact hi.poll hlive hphase
  | register id =>
    obtain ⟨⟨hlive, hphase⟩, hs⟩ := of_guard h
    cases hs
    obtain ⟨hwoken, hnone⟩ := Timer.fits_queued (.inr hphase) (hi.tasks id hlive)
    have hset : Inv (s.setTimer id { s.timer id with phase := .checking }) :=
      hi.setTimer fun _ => ⟨fun _ => .inr rfl, fun _ => ⟨rfl, hnone⟩⟩
    exact hset.register_timer hlive hnone (by rw [setTimer_timer_self]) (by rw [setTimer_timer_self]; exact hwoken)
  | recheck id =>
    obtain ⟨⟨hlive, -⟩, hs⟩ := of_guard h
    cases hs
    exact hi.recheck hlive
  | kernelDelay =>
    cases h
    exact hi.register_kernel hg
  | tick =>
    cases h
    exact hi.onTick
  | newProcess =>
    cases h
    exact hi.newStack hg
  | dropStack i =>
    obtain ⟨hmem, hs⟩ := of_guard h
    cases hs
    exact hi.dropStack hmem
  | newPageTable =>
    cases h
    exact hi.createUserPageTable hg
  | allocFrame | freeFrame =>
    cases h
    exact hi.frames _

omit hi

/-! ## Seventeen timers -/

/-- One timer is started, polled and put into a slot. -/
def oneTimer (id : Nat) : List Ev := [.timeout 1000, .poll id, .register id, .recheck id]

/-- Seventeen timers of ten seconds within one tick; seventeen processes; two address spaces and one frame. -/
theorem seventeenth_timer_panics :
    (∃ s, machine.Reachable s ∧ s.tick = 0 ∧ s.panic = some .wakersFull) ∧
    (∃ s, machine.Reachable s ∧ s.used.length = 16 ∧ s.panic = some .stackArena) ∧
    ∃ s, machine.Reachable s ∧ s.panic = some .pageTable := by
  refine ⟨?_, ?_, ?_⟩
  · exact Machine.exists_reachable (.boot ⟨[], 0, []⟩)
      ((range 16).flatMap oneTimer ++ [.timeout 1000, .poll 16, .register 16]) ⟨_, rfl⟩ (by decide)
  · exact Machine.exists_reachable (.boot ⟨[], 0, []⟩) (replicate 17 .newProcess) ⟨_, rfl⟩ (by decide)
  · exact Machine.exists_reachable (.boot ⟨[0x1000], 0, []⟩) [.newPageTable, .newPageTable] ⟨_, rfl⟩ (by decide)

theorem exhaustion_never_panics (h : machine.Reach Within s) : s.panic = none := by
  refine (Machine.Reach.inv (I := Inv) ?_ ?_ h).panic
  · rintro _ ⟨frames, rfl⟩
    exact inv_boot frames
  · intro s e s' hi hg hs
    exact inv_step hi hg (of_guard hs).2

/-- Sixteen timers hold the sixteen slots, and two of them take theirs again after a tick. -/
theorem sixteen_timers_do_not_panic :
    ∃ s, machine.Reach Within s ∧ s.wakers = [.timer 3, .timer 5] ∧ s.timers = 16 ∧ s.panic = none := by
  obtain ⟨s, hreach, hw, ht⟩ : ∃ s, machine.Reach Within s ∧ s.wakers = [.timer 3, .timer 5] ∧ s.timers = 16 :=
    Machine.exists_reach (.boot ⟨[0x1000], 0, []⟩)
      ((range 16).flatMap oneTimer ++ [.newProcess, .newPageTable, .tick, .poll 3, .register 3, .poll 5, .register 5])
      ⟨_, rfl⟩ (by decide)
  exact ⟨s, hreach, hw, ht, exhaustion_never_panics hreach⟩

end Ostoo.Proc.Exhaustion
