/-
  Ostoo.CompletionPort.RingEnter — a port in ring mode (`completion_port.rs`), one thread
  that calls `sys_io_ring_enter` again and again (`io_port.rs`), and any number of posts, at
  the granularity of the port's lock.

  A completion that needs no copying is written to the CQ ring, any other waits in the
  kernel queue until a call moves it there. The call takes the whole queue under the lock
  (`flush`), posts what it took one by one under locks of their own (`postCqe`), and then
  looks at the CQ under yet another lock: it returns, or fills the waiter slot and marks
  itself Blocked (`check`), yields, and begins with a flush again when it is next
  dispatched. The entries it submits first are posts like any others. User space pops the
  CQ at any time.

  - `ring_completions_kept`: a full CQ drops what is posted or moved to it
    (`a_full_ring_drops_completions`), a full queue what is deferred. In the runs in which
    each post finds room nothing is lost, and every step is one of the PlusCal model.
  - `ring_enter_sleeps_without_work`: a completion that is queued between the flush and the
    look at the CQ is not seen (`ring_enter_sleeps_on_a_queued_completion`). In the runs in
    which none is, the thread does not sleep while there is enough to return.
-/

import Mathlib.Data.List.Perm.Basic
import Ostoo.Lib.Machine
import Ostoo.CompletionPort.Port
import Ostoo.Fd.Kernel

namespace Ostoo.CompletionPort.RingEnter

open Ostoo.Lib Ostoo.Task Ostoo.Task.Scheduler List Option
open Ostoo.Fd (Completion IoCompletion CqRing)

variable {κ : Type}

/-- A completion the fast path takes: no `read_buf`, no `transfer_fds`. -/
def simple (c : Completion) : Bool := c.readBuf.isNone && c.transferFds.isNone

/-- `CompletionPort` with its rings set up. -/
structure RingPort where
  inner : Port Completion
  ring : CqRing

/-- `CompletionPort::post`; the result of `post_cqe` is not looked at. -/
def RingPort.post (p : RingPort) (c : Completion) : RingPort × Option Nat :=
  if simple c then
    let r := p.inner.wakeWaiter
    (⟨r.1, p.ring.postCqe c.toIoCompletion⟩, r.2)
  else
    let r := p.inner.post c
    (⟨r.1, p.ring⟩, r.2)

/-- Where the thread is. -/
inductive Call
  | user
  /-- About to take the queue. -/
  | flush (minComplete : Nat)
  /-- With what it took and has not posted yet. -/
  | posting (minComplete : Nat) (rest : List Completion)
  /-- About to look at the CQ. -/
  | check (minComplete : Nat)
  /-- In `wait_while`, marked Blocked under the lock, before its yield. -/
  | parking (minComplete : Nat)

def Call.minComplete : Call → Nat
  | .user => 0
  | .flush m | .posting m _ | .check m | .parking m => m

/-- What the call has taken from the queue. -/
def Call.taken : Call → List Completion
  | .posting _ rest => rest
  | _ => []

structure St (κ : Type) where
  port : RingPort
  sched : Scheduler κ
  call : Call
  posted : List Completion
  popped : List IoCompletion

inductive Ev (κ : Type)
  /-- `post`, by anyone. -/
  | post (c : Completion)
  | others (e : SchedEv κ)
  /-- User space takes the oldest entry of the CQ. -/
  | pop
  /-- `io_ring_enter`, its submissions done. -/
  | enter (minComplete : Nat)
  | flush
  | postCqe
  | check
  | yield

section Step

variable (tid : Nat)

def post (s : St κ) (c : Completion) : St κ :=
  let r := s.port.post c
  { s with port := r.1, sched := unblockWoken s.sched r.2, posted := s.posted ++ [c] }

/-- `p.drain(p.pending())` -/
def flush (s : St κ) (m : Nat) : St κ :=
  let r := s.port.inner.drain s.port.inner.pending
  { s with port := { s.port with inner := r.2 }, call := .posting m r.1 }

/-- The loop over what was taken; after it, phase 3. -/
def postCqe (s : St κ) (m : Nat) : List Completion → St κ
  | c :: rest =>
      { s with port := { s.port with ring := s.port.ring.postCqe c.toIoCompletion }, call := .posting m rest }
  | [] => { s with call := if 0 < m then .check m else .user }

/-- `cq_available` against `min_complete`. -/
def check (s : St κ) (m : Nat) : St κ :=
  if m ≤ s.port.ring.cqes.length then { s with call := .user }
  else
    { s with
      port := { s.port with inner := s.port.inner.setWaiter tid }
      sched := s.sched.markBlocked
      call := .parking m }

/-- A step of the thread itself. -/
def threadStep (s : St κ) : Ev κ → Option (St κ)
  | .enter m =>
    match s.call with
    | .user => some { s with call := .flush m }
    | _ => none
  | .flush =>
    match s.call with
    | .flush m => some (flush s m)
    | _ => none
  | .postCqe =>
    match s.call with
    | .posting m rest => some (postCqe s m rest)
    | _ => none
  | .check =>
    match s.call with
    | .check m => some (check tid s m)
    | _ => none
  | .yield =>
    match s.call with
    | .parking m => s.sched.yieldTick.map fun sched => { s with sched, call := .flush m }
    | _ => none
  | _ => none

def step (s : St κ) : Ev κ → Option (St κ)
  | .post c => some (post s c)
  | .others e => (othersStep tid s.sched e).map fun sched => { s with sched }
  | .pop =>
    match s.port.ring.cqes with
    | c :: l => some
        { s with port := { s.port with ring := { s.port.ring with cqes := l } }, popped := s.popped ++ [c] }
    | [] => none
  | e => if s.sched.currentIdx = tid then threadStep tid s e else none

/-- The rings are new, and the thread runs. -/
def Start (entries : Nat) (s : St κ) : Prop :=
  s.port = ⟨.new, ⟨entries, []⟩⟩ ∧ s.call = .user ∧ s.posted = [] ∧ s.popped = [] ∧ s.sched.currentIdx = tid ∧
    ∃ t, s.sched.current? = some t ∧ t.state = .running

def machine (entries : Nat) : Machine (St κ) (Ev κ) := ⟨Start tid entries, step tid⟩

end Step

variable {tid entries : Nat} {s s' : St κ}

/-! ## What each step does -/

variable {e : Ev κ} {c : Completion} {m : Nat}

theorem threadStep_cases (h : threadStep tid s e = some s') :
    (∃ m, s.call = .user ∧ s' = { s with call := .flush m }) ∨
    (∃ m, s.call = .flush m ∧ s' = flush s m) ∨
    (∃ m rest, e = .postCqe ∧ s.call = .posting m rest ∧ s' = postCqe s m rest) ∨
    (∃ m, s.call = .check m ∧ s' = check tid s m) ∨
    (∃ m sched, s.call = .parking m ∧ s.sched.yieldTick = some sched ∧ s' = { s with sched, call := .flush m }) := by
  unfold threadStep at h
  split at h
  · split at h
    · rename_i hc
      exact .inl ⟨_, hc, (some.inj h).symm⟩
    · cases h
  · split at h
    · rename_i hc
      exact .inr (.inl ⟨_, hc, (some.inj h).symm⟩)
    · cases h
  · split at h
    · rename_i hc
      exact .inr (.inr (.inl ⟨_, _, rfl, hc, (some.inj h).symm⟩))
    · cases h
  · split at h
    · rename_i hc
      exact .inr (.inr (.inr (.inl ⟨_, hc, (some.inj h).symm⟩)))
    · cases h
  · split at h
    · rename_i hc
      obtain ⟨sched, hy, rfl⟩ := of_map h
      exact .inr (.inr (.inr (.inr ⟨_, sched, hc, hy, rfl⟩)))
    · cases h
  · cases h

theorem step_cases (h : step tid s e = some s') :
    (∃ c, e = .post c ∧ s' = post s c) ∨
    (∃ e' sched, othersStep tid s.sched e' = some sched ∧ s' = { s with sched }) ∨
    (∃ c l, s.port.ring.cqes = c :: l ∧
      s' = { s with port := { s.port with ring := { s.port.ring with cqes := l } }, popped := s.popped ++ [c] }) ∨
    (s.sched.currentIdx = tid ∧ threadStep tid s e = some s') := by
  unfold step at h
  split at h
  · exact .inl ⟨_, rfl, (some.inj h).symm⟩
  · obtain ⟨sched, he, rfl⟩ := of_map h
    exact .inr (.inl ⟨_, sched, he, rfl⟩)
  · split at h
    · rename_i hc
      exact .inr (.inr (.inl ⟨_, _, hc, (some.inj h).symm⟩))
    · cases h
  · obtain ⟨hcur, h⟩ := of_guard h
    exact .inr (.inr (.inr ⟨hcur, h⟩))

/-! ## Nothing is lost -/

section

variable (s : St κ)

/-- Each post finds room: a simple one in the CQ, another in the queue, a moved one in the CQ. -/
def RoomToPost : Ev κ → Prop
  | .post c =>
    if simple c then s.port.ring.cqes.length < s.port.ring.entries
    else s.port.inner.queue.length < s.port.inner.maxQueued
  | .postCqe => s.call.taken ≠ [] → s.port.ring.cqes.length < s.port.ring.entries
  | _ => True

/-- What the kernel holds: the queue, and what a call has taken from it and not posted. -/
def held : List Completion := s.call.taken ++ s.port.inner.queue

def Kept : Prop :=
  (s.posted.map (·.toIoCompletion)).Perm (s.popped ++ s.port.ring.cqes ++ (held s).map (·.toIoCompletion))

/-- The counters of the PlusCal model; `waiting` is `Len(queue) + cq_count`. -/
structure Tally where
  totalPosted : Nat
  waiting : Nat
  totalDelivered : Nat
  deriving DecidableEq

/-- `Post` with nothing dropped, a delivery of one completion, and steps that move none. -/
inductive Tally.Step : Tally → Tally → Prop
  | post (p w d : Nat) : Step ⟨p, w, d⟩ ⟨p + 1, w + 1, d⟩
  | deliver (p w d : Nat) : Step ⟨p, w + 1, d⟩ ⟨p, w, d + 1⟩
  | rest (a : Tally) : Step a a

def tally : Tally := ⟨s.posted.length, s.port.ring.cqes.length + (held s).length, s.popped.length⟩

/-- What waits for user space, in the CQ or in the kernel. -/
def waiting : List IoCompletion := s.port.ring.cqes ++ (held s).map (·.toIoCompletion)

theorem tally_waiting : (tally s).waiting = (waiting s).length := by
  simp [tally, waiting]

end

theorem kept_iff : Kept s ↔ (s.posted.map (·.toIoCompletion)).Perm (s.popped ++ waiting s) := by
  rw [Kept, waiting, append_assoc]

theorem Kept.rest (h : Kept s) (hposted : s'.posted = s.posted) (hpopped : s'.popped = s.popped)
    (hwait : waiting s' = waiting s) : Kept s' ∧ Tally.Step (tally s) (tally s') := by
  constructor
  · rw [kept_iff, hposted, hpopped, hwait, ← kept_iff]
    exact h
  · have ht : tally s' = tally s := by
      have hw : (tally s').waiting = (tally s).waiting := by rw [tally_waiting, tally_waiting, hwait]
      simp only [tally, hposted, hpopped] at hw ⊢
      rw [hw]
    rw [ht]
    exact .rest _

theorem Kept.more (h : Kept s) (c : Completion) (hposted : s'.posted = s.posted ++ [c]) (hpopped : s'.popped = s.popped)
    (hwait : (waiting s').Perm (waiting s ++ [c.toIoCompletion])) : Kept s' ∧ Tally.Step (tally s) (tally s') := by
  constructor
  · rw [kept_iff] at h ⊢
    rw [hposted, hpopped, map_append]
    calc s.posted.map (·.toIoCompletion) ++ [c.toIoCompletion]
        |>.Perm (s.popped ++ waiting s ++ [c.toIoCompletion]) := h.append_right _
      _ = s.popped ++ (waiting s ++ [c.toIoCompletion]) := append_assoc ..
      _ |>.Perm (s.popped ++ waiting s') := hwait.symm.append_left _
  · have hw : (tally s').waiting = (tally s).waiting + 1 := by
      rw [tally_waiting, tally_waiting, hwait.length_eq, length_append, length_singleton]
    have hstep := Tally.Step.post s.posted.length (tally s).waiting s.popped.length
    rw [← hw] at hstep
    simpa [tally, hposted, hpopped] using hstep

theorem post_simple (hc : simple c = true) (hroom : s.port.ring.cqes.length < s.port.ring.entries) :
    post s c = { s with
      port := ⟨{ s.port.inner with waiter := none },
        { s.port.ring with cqes := s.port.ring.cqes ++ [c.toIoCompletion] }⟩
      sched := unblockWoken s.sched s.port.inner.waiter, posted := s.posted ++ [c] } := by
  simp [post, RingPort.post, hc, CqRing.postCqe, hroom, Port.wakeWaiter]

theorem post_deferred (hc : simple c = false) (hroom : s.port.inner.queue.length < s.port.inner.maxQueued) :
    post s c = { s with
      port := ⟨{ s.port.inner with queue := s.port.inner.queue ++ [c], waiter := none }, s.port.ring⟩
      sched := unblockWoken s.sched s.port.inner.waiter, posted := s.posted ++ [c] } := by
  simp [post, RingPort.post, hc, Port.post, Port.push, hroom, Port.wakeWaiter]

theorem post_kept (h : Kept s) (c : Completion) (hroom : RoomToPost s (.post c)) :
    Kept (post s c) ∧ Tally.Step (tally s) (tally (post s c)) := by
  cases hc : simple c with
  | true =>
    simp only [RoomToPost, hc, if_true] at hroom
    rw [post_simple hc hroom]
    refine h.more c rfl rfl ?_
    show (s.port.ring.cqes ++ [c.toIoCompletion] ++ (held s).map (·.toIoCompletion)).Perm _
    rw [waiting, append_assoc, append_assoc]
    exact perm_append_comm.append_left _
  | false =>
    simp only [RoomToPost, hc, Bool.false_eq_true, if_false] at hroom
    rw [post_deferred hc hroom]
    refine h.more c rfl rfl (.of_eq ?_)
    simp [waiting, held]

theorem pop_kept (h : Kept s) {c : IoCompletion} {l : List IoCompletion} (hc : s.port.ring.cqes = c :: l)
    (hs' : s' = { s with port := { s.port with ring := { s.port.ring with cqes := l } }, popped := s.popped ++ [c] }) :
    Kept s' ∧ Tally.Step (tally s) (tally s') := by
  have hw : waiting s = c :: waiting s' := by
    simp [waiting, hc, hs', held]
  have hpopped : s'.popped = s.popped ++ [c] := by rw [hs']
  have hposted : s'.posted = s.posted := by rw [hs']
  constructor
  · rw [kept_iff] at h ⊢
    rw [hw] at h
    rw [hpopped, hposted, append_assoc]
    exact h
  · have hlen : (tally s).waiting = (tally s').waiting + 1 := by
      rw [tally_waiting, tally_waiting, hw, length_cons]
    have hstep := Tally.Step.deliver s.posted.length (tally s').waiting s.popped.length
    rw [← hlen] at hstep
    simpa [tally, hpopped, hposted] using hstep

theorem thread_kept (h : Kept s) (hroom : RoomToPost s e) (hs : threadStep tid s e = some s') :
    Kept s' ∧ Tally.Step (tally s) (tally s') := by
  rcases threadStep_cases hs with ⟨-, hc, rfl⟩ | ⟨_, hc, rfl⟩ | ⟨_, l, rfl, hc, rfl⟩ | ⟨m, hc, rfl⟩ |
    ⟨m, sched, hc, -, rfl⟩
  · exact h.rest rfl rfl (by simp [waiting, held, hc, Call.taken])
  · exact h.rest rfl rfl (by simp [waiting, held, flush, hc, Call.taken, Port.drain, Port.pending])
  · cases l with
    | nil =>
      refine h.rest rfl rfl ?_
      simp only [postCqe]
      split <;> simp [waiting, held, hc, Call.taken]
    | cons c l =>
      have hroom : s.port.ring.cqes.length < s.port.ring.entries := hroom (by simp [hc, Call.taken])
      exact h.rest rfl rfl (by simp [waiting, held, postCqe, hc, Call.taken, CqRing.postCqe, hroom])
  · unfold check
    split
    · exact h.rest rfl rfl (by simp [waiting, held, hc, Call.taken])
    · exact h.rest rfl rfl (by simp [waiting, held, hc, Call.taken, Port.setWaiter])
  · exact h.rest rfl rfl (by simp [waiting, held, hc, Call.taken])

theorem step_kept (h : Kept s) (hroom : RoomToPost s e) (hs : step tid s e = some s') :
    Kept s' ∧ Tally.Step (tally s) (tally s') := by
  rcases step_cases hs with ⟨c, rfl, rfl⟩ | ⟨-, -, -, rfl⟩ | ⟨c, _, hc, hs'⟩ | ⟨-, hs⟩
  · exact post_kept h c hroom
  · exact h.rest rfl rfl rfl
  · exact pop_kept h hc hs'
  · exact thread_kept h hroom hs

theorem start_kept (h : Start tid entries s) : Kept s := by
  obtain ⟨hport, hcall, hposted, hpopped, -⟩ := h
  simp [Kept, held, hport, hcall, hposted, hpopped, Call.taken, Port.new]

theorem ring_completions_kept (tid entries : Nat) (s : St κ) (h : (machine tid entries).Reach RoomToPost s) :
    (s.posted.map (·.toIoCompletion)).Perm (s.popped ++ s.port.ring.cqes ++ (held s).map (·.toIoCompletion)) ∧
    s.posted.length = s.popped.length + s.port.ring.cqes.length + (held s).length ∧
    ∀ e s', RoomToPost s e → (machine tid entries).step s e = some s' → Tally.Step (tally s) (tally s') := by
  have hk : Kept s := Machine.Reach.inv (I := Kept) (fun _ h0 => start_kept h0)
    (fun _ _ _ hi hg hs => (step_kept hi hg hs).1) h
  refine ⟨hk, ?_, fun e s' hg hs => (step_kept hk hg hs).2⟩
  have := List.Perm.length_eq hk
  simpa [add_assoc] using this

/-- The boot thread and a port with a CQ of the given size. -/
def newRings (entries : Nat) : St Unit := ⟨⟨.new, ⟨entries, []⟩⟩, .boot () (), .user, [], []⟩

theorem newRings_start (entries : Nat) : Start 0 entries (newRings entries) := ⟨rfl, rfl, rfl, rfl, rfl, _, rfl, rfl⟩

/-- A completion of the fast path, and one with a buffer to copy. -/
def nop (userData : Nat) : Completion := .plain userData 0 0

def readDone (userData : Nat) : Completion := ⟨⟨userData, 8, 2⟩, some (.bytes 8), 0x1000, none⟩

/-- A read completes and is moved to a CQ of one entry, and user space takes it. -/
def movedTrace : List (Ev Unit) := [.post (readDone 1), .enter 0, .flush, .postCqe, .postCqe, .pop]

theorem ring_completions_kept_moved : ∃ s : St Unit, (machine 0 1).Reach RoomToPost s ∧ s.posted = [readDone 1] ∧
    s.popped = [(readDone 1).toIoCompletion] ∧
    (s.posted.map (·.toIoCompletion)).Perm (s.popped ++ s.port.ring.cqes ++ (held s).map (·.toIoCompletion)) := by
  have hg : (machine 0 1).Guarded RoomToPost (newRings 1) movedTrace :=
    ⟨show 0 < 256 by decide, trivial, trivial, fun _ => by decide, fun h => absurd rfl h, trivial, trivial⟩
  obtain ⟨s, hr, hposted, hpopped⟩ : ∃ s, (machine 0 1).run (newRings 1) movedTrace = some s ∧
      s.posted = [readDone 1] ∧ s.popped = [(readDone 1).toIoCompletion] := ⟨_, rfl, rfl, rfl⟩
  have h := Machine.reach_of_run (newRings 1) movedTrace (newRings_start 1) hg hr
  exact ⟨s, h, hposted, hpopped, (ring_completions_kept 0 1 s h).1⟩

/-- A CQ of one entry. Two simple completions are posted and the second is gone; two reads
    complete, the call moves them to the CQ, and the second is gone. -/
theorem a_full_ring_drops_completions :
    (∃ s : St Unit, (machine 0 1).Reachable s ∧ s.call.taken = [] ∧ s.posted.length = 2 ∧
      s.popped.length + s.port.ring.cqes.length + s.port.inner.pending = 1) ∧
    ∃ s : St Unit, (machine 0 1).Reachable s ∧ s.call.taken = [] ∧ s.posted.length = 2 ∧
      s.popped.length + s.port.ring.cqes.length + s.port.inner.pending = 1 := by
  constructor
  · exact ⟨_, Machine.reachable_of_run (newRings 1) [.post (nop 1), .post (nop 2)] (newRings_start 1) rfl,
      rfl, rfl, rfl⟩
  · exact ⟨_, Machine.reachable_of_run (newRings 1)
      [.post (readDone 1), .post (readDone 2), .enter 0, .flush, .postCqe, .postCqe, .postCqe] (newRings_start 1) rfl,
      rfl, rfl, rfl⟩

/-! ## Sleeping on available work -/

/-- No completion is put on the queue between the thread's flush and its look at the CQ. -/
def FlushedFirst (s : St κ) : Ev κ → Prop
  | .post c => simple c = false → ∀ m rest, s.call ≠ .posting m rest ∧ s.call ≠ .check m
  | _ => True

/-- The thread has flushed and not looked yet. -/
def Call.flushed : Call → Bool
  | .posting _ _ | .check _ => true
  | _ => false

structure Inv (tid : Nat) (s : St κ) : Prop where
  alive : s.sched.Alive tid
  flushed : s.call.flushed = true → s.port.inner.queue = []
  /-- Asleep means registered, with nothing held and too little in the CQ. -/
  asleep : s.sched.Asleep tid →
    s.port.inner.waiter = some tid ∧ held s = [] ∧ s.port.ring.cqes.length < s.call.minComplete

theorem start_inv (h : Start tid entries s) : Inv tid s := by
  obtain ⟨-, hcall, -, -, hcur, t, ht, hrun⟩ := h
  rw [current?, hcur] at ht
  refine ⟨⟨t, ht, by simp [hrun]⟩, by simp [hcall, Call.flushed], ?_⟩
  intro hs
  obtain ⟨_, hu, hb⟩ := hs
  rw [ht] at hu
  cases hu
  rw [hrun] at hb
  cases hb

/-- A post empties the waiter slot and wakes its thread, whichever way it goes. -/
theorem post_woken (p : RingPort) (c : Completion) : (p.post c).2 = p.inner.waiter := by
  unfold RingPort.post
  split
  · rfl
  · show (p.inner.push c).waiter = _
    rw [Port.push_waiter]

variable (h : Inv tid s)
include h

theorem post_not_asleep (c : Completion) : ¬ (post s c).sched.Asleep tid := by
  intro hs
  have hasleep : s.sched.Asleep tid := unblockWoken_stirs.asleep h.alive hs
  simp only [post, post_woken, (h.asleep hasleep).1, unblockWoken] at hs
  exact (unblock_wakes hasleep).1 hs

theorem post_inv (hg : FlushedFirst s (.post c)) : Inv tid (post s c) := by
  refine ⟨unblockWoken_stirs.alive h.alive, fun hf => ?_, fun hs => absurd hs (post_not_asleep h c)⟩
  have hf : s.call.flushed = true := hf
  cases hc : simple c with
  | true =>
    show (s.port.post c).1.inner.queue = []
    simp only [RingPort.post, hc, if_true, Port.wakeWaiter]
    exact h.flushed hf
  | false =>
    cases hcall : s.call with
    | posting m rest => exact absurd hcall (hg hc m rest).1
    | check m => exact absurd hcall (hg hc m []).2
    | user | flush m | parking m =>
      rw [hcall] at hf
      cases hf

theorem Inv.stirs {sched : Scheduler κ} (hs : Stirs s.sched sched tid) : Inv tid { s with sched } :=
  ⟨hs.alive h.alive, h.flushed, fun ha => h.asleep (hs.asleep h.alive ha)⟩

theorem pop_inv {c : IoCompletion} {l : List IoCompletion} (hc : s.port.ring.cqes = c :: l) :
    Inv tid { s with port := { s.port with ring := { s.port.ring with cqes := l } }, popped := s.popped ++ [c] } := by
  refine ⟨h.alive, h.flushed, fun hs => ?_⟩
  obtain ⟨hw, hheld, hlt⟩ := h.asleep hs
  rw [hc, length_cons] at hlt
  exact ⟨hw, hheld, Nat.lt_of_succ_lt hlt⟩

theorem flush_inv (hcall : s.call = .flush m) : Inv tid (flush s m) := by
  have hqueue : (flush s m).port.inner.queue = [] := by simp [flush, Port.drain, Port.pending]
  refine ⟨h.alive, fun _ => hqueue, fun hs => ?_⟩
  obtain ⟨hw, hheld, hlt⟩ := h.asleep hs
  rw [hcall] at hlt
  have hempty : s.port.inner.queue = [] := by
    rw [held, hcall] at hheld
    exact hheld
  refine ⟨hw, ?_, hlt⟩
  simp [held, flush, Port.drain, Call.taken, hempty]

theorem postCqe_inv {l : List Completion} (hcall : s.call = .posting m l) : Inv tid (postCqe s m l) := by
  have hqueue : s.port.inner.queue = [] := h.flushed (by rw [hcall]; rfl)
  cases l with
  | nil =>
    refine ⟨h.alive, fun _ => hqueue, fun hs => ?_⟩
    obtain ⟨hw, -, hlt⟩ := h.asleep hs
    rw [hcall] at hlt
    have hm : 0 < m := Nat.lt_of_le_of_lt (Nat.zero_le _) hlt
    simp only [postCqe, hm, if_true]
    exact ⟨hw, by simp [held, Call.taken, hqueue], hlt⟩
  | cons c l =>
    -- with something left to post the thread is awake
    refine ⟨h.alive, fun _ => hqueue, fun hs => ?_⟩
    have hheld := (h.asleep hs).2.1
    rw [held, hcall] at hheld
    cases hheld

theorem check_inv (hcall : s.call = .check m) (hcur : s.sched.currentIdx = tid) : Inv tid (check tid s m) := by
  have hqueue : s.port.inner.queue = [] := h.flushed (by rw [hcall]; rfl)
  unfold check
  split
  · rename_i hge
    refine ⟨h.alive, fun _ => hqueue, fun hs => ?_⟩
    have hlt := (h.asleep hs).2.2
    rw [hcall] at hlt
    exact absurd hlt (not_lt.mpr hge)
  · rename_i hlt
    refine ⟨?_, fun _ => hqueue, fun _ => ⟨rfl, by simp [held, Call.taken, Port.setWaiter, hqueue],
      Nat.lt_of_not_le hlt⟩⟩
    obtain ⟨t, ht, -⟩ := h.alive
    refine ⟨{ t with state := .blocked }, ?_, by simp⟩
    show (s.sched.setState s.sched.currentIdx .blocked).threads[tid]? = _
    rw [getElem?_setState, ht, hcur]
    simp

theorem thread_inv (hcur : s.sched.currentIdx = tid) (hs : threadStep tid s e = some s') : Inv tid s' := by
  rcases threadStep_cases hs with ⟨-, hc, rfl⟩ | ⟨_, hc, rfl⟩ | ⟨_, l, -, hc, rfl⟩ | ⟨m, hc, rfl⟩ |
    ⟨m, sched, hc, hy, rfl⟩
  · refine ⟨h.alive, fun hf => absurd hf Bool.false_ne_true, fun hs => ?_⟩
    have hlt := (h.asleep hs).2.2
    rw [hc] at hlt
    cases hlt
  · exact flush_inv h hc
  · exact postCqe_inv h hc
  · exact check_inv h hc hcur
  · have hi := h.stirs (yieldTick_turns hy).stirs
    refine ⟨hi.alive, fun hf => absurd hf Bool.false_ne_true, fun hs => ?_⟩
    have ha := hi.asleep hs
    simp only [held, hc] at ha
    exact ha

theorem step_inv (hg : FlushedFirst s e) (hs : step tid s e = some s') : Inv tid s' := by
  rcases step_cases hs with ⟨_, rfl, rfl⟩ | ⟨_, sched, he, rfl⟩ | ⟨c, l, hc, rfl⟩ | ⟨hcur, hs⟩
  · exact post_inv h hg
  · exact h.stirs (othersStep_stirs h.alive he)
  · exact pop_inv h hc
  · exact thread_inv h hcur hs

omit h

theorem ring_enter_sleeps_without_work (tid entries : Nat) (s : St κ) (h : (machine tid entries).Reach FlushedFirst s)
    (hs : s.sched.Asleep tid) : s.port.ring.cqes.length + s.port.inner.pending < s.call.minComplete := by
  have hi : Inv tid s :=
    Machine.Reach.inv (I := Inv tid) (fun _ h0 => start_inv h0) (fun _ _ _ hi hg hs => step_inv hi hg hs) h
  obtain ⟨-, hheld, hlt⟩ := hi.asleep hs
  have hqueue : s.port.inner.queue = [] := (append_eq_nil_iff.mp hheld).2
  rw [Port.pending, hqueue]
  exact hlt

/-- The thread waits for two completions with one in the CQ. -/
def waitTrace : List (Ev Unit) := [.post (nop 1), .enter 2, .flush, .postCqe, .check]

theorem ring_enter_sleeps_without_work_wait : ∃ s : St Unit, (machine 0 4).Reach FlushedFirst s ∧ s.sched.Asleep 0 ∧
    s.call.minComplete = 2 ∧ s.port.ring.cqes.length + s.port.inner.pending < s.call.minComplete := by
  have hg : (machine 0 4).Guarded FlushedFirst (newRings 4) waitTrace :=
    ⟨fun h => absurd h (by decide), trivial, trivial, trivial, trivial, trivial⟩
  obtain ⟨s, hr, hs, hm⟩ : ∃ s, (machine 0 4).run (newRings 4) waitTrace = some s ∧ s.sched.Asleep 0 ∧
      s.call.minComplete = 2 := ⟨_, rfl, ⟨_, rfl, rfl⟩, rfl⟩
  have h := Machine.reach_of_run (newRings 4) waitTrace (newRings_start 4) hg hr
  exact ⟨s, h, hs, hm, ring_enter_sleeps_without_work 0 4 s h hs⟩

/-- The thread waits for one completion and has flushed the queue; a read completes; the
    thread looks at the CQ and goes to sleep. -/
def missedTrace : List (Ev Unit) := [.enter 1, .flush, .post (readDone 1), .postCqe, .check]

theorem ring_enter_sleeps_on_a_queued_completion : ∃ s : St Unit, (machine 0 4).Reachable s ∧ s.sched.Asleep 0 ∧
    s.call.minComplete = 1 ∧ s.port.ring.cqes.length + s.port.inner.pending = 1 :=
  ⟨_, Machine.reachable_of_run (newRings 4) missedTrace (newRings_start 4) rfl, ⟨_, rfl, rfl⟩, rfl, rfl⟩

end Ostoo.CompletionPort.RingEnter
