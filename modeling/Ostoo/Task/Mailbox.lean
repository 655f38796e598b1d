/-
  Ostoo.Task.Mailbox — actor mailboxes and the one-shot reply (`task/mailbox.rs`).

  A send or a close takes the lock once and then, the lock released, calls `waker.wake()`; a
  poll of `recv` looks under the lock, registers its waker and looks again. `machine` takes
  these one at a time, with any number of senders: between its lock section and its
  `wake` a caller is only counted (`waking`). `locked` is the same at the granularity of
  the lock, where whoever took the lock goes on to its next lock section. The `AtomicWaker`
  gives a wake to the waker that was registered last, once.

  Proved over every run of either (`mailbox_delivers`): messages are received in the order
  they were sent, `None` only when the mailbox is closed and empty, and no receiver is left
  `Pending` without a wake. Hence `ask` resolves to what `Reply::send` was given, and to
  `None` only when the reply was dropped unsent.
-/

import Mathlib.Data.List.Basic
import Ostoo.Lib.Machine

namespace Ostoo.Task.Mailbox

open Ostoo.Lib List

variable {M : Type}

structure Inner (M : Type) where
  queue : List M
  closed : Bool

/-- The first or the second look of `MailboxRecv::poll`; no result is to go on. -/
def Inner.look (inner : Inner M) : Option (Option M) × Inner M :=
  match inner.queue with
  | m :: queue => (some (some m), { inner with queue := queue })
  | [] => (if inner.closed then some none else none, inner)

/-- The `AtomicWaker`: whether a waker is registered, and whether the one that was
    registered last has been called since. -/
structure Waker where
  registered : Bool
  fired : Bool
  deriving DecidableEq

def Waker.register (_ : Waker) : Waker := ⟨true, false⟩

def Waker.wake (w : Waker) : Waker := if w.registered then ⟨false, true⟩ else w

/-- Where the receiver is: its last poll was `Ready` (or there was none), it is in one, or the
    last one was `Pending`. -/
inductive Phase
  | ready
  | looked
  | registered
  | pending
  deriving DecidableEq

theorem Phase.ready_not_armed : ¬ (Phase.ready = .registered ∨ Phase.ready = .pending) := by decide

/-- A lock section of a sender or a closer. -/
inductive Op (M : Type)
  | send (msg : M)
  | close

structure St (M : Type) where
  inner : Inner M
  waker : Waker
  phase : Phase
  /-- Callers that have left their lock section and not called `wake` yet. -/
  waking : Nat
  /-- The lock sections so far. -/
  log : List (Op M)
  /-- The results of the polls that were `Ready`. -/
  results : List (Option M)

inductive Ev (M : Type)
  | send (msg : M)
  | close
  | wake
  | poll
  | register
  | recheck

namespace St

def new : St M := ⟨⟨[], false⟩, ⟨false, false⟩, .ready, 0, [], []⟩

/-- The lock section of `send`: to a closed mailbox the message is dropped. -/
def send (s : St M) (msg : M) : St M :=
  if s.inner.closed then { s with log := s.log ++ [.send msg] }
  else { s with
    inner := { s.inner with queue := s.inner.queue ++ [msg] }, waking := s.waking + 1, log := s.log ++ [.send msg] }

def close (s : St M) : St M :=
  { s with inner := { s.inner with closed := true }, waking := s.waking + 1, log := s.log ++ [.close] }

def wake (s : St M) : St M := { s with waker := s.waker.wake, waking := s.waking - 1 }

/-- A look, after which an empty and open mailbox leaves the receiver in `phase`. -/
def look (s : St M) (phase : Phase) : St M :=
  match s.inner.look with
  | (some result, inner) => { s with inner := inner, phase := .ready, results := s.results ++ [result] }
  | (none, inner) => { s with inner := inner, phase := phase }

theorem look_cases (s : St M) (phase : Phase) :
    (∃ m queue, s.inner.queue = m :: queue ∧
      s.look phase =
        { s with inner := { s.inner with queue := queue }, phase := .ready, results := s.results ++ [some m] }) ∨
    (s.inner.queue = [] ∧ s.inner.closed = true ∧
      s.look phase = { s with phase := .ready, results := s.results ++ [none] }) ∨
    (s.inner.queue = [] ∧ s.inner.closed = false ∧ s.look phase = { s with phase := phase }) := by
  unfold look Inner.look
  cases hq : s.inner.queue with
  | cons m queue => exact .inl ⟨m, queue, rfl, rfl⟩
  | nil =>
    cases hc : s.inner.closed with
    | true => exact .inr (.inl ⟨rfl, rfl, rfl⟩)
    | false => exact .inr (.inr ⟨rfl, rfl, rfl⟩)

def register (s : St M) : St M := { s with waker := s.waker.register, phase := .registered }

end St

def step (s : St M) : Ev M → Option (St M)
  | .send msg => some (s.send msg)
  | .close => some s.close
  | .wake => if 0 < s.waking then some s.wake else none
  | .poll => if s.phase = .ready ∨ s.phase = .pending then some (s.look .looked) else none
  | .register => if s.phase = .looked then some s.register else none
  | .recheck => if s.phase = .registered then some (s.look .pending) else none

def machine (M : Type) : Machine (St M) (Ev M) := ⟨fun s => s = .new, step⟩

/-- One step for each lock section, with what follows it up to the next. -/
inductive LockEv (M : Type)
  | send (msg : M)
  | close
  | poll
  | recheck

def lockStep (s : St M) : LockEv M → Option (St M)
  | .send msg => some (if s.inner.closed then s.send msg else (s.send msg).wake)
  | .close => some s.close.wake
  | .poll => step s .poll
  | .recheck => (step s .register).bind fun s => step s .recheck

def locked (M : Type) : Machine (St M) (LockEv M) := ⟨fun s => s = .new, lockStep⟩

/-! ## What the receiver gets -/

/-- The messages sent before the first close. -/
def beforeClose : List (Op M) → List M
  | [] => []
  | .send msg :: log => msg :: beforeClose log
  | .close :: _ => []

def IsClose : Op M → Prop
  | .send _ => False
  | .close => True

variable {log : List (Op M)} {s : St M} {v : M} {e : Ev M} {phase : Phase}

theorem beforeClose_append_of_closed (h : ∃ op ∈ log, IsClose op) (log' : List (Op M)) :
    beforeClose (log ++ log') = beforeClose log := by
  induction log with
  | nil =>
    obtain ⟨op, hm, -⟩ := h
    cases hm
  | cons op log ih =>
    cases op with
    | close => rfl
    | send msg =>
      obtain ⟨op, hm, hop⟩ := h
      rcases mem_cons.mp hm with rfl | hm
      · exact hop.elim
      · exact congrArg (msg :: ·) (ih ⟨op, hm, hop⟩)

theorem beforeClose_append_of_open (h : ¬ ∃ op ∈ log, IsClose op) (log' : List (Op M)) :
    beforeClose (log ++ log') = beforeClose log ++ beforeClose log' := by
  induction log with
  | nil => rfl
  | cons op log ih =>
    cases op with
    | close => exact absurd ⟨.close, mem_cons_self, trivial⟩ h
    | send msg =>
      refine congrArg (msg :: ·) (ih fun hc => h ?_)
      obtain ⟨op, hm, hop⟩ := hc
      exact ⟨op, mem_cons_of_mem _ hm, hop⟩

/-- What holds after every step, of whichever machine. -/
structure Inv (s : St M) : Prop where
  fifo : s.results.filterMap id ++ s.inner.queue = beforeClose s.log
  closed : s.inner.closed = true ↔ ∃ op ∈ s.log, IsClose op
  /-- A waker that was registered is there until it is called. -/
  kept : s.phase = .registered ∨ s.phase = .pending → s.waker.registered = true ∨ s.waker.fired = true
  woken : s.phase = .pending → s.inner.queue ≠ [] ∨ s.inner.closed = true → s.waker.fired = true ∨ 0 < s.waking

namespace Inv

variable {s s' : St M}

theorem new : Inv (St.new : St M) where
  fifo := rfl
  closed := iff_of_false Bool.false_ne_true fun ⟨_, hm, _⟩ => not_mem_nil hm
  kept h := absurd h Phase.ready_not_armed
  woken h := by cases h

theorem send (h : Inv s) (msg : M) : Inv (s.send msg) := by
  have hopen : ¬ IsClose (.send msg : Op M) := fun hc => hc
  have hclosed : (∃ op ∈ s.log ++ [.send msg], IsClose op) ↔ ∃ op ∈ s.log, IsClose op := by
    simp only [mem_append, mem_singleton, or_and_right, exists_or, exists_eq_left, hopen, or_false]
  unfold St.send
  split
  · rename_i hc
    refine ⟨?_, h.closed.trans hclosed.symm, h.kept, h.woken⟩
    rw [beforeClose_append_of_closed (h.closed.mp hc)]
    exact h.fifo
  · rename_i hc
    refine ⟨?_, h.closed.trans hclosed.symm, h.kept, fun _ _ => .inr (Nat.succ_pos _)⟩
    rw [beforeClose_append_of_open fun hex => hc (h.closed.mpr hex), ← h.fifo, append_assoc]
    rfl

theorem close (h : Inv s) : Inv s.close where
  fifo := by
    by_cases hc : ∃ op ∈ s.log, IsClose op
    · exact h.fifo.trans (beforeClose_append_of_closed hc _).symm
    · refine h.fifo.trans ?_
      rw [St.close, beforeClose_append_of_open hc]
      exact (append_nil _).symm
  closed := ⟨fun _ => ⟨.close, mem_append_right _ mem_cons_self, trivial⟩, fun _ => rfl⟩
  kept := h.kept
  woken _ _ := .inr (Nat.succ_pos _)

theorem wake (h : Inv s) : Inv s.wake := by
  have hfired : s.waker.registered = true ∨ s.waker.fired = true → s.waker.wake.fired = true := by
    intro hw
    unfold Waker.wake
    split
    · rfl
    · rename_i hr
      exact hw.resolve_left hr
  exact ⟨h.fifo, h.closed, fun hp => .inr (hfired (h.kept hp)), fun hp _ => .inl (hfired (h.kept (.inr hp)))⟩

theorem look (h : Inv s) (hkept : phase = .registered ∨ phase = .pending →
    s.waker.registered = true ∨ s.waker.fired = true) : Inv (s.look phase) := by
  have hfifo := h.fifo
  rcases s.look_cases phase with ⟨_, queue, hq, hl⟩ | ⟨hq, hc, hl⟩ | ⟨hq, hc, hl⟩
  · rw [hl]
    refine ⟨?_, h.closed, fun hp => absurd hp Phase.ready_not_armed, nofun⟩
    rw [hq] at hfifo
    rw [← hfifo, filterMap_append, append_assoc]
    rfl
  · rw [hl]
    refine ⟨?_, h.closed, fun hp => absurd hp Phase.ready_not_armed, nofun⟩
    rw [← hfifo, filterMap_append]
    exact congrArg (· ++ s.inner.queue) (append_nil _)
  · rw [hl]
    refine ⟨hfifo, h.closed, hkept, fun _ hsome => ?_⟩
    rcases hsome with hne | hcl
    · exact absurd hq hne
    · cases hc.symm.trans hcl

theorem register (h : Inv s) : Inv s.register where
  fifo := h.fifo
  closed := h.closed
  kept _ := .inl rfl
  woken hp := by cases hp

theorem step (h : Inv s) (hs : step s e = some s') : Inv s' := by
  cases e with
  | send msg =>
    cases hs
    exact h.send msg
  | close =>
    cases hs
    exact h.close
  | wake =>
    obtain ⟨-, ⟨⟩⟩ := of_guard hs
    exact h.wake
  | poll =>
    obtain ⟨-, ⟨⟩⟩ := of_guard hs
    exact h.look fun hp => absurd hp (by decide)
  | register =>
    obtain ⟨-, ⟨⟩⟩ := of_guard hs
    exact h.register
  | recheck =>
    obtain ⟨hp, hs⟩ := of_guard hs
    cases hs
    exact h.look fun _ => h.kept (.inl hp)

end Inv

theorem inv_of_reachable (h : (machine M).Reachable s) : Inv s :=
  Machine.Reachable.inv (I := Inv) (fun _ hs => hs ▸ Inv.new) (fun _ _ _ hi hs => hi.step hs) h

theorem look_waking (s : St M) (phase : Phase) : (s.look phase).waking = s.waking := by
  unfold St.look
  split <;> rfl

/-- At the granularity of the lock nobody is left on the way to its `wake`. -/
theorem inv_of_locked (h : (locked M).Reachable s) : Inv s ∧ s.waking = 0 := by
  refine Machine.Reachable.inv (I := fun s => Inv s ∧ s.waking = 0) (fun _ hs => hs ▸ ⟨Inv.new, rfl⟩)
    (fun s e s' hi hs => ?_) h
  obtain ⟨hi, hw⟩ := hi
  cases e with
  | send msg =>
    cases hs
    have hi' := hi.send msg
    split
    · rename_i hc
      refine ⟨hi', ?_⟩
      rw [St.send, if_pos hc]
      exact hw
    · rename_i hc
      refine ⟨hi'.wake, ?_⟩
      rw [St.send, if_neg hc]
      exact hw
  | close =>
    cases hs
    exact ⟨hi.close.wake, hw⟩
  | poll =>
    replace hs : step s .poll = some s' := hs
    have hi' := hi.step hs
    obtain ⟨-, ⟨⟩⟩ := of_guard hs
    exact ⟨hi', (look_waking _ _).trans hw⟩
  | recheck =>
    obtain ⟨_, h₁, h₂⟩ := of_bind hs
    refine ⟨(hi.step h₁).step h₂, ?_⟩
    obtain ⟨-, h₁⟩ := of_guard h₁
    cases h₁
    cases h₂
    exact (look_waking _ _).trans hw

/-! ## Ask and reply -/

/-- One `Reply` and the future of one `ask`: the reply is sent at most once and dropped at most
    once, which ends it, and a future that was `Ready` is not polled again. -/
def Asking (s : St M) : Ev M → Prop
  | .send _ => s.log = []
  | .close => ∀ op ∈ s.log, ¬ IsClose op
  | .poll => s.results = []
  | .wake | .register | .recheck => True

/-- What the owner of a reply can have done. -/
def ReplyLog (log : List (Op M)) : Prop := log = [] ∨ log = [.close] ∨ ∃ v, log = [.send v] ∨ log = [.send v, .close]

structure AskInv (s : St M) : Prop where
  inv : Inv s
  log : ReplyLog s.log
  /-- A future that is still polled has had no result. -/
  polling : s.phase ≠ .ready → s.results = []
  once : s.results.length ≤ 1
  unsent : none ∈ s.results → s.log = [.close]

theorem ReplyLog.send (v : M) : ReplyLog [Op.send v] := .inr (.inr ⟨v, .inl rfl⟩)

theorem ReplyLog.close (h : ReplyLog log) (hopen : ∀ op ∈ log, ¬ IsClose op) : ReplyLog (log ++ [.close]) := by
  rcases h with rfl | rfl | ⟨v, rfl | rfl⟩
  · exact .inr (.inl rfl)
  · exact absurd trivial (hopen .close mem_cons_self)
  · exact .inr (.inr ⟨v, .inr rfl⟩)
  · exact absurd trivial (hopen .close (.tail _ mem_cons_self))

/-- A closed mailbox in which nothing was sent, or whose one message was received. -/
theorem ReplyLog.of_beforeClose_nil (h : ReplyLog log) (hc : ∃ op ∈ log, IsClose op)
    (hnil : beforeClose log = []) : log = [.close] := by
  rcases h with rfl | rfl | ⟨_, rfl | rfl⟩
  · obtain ⟨_, hm, -⟩ := hc
    cases hm
  · rfl
  · cases hnil
  · cases hnil

namespace AskInv

variable {s s' : St M}

theorem new : AskInv (St.new : St M) := ⟨Inv.new, .inl rfl, fun h => absurd rfl h, Nat.zero_le _, nofun⟩

theorem send {v : M} (h : AskInv s) (hlog : s.log = []) : AskInv (s.send v) := by
  have hi := h.inv.send v
  have hopen : ¬ s.inner.closed = true := by
    rw [h.inv.closed, hlog]
    exact fun ⟨_, hm, _⟩ => not_mem_nil hm
  unfold St.send at hi ⊢
  rw [if_neg hopen] at hi ⊢
  refine ⟨hi, ?_, h.polling, h.once, fun hn => ?_⟩
  · rw [hlog]
    exact ReplyLog.send v
  · cases hlog.symm.trans (h.unsent hn)

theorem close (h : AskInv s) (hopen : ∀ op ∈ s.log, ¬ IsClose op) : AskInv s.close := by
  refine ⟨h.inv.close, h.log.close hopen, h.polling, h.once, fun hn => ?_⟩
  have hlog := h.unsent hn
  exact absurd trivial (hopen .close (hlog ▸ mem_cons_self))

theorem look (h : AskInv s) (hr : s.results = []) (hi : Inv (s.look phase)) : AskInv (s.look phase) := by
  have hfifo := h.inv.fifo
  rcases s.look_cases phase with ⟨_, _, hq, hl⟩ | ⟨hq, hc, hl⟩ | ⟨hq, hc, hl⟩
  · rw [hl] at hi ⊢
    refine ⟨hi, h.log, fun hp => absurd rfl hp, ?_, fun hn => ?_⟩
    · rw [hr]
      exact Nat.le_refl _
    · rw [hr] at hn
      cases mem_singleton.mp hn
  · rw [hl] at hi ⊢
    refine ⟨hi, h.log, fun hp => absurd rfl hp, ?_, fun _ => ?_⟩
    · rw [hr]
      exact Nat.le_refl _
    · rw [hr, hq] at hfifo
      exact h.log.of_beforeClose_nil (h.inv.closed.mp hc) hfifo.symm
  · rw [hl] at hi ⊢
    exact ⟨hi, h.log, fun _ => hr, h.once, h.unsent⟩

theorem step (h : AskInv s) (hg : Asking s e) (hs : step s e = some s') : AskInv s' := by
  have hi := h.inv.step hs
  cases e with
  | send v =>
    cases hs
    exact h.send hg
  | close =>
    cases hs
    exact h.close hg
  | wake =>
    obtain ⟨-, ⟨⟩⟩ := of_guard hs
    exact ⟨hi, h.log, h.polling, h.once, h.unsent⟩
  | poll =>
    obtain ⟨-, ⟨⟩⟩ := of_guard hs
    exact h.look hg hi
  | register =>
    obtain ⟨hp, hs⟩ := of_guard hs
    cases hs
    exact ⟨hi, h.log, fun _ => h.polling (by rw [hp]; decide), h.once, h.unsent⟩
  | recheck =>
    obtain ⟨hp, hs⟩ := of_guard hs
    cases hs
    exact h.look (h.polling (by rw [hp]; decide)) hi

end AskInv

theorem mem_log_of_mem_beforeClose (h : v ∈ beforeClose log) : Op.send v ∈ log := by
  induction log with
  | nil => cases h
  | cons op log ih =>
    cases op with
    | send w =>
      rcases mem_cons.mp h with rfl | h
      · exact mem_cons_self
      · exact mem_cons_of_mem _ (ih h)
    | close => cases h

theorem ReplyLog.beforeClose_eq (h : ReplyLog log) (hv : Op.send v ∈ log) : beforeClose log = [v] := by
  rcases h with rfl | rfl | ⟨_, rfl | rfl⟩
  · cases hv
  · cases mem_singleton.mp hv
  · cases mem_singleton.mp hv
    rfl
  rcases mem_cons.mp hv with he | hv
  · cases he
    rfl
  · cases mem_singleton.mp hv

theorem look_of_queue {s' : St M} (hq : s.inner.queue = [v]) (he : e = .poll ∨ e = .recheck)
    (hs : step s e = some s') : s'.results = s.results ++ [some v] := by
  have hlook : ∀ phase, (s.look phase).results = s.results ++ [some v] := by
    intro phase
    rcases s.look_cases phase with ⟨_, _, hq', hl⟩ | ⟨hq', -⟩ | ⟨hq', -⟩
    · rw [hq] at hq'
      cases hq'
      rw [hl]
    · cases hq.symm.trans hq'
    · cases hq.symm.trans hq'
  rcases he with rfl | rfl
  all_goals
    obtain ⟨-, ⟨⟩⟩ := of_guard hs
    exact hlook _

/-! ## Results -/

/-- Received once and in order what was sent before the first close; `None` means closed and empty. -/
structure Received (s : St M) : Prop where
  fifo : s.results.filterMap id ++ s.inner.queue = beforeClose s.log
  ended : ∀ e s', step s e = some s' → s'.results = s.results ++ [none] → s.inner.closed = true ∧ s.inner.queue = []

/-- There is something for a receiver whose last poll was `Pending`. -/
def Waits (s : St M) : Prop := s.phase = .pending ∧ (s.inner.queue ≠ [] ∨ s.inner.closed = true)

/-- The future of an `ask`: `Some(v)` if and only if `Reply::send(v)` was called, and `None` only if the
    reply was dropped unsent. A value that was sent and not received is what the next look gives. -/
structure Answered (s : St M) : Prop where
  called : ∀ v, some v ∈ s.results → Op.send v ∈ s.log
  resolves : ∀ v, Op.send v ∈ s.log → s.results = [some v] ∨
    s.results = [] ∧ ∀ e s', (e = .poll ∨ e = .recheck) → step s e = some s' → s'.results = [some v]
  unsent : none ∈ s.results → s.log = [.close]

theorem step_ended {s' : St M} (hs : step s e = some s') (hr : s'.results = s.results ++ [none]) :
    s.inner.closed = true ∧ s.inner.queue = [] := by
  have hself : s.results ≠ s.results ++ [none] := fun h => by
    have hlen := congrArg length h
    rw [length_append, length_singleton] at hlen
    exact Nat.succ_ne_self _ hlen.symm
  have hlook : ∀ phase, (s.look phase).results = s.results ++ [none] → s.inner.closed = true ∧ s.inner.queue = [] := by
    intro phase hr
    rcases s.look_cases phase with ⟨_, _, -, hl⟩ | ⟨hq, hc, -⟩ | ⟨-, -, hl⟩
    · rw [hl] at hr
      cases append_cancel_left hr
    · exact ⟨hc, hq⟩
    · rw [hl] at hr
      exact absurd hr hself
  cases e with
  | send msg =>
    cases hs
    unfold St.send at hr
    split at hr <;> exact absurd hr hself
  | close =>
    cases hs
    exact absurd hr hself
  | wake | register =>
    obtain ⟨-, ⟨⟩⟩ := of_guard hs
    exact absurd hr hself
  | poll | recheck =>
    obtain ⟨-, ⟨⟩⟩ := of_guard hs
    exact hlook _ hr

theorem Inv.received (h : Inv s) : Received s := ⟨h.fifo, fun _ _ => step_ended⟩

theorem AskInv.answered (h : AskInv s) : Answered s := by
  have hfifo := h.inv.fifo
  refine ⟨fun v hv => ?_, fun v hv => ?_, h.unsent⟩
  · refine mem_log_of_mem_beforeClose ?_
    rw [← hfifo]
    exact mem_append_left _ (mem_filterMap.mpr ⟨some v, hv, rfl⟩)
  · rw [h.log.beforeClose_eq hv] at hfifo
    have honce := h.once
    cases hr : s.results with
    | nil =>
      rw [hr] at hfifo
      refine .inr ⟨rfl, fun e s' he hs => ?_⟩
      rw [look_of_queue hfifo he hs, hr, nil_append]
    | cons r rs =>
      rw [hr, length_cons] at honce
      obtain rfl : rs = [] := eq_nil_of_length_eq_zero (Nat.le_zero.mp (Nat.le_of_succ_le_succ honce))
      rw [hr] at hfifo
      cases r with
      | none =>
        have hlog := h.unsent (hr ▸ mem_cons_self)
        rw [hlog] at hv
        cases mem_singleton.mp hv
      | some w =>
        rw [(cons.inj hfifo).1]
        exact .inl rfl

theorem mailbox_delivers (M : Type) :
    (∀ s, (locked M).Reachable s → Received s ∧ (Waits s → s.waker.fired = true)) ∧
    (∀ s, (machine M).Reachable s → Received s ∧ (Waits s → s.waker.fired = true ∨ 0 < s.waking)) ∧
    ∀ s, (machine M).Reach Asking s → Answered s := by
  refine ⟨fun s h => ?_, fun s h => ?_, fun s h => ?_⟩
  · obtain ⟨hi, hw⟩ := inv_of_locked h
    refine ⟨hi.received, fun hwaits => (hi.woken hwaits.1 hwaits.2).resolve_right ?_⟩
    rw [hw]
    exact Nat.lt_irrefl 0
  · have hi := inv_of_reachable h
    exact ⟨hi.received, fun hwaits => hi.woken hwaits.1 hwaits.2⟩
  · have hi : AskInv s := h.inv (I := AskInv) (fun _ hs => hs ▸ AskInv.new) fun _ _ _ hi hg hs => hi.step hg hs
    exact hi.answered

/-- An `ask` finds no reply and parks; the reply is sent, and the next poll resolves to it. -/
theorem mailbox_delivers_an_answer :
    ∃ s, (machine Nat).Reach Asking s ∧ (s.log = [.send 7] ∧ s.waker.fired = true ∧ s.results = [some 7]) ∧
    Received s ∧ Answered s := by
  have h : (machine Nat).Reach Asking ⟨⟨[], false⟩, ⟨false, true⟩, .ready, 0, [.send 7], [some 7]⟩ :=
    Machine.reach_of_run (M := machine Nat) .new [.poll, .register, .recheck, .send 7, .wake, .poll] rfl
      ⟨rfl, trivial, trivial, rfl, trivial, rfl, trivial⟩ rfl
  exact ⟨_, h, ⟨rfl, rfl, rfl⟩, ((mailbox_delivers Nat).2.1 _ (h.mono fun _ _ _ => trivial)).1,
    (mailbox_delivers Nat).2.2 _ h⟩

end Ostoo.Task.Mailbox
