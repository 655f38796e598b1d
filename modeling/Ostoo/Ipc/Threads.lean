/-
  Ostoo.Ipc.Threads — threads and completion ports on one channel: the calls of
  `ipc.rs` (`sys_ipc_send`, `sys_ipc_recv`) and the `OP_IPC_SEND` and `OP_IPC_RECV`
  submissions of `io_port.rs`, interleaved at the points where a thread yields.

  A step is what one thread does from a yield point to the next: a new call, or the
  continuation of a call whose thread was woken, which retries as the loops of the two
  syscalls do. A sleeping thread may also be woken past the channel, through a slot that it
  was left in by another wait; the calls cannot tell. Messages are numbered in the order
  their sends were started. Beside the channel a state records the sends that succeeded
  (`ipc_send` returned 0, or a completion with result 0 was posted) and the messages handed out.
-/

import Mathlib.Logic.Function.Basic
import Ostoo.Lib.Machine
import Ostoo.Ipc.Channel

namespace Ostoo.Ipc.Threads

open Ostoo.Lib List

/-- Where a thread stands in a channel call; `woken` is a blocked thread made Ready. -/
inductive Th
  | idle
  /-- `SendAction::Block`: the message is in `pending_send`. -/
  | sendWait (id : Nat) (woken : Bool)
  /-- `SendAction::BlockWithMsg`: the queue was full. -/
  | sendFull (id : Nat) (woken : Bool)
  /-- The send has succeeded; the thread yields before it returns 0. -/
  | sendRet (id : Nat)
  /-- `RecvAction::Block` -/
  | recvWait (woken : Bool)
  deriving DecidableEq

def Th.wake : Th → Th
  | .sendWait id _ => .sendWait id true
  | .sendFull id _ => .sendFull id true
  | .recvWait _ => .recvWait true
  | x => x

/-- The thread is Ready inside a call: it has something left to run. -/
def Th.woken : Th → Bool
  | .sendWait _ w | .sendFull _ w | .recvWait w => w
  | .sendRet _ => true
  | .idle => false

/-- The thread is Blocked. -/
def Th.asleep : Th → Bool
  | .sendWait _ w | .sendFull _ w | .recvWait w => !w
  | _ => false

theorem Th.wake_of_not_asleep {x : Th} (h : x.asleep = false) : x.wake = x := by
  cases x <;> simp_all [asleep, wake]

structure St where
  chan : Channel Nat
  th : Nat → Th
  /-- The number of the next message. -/
  next : Nat
  acked : List Nat
  handed : List Nat

/-- `scheduler::unblock`, where a call unblocked a thread. -/
def unblock (th : Nat → Th) : Option Nat → Nat → Th
  | some t => Function.update th t (th t).wake
  | none => th

theorem unblock_apply (th : Nat → Th) (w : Option Nat) (t : Nat) :
    unblock th w t = if w = some t then (th t).wake else th t := by
  cases w with
  | none => rfl
  | some u =>
    by_cases h : t = u
    · subst h
      simp [unblock]
    · rw [unblock, Function.update_of_ne h, if_neg fun e => h (Option.some.inj e).symm]

namespace St

/-- The state after a call on the channel. -/
def after {act : Type} (s : St) (r : Res Nat act) : St := { s with chan := r.chan, th := unblock s.th r.woken }

def setTh (s : St) (t : Nat) (x : Th) : St := { s with th := Function.update s.th t x }

def ack (s : St) (id : Nat) : St := { s with acked := s.acked ++ [id] }

def hand (s : St) (id : Nat) : St := { s with handed := s.handed ++ [id] }

end St

section

variable (s : St)

/-- `sys_ipc_send` from its `try_send` to the next yield or return. -/
def send (t id : Nat) (nonblock : Bool) : St :=
  let r := s.chan.trySend t id nonblock
  let s := s.after r
  match r.action with
  | .done => (s.ack id).setTh t .idle
  | .donated _ => s.setTh t (.sendRet id)
  | .block => s.setTh t (.sendWait id false)
  | .blockWithMsg _ => s.setTh t (.sendFull id false)
  | .wouldBlock _ | .peerClosed _ => s.setTh t .idle
  | .postToPort _ env => (s.hand env).setTh t (.sendRet id)

/-- `sys_ipc_recv` from its `try_recv` to the next yield or return. A notified send port
    gets the success of the send that was armed. -/
def recv (t : Nat) (nonblock : Bool) : St :=
  let armed := s.chan.pendingSendPort
  let r := s.chan.tryRecv t nonblock
  let s := s.after r
  match r.action with
  | .message env => (s.hand env).setTh t .idle
  | .messageAndNotifySendPort env _ _ =>
    let s := (s.hand env).setTh t .idle
    match armed with
    | some ps => s.ack ps.envelope
    | none => s
  | .block => s.setTh t (.recvWait false)
  | .wouldBlock | .peerClosed => s.setTh t .idle

/-- An `OP_IPC_SEND` submission. -/
def portSend (info : PendingPortSend Nat) : St :=
  let r := s.chan.armSend info
  let s := s.after r
  match r.action with
  | .ready | .readyDonate _ => s.ack info.envelope
  | .readyToRecvPort _ env => (s.hand env).ack info.envelope
  | .armed | .peerClosed => s

/-- An `OP_IPC_RECV` submission. -/
def portRecv (info : PendingPortRecv) : St :=
  let armed := s.chan.pendingSendPort
  let r := s.chan.armRecv info
  let s := s.after r
  match r.action with
  | .ready env => s.hand env
  | .readyAndNotifySendPort env _ _ =>
    match armed with
    | some ps => (s.hand env).ack ps.envelope
    | none => s.hand env
  | .armed | .peerClosed => s

/-- A Ready thread goes on with its call. -/
def resume (t : Nat) : Option St :=
  match s.th t with
  | .sendWait id true => some (if s.chan.recvClosed then s.setTh t .idle else (s.ack id).setTh t .idle)
  | .sendFull id true => some (send s t id false)
  | .sendRet id => some ((s.ack id).setTh t .idle)
  | .recvWait true => some (recv s t false)
  | _ => none

inductive Ev
  | send (t : Nat) (nonblock : Bool)
  | recv (t : Nat) (nonblock : Bool)
  | resume (t : Nat)
  | portSend (port userData : Nat)
  | portRecv (info : PendingPortRecv)
  | closeSend
  | closeRecv
  | dupSend
  | dupRecv
  /-- `scheduler::unblock` from elsewhere. -/
  | unblock (t : Nat)

def step : Ev → Option St
  | .send t nonblock =>
    if s.th t = .idle then some (send { s with next := s.next + 1 } t s.next nonblock) else none
  | .recv t nonblock => if s.th t = .idle then some (recv s t nonblock) else none
  | .resume t => resume s t
  | .portSend port userData => some (portSend { s with next := s.next + 1 } ⟨port, userData, s.next⟩)
  | .portRecv info => some (portRecv s info)
  | .closeSend => s.chan.closeSend.map s.after
  | .closeRecv => s.chan.closeRecv.map s.after
  | .dupSend => some { s with chan := s.chan.dupSend }
  | .dupRecv => some { s with chan := s.chan.dupRecv }
  | .unblock t => some { s with th := unblock s.th (some t) }

/-- What a step can be. -/
inductive Step (s : St) : Ev → St → Prop
  | send {t : Nat} {nonblock : Bool} (ht : s.th t = .idle) :
    Step s (.send t nonblock) (Threads.send { s with next := s.next + 1 } t s.next nonblock)
  | recv {t : Nat} {nonblock : Bool} (ht : s.th t = .idle) : Step s (.recv t nonblock) (Threads.recv s t nonblock)
  -- a rendezvous sender returns -EPIPE, or 0
  | failed {t id : Nat} (ht : s.th t = .sendWait id true) (hc : s.chan.recvClosed = true) : Step s (.resume t)
      (s.setTh t .idle)
  | sent {t id : Nat} (ht : s.th t = .sendWait id true) (hc : s.chan.recvClosed = false) :
    Step s (.resume t) ((s.ack id).setTh t .idle)
  | retry {t id : Nat} (ht : s.th t = .sendFull id true) : Step s (.resume t) (Threads.send s t id false)
  | ret {t id : Nat} (ht : s.th t = .sendRet id) : Step s (.resume t) ((s.ack id).setTh t .idle)
  | again {t : Nat} (ht : s.th t = .recvWait true) : Step s (.resume t) (Threads.recv s t false)
  | portSend {port userData : Nat} :
    Step s (.portSend port userData) (Threads.portSend { s with next := s.next + 1 } ⟨port, userData, s.next⟩)
  | portRecv {info : PendingPortRecv} : Step s (.portRecv info) (Threads.portRecv s info)
  | closeSend {r : Res Nat CloseSendAction} (hr : s.chan.closeSend = some r) : Step s .closeSend (s.after r)
  | closeRecv {r : Res Nat (CloseRecvAction Nat)} (hr : s.chan.closeRecv = some r) : Step s .closeRecv (s.after r)
  | dupSend : Step s .dupSend { s with chan := s.chan.dupSend }
  | dupRecv : Step s .dupRecv { s with chan := s.chan.dupRecv }
  | unblock {t : Nat} : Step s (.unblock t) { s with th := Threads.unblock s.th (some t) }

theorem step_cases {s s' : St} {e : Ev} (h : step s e = some s') : Step s e s' := by
  cases e with
  | send t nonblock =>
    obtain ⟨ht, h⟩ := of_guard h
    cases h
    exact .send ht
  | recv t nonblock =>
    obtain ⟨ht, h⟩ := of_guard h
    cases h
    exact .recv ht
  | resume t =>
    simp only [step, resume] at h
    split at h
    · rename_i ht
      cases h
      split
      · exact .failed ht ‹_›
      · exact .sent ht (eq_false_of_ne_true ‹_›)
    · cases h
      exact .retry ‹_›
    · cases h
      exact .ret ‹_›
    · cases h
      exact .again ‹_›
    · cases h
  | portSend port userData =>
    cases h
    exact .portSend
  | portRecv info =>
    cases h
    exact .portRecv
  | closeSend =>
    obtain ⟨r, hr, rfl⟩ := of_map h
    exact .closeSend hr
  | closeRecv =>
    obtain ⟨r, hr, rfl⟩ := of_map h
    exact .closeRecv hr
  | dupSend | dupRecv | unblock =>
    cases h
    constructor

theorem unblock_of_not_asleep {s : St} {t : Nat} (h : (s.th t).asleep = false) :
    { s with th := unblock s.th (some t) } = s := by
  have hsame : unblock s.th (some t) = s.th := by
    rw [unblock, Th.wake_of_not_asleep h, Function.update_eq_self]
  rw [hsame]

def init (capacity : Nat) : St := ⟨.new capacity, fun _ => .idle, 0, [], []⟩

def machine (capacity : Nat) : Machine St Ev where
  start := fun s => s = init capacity
  step := step

/-- All woken threads have run. -/
def Quiet : Prop := ∀ t, (s.th t).woken = false

end

/-! ## The threads of a trace -/

/-- The threads' places after these changes, in order, from all idle. -/
def places (l : List (Nat × Th)) : Nat → Th := l.foldl (fun f x => Function.update f x.1 x.2) fun _ => .idle

theorem foldl_update_of_not_mem {t : Nat} {l : List (Nat × Th)} (h : ∀ x ∈ l, x.1 ≠ t) :
    ∀ f : Nat → Th, l.foldl (fun f x => Function.update f x.1 x.2) f t = f t := by
  induction l with
  | nil => exact fun _ => rfl
  | cons x l ih =>
    intro f
    rw [foldl_cons, ih (fun y hy => h y (.tail _ hy)),
      Function.update_of_ne (h x mem_cons_self).symm]

theorem quiet_of_places {s : St} (l : List (Nat × Th)) (hs : s.th = places l)
    (h : ∀ x ∈ l, (places l x.1).woken = false) : Quiet s := by
  intro t
  rw [hs]
  by_cases ht : ∃ x ∈ l, x.1 = t
  · obtain ⟨x, hx, rfl⟩ := ht
    exact h x hx
  · have hidle : places l t = .idle := foldl_update_of_not_mem (fun x hx hxt => ht ⟨x, hx, hxt⟩) _
    rw [hidle]
    rfl

end Ostoo.Ipc.Threads
