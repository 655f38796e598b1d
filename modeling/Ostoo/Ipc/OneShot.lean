/-
  Ostoo.Ipc.OneShot — the operations that are armed once on a channel or a notification fd:
  OP_IPC_SEND, OP_IPC_RECV and OP_RING_WAIT (`process_submission` of `io_port.rs`,
  `notify.rs`, `channel.rs`).

  One channel, one notification, any number of ports. Threads send, receive, signal and
  close ends in between; the ports are drained, their rings set up and popped, and others
  post to them, at any time. `submitted` are the operations that were accepted, `completed`
  those for which a port has taken a completion, each under its port, opcode and
  `user_data`.

  Each object has one place for an armed operation of a kind, and arming writes it without
  looking: a second OP_IPC_RECV or OP_RING_WAIT drops the first
  (`a_later_submission_drops_the_first`). A completion is also
  lost in a full port, with a close whose result nobody looks at, and with the last
  reference to a notification. In the runs without these the operations submitted are those
  completed and those registered, each once (`one_shot_operations_complete`).
-/

import Mathlib.Data.List.Perm.Basic
import Ostoo.Fd.Kernel
import Ostoo.Ipc.Sleepers

namespace Ostoo.Ipc.OneShot

open Ostoo.Lib List Channel
open Ostoo.Fd (Completion CompletionPort CqRing EnvelopedMessage OP_IPC_SEND OP_IPC_RECV EPIPE MAX_QUEUED)
open Ostoo.Ipc.Sleepers (SendBlocks RecvBlocks)

def OP_RING_WAIT : Nat := 7

/-- Completions with the ports they are posted to, in order. -/
abbrev Posts := List (Nat × Completion)

/-! ## Notifications -/

/-- `NotifyInner`: the port and `user_data` of an armed OP_RING_WAIT, and a signal that found none. -/
structure Notify where
  pending : Option (Nat × Nat)
  notified : Bool

def armNotify (n : Notify) (port userData : Nat) : Notify × Posts :=
  if n.notified then ({ n with notified := false }, [(port, .plain userData 0 OP_RING_WAIT)])
  else ({ n with pending := some (port, userData) }, [])

def signalNotify (n : Notify) : Notify × Posts :=
  match n.pending with
  | some (port, userData) => ({ n with pending := none }, [(port, .plain userData 0 OP_RING_WAIT)])
  | none => ({ n with notified := true }, [])

/-! ## What the callers of the channel post -/

def armSendPosts (port userData : Nat) : ArmSendAction EnvelopedMessage → Posts
  | .ready | .readyDonate _ => [(port, .plain userData 0 OP_IPC_SEND)]
  | .readyToRecvPort pr env =>
    [(pr.port, .ofMessage pr.userData pr.bufDest env), (port, .plain userData 0 OP_IPC_SEND)]
  | .armed => []
  | .peerClosed => [(port, .plain userData (-EPIPE) OP_IPC_SEND)]

def armRecvPosts (port userData bufDest : Nat) : ArmRecvAction EnvelopedMessage → Posts
  | .ready env => [(port, .ofMessage userData bufDest env)]
  | .readyAndNotifySendPort env sendPort sendUserData =>
    [(port, .ofMessage userData bufDest env), (sendPort, .plain sendUserData 0 OP_IPC_SEND)]
  | .armed => []
  | .peerClosed => [(port, .plain userData (-EPIPE) OP_IPC_RECV)]

/-- `sys_ipc_send` -/
def sendPosts : SendAction EnvelopedMessage → Posts
  | .postToPort pr env => [(pr.port, .ofMessage pr.userData pr.bufDest env)]
  | _ => []

/-- `sys_ipc_recv` -/
def recvPosts : RecvAction EnvelopedMessage → Posts
  | .messageAndNotifySendPort _ port userData => [(port, .plain userData 0 OP_IPC_SEND)]
  | _ => []

/-- `handle_close_result`; `heard` is false where the result of the close is not looked at. -/
def closeSendPosts (heard : Bool) : CloseSendAction → Posts
  | .notifyPort pr => if heard then [(pr.port, .plain pr.userData (-EPIPE) OP_IPC_RECV)] else []
  | _ => []

def closeRecvPosts (heard : Bool) : CloseRecvAction EnvelopedMessage → Posts
  | .notifyPort ps => if heard then [(ps.port, .plain ps.userData (-EPIPE) OP_IPC_SEND)] else []
  | _ => []

/-! ## The system -/

/-- An operation, as its submitter knows it. -/
structure Op where
  port : Nat
  opcode : Nat
  userData : Nat
  deriving DecidableEq

structure St where
  chan : Channel EnvelopedMessage
  notify : Notify
  ports : Nat → CompletionPort
  submitted : List Op
  completed : List Op

/-- The completions a port holds. -/
def load (p : CompletionPort) : Nat := p.queue.length + (p.ring.map (·.cqes.length)).getD 0

/-- A post counts as a completion if the port has taken it. -/
def St.post (s : St) (q : Nat) (c : Completion) : St :=
  { s with
    ports := Function.update s.ports q ((s.ports q).post c)
    completed := if load ((s.ports q).post c) = load (s.ports q) + 1 then s.completed ++ [⟨q, c.opcode, c.userData⟩]
      else s.completed }

def St.postAll (s : St) : Posts → St
  | [] => s
  | (q, c) :: l => (s.post q c).postAll l

section

variable (s : St)

def St.submit (op : Op) : St := { s with submitted := s.submitted ++ [op] }

def St.setPort (q : Nat) (p : CompletionPort) : St := { s with ports := Function.update s.ports q p }

inductive Ev
  | submitSend (port userData : Nat) (env : EnvelopedMessage)
  | submitRecv (port userData bufDest : Nat)
  | submitWait (port userData : Nat)
  /-- A submission with a bad fd or buffer. -/
  | refused (port userData opcode : Nat) (errno : Int)
  /-- `try_send` for a thread, for the first time or again. -/
  | send (cur : Nat) (env : EnvelopedMessage) (nonblock : Bool)
  | recv (cur : Nat) (nonblock : Bool)
  | signal
  | dupSend
  | dupRecv
  | closeSend (heard : Bool)
  | closeRecv (heard : Bool)
  /-- All references are gone and the channel with them; there is a new one after it. -/
  | freeChannel (capacity : Nat)
  | freeNotify
  /-- A post that has nothing to do with the channel and the notification. -/
  | otherPost (port : Nat) (c : Completion)
  | drain (port n : Nat)
  | takeCqes (port n : Nat)
  /-- The queue is moved to the ring. -/
  | ringEnter (port : Nat)
  | setupRings (port entries : Nat)

def step : Ev → Option St
  | .submitSend port userData env =>
    let r := s.chan.armSend ⟨port, userData, env⟩
    some (({ s with chan := r.chan }.submit ⟨port, OP_IPC_SEND, userData⟩).postAll
      (armSendPosts port userData r.action))
  | .submitRecv port userData bufDest =>
    let r := s.chan.armRecv ⟨port, userData, bufDest⟩
    some (({ s with chan := r.chan }.submit ⟨port, OP_IPC_RECV, userData⟩).postAll
      (armRecvPosts port userData bufDest r.action))
  | .submitWait port userData =>
    let r := armNotify s.notify port userData
    some (({ s with notify := r.1 }.submit ⟨port, OP_RING_WAIT, userData⟩).postAll r.2)
  | .refused port userData opcode errno =>
    some ((s.submit ⟨port, opcode, userData⟩).postAll [(port, .plain userData (-errno) opcode)])
  | .send cur env nonblock =>
    let r := s.chan.trySend cur env nonblock
    some ({ s with chan := r.chan }.postAll (sendPosts r.action))
  | .recv cur nonblock =>
    let r := s.chan.tryRecv cur nonblock
    some ({ s with chan := r.chan }.postAll (recvPosts r.action))
  | .signal =>
    let r := signalNotify s.notify
    some ({ s with notify := r.1 }.postAll r.2)
  | .dupSend => some { s with chan := s.chan.dupSend }
  | .dupRecv => some { s with chan := s.chan.dupRecv }
  | .closeSend heard => do
    let r ← s.chan.closeSend
    pure ({ s with chan := r.chan }.postAll (closeSendPosts heard r.action))
  | .closeRecv heard => do
    let r ← s.chan.closeRecv
    pure ({ s with chan := r.chan }.postAll (closeRecvPosts heard r.action))
  | .freeChannel capacity =>
    if s.chan.sendCount = 0 ∧ s.chan.recvCount = 0 then some { s with chan := .new capacity } else none
  | .freeNotify => some { s with notify := ⟨none, false⟩ }
  | .otherPost port c => some (s.setPort port ((s.ports port).post c))
  | .drain port n => some (s.setPort port { s.ports port with queue := (s.ports port).queue.drop n })
  | .takeCqes port n =>
    some (s.setPort port
      { s.ports port with ring := (s.ports port).ring.map fun r => { r with cqes := r.cqes.drop n } })
  | .ringEnter port =>
    let p := s.ports port
    some (s.setPort port (match p.ring with
      | some r => ⟨[], some (p.queue.foldl (fun r c => r.postCqe c.toIoCompletion) r)⟩
      | none => p))
  | .setupRings port entries => some (s.setPort port { s.ports port with ring := some ⟨entries, []⟩ })

def init (capacity : Nat) : St := ⟨.new capacity, ⟨none, false⟩, fun _ => .new, [], []⟩

def machine (capacity : Nat) : Machine St Ev where
  start := fun s => s = init capacity
  step := step

/-! ## What is registered -/

def armedRecv (c : Channel EnvelopedMessage) : List Op :=
  c.pendingPort.toList.map fun pr => ⟨pr.port, OP_IPC_RECV, pr.userData⟩

def armedSend (c : Channel EnvelopedMessage) : List Op :=
  c.pendingSendPort.toList.map fun ps => ⟨ps.port, OP_IPC_SEND, ps.userData⟩

def armedWait (n : Notify) : List Op := n.pending.toList.map fun (port, userData) => ⟨port, OP_RING_WAIT, userData⟩

def armed (c : Channel EnvelopedMessage) : List Op := armedRecv c ++ armedSend c

def registered : List Op := armed s.chan ++ armedWait s.notify

/-! ## The condition -/

/-- The place an operation would be armed in is free, a close that ends an armed operation is
    looked at, and no object goes with an operation armed on it. -/
def SlotFree : Ev → Prop
  | .submitSend _ _ _ => SendBlocks s.chan → s.chan.pendingSendPort = none
  | .submitRecv _ _ _ => RecvBlocks s.chan → s.chan.pendingPort = none
  | .submitWait _ _ => s.notify.notified = false → s.notify.pending = none
  | .closeSend heard => s.chan.sendCount = 1 → s.chan.blockedReceiver = none → s.chan.pendingPort.isSome → heard = true
  | .closeRecv heard => s.chan.recvCount = 1 → s.chan.blockedSender = none → s.chan.pendingSendPort.isSome →
      heard = true
  | .freeChannel _ => s.chan.pendingPort = none ∧ s.chan.pendingSendPort = none
  | .freeNotify => s.notify.pending = none
  | _ => True

/-- The ports a step may post to. -/
def targets : Ev → List Nat
  | .submitSend port _ _ => (armedRecv s.chan).map (·.port) ++ [port]
  | .submitRecv port _ _ => port :: (armedSend s.chan).map (·.port)
  | .submitWait port _ => [port]
  | .refused port _ _ _ => [port]
  | .send _ _ _ => (armedRecv s.chan).map (·.port)
  | .recv _ _ => (armedSend s.chan).map (·.port)
  | .signal => (armedWait s.notify).map (·.port)
  | .closeSend _ => (armedRecv s.chan).map (·.port)
  | .closeRecv _ => (armedSend s.chan).map (·.port)
  | _ => []

/-- The port takes `n` completions more. -/
def Room (p : CompletionPort) (n : Nat) : Prop :=
  p.queue.length + n ≤ MAX_QUEUED ∧ ∀ r, p.ring = some r → r.cqes.length + n ≤ r.entries

/-- Every port a step may post to has room for what it may post there. -/
def Orderly (e : Ev) : Prop :=
  SlotFree s e ∧ ∀ q ∈ targets s e, Room (s.ports q) ((targets s e).count q)

end

/-! ## Posting -/

variable {s s' : St} {l : Posts} {p : CompletionPort} {ts : List Nat} {n : Nat}

theorem Room.post (h : Room p (n + 1)) (c : Completion) : Room (p.post c) n ∧ load (p.post c) = load p + 1 := by
  obtain ⟨hqueue, hring⟩ := h
  have henqueue : p.enqueue c = { p with queue := p.queue ++ [c] } := if_pos (by omega)
  unfold CompletionPort.post
  cases hr : p.ring with
  | none =>
    rw [henqueue]
    refine ⟨⟨?_, ?_⟩, ?_⟩
    · simp only [length_append, length_singleton]
      omega
    · intro r h
      rw [hr] at h
      cases h
    · simp [load, hr]
  | some r =>
    have hlt := hring r hr
    simp only []
    split
    · have hpost : r.postCqe c.toIoCompletion = { r with cqes := r.cqes ++ [c.toIoCompletion] } := if_pos (by omega)
      rw [hpost]
      refine ⟨⟨Nat.le_trans (Nat.add_le_add_left (Nat.le_succ n) _) hqueue, ?_⟩, ?_⟩
      · intro r' h
        cases h
        simp only [length_append, length_singleton]
        omega
      · simp [load, hr, add_assoc]
    · rw [henqueue]
      refine ⟨⟨?_, ?_⟩, ?_⟩
      · simp only [length_append, length_singleton]
        omega
      · intro r' h
        rw [hr] at h
        cases h
        omega
      · simp only [load, hr, length_append, length_singleton, Option.map_some, Option.getD_some]
        omega

/-- The operation a completion belongs to. -/
def opOf (x : Nat × Completion) : Op := ⟨x.1, x.2.opcode, x.2.userData⟩

@[simp] theorem opOf_plain (q userData opcode : Nat) (result : Int) :
    opOf (q, .plain userData result opcode) = ⟨q, opcode, userData⟩ := rfl

@[simp] theorem opOf_message (q userData dest : Nat) (env : EnvelopedMessage) :
    opOf (q, .ofMessage userData dest env) = ⟨q, OP_IPC_RECV, userData⟩ := rfl

theorem postAll_room (l : Posts) (s : St) (h : ∀ q ∈ l.map (·.1), Room (s.ports q) ((l.map (·.1)).count q)) :
    (s.postAll l).completed = s.completed ++ l.map opOf ∧ (s.postAll l).submitted = s.submitted ∧
      (s.postAll l).chan = s.chan ∧ (s.postAll l).notify = s.notify := by
  induction l generalizing s with
  | nil => exact ⟨(append_nil _).symm, rfl, rfl, rfl⟩
  | cons x l ih =>
    obtain ⟨q, c⟩ := x
    have hq : Room (s.ports q) ((l.map (·.1)).count q + 1) := by
      have := h q mem_cons_self
      rwa [map_cons, count_cons_self] at this
    obtain ⟨hroom, hload⟩ := hq.post c
    have hrest : ∀ q' ∈ l.map (·.1), Room ((s.post q c).ports q') ((l.map (·.1)).count q') := by
      intro q' hq'
      by_cases heq : q' = q
      · subst heq
        simpa [St.post] using hroom
      · have := h q' (mem_cons_of_mem _ hq')
        rw [map_cons, count_cons_of_ne (Ne.symm heq)] at this
        simpa [St.post, heq] using this
    have hcompleted : (s.post q c).completed = s.completed ++ [opOf (q, c)] := if_pos hload
    obtain ⟨h1, h2, h3, h4⟩ := ih (s.post q c) hrest
    refine ⟨?_, h2, h3, h4⟩
    rw [St.postAll, h1, hcompleted, map_cons, append_assoc, singleton_append]

/-! ## Each call completes what it takes out of its place -/

section Calls

variable {c c' : Channel EnvelopedMessage} {env : EnvelopedMessage} {w : Option Nat}
  {r : Res EnvelopedMessage (CloseRecvAction EnvelopedMessage)} {heard : Bool}

theorem put_armed {post : Option (PendingPortRecv × EnvelopedMessage)} (h : c.Put env c' post w) :
    armedRecv c = (sendPosts (.ofPut post w)).map opOf ++ armedRecv c' ∧ armedSend c = armedSend c' := by
  cases h with
  | handoverPort hcap hr hp | queuePort hroom hr hp hq =>
    refine ⟨?_, rfl⟩
    rw [armedRecv, hp]
    rfl
  | handover | queueWake | queue => exact ⟨rfl, rfl⟩

/-- Taking a message out completes the armed send it makes room for or takes, if any. -/
theorem take_armed {ps : Option (PendingPortSend EnvelopedMessage)} (h : c.Take c' env ps w) :
    armedSend c = (recvPosts (.ofTake env ps)).map opOf ++ armedSend c' ∧ armedRecv c = armedRecv c' := by
  cases h with
  | armed hcap hp hps | popRefill hcap hq hb hps =>
    refine ⟨?_, rfl⟩
    rw [armedSend, hps]
    rfl
  | slot | popWake | pop => exact ⟨rfl, rfl⟩

theorem armSendPosts_ofPut (port userData : Nat) (post : Option (PendingPortRecv × EnvelopedMessage)) :
    armSendPosts port userData (.ofPut post w) =
      sendPosts (.ofPut post w) ++ [(port, .plain userData 0 OP_IPC_SEND)] := by
  cases post <;> cases w <;> rfl

theorem armRecvPosts_ofTake (port userData bufDest : Nat) (ps : Option (PendingPortSend EnvelopedMessage)) :
    armRecvPosts port userData bufDest (.ofTake env ps) =
      (port, .ofMessage userData bufDest env) :: recvPosts (.ofTake env ps) := by
  cases ps <;> rfl

theorem armSend_matched (port userData : Nat) (env : EnvelopedMessage) (h : SendBlocks c → c.pendingSendPort = none) :
    (⟨port, OP_IPC_SEND, userData⟩ :: armed c).Perm
      ((armSendPosts port userData (c.armSend ⟨port, userData, env⟩).action).map opOf ++
        armed (c.armSend ⟨port, userData, env⟩).chan) := by
  generalize hr : c.armSend ⟨port, userData, env⟩ = r
  cases armSend_cases hr with
  | peerClosed => exact Perm.refl _
  | put _ hput =>
    obtain ⟨hrecv, hsend⟩ := put_armed hput
    rw [armed, armed, hrecv, hsend, armSendPosts_ofPut, map_append, append_assoc, append_assoc]
    exact perm_middle.symm
  | armed hopen hfull =>
    have hnone : armedSend c = [] := by rw [armedSend, h ⟨hopen, hfull⟩]; rfl
    rw [armed, hnone, append_nil]
    exact (perm_append_singleton _ _).symm

theorem armRecv_matched (port userData bufDest : Nat) (h : RecvBlocks c → c.pendingPort = none) :
    (⟨port, OP_IPC_RECV, userData⟩ :: armed c).Perm
      ((armRecvPosts port userData bufDest (c.armRecv ⟨port, userData, bufDest⟩).action).map opOf ++
        armed (c.armRecv ⟨port, userData, bufDest⟩).chan) := by
  generalize hr : c.armRecv ⟨port, userData, bufDest⟩ = r
  cases armRecv_cases hr with
  | peerClosed => exact Perm.refl _
  | take htake =>
    obtain ⟨hsend, hrecv⟩ := take_armed htake
    rw [armed, armed, hrecv, hsend, armRecvPosts_ofTake, map_cons, cons_append]
    exact (perm_append_comm_assoc _ _ _).cons _
  | armed hempty hopen =>
    have hnone : armedRecv c = [] := by rw [armedRecv, h ⟨hopen, hempty⟩]; rfl
    rw [armed, hnone]
    exact Perm.refl _

theorem trySend_armed (cur : Nat) (env : EnvelopedMessage) (nonblock : Bool) :
    armedRecv c = (sendPosts (c.trySend cur env nonblock).action).map opOf ++ armedRecv
      (c.trySend cur env nonblock).chan ∧ armedSend c = armedSend (c.trySend cur env nonblock).chan := by
  generalize hr : c.trySend cur env nonblock = r
  cases trySend_cases hr with
  | put _ hput => exact put_armed hput
  | peerClosed | wouldBlock | block | blockWithMsg => exact ⟨rfl, rfl⟩

theorem trySend_matched (cur : Nat) (env : EnvelopedMessage) (nonblock : Bool) :
    (armed c).Perm
    ((sendPosts (c.trySend cur env nonblock).action).map opOf ++ armed (c.trySend cur env nonblock).chan) := by
  obtain ⟨hrecv, hsend⟩ := trySend_armed (c := c) cur env nonblock
  rw [armed, armed, ← hsend, ← append_assoc, ← hrecv]

theorem tryRecv_armed (cur : Nat) (nonblock : Bool) :
    armedSend c = (recvPosts (c.tryRecv cur nonblock).action).map opOf ++ armedSend (c.tryRecv cur nonblock).chan ∧
      armedRecv c = armedRecv (c.tryRecv cur nonblock).chan := by
  generalize hr : c.tryRecv cur nonblock = r
  cases tryRecv_cases hr with
  | take htake => exact take_armed htake
  | peerClosed | wouldBlock | block => exact ⟨rfl, rfl⟩

theorem tryRecv_matched (cur : Nat) (nonblock : Bool) :
    (armed c).Perm ((recvPosts (c.tryRecv cur nonblock).action).map opOf ++ armed (c.tryRecv cur nonblock).chan) := by
  obtain ⟨hsend, hrecv⟩ := tryRecv_armed (c := c) cur nonblock
  rw [armed, armed, ← hrecv, hsend]
  exact perm_append_comm_assoc _ _ _

theorem closeSend_matched {r : Res EnvelopedMessage CloseSendAction} (hr : c.closeSend = some r)
    (h : c.sendCount = 1 → c.blockedReceiver = none → c.pendingPort.isSome → heard = true) :
    (armed c).Perm ((closeSendPosts heard r.action).map opOf ++ armed r.chan) := by
  cases closeSend_cases hr with
  | notify hone hbr hp =>
    rw [h hone hbr (by rw [hp]; rfl), armed, armedRecv, hp]
    exact Perm.refl _
  | kept | wake | nobody => exact Perm.refl _

theorem closeRecv_matched
    (hr : c.closeRecv = some r) (h : c.recvCount = 1 → c.blockedSender = none → c.pendingSendPort.isSome →
      heard = true) :
    (armed c).Perm ((closeRecvPosts heard r.action).map opOf ++ armed r.chan) := by
  cases closeRecv_cases hr with
  | notify hone hb hps =>
    rw [h hone hb (by rw [hps]; rfl), armed, armedSend, hps, armed]
    exact perm_append_comm_assoc (armedRecv c) [_] []
  | kept | wake | nobody => exact Perm.refl _

theorem armNotify_matched {n : Notify} (port userData : Nat) (h : n.notified = false → n.pending = none) :
    (⟨port, OP_RING_WAIT, userData⟩ :: armedWait n).Perm
      ((armNotify n port userData).2.map opOf ++ armedWait (armNotify n port userData).1) := by
  fun_cases armNotify n port userData <;> simp_all [armedWait]

theorem signalNotify_matched (n : Notify) :
    (armedWait n).Perm ((signalNotify n).2.map opOf ++ armedWait (signalNotify n).1) := by
  fun_cases signalNotify n <;> simp_all [armedWait]

/-! ## Each call posts to the ports it may post to -/

theorem map_opOf_port (l : Posts) : (l.map opOf).map (·.port) = l.map (·.1) := by
  rw [map_map]
  rfl

theorem posts_sublist {ops ops' : List Op} (h : ops = l.map opOf ++ ops') :
    (l.map (·.1)).Sublist (ops.map (·.port)) := by
  rw [h, map_append, map_opOf_port]
  exact sublist_append_left _ _

theorem armSend_targets (port userData : Nat) (env : EnvelopedMessage) :
    ((armSendPosts port userData (c.armSend ⟨port, userData, env⟩).action).map (·.1)).Sublist
      ((armedRecv c).map (·.port) ++ [port]) := by
  generalize hr : c.armSend ⟨port, userData, env⟩ = r
  cases armSend_cases hr with
  | peerClosed => exact sublist_append_right _ _
  | put _ hput =>
    rw [armSendPosts_ofPut, map_append]
    exact (posts_sublist (put_armed hput).1).append (Sublist.refl _)
  | armed => exact nil_sublist _

theorem armRecv_targets (port userData bufDest : Nat) :
    ((armRecvPosts port userData bufDest (c.armRecv ⟨port, userData, bufDest⟩).action).map (·.1)).Sublist
      (port :: (armedSend c).map (·.port)) := by
  generalize hr : c.armRecv ⟨port, userData, bufDest⟩ = r
  cases armRecv_cases hr with
  | peerClosed => exact (nil_sublist _).cons_cons _
  | take htake =>
    rw [armRecvPosts_ofTake, map_cons]
    exact (posts_sublist (take_armed htake).1).cons_cons _
  | armed => exact nil_sublist _

theorem closeSend_targets {r : Res EnvelopedMessage CloseSendAction} (hr : c.closeSend = some r) (heard : Bool) :
    ((closeSendPosts heard r.action).map (·.1)).Sublist ((armedRecv c).map (·.port)) := by
  cases closeSend_cases hr with
  | notify _ _ hp =>
    cases heard with
    | false => exact nil_sublist _
    | true =>
      rw [armedRecv, hp]
      exact Sublist.refl _
  | kept | wake | nobody => exact nil_sublist _

theorem closeRecv_targets (hr : c.closeRecv = some r)
    (heard : Bool) : ((closeRecvPosts heard r.action).map (·.1)).Sublist ((armedSend c).map (·.port)) := by
  cases closeRecv_cases hr with
  | notify _ _ hps =>
    cases heard with
    | false => exact nil_sublist _
    | true =>
      rw [armedSend, hps]
      exact Sublist.refl _
  | kept | wake | nobody => exact nil_sublist _

theorem armNotify_targets (n : Notify) (port userData : Nat) :
    ((armNotify n port userData).2.map (·.1)).Sublist [port] := by
  fun_cases armNotify n port userData <;> simp

theorem signalNotify_targets (n : Notify) : ((signalNotify n).2.map (·.1)).Sublist ((armedWait n).map (·.port)) := by
  fun_cases signalNotify n <;> simp_all [armedWait]

end Calls

/-! ## Runs -/

/-- Every operation is completed or registered, and only once. -/
def Accounted (s : St) : Prop := s.submitted.Perm (s.completed ++ registered s)

/-- A call that is given the operations `subs` and posts `l`: `t` is the state before it posts. -/
theorem Accounted.call (subs : List Op) {t : St} (h : Accounted s)
    (hroom : ∀ q ∈ ts, Room (s.ports q) (ts.count q)) (hports : t.ports = s.ports)
    (hcompleted : t.completed = s.completed)
    (hsubmitted : t.submitted = s.submitted ++ subs) (hl : (l.map (·.1)).Sublist ts)
    (hmatched : (subs ++ registered s).Perm (l.map opOf ++ registered t)) : Accounted (t.postAll l) := by
  have hroom' : ∀ q ∈ l.map (·.1), Room (t.ports q) ((l.map (·.1)).count q) := by
    intro q hq
    obtain ⟨_, hring⟩ := hroom q (hl.subset hq)
    have hle := hl.count_le q
    rw [hports]
    exact ⟨by omega, fun r hr => Nat.le_trans (Nat.add_le_add_left hle _) (hring r hr)⟩
  obtain ⟨h1, h2, h3, h4⟩ := postAll_room l t hroom'
  have hmoved : (s.submitted ++ subs).Perm (s.completed ++ (l.map opOf ++ registered t)) :=
    ((Perm.append_right subs h).trans (by rw [append_assoc]; exact perm_append_comm.append_left _)).trans
      (hmatched.append_left _)
  unfold Accounted registered
  rw [h1, h2, h3, h4, hcompleted, hsubmitted, append_assoc]
  exact hmoved

theorem Accounted.onChannel {c : Channel EnvelopedMessage} (h : Accounted s)
    (hroom : ∀ q ∈ ts, Room (s.ports q) (ts.count q)) (hl : (l.map (·.1)).Sublist ts)
    (hmatched : (armed s.chan).Perm (l.map opOf ++ armed c)) : Accounted ({ s with chan := c }.postAll l) := by
  refine h.call [] hroom rfl rfl (append_nil _).symm hl ?_
  simpa [registered] using hmatched.append_right (armedWait s.notify)

theorem step_accounted {e : Ev} (h : Accounted s) (hg : Orderly s e) (hs : step s e = some s') : Accounted s' := by
  obtain ⟨hfree, hroom⟩ := hg
  cases e with
  | submitSend port userData env =>
    cases hs
    refine h.call [_] hroom rfl rfl rfl (armSend_targets ..) ?_
    simpa [registered, St.submit] using (armSend_matched port userData env hfree).append_right (armedWait s.notify)
  | submitRecv port userData bufDest =>
    cases hs
    refine h.call [_] hroom rfl rfl rfl (armRecv_targets ..) ?_
    simpa [registered, St.submit] using (armRecv_matched port userData bufDest hfree).append_right (armedWait s.notify)
  | submitWait port userData =>
    cases hs
    refine h.call [_] hroom rfl rfl rfl (armNotify_targets ..) ?_
    have hmatched := (armNotify_matched port userData hfree).append_left (armed s.chan)
    exact (perm_middle.symm.trans hmatched).trans (perm_append_comm_assoc ..)
  | refused port userData opcode errno =>
    cases hs
    exact h.call [_] hroom rfl rfl rfl (Sublist.refl _) (Perm.refl _)
  | send cur env nonblock =>
    cases hs
    exact h.onChannel hroom (posts_sublist (trySend_armed ..).1) (trySend_matched ..)
  | recv cur nonblock =>
    cases hs
    exact h.onChannel hroom (posts_sublist (tryRecv_armed ..).1) (tryRecv_matched ..)
  | signal =>
    cases hs
    refine h.call [] hroom rfl rfl (append_nil _).symm (signalNotify_targets _) ?_
    exact ((signalNotify_matched s.notify).append_left (armed s.chan)).trans (perm_append_comm_assoc ..)
  | dupSend | dupRecv =>
    cases hs
    exact h
  | closeSend heard =>
    obtain ⟨r, hr, hs⟩ := of_bind hs
    cases hs
    exact h.onChannel hroom (closeSend_targets hr heard) (closeSend_matched hr hfree)
  | closeRecv heard =>
    obtain ⟨_, hr, hs⟩ := of_bind hs
    cases hs
    exact h.onChannel hroom (closeRecv_targets hr heard) (closeRecv_matched hr hfree)
  | freeChannel capacity =>
    obtain ⟨-, ⟨⟩⟩ := of_guard hs
    refine h.onChannel (l := []) hroom (Sublist.refl _) ?_
    simp [armed, armedRecv, armedSend, hfree.1, hfree.2, new]
  | freeNotify =>
    cases hs
    refine h.call [] (l := []) hroom rfl rfl (append_nil _).symm (Sublist.refl _) ?_
    have hpending : s.notify.pending = none := hfree
    simp [registered, armedWait, hpending]
  | otherPost port c | drain port n | takeCqes port n | ringEnter port | setupRings port entries =>
    -- the logs and the places do not change
    cases hs
    exact h

theorem one_shot_operations_complete (capacity : Nat) (s : St) (h : (machine capacity).Reach Orderly s) :
    s.submitted.Perm (s.completed ++ registered s) := by
  refine Machine.Reach.inv (I := Accounted) (fun s0 h0 => ?_) (fun _ _ _ hi hg hs => step_accounted hi hg hs) h
  subst h0
  exact Perm.refl []

def emptyMessage : EnvelopedMessage := ⟨⟨0, [], []⟩, none⟩

theorem room_new (hqueue : p.queue.length + n ≤ MAX_QUEUED) (hring : p.ring = none) : Room p n := by
  refine ⟨hqueue, fun r hr => ?_⟩
  rw [hring] at hr
  cases hr

/-- A receive is armed and completed by a thread's message, a send fills the queue, and the next
    is armed. -/
def armedTrace : List Ev :=
  [.submitRecv 0 7 0, .send 1 emptyMessage false, .submitSend 1 8 emptyMessage, .submitSend 1 9 emptyMessage]

theorem one_shot_operations_complete_armed : ∃ s, (machine 1).Reach Orderly s ∧
    s.completed = [⟨0, OP_IPC_RECV, 7⟩, ⟨1, OP_IPC_SEND, 8⟩] ∧ registered s = [⟨1, OP_IPC_SEND, 9⟩] ∧
    s.submitted.Perm (s.completed ++ registered s) := by
  have hg : (machine 1).Guarded Orderly (init 1) armedTrace :=
    ⟨⟨fun _ => rfl, forall_mem_singleton.mpr (room_new (by decide) rfl)⟩,
      ⟨trivial, forall_mem_singleton.mpr (room_new (by decide) rfl)⟩,
      ⟨fun _ => rfl, forall_mem_singleton.mpr (room_new (by decide) rfl)⟩,
      ⟨fun _ => rfl, forall_mem_singleton.mpr (room_new (by decide) rfl)⟩, trivial⟩
  obtain ⟨s, hr, hcompleted, hregistered⟩ : ∃ s, (machine 1).run (init 1) armedTrace = some s ∧
      s.completed = [⟨0, OP_IPC_RECV, 7⟩, ⟨1, OP_IPC_SEND, 8⟩] ∧ registered s = [⟨1, OP_IPC_SEND, 9⟩] :=
    ⟨_, rfl, rfl, rfl⟩
  have hreach := Machine.reach_of_run (init 1) armedTrace rfl hg hr
  exact ⟨s, hreach, hcompleted, hregistered, one_shot_operations_complete 1 s hreach⟩

/-- Two receives are armed on an empty channel and two waits on a notification; then a message
    is sent and the notification signalled. -/
def overwriteTrace : List Ev :=
  [.submitRecv 0 1 0, .submitRecv 1 2 0, .submitWait 0 3, .submitWait 1 4, .send 1 emptyMessage false, .signal]

theorem a_later_submission_drops_the_first :
    (∃ s, (machine 1).Reachable s ∧
      s.submitted = [⟨0, OP_IPC_RECV, 1⟩, ⟨1, OP_IPC_RECV, 2⟩, ⟨0, OP_RING_WAIT, 3⟩, ⟨1, OP_RING_WAIT, 4⟩] ∧
      s.completed = [⟨1, OP_IPC_RECV, 2⟩, ⟨1, OP_RING_WAIT, 4⟩] ∧ registered s = []) ∧
    -- a wait goes with its notification
    ∃ s, (machine 1).Reachable s ∧ s.submitted = [⟨0, OP_RING_WAIT, 3⟩] ∧ s.completed = [] ∧ registered s = [] :=
  ⟨⟨_, Machine.reachable_of_run (init 1) overwriteTrace rfl rfl, rfl, rfl, rfl⟩,
    _, Machine.reachable_of_run (init 1) [.submitWait 0 3, .freeNotify] rfl rfl, rfl, rfl, rfl⟩

end Ostoo.Ipc.OneShot
