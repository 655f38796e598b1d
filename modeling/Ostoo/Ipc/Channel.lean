/-
  Ostoo.Ipc.Channel — the IPC channel of `channel.rs`: a send end and a receive end over
  a buffer of `capacity` envelopes, or a rendezvous when the capacity is 0.

  Each function is one call made under the channel's lock. It gives the action the
  caller takes after releasing the lock, the channel, and the thread `scheduler::unblock`
  was called for. The code moves envelopes and never looks into them, so their type is a
  parameter. `none` is the panic of a reference count that goes below 0.
-/

import Mathlib.Data.List.Basic

namespace Ostoo.Ipc

/-- Registration of an `OP_IPC_RECV`. -/
structure PendingPortRecv where
  port : Nat
  userData : Nat
  bufDest : Nat
  deriving DecidableEq, Repr

/-- Registration of an `OP_IPC_SEND` with its envelope. -/
structure PendingPortSend (α : Type) where
  port : Nat
  userData : Nat
  envelope : α
  deriving DecidableEq, Repr

structure Channel (α : Type) where
  queue : List α
  capacity : Nat
  pendingSend : Option α
  blockedSender : Option Nat
  blockedReceiver : Option Nat
  sendCount : Nat
  recvCount : Nat
  pendingPort : Option PendingPortRecv
  pendingSendPort : Option (PendingPortSend α)
  sendClosed : Bool
  recvClosed : Bool

inductive SendAction (α : Type)
  | done
  | donated (thread : Nat)
  | block
  | blockWithMsg (env : α)
  | wouldBlock (env : α)
  | peerClosed (env : α)
  | postToPort (pr : PendingPortRecv) (env : α)

inductive RecvAction (α : Type)
  | message (env : α)
  | messageAndNotifySendPort (env : α) (port userData : Nat)
  | block
  | wouldBlock
  | peerClosed

inductive ArmSendAction (α : Type)
  | ready
  | readyDonate (thread : Nat)
  | readyToRecvPort (pr : PendingPortRecv) (env : α)
  | armed
  | peerClosed

inductive ArmRecvAction (α : Type)
  | ready (env : α)
  | readyAndNotifySendPort (env : α) (port userData : Nat)
  | armed
  | peerClosed

inductive CloseSendAction
  | none
  | wakeThread (thread : Nat)
  | notifyPort (pr : PendingPortRecv)

inductive CloseRecvAction (α : Type)
  | none
  | wakeThread (thread : Nat)
  | notifyPort (ps : PendingPortSend α)

/-- What a call leaves: the caller's action, the channel, the thread it unblocked. -/
structure Res (α act : Type) where
  action : act
  chan : Channel α
  woken : Option Nat := none

namespace Channel

variable {α : Type}

def new (capacity : Nat) : Channel α where
  queue := []
  capacity := capacity
  pendingSend := none
  blockedSender := none
  blockedReceiver := none
  sendCount := 1
  recvCount := 1
  pendingPort := none
  pendingSendPort := none
  sendClosed := false
  recvClosed := false

variable (c : Channel α)

def dupSend : Channel α := { c with sendCount := c.sendCount + 1 }

def dupRecv : Channel α := { c with recvCount := c.recvCount + 1 }

/-- `cur` is the calling thread, which `mark_blocked` blocks on `block` and `blockWithMsg`. -/
def trySend (cur : Nat) (env : α) (nonblock : Bool) : Res α (SendAction α) :=
  if c.recvClosed then ⟨.peerClosed env, c, none⟩
  else if c.capacity = 0 then
    match c.blockedReceiver with
    | some t => ⟨.donated t, { c with blockedReceiver := none, pendingSend := some env }, some t⟩
    | none =>
      match c.pendingPort with
      | some pr => ⟨.postToPort pr env, { c with pendingPort := none }, none⟩
      | none =>
        if nonblock then ⟨.wouldBlock env, c, none⟩
        else ⟨.block, { c with pendingSend := some env, blockedSender := some cur }, none⟩
  else if c.queue.length < c.capacity then
    match c.blockedReceiver with
    | some t => ⟨.donated t, { c with queue := c.queue ++ [env], blockedReceiver := none }, some t⟩
    | none =>
      match c.pendingPort with
      | some pr =>
        -- push, then pop the oldest message for the armed port
        match c.queue with
        | front :: rest => ⟨.postToPort pr front, { c with queue := rest ++ [env], pendingPort := none }, none⟩
        | [] => ⟨.postToPort pr env, { c with pendingPort := none }, none⟩
      | none => ⟨.done, { c with queue := c.queue ++ [env] }, none⟩
  else if nonblock then ⟨.wouldBlock env, c, none⟩
  else ⟨.blockWithMsg env, { c with blockedSender := some cur }, none⟩

def tryRecv (cur : Nat) (nonblock : Bool) : Res α (RecvAction α) :=
  if c.capacity = 0 then
    match c.pendingSend with
    | some env => ⟨.message env, { c with pendingSend := none, blockedSender := none }, c.blockedSender⟩
    | none =>
      match c.pendingSendPort with
      | some ps => ⟨.messageAndNotifySendPort ps.envelope ps.port ps.userData, { c with pendingSendPort := none }, none⟩
      | none =>
        if c.sendClosed then ⟨.peerClosed, c, none⟩
        else if nonblock then ⟨.wouldBlock, c, none⟩
        else ⟨.block, { c with blockedReceiver := some cur }, none⟩
  else
    match c.queue with
    | env :: rest =>
      match c.blockedSender with
      | some t => ⟨.message env, { c with queue := rest, blockedSender := none }, some t⟩
      | none =>
        match c.pendingSendPort with
        | some ps =>
          ⟨.messageAndNotifySendPort env ps.port ps.userData,
            { c with queue := rest ++ [ps.envelope], pendingSendPort := none }, none⟩
        | none => ⟨.message env, { c with queue := rest }, none⟩
    | [] =>
      if c.sendClosed then ⟨.peerClosed, c, none⟩
      else if nonblock then ⟨.wouldBlock, c, none⟩
      else ⟨.block, { c with blockedReceiver := some cur }, none⟩

def armSend (info : PendingPortSend α) : Res α (ArmSendAction α) :=
  if c.recvClosed then ⟨.peerClosed, c, none⟩
  else if c.capacity = 0 then
    match c.blockedReceiver with
    | some t => ⟨.readyDonate t, { c with blockedReceiver := none, pendingSend := some info.envelope }, some t⟩
    | none =>
      match c.pendingPort with
      | some pr => ⟨.readyToRecvPort pr info.envelope, { c with pendingPort := none }, none⟩
      | none => ⟨.armed, { c with pendingSendPort := some info }, none⟩
  else if c.queue.length < c.capacity then
    match c.blockedReceiver with
    | some t => ⟨.readyDonate t, { c with queue := c.queue ++ [info.envelope], blockedReceiver := none }, some t⟩
    | none =>
      match c.pendingPort with
      | some pr =>
        match c.queue with
        | front :: rest =>
          ⟨.readyToRecvPort pr front, { c with queue := rest ++ [info.envelope], pendingPort := none }, none⟩
        | [] => ⟨.readyToRecvPort pr info.envelope, { c with pendingPort := none }, none⟩
      | none => ⟨.ready, { c with queue := c.queue ++ [info.envelope] }, none⟩
  else ⟨.armed, { c with pendingSendPort := some info }, none⟩

/-- The end of `arm_recv`, when nothing is there to receive. -/
def armRecvWait (info : PendingPortRecv) : Res α (ArmRecvAction α) :=
  if c.sendClosed then ⟨.peerClosed, c, none⟩ else ⟨.armed, { c with pendingPort := some info }, none⟩

def armRecv (info : PendingPortRecv) : Res α (ArmRecvAction α) :=
  if c.capacity = 0 then
    match c.pendingSend with
    | some env => ⟨.ready env, { c with pendingSend := none, blockedSender := none }, c.blockedSender⟩
    | none =>
      match c.pendingSendPort with
      | some ps => ⟨.readyAndNotifySendPort ps.envelope ps.port ps.userData, { c with pendingSendPort := none }, none⟩
      | none => c.armRecvWait info
  else
    match c.queue with
    | env :: rest =>
      match c.blockedSender with
      | some t => ⟨.ready env, { c with queue := rest, blockedSender := none }, some t⟩
      | none =>
        match c.pendingSendPort with
        | some ps =>
          ⟨.readyAndNotifySendPort env ps.port ps.userData,
            { c with queue := rest ++ [ps.envelope], pendingSendPort := none }, none⟩
        | none => ⟨.ready env, { c with queue := rest }, none⟩
    | [] => c.armRecvWait info

def closeSend : Option (Res α CloseSendAction) :=
  if c.sendCount = 0 then none
  else if c.sendCount - 1 > 0 then some ⟨.none, { c with sendCount := c.sendCount - 1 }, none⟩
  else match c.blockedReceiver with
    | some t =>
      some ⟨.wakeThread t, { c with sendCount := 0, sendClosed := true, blockedReceiver := none }, some t⟩
    | none =>
      match c.pendingPort with
      | some pr => some ⟨.notifyPort pr, { c with sendCount := 0, sendClosed := true, pendingPort := none }, none⟩
      | none => some ⟨.none, { c with sendCount := 0, sendClosed := true }, none⟩

def closeRecv : Option (Res α (CloseRecvAction α)) :=
  if c.recvCount = 0 then none
  else if c.recvCount - 1 > 0 then some ⟨.none, { c with recvCount := c.recvCount - 1 }, none⟩
  else match c.blockedSender with
    | some t => some ⟨.wakeThread t, { c with recvCount := 0, recvClosed := true, blockedSender := none }, some t⟩
    | none =>
      match c.pendingSendPort with
      | some ps =>
        some ⟨.notifyPort ps, { c with recvCount := 0, recvClosed := true, pendingSendPort := none }, none⟩
      | none => some ⟨.none, { c with recvCount := 0, recvClosed := true }, none⟩

end Channel

end Ostoo.Ipc
