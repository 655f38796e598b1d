/-
  Ostoo.Fd.Kernel — everything that can hold an fd object, and the calls that move them:
  the fd tables of all processes, channels with their messages, completion ports with their
  queues, the service registry (`file.rs`, `process.rs`, `ipc.rs`, `io_port.rs`,
  `service.rs`, `channel.rs`, `port.rs`).

  A process has one thread, and a step is one call up to the point where it returns or
  blocks. A blocked call may be resumed at any time: what wakes threads is not modelled here.
  Rust's drops are steps of their own: a message that is dropped leaves its objects in
  `dropped`, from where they are closed one by one, and a channel or port that nobody holds
  can be destroyed at any time. In the code they happen at once, so its runs are among these.
  Objects are numbered, and a number is free for a new object when it names none. `none` is
  a panic, or a step that is not possible.

  Not modelled: user memory beyond the message itself, console, file, IRQ, shared memory and
  notification objects (they are `other`, no end of theirs is counted), the bytes in a pipe,
  the waiter of a port.
-/

import Mathlib.Data.String.Basic
import Ostoo.Fd.Table
import Ostoo.Ipc.Channel
import Ostoo.Lib.Machine
import Ostoo.Lib.OrdMap
import Ostoo.User.Access

namespace Ostoo.Fd

open Ostoo.Lib Ostoo.Ipc
open Ostoo.User (validateUserBuf)

def ENOENT : Int := 2
def EBADF : Int := 9
def EAGAIN : Int := 11
def EFAULT : Int := 14
def EBUSY : Int := 16
def EINVAL : Int := 22
def EMFILE : Int := 24
def EPIPE : Int := 32

def OP_IPC_SEND : Nat := 5
def OP_IPC_RECV : Nat := 6

/-- `size_of::<IpcMessage>()` -/
def MSG_SIZE : Nat := 48

/-- `DEFAULT_MAX_QUEUED` -/
def MAX_QUEUED : Nat := 256

inductive FdObject
  | pipeReader (pipe : Nat)
  | pipeWriter (pipe : Nat)
  | port (port : Nat)
  | channelSend (chan : Nat)
  | channelRecv (chan : Nat)
  | other (obj : Nat)
  deriving DecidableEq, Repr

/-- The ends whose references are counted. -/
def FdObject.counted : FdObject → Bool
  | .pipeWriter _ | .channelSend _ | .channelRecv _ => true
  | _ => false

/-! ## Messages -/

structure IpcMessage where
  tag : Nat
  data : List Nat
  /-- Descriptors, -1 where there is none. -/
  fds : List Int
  deriving DecidableEq, Repr

/-- Objects, parallel to `IpcMessage.fds`. -/
abbrev TransferFds := List (Option FdObject)

structure EnvelopedMessage where
  msg : IpcMessage
  transferFds : Option TransferFds
  deriving DecidableEq, Repr

def objectsOf (tf : Option TransferFds) : List FdObject := (tf.getD []).reduceOption

def EnvelopedMessage.objects (env : EnvelopedMessage) : List FdObject := objectsOf env.transferFds

/-- `read_buf`: a message in bytes, or what an OP_READ has read. -/
inductive ReadBuf
  | message (msg : IpcMessage)
  | bytes (len : Nat)
  deriving DecidableEq, Repr

def ReadBuf.len : ReadBuf → Nat
  | .message _ => MSG_SIZE
  | .bytes n => n

/-- What user space gets to see of a completion; its `flags` are always 0. -/
structure IoCompletion where
  userData : Nat
  result : Int
  opcode : Nat
  deriving DecidableEq, Repr

structure Completion extends IoCompletion where
  readBuf : Option ReadBuf
  readDest : Nat
  transferFds : Option TransferFds
  deriving DecidableEq, Repr

/-- A completion that carries no data. -/
def Completion.plain (userData : Nat) (result : Int) (opcode : Nat) : Completion :=
  ⟨⟨userData, result, opcode⟩, none, 0, none⟩

/-- The completion that hands a message to an OP_IPC_RECV. -/
def Completion.ofMessage (userData readDest : Nat) (env : EnvelopedMessage) : Completion :=
  ⟨⟨userData, 0, OP_IPC_RECV⟩, some (.message env.msg), readDest, env.transferFds⟩

def Completion.objects (c : Completion) : List FdObject := objectsOf c.transferFds

/-! ## Ports and pipes -/

/-- The completion ring of a port: what is in it and not yet taken out by user space. -/
structure CqRing where
  entries : Nat
  cqes : List IoCompletion

/-- `post_cqe`: dropped when the ring is full. -/
def CqRing.postCqe (r : CqRing) (c : IoCompletion) : CqRing :=
  if r.cqes.length < r.entries then { r with cqes := r.cqes ++ [c] } else r

structure CompletionPort where
  queue : List Completion
  ring : Option CqRing

namespace CompletionPort

def new : CompletionPort := ⟨[], none⟩

/-- `post` of the generic port: dropped when the queue is full. -/
def enqueue (p : CompletionPort) (c : Completion) : CompletionPort :=
  if p.queue.length < MAX_QUEUED then { p with queue := p.queue ++ [c] } else p

/-- With a ring, completions that need no copying go there. -/
def post (p : CompletionPort) (c : Completion) : CompletionPort :=
  match p.ring with
  | some ring =>
    if c.readBuf.isNone ∧ c.transferFds.isNone then { p with ring := some (ring.postCqe c.toIoCompletion) }
    else p.enqueue c
  | none => p.enqueue c

end CompletionPort

structure Pipe where
  writerCount : Nat
  writeClosed : Bool

/-! ## The kernel -/

/-- A call that is blocked. -/
inductive Call
  | idle
  /-- `SendAction::Block`: the message is in the channel. -/
  | sendWait (chan : Nat)
  /-- `SendAction::BlockWithMsg`: the call keeps the message. -/
  | sendFull (chan : Nat) (env : EnvelopedMessage)
  | recvWait (chan : Nat)

def Call.objects : Call → List FdObject
  | .sendFull _ env => env.objects
  | _ => []

structure Process where
  fdTable : FdTable FdObject
  zombie : Bool
  call : Call

/-- `default_fd_table` -/
def defaultFdTable : FdTable FdObject := [some ⟨.other 0, false⟩, some ⟨.other 1, false⟩, some ⟨.other 2, false⟩]

structure Kernel where
  procs : OrdMap Nat Process
  channels : OrdMap Nat (Channel EnvelopedMessage)
  pipes : OrdMap Nat Pipe
  ports : OrdMap Nat CompletionPort
  registry : List (String × FdObject)
  /-- Objects of dropped messages, still to be closed. -/
  dropped : List FdObject
  /-- The ports that timers, reads, interrupts and notifications will post to. -/
  tasks : List Nat

inductive CloseResult
  | none
  | wakeThread (thread : Nat)
  | notifyRecvPort (pr : PendingPortRecv)
  | notifySendPort (ps : PendingPortSend EnvelopedMessage)

/-- What a message stored in `pending_send` replaces. -/
def overwritten {α : Type} (ch : Channel α) : List α := if ch.capacity = 0 then ch.pendingSend.toList else []

namespace Kernel

def init : Kernel := ⟨.empty, .empty, .empty, .empty, [], [], []⟩

section

variable (k : Kernel)

def setTable (pid : Nat) (t : FdTable FdObject) : Kernel :=
  { k with procs := k.procs.alter pid fun p => { p with fdTable := t } }

def setCall (pid : Nat) (c : Call) : Kernel :=
  { k with procs := k.procs.alter pid fun p => { p with call := c } }

def setChannel (c : Nat) (ch : Channel EnvelopedMessage) : Kernel :=
  { k with channels := k.channels.insert c ch }

/-- `EnvelopedMessage::drop` -/
def dropEnvs (envs : List EnvelopedMessage) : Kernel :=
  { k with dropped := k.dropped ++ envs.flatMap (·.objects) }

/-- Whoever posts to a port holds it, so it is there. -/
def post (k : Kernel) (q : Nat) (c : Completion) : Kernel :=
  { k with ports := k.ports.insert q (((k.ports.get? q).getD .new).post c) }

/-! ## FdObject -/

def notifyDup : FdObject → Option Kernel
  | .pipeWriter q => do
    let p ← k.pipes.get? q
    pure { k with pipes := k.pipes.insert q { p with writerCount := p.writerCount + 1 } }
  | .channelSend c => do
    let ch ← k.channels.get? c
    pure (k.setChannel c ch.dupSend)
  | .channelRecv c => do
    let ch ← k.channels.get? c
    pure (k.setChannel c ch.dupRecv)
  | _ => some k

/-- `FdObject::close`: `none` when a count goes below 0. -/
def close : FdObject → Option (CloseResult × Kernel)
  | .pipeWriter q => do
    let p ← k.pipes.get? q
    if p.writerCount = 0 then none
    else
      let p := { p with writerCount := p.writerCount - 1 }
      pure (.none, { k with pipes := k.pipes.insert q { p with writeClosed := p.writeClosed || p.writerCount == 0 } })
  | .channelSend c => do
    let ch ← k.channels.get? c
    let r ← ch.closeSend
    let k := k.setChannel c r.chan
    match r.action with
    | .none => pure (.none, k)
    | .wakeThread t => pure (.wakeThread t, k)
    | .notifyPort pr => pure (.notifyRecvPort pr, k)
  | .channelRecv c => do
    let ch ← k.channels.get? c
    let r ← ch.closeRecv
    let k := k.setChannel c r.chan
    match r.action with
    | .none => pure (.none, k)
    | .wakeThread t => pure (.wakeThread t, k)
    | .notifyPort ps => pure (.notifySendPort ps, k)
  | _ => some (.none, k)

/-- `handle_close_result` -/
def handleCloseResult : CloseResult → Kernel
  | .notifyRecvPort pr => k.post pr.port (.plain pr.userData (-EPIPE) OP_IPC_RECV)
  | .notifySendPort ps => (k.dropEnvs [ps.envelope]).post ps.port (.plain ps.userData (-EPIPE) OP_IPC_SEND)
  | _ => k

/-- What becomes of a `CloseResult` that is not looked at. -/
def forget : CloseResult → Kernel
  | .notifySendPort ps => k.dropEnvs [ps.envelope]
  | _ => k

/-- A close whose result is not looked at. -/
def closeObject (o : FdObject) : Option Kernel := do
  let (res, k) ← k.close o
  pure (k.forget res)

def closeObjects (k : Kernel) : List FdObject → Option Kernel
  | [] => some k
  | o :: l => do
    let k ← k.closeObject o
    k.closeObjects l

def notifyDups (k : Kernel) : List FdObject → Option Kernel
  | [] => some k
  | o :: l => do
    let k ← k.notifyDup o
    k.notifyDups l

/-! ## Processes -/

/-- The process that makes a call: it is alive, and not in another one. -/
def caller (pid : Nat) : Option Process := do
  let p ← k.procs.get? pid
  match p.zombie, p.call with
  | false, .idle => some p
  | _, _ => none

/-- `spawn_process` -/
def spawn (pid : Nat) : Option Kernel :=
  match k.procs.get? pid with
  | some _ => none
  | none => some { k with procs := k.procs.insert pid ⟨defaultFdTable, false, .idle⟩ }

def sysClone (pid child : Nat) : Option Kernel := do
  let p ← k.caller pid
  let k ← k.notifyDups p.fdTable.objects
  match k.procs.get? child with
  | some _ => none
  | none => pure { k with procs := k.procs.insert child ⟨p.fdTable, false, .idle⟩ }

/-- `sys_execve`, as far as fds go. -/
def sysExecve (pid : Nat) : Option Kernel := do
  let p ← k.caller pid
  (k.setTable pid p.fdTable.dropCloexec).closeObjects p.fdTable.cloexecObjects

def markZombie (pid : Nat) : Kernel := { k with procs := k.procs.alter pid fun p => { p with zombie := true } }

/-- `terminate_process` -/
def terminateProcess (pid : Nat) : Option Kernel := do
  let p ← k.caller pid
  let k ← (k.setTable pid p.fdTable.dropAll).closeObjects p.fdTable.objects
  pure (k.markZombie pid)

/-- `kill_user_process`, after a fault: the fds stay as they are. -/
def killUserProcess (pid : Nat) : Option Kernel := do
  let _ ← k.caller pid
  pure (k.markZombie pid)

/-- `reap` drops the fd table without a close. -/
def reap (pid : Nat) : Option Kernel := do
  let p ← k.procs.get? pid
  if p.zombie then pure { k with procs := k.procs.remove pid } else none

/-! ## Fds -/

/-- A new object that only this process can have; if it gets no fd it is dropped. -/
def sysOpen (pid : Nat) (o : FdObject) (cloexec : Bool) : Option (Int × Kernel) := do
  let p ← k.caller pid
  match p.fdTable.allocFd ⟨o, cloexec⟩ with
  | some (fd, t) => pure ((fd : Int), k.setTable pid t)
  | none => pure (-EMFILE, k)

def sysClose (pid fd : Nat) : Option (Int × Kernel) := do
  let p ← k.caller pid
  match p.fdTable.takeFd fd with
  | none => pure (-EBADF, k)
  | some (e, t) =>
    let (res, k) ← (k.setTable pid t).close e.object
    pure (0, k.handleCloseResult res)

/-- `set_fd` -/
def setFd (pid fd : Nat) (t : FdTable FdObject) (e : FdEntry FdObject) : Option Kernel :=
  match (t.extend fd).takeFd fd with
  | some (old, t) => (k.setTable pid (t.set fd (some e))).closeObject old.object
  | none => some (k.setTable pid ((t.extend fd).set fd (some e)))

def sysDup2 (pid oldfd newfd : Nat) : Option (Int × Kernel) := do
  let p ← k.caller pid
  match p.fdTable.getFd oldfd with
  | none => pure (-EBADF, k)
  | some e =>
    if oldfd = newfd then pure ((newfd : Int), k)
    else
      let k ← k.notifyDup e.object
      let k ← k.setFd pid newfd p.fdTable ⟨e.object, false⟩
      pure ((newfd : Int), k)

/-- `sys_fcntl` with F_SETFD -/
def setFdFlags (pid fd : Nat) (cloexec : Bool) : Option (Int × Kernel) := do
  let p ← k.caller pid
  match p.fdTable.getFd fd with
  | none => pure (-EBADF, k)
  | some e => pure (0, k.setTable pid (p.fdTable.set fd (some { e with cloexec := cloexec })))

/-- Two fds for the two ends of a new object. When the second does not fit, the first is closed
    again and the object is gone with both. -/
def allocPair (t : FdTable FdObject) (a b : FdObject) (cloexec : Bool) : Option (Nat × Nat) × FdTable FdObject :=
  match t.allocFd ⟨a, cloexec⟩ with
  | none => (none, t)
  | some (fd, t) => match t.allocFd ⟨b, cloexec⟩ with
    | none => (none, t.set fd none)
    | some (fd', t) => (some (fd, fd'), t)

def sysPipe2 (pid pipe fdsPtr : Nat) (cloexec : Bool) : Option (Int × Kernel) := do
  let p ← k.caller pid
  if !validateUserBuf fdsPtr 8 then pure (-EFAULT, k)
  else match k.pipes.get? pipe with
    | some _ => none
    | none => match allocPair p.fdTable (.pipeReader pipe) (.pipeWriter pipe) cloexec with
      | (none, t) => pure (-EMFILE, k.setTable pid t)
      | (some _, t) => pure (0, { k.setTable pid t with pipes := k.pipes.insert pipe ⟨1, false⟩ })

def sysIpcCreate (pid chan fdsPtr capacity : Nat) (flags : BitVec 32) : Option (Int × Kernel) := do
  let p ← k.caller pid
  if !validateUserBuf fdsPtr 8 then pure (-EFAULT, k)
  else if flags &&& ~~~1 ≠ 0 then pure (-EINVAL, k)
  else match k.channels.get? chan with
    | some _ => none
    | none => match allocPair p.fdTable (.channelSend chan) (.channelRecv chan) (flags &&& 1 ≠ 0) with
      | (none, t) => pure (-EMFILE, k.setTable pid t)
      | (some _, t) => pure (0, (k.setTable pid t).setChannel chan (.new capacity))

/-! ## Passing objects -/

/-- The loop of `extract_transfer_fds`; `objects` are those found so far. -/
def extractLoop (k : Kernel) (t : FdTable FdObject) : List Int → TransferFds → Option (Option TransferFds × Kernel)
  | [], objects => some (some objects, k)
  | fd :: fds, objects =>
    if fd = -1 then k.extractLoop t fds (objects ++ [none])
    else if fd < 0 then do
      let k ← k.closeObjects objects.reduceOption
      pure (none, k)
    else match t.getFd fd.toNat with
      | some e => do
        let k ← k.notifyDup e.object
        k.extractLoop t fds (objects ++ [some e.object])
      | none => do
        let k ← k.closeObjects objects.reduceOption
        pure (none, k)

/-- `extract_transfer_fds` from the sender's table: `none` in the result is EBADF. -/
def extractTransferFds (t : FdTable FdObject) (msg : IpcMessage) : Option (Option (Option TransferFds) × Kernel) :=
  if msg.fds.all (· = -1) then some (some none, k)
  else do
    let (tf, k) ← k.extractLoop t msg.fds []
    pure (tf.map some, k)

/-- What the loop of `install_transfer_fds` comes to. -/
inductive Installed
  | all (table : FdTable FdObject) (fds : List Int)
  /-- An object got no fd and is dropped; before it there are `fds`, after it `rest`. -/
  | full (table : FdTable FdObject) (fds : List Int) (rest : TransferFds)

def Installed.cons (fd : Int) : Installed → Installed
  | .all t fds => .all t (fd :: fds)
  | .full t fds rest => .full t (fd :: fds) rest

def installLoop (t : FdTable FdObject) : TransferFds → Installed
  | [] => .all t []
  | none :: l => (installLoop t l).cons (-1)
  | some o :: l => match t.allocFd ⟨o, false⟩ with
    | some (fd, t) => (installLoop t l).cons fd
    | none => .full t [] l

/-- `close_fd(afd).ok()` for every fd that was installed. -/
def closeFds (k : Kernel) (pid : Nat) : FdTable FdObject → List Int → Option Kernel
  | _, [] => some k
  | t, fd :: fds =>
    if fd = -1 then k.closeFds pid t fds
    else match t.takeFd fd.toNat with
      | some (e, t) => do
        let k ← (k.setTable pid t).closeObject e.object
        k.closeFds pid t fds
      | none => k.closeFds pid t fds

/-- `install_transfer_fds`: the message with the receiver's fds, or `none` for EMFILE. -/
def installTransferFds (pid : Nat) (msg : IpcMessage) (tf : TransferFds) : Option (Option IpcMessage × Kernel) := do
  let p ← k.procs.get? pid
  match installLoop p.fdTable tf with
  | .all t fds => pure (some { msg with fds := fds }, k.setTable pid t)
  | .full t fds rest => do
    let k ← (k.setTable pid t).closeFds pid t fds
    let k ← k.closeObjects rest.reduceOption
    pure (none, k)

/-- `deliver_to_user`, with the message it copies to user memory. -/
def deliverToUser (pid : Nat) (env : EnvelopedMessage) : Option (Int × Option IpcMessage × Kernel) :=
  match env.transferFds with
  | none => some (0, some env.msg, k)
  | some tf => do
    match ← k.installTransferFds pid env.msg tf with
    | (some msg, k) => pure (0, some msg, k)
    | (none, k) => pure (-EMFILE, none, k)

/-! ## Sending and receiving -/

/-- `sys_ipc_send` from its `try_send` on. The result is `none` while the call is blocked. -/
def send (pid c : Nat) (env : EnvelopedMessage) (nonblock : Bool) : Option (Option Int × Kernel) := do
  let ch ← k.channels.get? c
  let r := ch.trySend pid env nonblock
  let k := k.setChannel c r.chan
  match r.action with
  | .done => pure (some 0, k)
  | .donated _ => pure (some 0, k.dropEnvs (overwritten ch))
  | .block => pure (none, (k.dropEnvs (overwritten ch)).setCall pid (.sendWait c))
  | .blockWithMsg env => pure (none, k.setCall pid (.sendFull c env))
  | .wouldBlock env => pure (some (-EAGAIN), k.dropEnvs [env])
  | .peerClosed env => pure (some (-EPIPE), k.dropEnvs [env])
  | .postToPort pr env => pure (some 0, k.post pr.port (.ofMessage pr.userData pr.bufDest env))

def sysIpcSend (pid fd msgPtr : Nat) (msg : IpcMessage) (nonblock : Bool) : Option (Option Int × Kernel) := do
  let p ← k.caller pid
  if !validateUserBuf msgPtr MSG_SIZE then pure (some (-EFAULT), k)
  else match p.fdTable.getObject fd with
    | some (.channelSend c) => do
      match ← k.extractTransferFds p.fdTable msg with
      | (none, k) => pure (some (-EBADF), k)
      | (some tf, k) => k.send pid c ⟨msg, tf⟩ nonblock
    | _ => pure (some (-EBADF), k)

/-- `sys_ipc_recv` from its `try_recv` on. -/
def recv (pid c : Nat) (nonblock : Bool) : Option (Option Int × Kernel) := do
  let ch ← k.channels.get? c
  let r := ch.tryRecv pid nonblock
  let k := k.setChannel c r.chan
  match r.action with
  | .message env =>
    let (rc, _, k) ← k.deliverToUser pid env
    pure (some rc, k)
  | .messageAndNotifySendPort env port userData =>
    let (rc, _, k) ← k.deliverToUser pid env
    pure (some rc, k.post port (.plain userData 0 OP_IPC_SEND))
  | .block => pure (none, k.setCall pid (.recvWait c))
  | .wouldBlock => pure (some (-EAGAIN), k)
  | .peerClosed => pure (some (-EPIPE), k)

def sysIpcRecv (pid fd msgPtr : Nat) (nonblock : Bool) : Option (Option Int × Kernel) := do
  let p ← k.caller pid
  if !validateUserBuf msgPtr MSG_SIZE then pure (some (-EFAULT), k)
  else match p.fdTable.getObject fd with
    | some (.channelRecv c) => k.recv pid c nonblock
    | _ => pure (some (-EBADF), k)

/-- A blocked call goes on. -/
def resume (pid : Nat) : Option (Option Int × Kernel) := do
  let p ← k.procs.get? pid
  if p.zombie then none
  else match p.call with
    | .idle => none
    | .sendWait c => do
      let ch ← k.channels.get? c
      pure (some (if ch.recvClosed then -EPIPE else 0), k.setCall pid .idle)
    | .sendFull c env => (k.setCall pid .idle).send pid c env false
    | .recvWait c => (k.setCall pid .idle).recv pid c false

/-! ## Completion ports -/

/-- `get_fd_port` -/
def portOf (p : Process) (fd : Nat) : Option Nat :=
  match p.fdTable.getObject fd with
  | some (.port q) => some q
  | _ => none

/-- An OP_IPC_SEND entry of `io_submit` or `io_ring_enter`. -/
def submitSend (pid portFd userData fd bufAddr : Nat) (msg : IpcMessage) : Option Kernel := do
  let p ← k.caller pid
  match portOf p portFd with
  | none => pure k
  | some q => match p.fdTable.getObject fd with
    | some (.channelSend c) =>
      if !validateUserBuf bufAddr MSG_SIZE then pure (k.post q (.plain userData (-EFAULT) OP_IPC_SEND))
      else do
        match ← k.extractTransferFds p.fdTable msg with
        | (none, k) => pure (k.post q (.plain userData (-EBADF) OP_IPC_SEND))
        | (some tf, k) =>
          let ch ← k.channels.get? c
          let r := ch.armSend ⟨q, userData, ⟨msg, tf⟩⟩
          let k := k.setChannel c r.chan
          match r.action with
          | .ready => pure (k.post q (.plain userData 0 OP_IPC_SEND))
          | .readyDonate _ => pure ((k.dropEnvs (overwritten ch)).post q (.plain userData 0 OP_IPC_SEND))
          | .readyToRecvPort pr env =>
            pure ((k.post pr.port (.ofMessage pr.userData pr.bufDest env)).post q (.plain userData 0 OP_IPC_SEND))
          -- a send that was armed before is replaced
          | .armed => pure (k.dropEnvs (ch.pendingSendPort.toList.map (·.envelope)))
          | .peerClosed => pure ((k.dropEnvs [⟨msg, tf⟩]).post q (.plain userData (-EPIPE) OP_IPC_SEND))
    | _ => pure (k.post q (.plain userData (-EBADF) OP_IPC_SEND))

/-- An OP_IPC_RECV entry of `io_submit` or `io_ring_enter`. -/
def submitRecv (pid portFd userData fd bufAddr : Nat) : Option Kernel := do
  let p ← k.caller pid
  match portOf p portFd with
  | none => pure k
  | some q => match p.fdTable.getObject fd with
    | some (.channelRecv c) =>
      if bufAddr ≠ 0 ∧ !validateUserBuf bufAddr MSG_SIZE then pure (k.post q (.plain userData (-EFAULT) OP_IPC_RECV))
      else do
        let ch ← k.channels.get? c
        let r := ch.armRecv ⟨q, userData, bufAddr⟩
        let k := k.setChannel c r.chan
        match r.action with
        | .ready env => pure (k.post q (.ofMessage userData bufAddr env))
        | .readyAndNotifySendPort env port sendUserData =>
          pure ((k.post q (.ofMessage userData bufAddr env)).post port (.plain sendUserData 0 OP_IPC_SEND))
        | .armed => pure k
        | .peerClosed => pure (k.post q (.plain userData (-EPIPE) OP_IPC_RECV))
    | _ => pure (k.post q (.plain userData (-EBADF) OP_IPC_RECV))

/-- An entry that posts later, from a task, an interrupt or a notification. -/
def submitTask (pid portFd : Nat) : Option Kernel := do
  let p ← k.caller pid
  match portOf p portFd with
  | none => pure k
  | some q => pure { k with tasks := q :: k.tasks }

/-- It posts, or is given up without. -/
def taskEnd (q : Nat) (result : Option (IoCompletion × Option ReadBuf × Nat)) : Option Kernel :=
  if q ∈ k.tasks then
    let k := { k with tasks := k.tasks.erase q }
    match result with
    | some (c, buf, dest) => some (k.post q ⟨c, buf, dest, none⟩)
    | none => some k
  else none

/-- What `io_wait` and `io_ring_enter` do with a completion from the queue, with what they copy
    to user memory and where. A failed installation is not looked at. -/
def deliverCompletion (pid : Nat) (c : Completion) : Option (Option (Nat × ReadBuf) × Kernel) := do
  let (buf, k) ← match c.transferFds, c.readBuf with
    | some tf, some (.message msg) => do
      let (res, k) ← k.installTransferFds pid msg tf
      pure (some (.message (res.getD msg)), k)
    | _, buf => pure (buf, k)
  match buf with
  | some b =>
    if b.len ≠ 0 ∧ c.readDest ≠ 0 ∧ validateUserBuf c.readDest b.len then pure (some (c.readDest, b), k)
    else pure (none, k)
  | none => pure (none, k)

def deliverCompletions (k : Kernel) (pid : Nat) : List Completion → Option Kernel
  | [] => some k
  | c :: l => do
    let (_, k) ← k.deliverCompletion pid c
    k.deliverCompletions pid l

/-- `drain`: what is left in the queue. -/
def drainPort (q n : Nat) : Kernel := { k with ports := k.ports.alter q fun p => { p with queue := p.queue.drop n } }

/-- The pass of `sys_io_wait` that returns. -/
def sysIoWait (pid portFd max : Nat) : Option (Int × Kernel) := do
  let p ← k.caller pid
  if max = 0 then pure (0, k)
  else match portOf p portFd with
    | none => pure (-EBADF, k)
    | some q =>
      let port := (k.ports.get? q).getD .new
      if port.ring.isSome then pure (-EINVAL, k)
      else
        let drained := port.queue.take max
        let k ← (k.drainPort q max).deliverCompletions pid drained
        pure ((drained.length : Int), k)

/-- A pass of `sys_io_ring_enter` over the queue; the entries it submits are events of their own. -/
def sysIoRingEnter (pid portFd : Nat) : Option Kernel := do
  let p ← k.caller pid
  match portOf p portFd with
  | none => pure k
  | some q =>
    let port := (k.ports.get? q).getD .new
    if port.ring.isNone then pure k
    else
      let k ← (k.drainPort q port.queue.length).deliverCompletions pid port.queue
      pure { k with ports := k.ports.alter q fun p =>
        { p with ring := p.ring.map fun r => port.queue.foldl (fun r c => r.postCqe c.toIoCompletion) r } }

/-- `sys_io_setup_rings`; `sq` and `cq` are the objects over the ring pages. -/
def sysIoSetupRings (pid portFd cqEntries sq cq : Nat) : Option (Int × Kernel) := do
  let p ← k.caller pid
  match portOf p portFd with
  | none => pure (-EBADF, k)
  | some q =>
    if ((k.ports.get? q).getD .new).ring.isSome then pure (-EBUSY, k)
    else match allocPair p.fdTable (.other sq) (.other cq) false with
      | (none, t) => pure (-EMFILE, k.setTable pid t)
      | (some _, t) => pure (0, { k.setTable pid t with
          ports := k.ports.insert q { (k.ports.get? q).getD .new with ring := some ⟨cqEntries, []⟩ } })

/-- User space takes completions out of the ring. -/
def takeCqes (q n : Nat) : Kernel :=
  { k with ports := k.ports.alter q fun p => { p with ring := p.ring.map fun r => { r with cqes := r.cqes.drop n } } }

/-! ## The service registry -/

def sysSvcRegister (pid : Nat) (name : String) (fd : Nat) : Option (Int × Kernel) := do
  let p ← k.caller pid
  if name.isEmpty then pure (-EINVAL, k)
  else match p.fdTable.getFd fd with
    | none => pure (-EBADF, k)
    | some e => do
      let k ← k.notifyDup e.object
      match k.registry.lookup name with
      | some _ => pure (-EBUSY, k)
      | none => pure (0, { k with registry := (name, e.object) :: k.registry })

def sysSvcLookup (pid : Nat) (name : String) : Option (Int × Kernel) := do
  let p ← k.caller pid
  if name.isEmpty then pure (-EINVAL, k)
  else match k.registry.lookup name with
    | none => pure (-ENOENT, k)
    | some o => do
      let k ← k.notifyDup o
      match p.fdTable.allocFd ⟨o, false⟩ with
      | some (fd, t) => pure ((fd : Int), k.setTable pid t)
      | none => pure (-EMFILE, k)

end

/-! ## Who holds an object -/

end Kernel

/-- The messages a channel holds. -/
def envelopes {α : Type} (ch : Channel α) : List α :=
  ch.queue ++ ch.pendingSend.toList ++ ch.pendingSendPort.toList.map (·.envelope)

def channelObjects (ch : Channel EnvelopedMessage) : List FdObject := (envelopes ch).flatMap (·.objects)

def portObjects (p : CompletionPort) : List FdObject := p.queue.flatMap (·.objects)

def Process.objects (p : Process) : List FdObject := p.fdTable.objects ++ p.call.objects

/-- The references a process stands for; a zombie is not live. -/
def Process.refs (p : Process) (o : FdObject) : Nat := if p.zombie then 0 else p.objects.count o

namespace Kernel

/-- The live references to an object: entries in the fd tables of live processes, objects in
    undelivered messages, in queued completions and in the registry. -/
def refs (k : Kernel) (o : FdObject) : Nat :=
  k.procs.total (fun _ p => p.refs o) +
  k.channels.total (fun _ ch => (channelObjects ch).count o) +
  k.ports.total (fun _ p => (portObjects p).count o) +
  (k.registry.map (·.2)).count o + k.dropped.count o

variable (k : Kernel)

/-- Everything that keeps an object alive: also the tables of processes not yet reaped. -/
def holds (o : FdObject) : Nat :=
  k.refs o + k.procs.total (fun _ p => if p.zombie then p.objects.count o else 0)

/-- A port is also held by the channels it is armed on, and by tasks. -/
def portHolds (q : Nat) : Nat :=
  k.holds (.port q) + k.tasks.count q + k.channels.total fun _ ch =>
    (ch.pendingPort.toList.map (·.port)).count q + (ch.pendingSendPort.toList.map (·.port)).count q

def destroyChannel (c : Nat) : Option Kernel := do
  let ch ← k.channels.get? c
  if k.holds (.channelSend c) = 0 ∧ k.holds (.channelRecv c) = 0 then
    pure ({ k with channels := k.channels.remove c }.dropEnvs (envelopes ch))
  else none

/-- The completions still queued are dropped, without a close of their objects. -/
def destroyPort (q : Nat) : Option Kernel :=
  if k.portHolds q = 0 then some { k with ports := k.ports.remove q } else none

def dropNext : Option Kernel :=
  match k.dropped with
  | [] => none
  | o :: l => { k with dropped := l }.closeObject o

end Kernel

/-! ## Runs -/

inductive Ev
  | spawn (pid : Nat)
  | clone (pid child : Nat)
  | execve (pid : Nat)
  | exit (pid : Nat)
  | faultKill (pid : Nat)
  | reap (pid : Nat)
  | openOther (pid obj : Nat) (cloexec : Bool)
  | close (pid fd : Nat)
  | dup2 (pid oldfd newfd : Nat)
  | setFdFlags (pid fd : Nat) (cloexec : Bool)
  | pipe2 (pid pipe fdsPtr : Nat) (cloexec : Bool)
  | ipcCreate (pid chan fdsPtr capacity : Nat) (flags : BitVec 32)
  | ipcSend (pid fd msgPtr : Nat) (msg : IpcMessage) (nonblock : Bool)
  | ipcRecv (pid fd msgPtr : Nat) (nonblock : Bool)
  | resume (pid : Nat)
  | ioCreate (pid port : Nat)
  | ioSetupRings (pid portFd cqEntries sq cq : Nat)
  | submitSend (pid portFd userData fd bufAddr : Nat) (msg : IpcMessage)
  | submitRecv (pid portFd userData fd bufAddr : Nat)
  | submitTask (pid portFd : Nat)
  | taskEnd (port : Nat) (result : Option (IoCompletion × Option ReadBuf × Nat))
  | ioWait (pid portFd max : Nat)
  | ioRingEnter (pid portFd : Nat)
  | takeCqes (port n : Nat)
  | svcRegister (pid : Nat) (name : String) (fd : Nat)
  | svcLookup (pid : Nat) (name : String)
  | dropNext
  | destroyChannel (chan : Nat)
  | destroyPort (port : Nat)

def step (k : Kernel) : Ev → Option Kernel
  | .spawn pid => k.spawn pid
  | .clone pid child => k.sysClone pid child
  | .execve pid => k.sysExecve pid
  | .exit pid => k.terminateProcess pid
  | .faultKill pid => k.killUserProcess pid
  | .reap pid => k.reap pid
  | .openOther pid obj cloexec => (k.sysOpen pid (.other obj) cloexec).map (·.2)
  | .close pid fd => (k.sysClose pid fd).map (·.2)
  | .dup2 pid oldfd newfd => (k.sysDup2 pid oldfd newfd).map (·.2)
  | .setFdFlags pid fd cloexec => (k.setFdFlags pid fd cloexec).map (·.2)
  | .pipe2 pid pipe fdsPtr cloexec => (k.sysPipe2 pid pipe fdsPtr cloexec).map (·.2)
  | .ipcCreate pid chan fdsPtr capacity flags => (k.sysIpcCreate pid chan fdsPtr capacity flags).map (·.2)
  | .ipcSend pid fd msgPtr msg nonblock => (k.sysIpcSend pid fd msgPtr msg nonblock).map (·.2)
  | .ipcRecv pid fd msgPtr nonblock => (k.sysIpcRecv pid fd msgPtr nonblock).map (·.2)
  | .resume pid => (k.resume pid).map (·.2)
  | .ioCreate pid port => if (k.ports.get? port).isNone then (k.sysOpen pid (.port port) false).map (·.2) else none
  | .ioSetupRings pid portFd cqEntries sq cq => (k.sysIoSetupRings pid portFd cqEntries sq cq).map (·.2)
  | .submitSend pid portFd userData fd bufAddr msg => k.submitSend pid portFd userData fd bufAddr msg
  | .submitRecv pid portFd userData fd bufAddr => k.submitRecv pid portFd userData fd bufAddr
  | .submitTask pid portFd => k.submitTask pid portFd
  | .taskEnd port result => k.taskEnd port result
  | .ioWait pid portFd max => (k.sysIoWait pid portFd max).map (·.2)
  | .ioRingEnter pid portFd => k.sysIoRingEnter pid portFd
  | .takeCqes port n => some (k.takeCqes port n)
  | .svcRegister pid name fd => (k.sysSvcRegister pid name fd).map (·.2)
  | .svcLookup pid name => (k.sysSvcLookup pid name).map (·.2)
  | .dropNext => k.dropNext
  | .destroyChannel chan => k.destroyChannel chan
  | .destroyPort port => k.destroyPort port

def machine : Machine Kernel Ev where
  start := fun k => k = .init
  step := step

end Ostoo.Fd
