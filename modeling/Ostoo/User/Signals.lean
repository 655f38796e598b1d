/-
  Ostoo.User.Signals — signal dispositions and delivery on the return path of a system
  call: `libkernel/src/signal.rs`, `osl/src/signal.rs` and, from
  `libkernel/src/syscall.rs`, `check_pending_signals` and `deliver_signal`.

  A signal frame is built on the user stack below the saved stack pointer, and
  `rt_sigreturn` takes the whole context back from there. Neither looks at where the
  stack pointer points, nor at what the frame says.
-/

import Ostoo.User.Access

namespace Ostoo.User

open Ostoo.Lib.Traced Ostoo.Memory

/-! ## Dispositions -/

def NUM_SIGNALS : Nat := 64

def SIGKILL : Nat := 9

def SIGCHLD : Nat := 17

def SIGCONT : Nat := 18

def SIGSTOP : Nat := 19

def SIG_DFL : U64 := 0

def SIG_IGN : U64 := 1

def SA_SIGINFO : U64 := 4

/-- `SigAction` -/
structure SigAction where
  handler : U64
  flags : U64
  restorer : U64
  mask : U64
  deriving DecidableEq, Repr

instance : Inhabited SigAction := ⟨⟨SIG_DFL, 0, 0, 0⟩⟩

/-- `SignalState`; the actions are indexed by signal number - 1. -/
structure SignalState where
  actions : Nat → SigAction
  pending : U64
  blocked : U64

def SignalState.new : SignalState := ⟨fun _ => default, 0, 0⟩

/-- `1u64 << (signum - 1)` -/
def bit (signum : Nat) : U64 := BitVec.twoPow 64 (signum - 1)

/-- SIGKILL and SIGSTOP. -/
def unblockable : U64 := bit SIGKILL ||| bit SIGSTOP

section

variable (s : SignalState)

def SignalState.queue (signum : Nat) : SignalState :=
  if 1 ≤ signum ∧ signum ≤ NUM_SIGNALS then { s with pending := s.pending ||| bit signum } else s

/-- `pending & !blocked` -/
def SignalState.deliverable : U64 := s.pending &&& ~~~s.blocked

/-- The lowest deliverable signal is taken off the pending ones. -/
def SignalState.dequeue : Option (Nat × SignalState) :=
  match (List.range 64).find? s.deliverable.getLsbD with
  | none => none
  | some i => some (i + 1, { s with pending := s.pending &&& ~~~(bit (i + 1)) })

def isDefaultTerminate (signum : Nat) : Bool := 1 ≤ signum ∧ signum ≤ 15

def isDefaultIgnore (signum : Nat) : Bool := signum = SIGCHLD ∨ signum = SIGCONT

/-! ## The context of a system call -/

/-- `SyscallSavedFrame` -/
structure SavedFrame where
  rcx : U64
  r11 : U64
  rdi : U64
  rsi : U64
  rdx : U64
  r10 : U64
  r8 : U64
  r9 : U64
  deriving DecidableEq, Repr

/-- What a system call of the thread can change of its way back: the frame on the kernel
    stack, the saved user stack pointer, and the process's signal state. -/
structure Ctx where
  frame : SavedFrame
  userRsp : U64
  signal : SignalState

/-! ## The frame on the user stack -/

def PRETCODE_SIZE : Nat := 8

def UC_HEADER : Nat := 8 + 8 + 24

def SIGCONTEXT_SIZE : Nat := 32 * 8

def UC_TAIL : Nat := 8

def UCONTEXT_SIZE : Nat := UC_HEADER + SIGCONTEXT_SIZE + UC_TAIL

def SIGINFO_SIZE : Nat := 128

def FRAME_SIZE : Nat := PRETCODE_SIZE + UCONTEXT_SIZE + SIGINFO_SIZE

def subU64 (a b : Nat) : Option Nat := if b ≤ a then some (a - b) else none

/-- `((sp - 8) & !0xF) + 8` for `sp = user_rsp - FRAME_SIZE`; both differences are checked. -/
def frameBase (userRsp : Nat) : Option Nat := do
  let sp ← subU64 userRsp FRAME_SIZE
  let below ← subU64 sp 8
  some (below / 16 * 16 + 8)

/-- `signum as i32`, as bytes -/
def signoBytes (signum : Nat) : List UInt8 := [UInt8.ofNat signum, 0, 0, 0]

/-- The frame's words, each with its offset from the frame's base. -/
def frameWords (action : SigAction) (saved : SavedFrame) (userRsp ret oldBlocked : U64) : List (Nat × U64) :=
  let sc := PRETCODE_SIZE + UC_HEADER
  [(0, action.restorer),
   (sc + 8 * 0, saved.r8), (sc + 8 * 1, saved.r9), (sc + 8 * 2, saved.r10), (sc + 8 * 3, saved.r11),
   (sc + 8 * 8, saved.rdi), (sc + 8 * 9, saved.rsi), (sc + 8 * 12, saved.rdx), (sc + 8 * 13, ret),
   (sc + 8 * 14, saved.rcx), (sc + 8 * 15, userRsp), (sc + 8 * 16, saved.rcx), (sc + 8 * 17, saved.r11),
   (sc + SIGCONTEXT_SIZE, oldBlocked)]

def storeWords (base : Nat) : List (Nat × U64) → Prog Unit
  | [] => pure ()
  | (off, w) :: rest => do
    store64 (base + off) w
    storeWords base rest

/-- What `deliver_signal` writes: the frame zeroed, its words, and `si_signo`. -/
def writeFrame (base signum : Nat) (words : List (Nat × U64)) : Prog Unit := do
  store base (List.replicate FRAME_SIZE 0)
  storeWords base words
  store (base + PRETCODE_SIZE + UCONTEXT_SIZE) (signoBytes signum)

/-- The mask while the handler runs. -/
def SignalState.enter (signum : Nat) (action : SigAction) : SignalState :=
  { s with blocked := (s.blocked ||| (action.mask ||| bit signum)) &&& ~~~unblockable }

def deliverSignal (signum : Nat) (action : SigAction) (ret : U64) (c : Ctx) : Prog Ctx := do
  let base ← orStop (frameBase c.userRsp.toNat)
  writeFrame base signum (frameWords action c.frame c.userRsp ret c.signal.blocked)
  let info := action.flags &&& SA_SIGINFO ≠ 0
  pure
    { frame := { c.frame with
        rcx := action.handler
        rdi := BitVec.ofNat 64 signum
        rsi := if info then BitVec.ofNat 64 (base + PRETCODE_SIZE + UCONTEXT_SIZE) else 0
        rdx := if info then BitVec.ofNat 64 (base + PRETCODE_SIZE) else 0 }
      userRsp := BitVec.ofNat 64 base
      signal := c.signal.enter signum action }

/-- How a system call leaves the kernel. -/
inductive Exit
  | resumed (ret : U64) (c : Ctx)
  | terminated (code : Nat)

def checkPendingSignals (ret : U64) (c : Ctx) : Prog Exit :=
  match c.signal.dequeue with
  | none => pure (.resumed ret c)
  | some (signum, signal) =>
    let action := signal.actions (signum - 1)
    let c := { c with signal }
    if action.handler = SIG_IGN then
      pure (.resumed ret c)
    else if action.handler = SIG_DFL then
      if isDefaultIgnore signum then pure (.resumed ret c)
      else if isDefaultTerminate signum then pure (.terminated (128 + signum))
      else pure (.resumed ret c)
    else do
      let c ← deliverSignal signum action ret c
      pure (.resumed ret c)

/-! ## System calls -/

/-- `sys_rt_sigreturn` -/
def sysRtSigreturn (c : Ctx) : Prog (U64 × Ctx) := do
  let base ← orStop (subU64 c.userRsp.toNat PRETCODE_SIZE)
  let ucBase ← orStop (addU64 base PRETCODE_SIZE)
  let sc ← orStop (addU64 ucBase UC_HEADER)
  let r8 ← load64 (sc + 8 * 0)
  let r9 ← load64 (sc + 8 * 1)
  let r10 ← load64 (sc + 8 * 2)
  let rdi ← load64 (sc + 8 * 8)
  let rsi ← load64 (sc + 8 * 9)
  let rdx ← load64 (sc + 8 * 12)
  let rax ← load64 (sc + 8 * 13)
  let rip ← load64 (sc + 8 * 16)
  let rflags ← load64 (sc + 8 * 17)
  let rsp ← load64 (sc + 8 * 15)
  let mask ← orStop (addU64 sc SIGCONTEXT_SIZE)
  let oldBlocked ← load64 mask
  pure (rax,
    { frame := ⟨rip, rflags, rdi, rsi, rdx, r10, r8, r9⟩
      userRsp := rsp
      signal := { c.signal with blocked := oldBlocked &&& ~~~unblockable } })

theorem sigcontext_base {rsp base uc sc : Nat} (hbase : subU64 rsp PRETCODE_SIZE = some base)
    (huc : addU64 base PRETCODE_SIZE = some uc) (hsc : addU64 uc UC_HEADER = some sc) : sc = rsp + UC_HEADER := by
  obtain ⟨-, rfl⟩ := addU64_eq_some.mp hsc
  obtain ⟨-, rfl⟩ := addU64_eq_some.mp huc
  simp only [subU64, Option.ite_none_right_eq_some, Option.some.injEq] at hbase
  omega

/-- `-errno`, as the register holds it. -/
def negErrno : Errno → U64
  | .EINTR => -4
  | .EBADF => -9
  | .EFAULT => -14
  | .EISDIR => -21
  | .EINVAL => -22
  | .EMFILE => -24
  | .ENOTTY => -25

/-- The old action goes to `oldact_ptr` if that is given. -/
def storeOldAction (old : SigAction) (oldPtr : U64) : Prog (Except Errno Unit) :=
  if oldPtr = 0 then
    pure (.ok ())
  else if !validateUserBuf oldPtr.toNat 32 then
    pure (.error .EFAULT)
  else do
    store64 oldPtr.toNat old.handler
    store64 (oldPtr.toNat + 8) old.flags
    store64 (oldPtr.toNat + 16) old.restorer
    store64 (oldPtr.toNat + 24) old.mask
    pure (.ok ())

/-- The new action comes from `act_ptr` if that is given. -/
def loadAction (actPtr : U64) : Prog (Except Errno (Option SigAction)) :=
  if actPtr = 0 then
    pure (.ok none)
  else if !validateUserBuf actPtr.toNat 32 then
    pure (.error .EFAULT)
  else do
    let handler ← load64 actPtr.toNat
    let flags ← load64 (actPtr.toNat + 8)
    let restorer ← load64 (actPtr.toNat + 16)
    let mask ← load64 (actPtr.toNat + 24)
    pure (.ok (some ⟨handler, flags, restorer, mask⟩))

def SignalState.setAction (i : Nat) (action : SigAction) : SignalState :=
  { s with actions := Function.update s.actions i action }

end

/-- `sys_rt_sigaction` -/
def sysRtSigaction (signum actPtr oldPtr sigsetsize : U64) (c : Ctx) : Prog (U64 × Ctx) :=
  let sig := signum.toNat % 256
  if sigsetsize ≠ 8 then
    pure (negErrno .EINVAL, c)
  else if sig < 1 ∨ NUM_SIGNALS < sig ∨ sig = SIGKILL ∨ sig = SIGSTOP then
    pure (negErrno .EINVAL, c)
  else do
    match ← storeOldAction (c.signal.actions (sig - 1)) oldPtr with
    | .error e => pure (negErrno e, c)
    | .ok _ =>
      match ← loadAction actPtr with
      | .error e => pure (negErrno e, c)
      | .ok none => pure (0, c)
      | .ok (some action) => pure (0, { c with signal := c.signal.setAction (sig - 1) action })

/-- The new mask for `how`; SIG_BLOCK, SIG_UNBLOCK and SIG_SETMASK are 0, 1 and 2. -/
def maskFor (how set blocked : U64) : U64 :=
  if how = 0 then blocked ||| (set &&& ~~~unblockable)
  else if how = 1 then blocked &&& ~~~set
  else if how = 2 then set &&& ~~~unblockable
  else blocked

/-- The old mask goes to `oldset_ptr` if that is given. -/
def storeOldMask (old oldPtr : U64) : Prog (Except Errno Unit) :=
  if oldPtr = 0 then
    pure (.ok ())
  else if !validateUserBuf oldPtr.toNat 8 then
    pure (.error .EFAULT)
  else do
    store64 oldPtr.toNat old
    pure (.ok ())

/-- `sys_rt_sigprocmask` -/
def sysRtSigprocmask (how setPtr oldPtr sigsetsize : U64) (c : Ctx) : Prog (U64 × Ctx) :=
  if sigsetsize ≠ 8 then
    pure (negErrno .EINVAL, c)
  else do
    match ← storeOldMask c.signal.blocked oldPtr with
    | .error e => pure (negErrno e, c)
    | .ok _ =>
      if setPtr = 0 then
        pure (0, c)
      else if !validateUserBuf setPtr.toNat 8 then
        pure (negErrno .EFAULT, c)
      else do
        let set ← load64 setPtr.toNat
        let c := { c with signal := { c.signal with blocked := maskFor how set c.signal.blocked } }
        pure (if 2 < how.toNat then negErrno .EINVAL else 0, c)

end Ostoo.User
