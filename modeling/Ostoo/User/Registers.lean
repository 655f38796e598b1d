/-
  Ostoo.User.Registers — RIP and RFLAGS across SYSCALL and SYSRET (`init` and
  `syscall_entry` of `libkernel/src/syscall.rs`).

  SYSCALL saves the return address in rcx and the flags in r11 and clears from the flags
  what IA32_FMASK names: 0x300 is TF and IF, not IF and DF. SYSRETQ loads both back from
  the saved frame; it faults, still in ring 0, if rcx is not canonical. Two calls change
  what it loads: `rt_sigreturn` takes both words from the user stack as they are, and the
  delivery of a signal puts the handler's address, as `rt_sigaction` stored it, into rcx.

  Between calls the program runs in ring 3: it may set any flag except IOPL, and IF only
  if IOPL is 3.
  Not modelled: interrupts and the signals delivered from them, which return by IRETQ.
-/

import Ostoo.User.Signals
import Ostoo.Lib.Machine

namespace Ostoo.User.Registers

open Ostoo.Lib Ostoo.Lib.Traced

/-! ## The flags -/

/-- Interrupts enabled. -/
def IF (rflags : U64) : Bool := rflags.getLsbD 9

/-- Direction of string instructions. -/
def DF (rflags : U64) : Bool := rflags.getLsbD 10

/-- I/O privilege level. -/
def IOPL (rflags : U64) : BitVec 2 := rflags.extractLsb' 12 2

/-- What `init` writes to IA32_FMASK. -/
def FMASK : U64 := 0x300

/-- The flags the kernel body runs with. -/
def entryFlags (rflags : U64) : U64 := rflags &&& ~~~FMASK

/-- The flags SYSRETQ loads from r11. -/
def sysretFlags (r11 : U64) : U64 := (r11 &&& 0x3C7FD7) ||| 2

/-- `RFLAGS_IF`: the flags a process starts with. -/
def RFLAGS_IF : U64 := 0x202

theorem entryFlags_IF (rflags : U64) : IF (entryFlags rflags) = false := by
  simp [IF, entryFlags, FMASK]

theorem entryFlags_DF (rflags : U64) : DF (entryFlags rflags) = DF rflags := by
  simp [DF, entryFlags, FMASK]

theorem sysretFlags_IF (r11 : U64) : IF (sysretFlags r11) = IF r11 := by
  simp [IF, sysretFlags]

theorem sysretFlags_IOPL (r11 : U64) : IOPL (sysretFlags r11) = IOPL r11 := by
  refine BitVec.eq_of_getLsbD_eq fun i hi => ?_
  have : i = 0 ∨ i = 1 := by omega
  rcases this with rfl | rfl <;> simp [IOPL, sysretFlags]

/-! ## The program and the kernel -/

inductive Mode
  | ring3
  | terminated
  /-- A general protection fault at SYSRETQ, in ring 0. -/
  | gpFault
  deriving DecidableEq, Repr

structure St where
  mode : Mode
  rip : U64
  rflags : U64
  rsp : U64
  mem : Bytes
  signal : SignalState

/-- The registers a call takes its arguments from. -/
structure Regs where
  rdi : U64
  rsi : U64
  rdx : U64
  r10 : U64
  r8 : U64
  r9 : U64
  deriving DecidableEq, Repr

/-- The calls that touch the context or the signal state; any other returns a value. -/
inductive Call
  | rtSigaction
  | rtSigprocmask
  | rtSigreturn
  | other (ret : U64)

/-- `syscall_dispatch` -/
def dispatch (regs : Regs) (c : Ctx) : Call → Prog (U64 × Ctx)
  | .rtSigaction => sysRtSigaction regs.rdi regs.rsi regs.rdx regs.r10 c
  | .rtSigprocmask => sysRtSigprocmask regs.rdi regs.rsi regs.rdx regs.r10 c
  | .rtSigreturn => sysRtSigreturn c
  | .other ret => pure (ret, c)

def kernelBody (regs : Regs) (c : Ctx) (call : Call) : Prog Exit := do
  let (ret, c) ← dispatch regs c call
  checkPendingSignals ret c

def canonical (a : U64) : Bool := a.toNat < USER_LIMIT ∨ 2 ^ 64 - USER_LIMIT ≤ a.toNat

/-- The return to ring 3. -/
def sysretq (s : St) (mem : Bytes) (c : Ctx) : St :=
  { s with
    mode := if canonical c.frame.rcx then .ring3 else .gpFault
    rip := c.frame.rcx
    rflags := sysretFlags c.frame.r11
    rsp := c.userRsp
    mem
    signal := c.signal }

inductive Ev
  /-- The program runs on, up to the instruction at `rip`. -/
  | run (rip rflags rsp : U64)
  | store (addr : Nat) (bytes : List UInt8)
  /-- Another process sends a signal. -/
  | kill (signum : Nat)
  | syscall (regs : Regs) (call : Call)

/-- Ring 3 cannot change IOPL, and IF only at IOPL 3. -/
def UserMay (old new : U64) : Prop := IOPL new = IOPL old ∧ (IF new = IF old ∨ IOPL old = 3)

deriving instance Decidable for UserMay

/-- What SYSCALL, two bytes long, leaves for the kernel. -/
def entryCtx (s : St) (regs : Regs) : Ctx where
  frame := ⟨s.rip + 2, s.rflags, regs.rdi, regs.rsi, regs.rdx, regs.r10, regs.r8, regs.r9⟩
  userRsp := s.rsp
  signal := s.signal

def step (s : St) : Ev → Option St
  | .run rip rflags rsp =>
    if s.mode = .ring3 ∧ s.rip.toNat < USER_LIMIT ∧ rip.toNat < USER_LIMIT ∧ UserMay s.rflags rflags then
      some { s with rip, rflags, rsp }
    else none
  | .store addr bytes =>
    if s.mode = .ring3 ∧ addr + bytes.length ≤ USER_LIMIT then some { s with mem := storeBytes s.mem addr bytes }
    else none
  | .kill signum => some { s with signal := s.signal.queue signum }
  | .syscall regs call =>
    if s.mode = .ring3 ∧ s.rip.toNat + 2 ≤ USER_LIMIT then
      let r := (kernelBody regs (entryCtx s regs) call).run s.mem
      r.val.map fun
        | .terminated _ => { s with mode := .terminated, mem := r.mem }
        | .resumed _ c => sysretq s r.mem c
    else none

def machine : Machine St Ev where
  start := fun s => ∃ rip rsp mem, rip.toNat < USER_LIMIT ∧ s = ⟨.ring3, rip, RFLAGS_IF, rsp, mem, .new⟩
  step := step

/-! ## The discipline -/

/-- What SYSRETQ may load. -/
structure FrameOk (rip rflags : U64) : Prop where
  user : rip.toNat < USER_LIMIT
  interrupts : IF rflags = true
  io : IOPL rflags = 0

/-- No fault at SYSRETQ, and ring 3 runs in the user half, with interrupts, without I/O
    privilege. -/
def Good (s : St) : Prop := s.mode ≠ .gpFault ∧ (s.mode = .ring3 → FrameOk s.rip s.rflags)

/-- The words `rt_sigreturn` takes from the stack are fit to be loaded. -/
def StackOk (s : St) : Prop :=
  FrameOk (wordAt s.mem (s.rsp.toNat + UC_HEADER + 8 * 16)) (wordAt s.mem (s.rsp.toNat + UC_HEADER + 8 * 17))

/-- The handler that `rt_sigaction` installs is a user address. The old action is not
    written over the new one before that is read. -/
def HandlerOk (s : St) (regs : Regs) : Prop :=
  regs.rsi ≠ 0 → (wordAt s.mem regs.rsi.toNat).toNat < USER_LIMIT ∧
    (regs.rdx = 0 ∨ regs.rdx.toNat + 32 ≤ regs.rsi.toNat ∨ regs.rsi.toNat + 8 ≤ regs.rdx.toNat)

/-- No SYSCALL stands in the last two bytes of the user half, `rt_sigreturn` finds a
    sound context, and handlers are user addresses. -/
def Disciplined (s : St) : Ev → Prop
  | .syscall regs call => s.rip.toNat + 2 < USER_LIMIT ∧
      match call with
      | .rtSigreturn => StackOk s
      | .rtSigaction => HandlerOk s regs
      | _ => True
  | _ => True

/-- Every installed handler is a user address. -/
def HandlersOk (signal : SignalState) : Prop := ∀ i, (signal.actions i).handler.toNat < USER_LIMIT

/-- What is carried through a call. -/
structure CtxOk (c : Ctx) : Prop where
  frame : FrameOk c.frame.rcx c.frame.r11
  handlers : HandlersOk c.signal

theorem dequeue_actions {s s' : SignalState} {signum : Nat} (h : s.dequeue = some (signum, s')) :
    s'.actions = s.actions := by
  unfold SignalState.dequeue at h
  split at h
  · cases h
  · cases h
    rfl

variable {ret : U64} {c c' : Ctx} {m : Bytes} {regs : Regs} {s : St}

theorem checkPendingSignals_ctxOk {ret' : U64} (hc : CtxOk c)
    (h : ((checkPendingSignals ret c).run m).val = some (.resumed ret' c')) : CtxOk c' := by
  unfold checkPendingSignals at h
  split at h
  · cases h
    exact hc
  rename_i signal hdeq
  have hsig : HandlersOk signal := fun i => by
    rw [dequeue_actions hdeq]
    exact hc.handlers i
  have hkept : CtxOk { c with signal } := ⟨hc.frame, hsig⟩
  dsimp only at h
  split at h
  · cases h
    exact hkept
  split at h
  · repeat' split at h
    all_goals
      cases h
    all_goals exact hkept
  · obtain ⟨_, hdel, h⟩ := bind_val h
    cases h
    obtain ⟨-, -, hdel⟩ := bind_val hdel
    obtain ⟨u, -, hdel⟩ := bind_val hdel
    cases hdel
    refine ⟨⟨?_, ?_, ?_⟩, fun i => ?_⟩
    · exact hsig _
    · exact hc.frame.interrupts
    · exact hc.frame.io
    · exact hsig i

theorem sysRtSigreturn_ctxOk (hc : CtxOk c)
    (hs : FrameOk (wordAt m (c.userRsp.toNat + UC_HEADER + 8 * 16)) (wordAt m (c.userRsp.toNat + UC_HEADER + 8 * 17)))
    (h : ((sysRtSigreturn c).run m).val = some (ret, c')) : CtxOk c' := by
  obtain ⟨_, hbase, h⟩ := orStop_bind_val h
  obtain ⟨_, huc, h⟩ := orStop_bind_val h
  obtain ⟨sc, hsc, h⟩ := orStop_bind_val h
  obtain rfl := sigcontext_base hbase huc hsc
  simp only [val_load64_bind] at h
  obtain ⟨mask, -, h⟩ := orStop_bind_val h
  cases h
  exact ⟨hs, hc.handlers⟩

/-- Storing the old action elsewhere leaves the new one's handler as it was. -/
theorem storeOldAction_wordAt {old : SigAction} {oldPtr : U64} {a : Nat}
    (h : oldPtr = 0 ∨ oldPtr.toNat + 32 ≤ a ∨ a + 8 ≤ oldPtr.toNat) :
    wordAt ((storeOldAction old oldPtr).run m).mem a = wordAt m a := by
  unfold storeOldAction
  split
  · rfl
  rename_i hne
  split
  · rfl
  have hout := h.resolve_left hne
  change wordAt (storeBytes (storeBytes (storeBytes (storeBytes m _ (wordBytes _)) _ (wordBytes _)) _ (wordBytes _)) _
    (wordBytes _)) a = wordAt m a
  iterate 4 rw [wordAt_storeBytes (by rw [show ∀ w, (wordBytes w).length = 8 from fun _ => rfl]; omega)]

theorem loadAction_handler {actPtr : U64} {action : SigAction}
    (h : ((loadAction actPtr).run m).val = some (.ok (some action))) :
    actPtr ≠ 0 ∧ action.handler = wordAt m actPtr.toNat := by
  unfold loadAction at h
  split at h
  · cases h
  rename_i hne
  split at h
  · cases h
  · cases h
    exact ⟨hne, rfl⟩

theorem sysRtSigaction_ctxOk (hc : CtxOk c) (hh : HandlerOk s regs)
    (h : ((sysRtSigaction regs.rdi regs.rsi regs.rdx regs.r10 c).run s.mem).val = some (ret, c')) : CtxOk c' := by
  unfold sysRtSigaction at h
  dsimp only at h
  split at h
  · cases h
    exact hc
  split at h
  · cases h
    exact hc
  obtain ⟨r, -, h⟩ := bind_val h
  cases r with
  | error e =>
    cases h
    exact hc
  | ok u =>
    obtain ⟨r, hload, h⟩ := bind_val h
    match r, hload, h with
    | .error e, _, h =>
      cases h
      exact hc
    | .ok none, _, h =>
      cases h
      exact hc
    | .ok (some action), hload, h =>
      cases h
      obtain ⟨hne, hhandler⟩ := loadAction_handler hload
      obtain ⟨hlt, hapart⟩ := hh hne
      rw [storeOldAction_wordAt hapart] at hhandler
      refine ⟨hc.frame, fun i => ?_⟩
      by_cases hi : i = regs.rdi.toNat % 256 - 1
      · simp only [SignalState.setAction, hi, Function.update_self, hhandler]
        exact hlt
      · simp only [SignalState.setAction, Function.update_of_ne hi]
        exact hc.handlers i

theorem sysRtSigprocmask_ctxOk {how setPtr oldPtr sigsetsize : U64} (hc : CtxOk c)
    (h : ((sysRtSigprocmask how setPtr oldPtr sigsetsize c).run m).val = some (ret, c')) : CtxOk c' := by
  unfold sysRtSigprocmask at h
  split at h
  · cases h
    exact hc
  obtain ⟨r, -, h⟩ := bind_val h
  cases r with
  | error e =>
    cases h
    exact hc
  | ok u =>
    dsimp only at h
    split at h
    · cases h
      exact hc
    split at h
    · cases h
      exact hc
    · cases h
      exact ⟨hc.frame, hc.handlers⟩

theorem dispatch_ctxOk {call : Call} (hc : CtxOk (entryCtx s regs)) (hg : Disciplined s (.syscall regs call))
    (h : ((dispatch regs (entryCtx s regs) call).run s.mem).val = some (ret, c')) : CtxOk c' := by
  cases call with
  | rtSigaction => exact sysRtSigaction_ctxOk hc hg.2 h
  | rtSigprocmask => exact sysRtSigprocmask_ctxOk hc h
  | rtSigreturn => exact sysRtSigreturn_ctxOk hc hg.2 h
  | other ret =>
    cases h
    exact hc

/-! ## Runs -/

structure Inv (s : St) : Prop where
  good : Good s
  handlers : HandlersOk s.signal

theorem entryCtx_ok (hi : Inv s) (hmode : s.mode = .ring3) (hrip : s.rip.toNat + 2 < USER_LIMIT) :
    CtxOk (entryCtx s regs) := by
  have hf := hi.good.2 hmode
  refine ⟨⟨?_, hf.interrupts, hf.io⟩, hi.handlers⟩
  have hlt : s.rip.toNat + 2 < 2 ^ 64 := lt_trans hrip (by decide)
  change (s.rip + 2).toNat < USER_LIMIT
  rw [BitVec.toNat_add, show (2 : U64).toNat = 2 from rfl, Nat.mod_eq_of_lt hlt]
  exact hrip

theorem sysretq_inv {mem : Bytes} (hc : CtxOk c) : Inv (sysretq s mem c) := by
  have hcan : canonical c.frame.rcx = true := decide_eq_true (.inl hc.frame.user)
  refine ⟨⟨?_, fun _ => ⟨hc.frame.user, ?_, ?_⟩⟩, hc.handlers⟩
  · simp [sysretq, hcan]
  · exact (sysretFlags_IF _).trans hc.frame.interrupts
  · exact (sysretFlags_IOPL _).trans hc.frame.io

theorem queue_actions (signal : SignalState) (signum : Nat) : (signal.queue signum).actions = signal.actions := by
  unfold SignalState.queue
  split <;> rfl

theorem step_inv {s' : St} {e : Ev} (hi : Inv s) (hg : Disciplined s e) (hs : step s e = some s') : Inv s' := by
  cases e with
  | run rip rflags rsp =>
    obtain ⟨⟨hmode, -, hrip, hiopl, hif⟩, hs⟩ := of_guard hs
    cases hs
    have hf := hi.good.2 hmode
    refine ⟨⟨hi.good.1, fun _ => ⟨hrip, ?_, hiopl.trans hf.io⟩⟩, hi.handlers⟩
    rcases hif with hif | hio
    · exact hif.trans hf.interrupts
    · rw [hf.io] at hio
      cases hio
  | store addr bytes =>
    obtain ⟨-, hs⟩ := of_guard hs
    cases hs
    exact ⟨hi.good, hi.handlers⟩
  | kill signum =>
    cases hs
    refine ⟨hi.good, fun i => ?_⟩
    rw [queue_actions]
    exact hi.handlers i
  | syscall regs call =>
    obtain ⟨⟨hmode, -⟩, hs⟩ := of_guard hs
    obtain ⟨r, hr, rfl⟩ := of_map hs
    obtain ⟨⟨ret, _⟩, hd, hr⟩ := bind_val hr
    have hc := dispatch_ctxOk (entryCtx_ok hi hmode hg.1) hg hd
    cases r with
    | terminated code => exact ⟨⟨nofun, nofun⟩, hi.handlers⟩
    | resumed ret c' => exact sysretq_inv (checkPendingSignals_ctxOk hc hr)

/-- The kernel body always runs without interrupts, and with DF as the program left it;
    and in every run that keeps to the discipline, ring 3 is only ever resumed in the user
    half, with interrupts enabled and without I/O privilege, and SYSRETQ never faults. -/
theorem register_discipline (rflags : U64) (s : St) :
    (IF (entryFlags rflags) = false ∧ (DF (entryFlags rflags) = false ↔ DF rflags = false)) ∧
      (machine.Reach Disciplined s → Good s) := by
  refine ⟨⟨entryFlags_IF rflags, by rw [entryFlags_DF]⟩, fun h => ?_⟩
  refine (Machine.Reach.inv (I := Inv) ?_ (fun s e s' hi hg hs => step_inv hi hg hs) h).good
  rintro - ⟨_, -, -, hrip, rfl⟩
  have hflags : IF RFLAGS_IF = true ∧ IOPL RFLAGS_IF = 0 := by decide
  exact ⟨⟨nofun, fun _ => ⟨hrip, hflags.1, hflags.2⟩⟩, fun _ => show SIG_DFL.toNat < USER_LIMIT by decide⟩

instance (rip rflags : U64) : Decidable (FrameOk rip rflags) :=
  decidable_of_iff (rip.toNat < USER_LIMIT ∧ IF rflags = true ∧ IOPL rflags = 0)
    ⟨fun h => ⟨h.1, h.2.1, h.2.2⟩, fun h => ⟨h.user, h.interrupts, h.io⟩⟩

instance (s : St) (e : Ev) : Decidable (Disciplined s e) := by
  unfold Disciplined StackOk HandlerOk
  repeat' split
  all_goals infer_instance

/-- A handler is installed, and entered on the way out of a call; it returns to the restorer. -/
def viaHandler : List Ev :=
  [.store 0x5000 (wordBytes 0x401000 ++ wordBytes 0 ++ wordBytes 0x402000 ++ wordBytes 0),
    .syscall ⟨10, 0x5000, 0, 8, 0, 0⟩ .rtSigaction, .kill 10, .syscall ⟨0, 0, 0, 0, 0, 0⟩ (.other 0),
    .run 0x402000 RFLAGS_IF 0x8e50, .syscall ⟨0, 0, 0, 0, 0, 0⟩ .rtSigreturn]

theorem register_discipline_through_a_handler :
    ∃ s, machine.Reach Disciplined s ∧ (s.mode = .ring3 ∧ s.rip = 0x400004 ∧ s.rsp = 0x9000) ∧ Good s := by
  obtain ⟨s, hr, hs⟩ := Machine.exists_reach (M := machine) (G := Disciplined)
    (P := fun s => s.mode = .ring3 ∧ s.rip = 0x400004 ∧ s.rsp = 0x9000) ⟨.ring3, 0x400000, RFLAGS_IF, 0x9000,
      fun _ => 0, .new⟩
    viaHandler ⟨_, _, _, by decide, rfl⟩ (by decide +kernel)
  exact ⟨s, hr, hs, (register_discipline 0 s).2 hr⟩

/-- The program at the stack pointer `0x1000` writes `rip` and `rflags` where
    `rt_sigreturn` will look for them, and makes the call. -/
def forgedReturn (rip rflags : U64) : List Ev :=
  [.store (0x1000 + UC_HEADER + 8 * 16) (wordBytes rip ++ wordBytes rflags), .syscall ⟨0, 0, 0, 0, 0, 0⟩ .rtSigreturn]

/-- DF reaches the kernel; and a forged context gives ring 3 I/O privilege and takes its
    interrupts away, or makes SYSRETQ fault. -/
theorem forged_context_is_loaded :
    DF (entryFlags 0x602) = true ∧
      (∃ s, machine.Reachable s ∧ s.mode = .ring3 ∧ IOPL s.rflags = 3 ∧ IF s.rflags = false) ∧
      ∃ s, machine.Reachable s ∧ s.mode = .gpFault := by
  refine ⟨rfl, ?_, ?_⟩
  · exact Machine.exists_reachable ⟨.ring3, 0x400000, RFLAGS_IF, 0x1000, fun _ => 0, .new⟩
      (forgedReturn 0x400000 0x3002) ⟨_, _, _, by decide, rfl⟩ (by decide)
  · exact Machine.exists_reachable ⟨.ring3, 0x400000, RFLAGS_IF, 0x1000, fun _ => 0, .new⟩
      (forgedReturn 0x8000_0000_0000 0x202) ⟨_, _, _, by decide, rfl⟩ (by decide)

end Ostoo.User.Registers
