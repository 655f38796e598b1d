/-
  Ostoo.User.Faults — signals delivered from an exception (`deliver_signal_from_interrupt` of
  `libkernel/src/syscall.rs`), against those delivered on the way out of a system call.

  The handler of an exception is given only what the CPU pushed: RIP, RFLAGS and RSP, by which
  IRETQ goes to the signal handler. So RDI, RSI and RDX are not the handler's arguments but
  what the interrupted code had in them, and in the frame, that `rt_sigreturn` restores all
  registers from, the others are zero: a handler that has got its signal number in RDI
  returns to code that has lost it (`delivery_paths_never_agree`). Both paths put the frame into
  the red zone of the interrupted code (`red_zone_spared_iff`).
-/

import Ostoo.User.Frames

namespace Ostoo.User.Faults

open Ostoo.Lib.Traced List

/-! ## Registers -/

/-- The general-purpose registers. -/
inductive Reg
  | rax | rbx | rcx | rdx | rsi | rdi | rbp | rsp | r8 | r9 | r10 | r11 | r12 | r13 | r14 | r15
  deriving DecidableEq, Repr

/-- What a C function gives back as it found it. -/
def Reg.calleeSaved : Reg → Bool
  | .rbx | .rbp | .r12 | .r13 | .r14 | .r15 => true
  | _ => false

structure Cpu where
  gpr : Reg → U64
  rip : U64
  rflags : U64

/-- What of `InterruptStackFrame` is used. -/
structure InterruptFrame where
  instructionPointer : U64
  cpuFlags : U64
  stackPointer : U64
  deriving DecidableEq, Repr

/-- What the CPU pushes. -/
def interruptFrame (u : Cpu) : InterruptFrame := ⟨u.rip, u.rflags, u.gpr .rsp⟩

/-- The end of an exception handler: the other registers are those of the interrupted code. -/
def iretq (u : Cpu) (f : InterruptFrame) : Cpu where
  gpr
    | .rsp => f.stackPointer
    | r => u.gpr r
  rip := f.instructionPointer
  rflags := f.cpuFlags

/-- What the entry stub of a system call saves, `u` being what it returns to. -/
def syscallCtx (u : Cpu) (signal : SignalState) : Ctx where
  frame := ⟨u.rip, u.rflags, u.gpr .rdi, u.gpr .rsi, u.gpr .rdx, u.gpr .r10, u.gpr .r8, u.gpr .r9⟩
  userRsp := u.gpr .rsp
  signal := signal

/-- The end of the stub; the kernel's code has kept the callee-saved registers. -/
def sysretq (u : Cpu) (ret : U64) (c : Ctx) : Cpu where
  gpr
    | .rax => ret
    | .rcx => c.frame.rcx
    | .r11 => c.frame.r11
    | .rdi => c.frame.rdi
    | .rsi => c.frame.rsi
    | .rdx => c.frame.rdx
    | .r10 => c.frame.r10
    | .r8 => c.frame.r8
    | .r9 => c.frame.r9
    | .rsp => c.userRsp
    | r => u.gpr r
  rip := c.frame.rcx
  rflags := Registers.sysretFlags c.frame.r11

/-! ## Delivery from an exception -/

def interruptWords (action : SigAction) (f : InterruptFrame) (faultAddr oldBlocked : U64) : List (Nat × U64) :=
  let sc := PRETCODE_SIZE + UC_HEADER
  [(0, action.restorer), (sc + 8 * 14, 0), (sc + 8 * 15, f.stackPointer), (sc + 8 * 16, f.instructionPointer),
   (sc + 8 * 17, f.cpuFlags), (sc + 8 * 26, faultAddr), (sc + SIGCONTEXT_SIZE, oldBlocked)]

/-- `VirtAddr::new` panics if the address is not canonical. -/
def virtAddr (a : U64) : Option U64 := if Registers.canonical a then some a else none

/-- `true` if the handler is to be entered. -/
def deliverSignalFromInterrupt (signum : Nat) (faultAddr : U64) (f : InterruptFrame) (signal : SignalState) :
    Prog (Bool × InterruptFrame × SignalState) :=
  let action := signal.actions (signum - 1)
  let signal := { signal with pending := signal.pending &&& ~~~(bit signum) }
  if action.handler = SIG_DFL ∨ action.handler = SIG_IGN then
    pure (false, f, signal)
  else do
    let oldBlocked := signal.blocked
    let signal := signal.enter signum action
    let base ← orStop (frameBase f.stackPointer.toNat)
    if base < 0x1000 ∨ USER_LIMIT ≤ base then
      pure (false, f, signal)
    else do
      writeFrame base signum (interruptWords action f faultAddr oldBlocked)
      -- si_addr
      store64 (base + PRETCODE_SIZE + UCONTEXT_SIZE + 16) faultAddr
      let rip ← orStop (virtAddr action.handler)
      pure (true, { f with instructionPointer := rip, stackPointer := BitVec.ofNat 64 base }, signal)

/-! ## What is to hold -/

/-- The handler finds the same: where it runs, its stack, its argument, and with SA_SIGINFO the
    other two. -/
structure SameEntry (info : Bool) (e e' : Cpu) : Prop where
  rip : e.rip = e'.rip
  rsp : e.gpr .rsp = e'.gpr .rsp
  rdi : e.gpr .rdi = e'.gpr .rdi
  rsi : info = true → e.gpr .rsi = e'.gpr .rsi
  rdx : info = true → e.gpr .rdx = e'.gpr .rdx

/-- The words that both paths write. -/
def commonOffsets : List Nat :=
  let sc := PRETCODE_SIZE + UC_HEADER
  [0, sc + 8 * 15, sc + 8 * 16, sc + 8 * 17, sc + SIGCONTEXT_SIZE]

def SameLayout (base : Nat) (m m' : Bytes) : Prop :=
  ∀ off ∈ commonOffsets, wordAt m (base + off) = wordAt m' (base + off)

/-- A handler entered in `e` ends in `h`, about to call `rt_sigreturn`, its frame intact. -/
structure Returned (base : Nat) (m : Bytes) (e h : Cpu) (m' : Bytes) : Prop where
  saved : ∀ r : Reg, r.calleeSaved = true → h.gpr r = e.gpr r
  rsp : (h.gpr .rsp).toNat = base + PRETCODE_SIZE
  intact : ∀ i < FRAME_SIZE, m' (base + i) = m (base + i)

/-- Whatever else the handler did, the interrupted code goes on with the registers of `u`. -/
def Resumes (base : Nat) (m : Bytes) (e u : Cpu) : Prop :=
  ∀ h m' signal, Returned base m e h m' →
    ∃ ret c, ((sysRtSigreturn (syscallCtx h signal)).run m').val = some (ret, c) ∧
      ∀ r, (sysretq h ret c).gpr r = u.gpr r

/-- The two deliveries of a signal that comes while `u` runs. -/
def PathsAgree (m : Bytes) (u : Cpu) (signal : SignalState) (signum : Nat) (faultAddr : U64) : Prop :=
  let action := signal.actions (signum - 1)
  let i := (deliverSignalFromInterrupt signum faultAddr (interruptFrame u) signal).run m
  let s := (deliverSignal signum action (u.gpr .rax) (syscallCtx u signal)).run m
  ∃ base f after c, frameBase (u.gpr .rsp).toNat = some base ∧ i.val = some (true, f, after) ∧ s.val = some c ∧
    SameEntry (action.flags &&& SA_SIGINFO ≠ 0) (iretq u f) (sysretq u (u.gpr .rax) c) ∧ SameLayout base i.mem s.mem ∧
    after.blocked = c.signal.blocked ∧ Resumes base i.mem (iretq u f) u

/-! ## What holds -/

variable {m : Bytes} {u : Cpu} {signal : SignalState} {signum base : Nat} {faultAddr : U64}

/-- The memory a delivery from an exception leaves. -/
def faultMem (m : Bytes) (u : Cpu) (signal : SignalState) (signum base : Nat) (faultAddr : U64) : Bytes :=
  storeBytes ((writeFrame base signum
    (interruptWords (signal.actions (signum - 1)) (interruptFrame u) faultAddr signal.blocked)).run m).mem
    (base + PRETCODE_SIZE + UCONTEXT_SIZE + 16) (wordBytes faultAddr)

variable {f : InterruptFrame} {c : Ctx}

variable (hbase : frameBase (u.gpr .rsp).toNat = some base) {after : SignalState} {action : SigAction}
  {w : Nat × U64} {i : Nat}
include hbase

theorem deliverSignalFromInterrupt_run
    (h : ((deliverSignalFromInterrupt signum faultAddr (interruptFrame u) signal).run m).val = some (true, f, after)) :
    f = ⟨(signal.actions (signum - 1)).handler, u.rflags, BitVec.ofNat 64 base⟩ ∧
      after.blocked = (signal.enter signum (signal.actions (signum - 1))).blocked ∧
      ((deliverSignalFromInterrupt signum faultAddr (interruptFrame u) signal).run m).mem =
        faultMem m u signal signum base faultAddr := by
  have hframe : frameBase (interruptFrame u).stackPointer.toNat = some base := hbase
  unfold deliverSignalFromInterrupt at *
  dsimp only at h ⊢
  split at h
  · cases h
  rename_i huser
  rw [if_neg huser]
  rw [hframe, run_some_bind] at h ⊢
  split at h
  · cases h
  rename_i hin
  rw [if_neg hin]
  rw [bind_mem_of (writeFrame_val m), bind_mem_of rfl]
  obtain ⟨-, -, h⟩ := bind_val h
  obtain ⟨-, -, h⟩ := bind_val h
  obtain ⟨_, hrip, h⟩ := orStop_bind_val h
  rw [hrip]
  cases h
  obtain ⟨-, hrip⟩ := Option.ite_none_right_eq_some.mp hrip
  cases hrip
  exact ⟨rfl, rfl, rfl⟩

omit hbase in
theorem wordAt_faultMem
    (hw : w ∈ interruptWords (signal.actions (signum - 1)) (interruptFrame u) faultAddr signal.blocked) :
    wordAt (faultMem m u signal signum base faultAddr) (base + w.1) = w.2 := by
  obtain ⟨hapart, hin⟩ := words_of_offsets (n := PRETCODE_SIZE + UCONTEXT_SIZE)
    (show (interruptWords (signal.actions (signum - 1)) (interruptFrame u) faultAddr signal.blocked).map _ =
      [0, 160, 168, 176, 184, 256, 304] from rfl) (by decide) (by decide)
  have := hin w hw
  rw [faultMem, wordAt_storeBytes (.inl (by omega))]
  exact writeFrame_wordAt m hapart hw this

omit hbase in
theorem sigcontext_faultMem (hi : i ∈ [0, 1, 2, 8, 9, 12, 13]) :
    sigcontext (faultMem m u signal signum base faultAddr) base i = 0 := by
  have hin : PRETCODE_SIZE + UC_HEADER + 8 * i + 8 ≤ PRETCODE_SIZE + UCONTEXT_SIZE ∧
      ∀ a ∈ [0, 160, 168, 176, 184, 256, 304], PRETCODE_SIZE + UC_HEADER + 8 * i + 8 ≤ a ∨
          a + 8 ≤ PRETCODE_SIZE + UC_HEADER + 8 * i := by
    revert i
    decide
  rw [sigcontext, faultMem, wordAt_storeBytes (.inl (by omega))]
  exact writeFrame_zero m hin.1 fun w hw => hin.2 w.1 (mem_map_of_mem (f := Prod.fst) hw)

/-- What the interrupted code finds in its registers, from what it had and RIP and RFLAGS. -/
def resumed (u : Cpu) : Reg → U64
  | .rax | .rdi | .rsi | .rdx | .r8 | .r9 | .r10 => 0
  | .rcx => u.rip
  | .r11 => u.rflags
  | r => u.gpr r

omit hbase in
theorem sigcontext_congr {m m' : Bytes} (hi : i < 32) (h : ∀ j < FRAME_SIZE, m' (base + j) = m (base + j)) :
    sigcontext m' base i = sigcontext m base i := by
  have hsize : PRETCODE_SIZE + UC_HEADER + 8 * i + 8 ≤ FRAME_SIZE := by
    have : PRETCODE_SIZE + UC_HEADER = 48 ∧ FRAME_SIZE = 440 := ⟨rfl, rfl⟩
    omega
  refine wordAt_congr fun j hj => ?_
  rw [add_assoc]
  exact h _ (by omega)

theorem returned_gpr {h : Cpu} {m' : Bytes}
    (hr : Returned base (faultMem m u signal signum base faultAddr) (iretq u f) h m') (after : SignalState) :
    ∃ ret c, ((sysRtSigreturn (syscallCtx h after)).run m').val = some (ret, c) ∧
      ∀ r, (sysretq h ret c).gpr r = resumed u r := by
  obtain ⟨-, hbelow, -⟩ := frameBase_spec hbase
  have hlt := lt_of_le_of_lt hbelow (u.gpr .rsp).isLt
  refine ⟨_, _, (sysRtSigreturn_reads m' (c := syscallCtx h after) hr.rsp hlt).1, fun r => ?_⟩
  have hctx : ∀ i < 32, sigcontext m' base i = sigcontext (faultMem m u signal signum base faultAddr) base i :=
    fun i hi => sigcontext_congr hi hr.intact
  have hzero : ∀ i ∈ [0, 1, 2, 8, 9, 12, 13], sigcontext m' base i = 0 := by
    intro i hi
    rw [hctx i (by revert i; decide)]
    exact sigcontext_faultMem hi
  have hwords : ∀ w ∈ interruptWords (signal.actions (signum - 1)) (interruptFrame u) faultAddr signal.blocked,
      wordAt (faultMem m u signal signum base faultAddr) (base + w.1) = w.2 := fun w hw => wordAt_faultMem hw
  simp only [interruptWords, forall_mem_cons] at hwords
  obtain ⟨-, -, hrsp, hrip, hrflags, -, -, -⟩ := hwords
  cases r
  case rax | rdi | rsi | rdx | r8 | r9 | r10 => exact hzero _ (by decide)
  case rcx => exact (hctx 16 (by decide)).trans hrip
  case r11 => exact (hctx 17 (by decide)).trans hrflags
  case rsp => exact (hctx 15 (by decide)).trans hrsp
  all_goals exact hr.saved _ rfl

theorem resumes_iff : Resumes base (faultMem m u signal signum base faultAddr) (iretq u f) u ↔
      ∀ r, u.gpr r = resumed u r := by
  constructor
  · intro hres r
    -- the handler that returns at once
    have hlt : base + PRETCODE_SIZE < 2 ^ 64 := by
      obtain ⟨-, _, -⟩ := frameBase_spec hbase
      have : PRETCODE_SIZE ≤ FRAME_SIZE := by decide
      omega
    have hret : Returned base (faultMem m u signal signum base faultAddr) (iretq u f)
        (iretq u { f with stackPointer := BitVec.ofNat 64 (base + PRETCODE_SIZE) })
            (faultMem m u signal signum base faultAddr) := by
      refine ⟨fun r hr => ?_, ?_, fun _ _ => rfl⟩
      · cases r
        case rsp => cases hr
        all_goals rfl
      · exact (BitVec.toNat_ofNat _ _).trans (Nat.mod_eq_of_lt hlt)
    obtain ⟨ret, c, hval, hgpr⟩ := hres _ _ signal hret
    obtain ⟨_, _, hval', hgpr'⟩ := returned_gpr hbase hret signal
    cases hval.symm.trans hval'
    rw [← hgpr r, hgpr' r]
  · intro hu h m' after hret
    obtain ⟨ret, c, hval, hgpr⟩ := returned_gpr hbase hret after
    exact ⟨ret, c, hval, fun r => (hgpr r).trans (hu r).symm⟩

theorem sysretq_deliverSignal {ret : U64}
    (h : ((deliverSignal signum action ret (syscallCtx u signal)).run m).val = some c) :
    (sysretq u ret c).rip = action.handler ∧ (sysretq u ret c).gpr .rsp = BitVec.ofNat 64 base ∧
      (sysretq u ret c).gpr .rdi = BitVec.ofNat 64 signum ∧
      (action.flags &&& SA_SIGINFO ≠ 0 → (sysretq u ret c).gpr .rsi = BitVec.ofNat 64
        (base + PRETCODE_SIZE + UCONTEXT_SIZE) ∧ (sysretq u ret c).gpr .rdx = BitVec.ofNat 64 (base + PRETCODE_SIZE)) ∧
      c.signal = signal.enter signum action := by
  obtain ⟨_, hbase', h⟩ := orStop_bind_val h
  cases hbase.symm.trans hbase'
  obtain ⟨-, -, h⟩ := bind_val h
  cases h
  exact ⟨rfl, rfl, rfl, fun hinfo => ⟨if_pos hinfo, if_pos hinfo⟩, rfl⟩

/-- The handler of an exception has its arguments only if they were in the registers before. -/
theorem sameEntry_iff
    (h : ((deliverSignal signum (signal.actions (signum - 1)) (u.gpr .rax) (syscallCtx u signal)).run m).val = some c) :
    SameEntry ((signal.actions (signum - 1)).flags &&& SA_SIGINFO ≠ 0)
        (iretq u ⟨(signal.actions (signum - 1)).handler, u.rflags, BitVec.ofNat 64 base⟩) (sysretq u (u.gpr .rax) c) ↔
      u.gpr .rdi = BitVec.ofNat 64 signum ∧
        ((signal.actions (signum - 1)).flags &&& SA_SIGINFO ≠ 0 →
          u.gpr .rsi = BitVec.ofNat 64 (base + PRETCODE_SIZE + UCONTEXT_SIZE) ∧
            u.gpr .rdx = BitVec.ofNat 64 (base + PRETCODE_SIZE)) := by
  obtain ⟨hrip, hrsp, hrdi, hinfo, -⟩ := sysretq_deliverSignal hbase h
  constructor
  · intro hs
    refine ⟨hs.rdi.trans hrdi, fun hi => ⟨?_, ?_⟩⟩
    · exact (hs.rsi (decide_eq_true hi)).trans (hinfo hi).1
    · exact (hs.rdx (decide_eq_true hi)).trans (hinfo hi).2
  · rintro ⟨hu, hargs⟩
    refine ⟨hrip.symm, hrsp.symm, hu.trans hrdi.symm, fun hi => ?_, fun hi => ?_⟩
    · have hi := of_decide_eq_true hi
      exact (hargs hi).1.trans (hinfo hi).1.symm
    · have hi := of_decide_eq_true hi
      exact (hargs hi).2.trans (hinfo hi).2.symm

/-- What both paths write. -/
def commonWords (action : SigAction) (u : Cpu) (signal : SignalState) : List (Nat × U64) :=
  let sc := PRETCODE_SIZE + UC_HEADER
  [(0, action.restorer), (sc + 8 * 15, u.gpr .rsp), (sc + 8 * 16, u.rip), (sc + 8 * 17, u.rflags),
    (sc + SIGCONTEXT_SIZE, signal.blocked)]

omit hbase in
theorem mem_of_commonWords (faultAddr : U64) (hw : w ∈ commonWords action u signal) :
    w ∈ interruptWords action (interruptFrame u) faultAddr signal.blocked ∧
      w ∈ frameWords action (syscallCtx u signal).frame (u.gpr .rsp) (u.gpr .rax) signal.blocked := by
  simp only [commonWords, mem_cons, not_mem_nil, or_false] at hw
  rcases hw with rfl | rfl | rfl | rfl | rfl <;> simp [interruptWords, frameWords, interruptFrame, syscallCtx]

/-- The layout and the mask agree. -/
theorem delivery_paths_share
    (hi : ((deliverSignalFromInterrupt signum faultAddr (interruptFrame u) signal).run m).val = some (true, f, after))
    (hs : ((deliverSignal signum (signal.actions (signum - 1)) (u.gpr .rax) (syscallCtx u signal)).run m).val =
      some c) :
    SameLayout base ((deliverSignalFromInterrupt signum faultAddr (interruptFrame u) signal).run m).mem
        ((deliverSignal signum (signal.actions (signum - 1)) (u.gpr .rax) (syscallCtx u signal)).run m).mem ∧
      after.blocked = c.signal.blocked := by
  obtain ⟨-, hblocked, hmem⟩ := deliverSignalFromInterrupt_run hbase hi
  have hsmem :=
    (Frames.deliverSignal_run signum (signal.actions (signum - 1)) (u.gpr .rax) (c := syscallCtx u signal) m hbase).1
  refine ⟨fun off hoff => ?_, ?_⟩
  · obtain ⟨w, hw, rfl⟩ : ∃ w ∈ commonWords (signal.actions (signum - 1)) u signal, w.1 = off := mem_map.mp hoff
    obtain ⟨hiw, hsw⟩ := mem_of_commonWords faultAddr hw
    obtain ⟨hapart, hin⟩ := frameWords_offsets (signal.actions (signum - 1)) (syscallCtx u signal).frame (u.gpr .rsp)
      (u.gpr .rax)
      signal.blocked
    rw [hmem, hsmem, wordAt_faultMem hiw]
    exact (writeFrame_wordAt m hapart hsw (hin w hsw)).symm
  · rw [hblocked, (sysretq_deliverSignal hbase hs).2.2.2.2]

omit hbase

/-- A handler that finds its signal number in RDI returns to a program that finds zero there. -/
theorem not_pathsAgree (hsig : 1 ≤ signum ∧ signum ≤ NUM_SIGNALS) : ¬ PathsAgree m u signal signum faultAddr := by
  rintro ⟨_, _, after, c, hbase, hi, hs, hentry, -, -, hres⟩
  obtain ⟨rfl, -, hmem⟩ := deliverSignalFromInterrupt_run hbase hi
  rw [hmem] at hres
  have hin := ((sameEntry_iff hbase hs).mp hentry).1
  have hout : u.gpr .rdi = 0 := (resumes_iff hbase).mp hres .rdi
  have hzero := congrArg BitVec.toNat (hin.symm.trans hout)
  rw [BitVec.toNat_ofNat, Nat.mod_eq_of_lt (Nat.lt_of_le_of_lt hsig.2 (by decide))] at hzero
  have : (0 : U64).toNat = 0 := rfl
  omega

/-- A program with a handler for SIGSEGV faults. -/
def faulting : Cpu where
  gpr
    | .rax => 5
    | .rdi => 0x1111
    | .rsp => 0x7000
    | _ => 0
  rip := 0x400123
  rflags := 0x202

def segvHandled : SignalState := SignalState.new.setAction 10 ⟨0x401000, SA_SIGINFO, 0x402000, 0⟩

/-- Its handler finds 0x1111 for the signal number, and returns to code whose RAX is zero. -/
theorem fault_handler_without_arguments :
    (∃ f after, ((deliverSignalFromInterrupt 11 0 (interruptFrame faulting) segvHandled).run fun _ => 0).val =
      some (true, f, after) ∧
        (iretq faulting f).rip = 0x401000 ∧ (iretq faulting f).gpr .rdi = 0x1111) ∧
      resumed faulting .rax = 0 ∧ faulting.gpr .rax = 5 ∧ ¬ PathsAgree (fun _ => 0) faulting segvHandled 11 0 :=
  ⟨⟨_, _, rfl, rfl, rfl⟩, rfl, rfl, not_pathsAgree (by decide)⟩

/-- For no context and no action do the two deliveries agree. The frame's layout and the mask are
    the same; but the handler has its arguments only if the interrupted code had them in its
    registers, and that code gets its registers back only if it had nothing in most of them. -/
theorem delivery_paths_never_agree (m : Bytes) (u : Cpu) (signal : SignalState) (faultAddr : U64)
    (hsig : 1 ≤ signum ∧ signum ≤ NUM_SIGNALS) :
    ¬ PathsAgree m u signal signum faultAddr ∧
      ∀ base f after c, frameBase (u.gpr .rsp).toNat = some base →
        ((deliverSignalFromInterrupt signum faultAddr (interruptFrame u) signal).run m).val = some (true, f, after) →
        ((deliverSignal signum (signal.actions (signum - 1)) (u.gpr .rax) (syscallCtx u signal)).run m).val = some c →
        SameLayout base ((deliverSignalFromInterrupt signum faultAddr (interruptFrame u) signal).run m).mem
            ((deliverSignal signum (signal.actions (signum - 1)) (u.gpr .rax) (syscallCtx u signal)).run m).mem ∧
          after.blocked = c.signal.blocked ∧
          (SameEntry ((signal.actions (signum - 1)).flags &&& SA_SIGINFO ≠ 0) (iretq u f) (sysretq u (u.gpr .rax) c) ↔
            u.gpr .rdi = BitVec.ofNat 64 signum ∧
              ((signal.actions (signum - 1)).flags &&& SA_SIGINFO ≠ 0 →
                u.gpr .rsi = BitVec.ofNat 64 (base + PRETCODE_SIZE + UCONTEXT_SIZE) ∧
                  u.gpr .rdx = BitVec.ofNat 64 (base + PRETCODE_SIZE))) ∧
          (Resumes base ((deliverSignalFromInterrupt signum faultAddr (interruptFrame u) signal).run m).mem
            (iretq u f) u ↔ ∀ r, u.gpr r = resumed u r) := by
  refine ⟨not_pathsAgree hsig, fun base f after c hbase hi hs => ?_⟩
  obtain ⟨hlayout, hmask⟩ := delivery_paths_share hbase hi hs
  obtain ⟨rfl, -, hmem⟩ := deliverSignalFromInterrupt_run hbase hi
  refine ⟨hlayout, hmask, sameEntry_iff hbase hs, ?_⟩
  rw [hmem]
  exact resumes_iff hbase

theorem delivery_paths_differ_on_a_segv :
    (1 ≤ 11 ∧ 11 ≤ NUM_SIGNALS) ∧ ¬ PathsAgree (fun _ => 0) faulting segvHandled 11 0 :=
  ⟨by decide, (delivery_paths_never_agree (fun _ => 0) faulting segvHandled 0 (by decide)).1⟩

/-! ## The red zone -/

/-- No byte at or above `rsp - 128` is written. -/
def SparesRedZone (rsp : Nat) (trace : List Access) : Prop :=
  ∀ a ∈ trace, a.isStore = true → ∀ i < a.len, a.addr + i + 128 < rsp

/-- The frame begins with its zeroes, and ends less than 16 bytes below RSP. -/
theorem writeFrame_redZone {α : Type} {rsp : Nat} {words : List (Nat × U64)} {k : Unit → Prog α}
    (h : frameBase rsp = some base) : ¬ SparesRedZone rsp ((writeFrame base signum words >>= k).run m).trace := by
  intro hs
  have hmem : ⟨true, base, FRAME_SIZE⟩ ∈ ((writeFrame base signum words >>= k).run m).trace := by
    rw [run_bind, writeFrame_val]
    simp [writeFrame, run_bind]
  have hlast : base + (FRAME_SIZE - 1) + 128 < rsp := hs _ hmem rfl _ (Nat.sub_lt (by decide) Nat.one_pos)
  have := frameBase_spec h
  omega

/-- Neither path leaves room for the red zone: it is spared only where no frame is written. -/
theorem red_zone_spared_iff (m : Bytes) (signum : Nat) (action : SigAction) (ret faultAddr : U64) (c : Ctx)
    (f : InterruptFrame) (signal : SignalState) :
    (SparesRedZone c.userRsp.toNat ((deliverSignal signum action ret c).run m).trace ↔
      frameBase c.userRsp.toNat = none) ∧
      (SparesRedZone f.stackPointer.toNat ((deliverSignalFromInterrupt signum faultAddr f signal).run m).trace ↔
        ((signal.actions (signum - 1)).handler = SIG_DFL ∨ (signal.actions (signum - 1)).handler = SIG_IGN) ∨
          ∀ base, frameBase f.stackPointer.toNat = some base → base < 0x1000 ∨ USER_LIMIT ≤ base) := by
  constructor
  · unfold deliverSignal
    cases h : frameBase c.userRsp.toNat with
    | none => exact ⟨fun _ => rfl, nofun⟩
    | some base =>
      rw [run_some_bind]
      exact ⟨fun hs => absurd hs (writeFrame_redZone h), nofun⟩
  · unfold deliverSignalFromInterrupt
    dsimp only
    split
    · rename_i hd
      exact ⟨fun _ => .inl hd, nofun⟩
    rename_i hd
    rw [or_iff_right hd]
    cases h : frameBase f.stackPointer.toNat with
    | none => exact ⟨fun _ => nofun, nofun⟩
    | some base =>
      rw [run_some_bind]
      split
      · rename_i hout
        exact ⟨fun _ b hb => Option.some.inj hb ▸ hout, nofun⟩
      · rename_i hin
        exact ⟨fun hs => absurd hs (writeFrame_redZone h), fun hall => absurd (hall base rfl) hin⟩

/-- A byte 16 below RSP is zero once the frame is there. -/
theorem red_zone_zeroed :
    ((deliverSignalFromInterrupt 11 0 (interruptFrame faulting) segvHandled).run fun _ => 1).mem (0x7000 - 16) = 0 ∧
    ((deliverSignal 11 (segvHandled.actions 10) 5 (syscallCtx faulting segvHandled)).run fun _ => 1).mem
      (0x7000 - 16) = 0 ∧
    faulting.gpr .rsp = 0x7000 := by
  decide

end Ostoo.User.Faults
