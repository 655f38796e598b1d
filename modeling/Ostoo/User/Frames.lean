/-
  Ostoo.User.Frames — signal frames from delivery to `rt_sigreturn`, over runs of nested
  deliveries.

  `deliver_signal` and `rt_sigreturn` compute the frame's offsets each for itself. A run
  keeps the list of the deliveries that have not returned, innermost first, each with the
  context it interrupted. If every handler leaves the frames alone, keeps its stack out of
  them and returns with the stack pointer right above its return address, then what is
  restored is the context of its delivery (`signal_frames_round_trip`).

  Memory is one array of bytes: what a frame above the user half would be written over is
  no matter here (see `Ostoo.User.Pointers`), since ring 3 could not return from it.
-/

import Ostoo.User.Registers

namespace Ostoo.User

open Ostoo.Lib Ostoo.Lib.Traced List BitVec

/-! ## Where a frame is -/

theorem frameBase_spec {rsp base : Nat} (h : frameBase rsp = some base) :
    base % 16 = 8 ∧ base + FRAME_SIZE ≤ rsp ∧ rsp ≤ base + FRAME_SIZE + 15 := by
  obtain ⟨_, hsp, h⟩ := of_bind h
  obtain ⟨_, hbelow, h⟩ := of_bind h
  simp only [subU64, Option.ite_none_right_eq_some, Option.some.injEq] at hsp hbelow h
  omega

/-! ## What is written -/

/-- Words that do not overlap. -/
def WordsApart : List (Nat × U64) → Prop := List.Pairwise fun v w => v.1 + 8 ≤ w.1 ∨ w.1 + 8 ≤ v.1

theorem length_wordBytes (w : U64) : (wordBytes w).length = 8 := rfl

theorem storeWords_val (base : Nat) (words : List (Nat × U64)) (m : Bytes) :
    ((storeWords base words).run m).val = some () := by
  induction words generalizing m with
  | nil => rfl
  | cons w words ih => exact ih _

theorem storeWords_cons_mem (base : Nat) (w : Nat × U64) (words : List (Nat × U64)) (m : Bytes) :
    ((storeWords base (w :: words)).run m).mem =
      ((storeWords base words).run (storeBytes m (base + w.1) (wordBytes w.2))).mem := rfl

theorem storeWords_outside {base a : Nat} {words : List (Nat × U64)} (m : Bytes)
    (h : ∀ w ∈ words, a < base + w.1 ∨ base + w.1 + 8 ≤ a) : ((storeWords base words).run m).mem a = m a := by
  induction words generalizing m with
  | nil => rfl
  | cons w words ih =>
    rw [storeWords_cons_mem, ih _ fun v hv => h v (.tail _ hv)]
    refine storeBytes_of_outside ?_
    rw [length_wordBytes]
    exact h w mem_cons_self

theorem wordAt_congr {m m' : Bytes} {a : Nat} (h : ∀ i < 8, m' (a + i) = m (a + i)) : wordAt m' a = wordAt m a := by
  have h0 := h 0 (by decide)
  rw [add_zero] at h0
  simp only [wordAt, h0, h 1 (by decide), h 2 (by decide), h 3 (by decide), h 4 (by decide), h 5 (by decide),
    h 6 (by decide), h 7 (by decide)]

theorem wordAt_zero (a : Nat) : wordAt (fun _ => 0) a = 0 := by
  simp only [wordAt]
  decide

theorem storeWords_wordAt {base : Nat} {words : List (Nat × U64)} (m : Bytes) (hapart : WordsApart words) :
    ∀ w ∈ words, wordAt ((storeWords base words).run m).mem (base + w.1) = w.2 := by
  induction words generalizing m with
  | nil => exact nofun
  | cons v words ih =>
    obtain ⟨hhead, htail⟩ := pairwise_cons.mp hapart
    intro w hw
    rw [storeWords_cons_mem]
    rcases mem_cons.mp hw with rfl | hw
    · -- the words after this one leave it alone
      refine (wordAt_congr fun i hi => storeWords_outside _ fun u hu => ?_).trans (wordAt_wordBytes m (base + w.1) w.2)
      have := hhead u hu
      omega
    · exact ih _ htail w hw

theorem words_of_offsets {words : List (Nat × U64)} {offs : List Nat} {n : Nat} (hoff : words.map Prod.fst = offs)
    (hpair : offs.Pairwise fun a b => a + 8 ≤ b ∨ b + 8 ≤ a) (hin : ∀ a ∈ offs, a + 8 ≤ n) :
    WordsApart words ∧ ∀ w ∈ words, w.1 + 8 ≤ n := by
  subst hoff
  exact ⟨pairwise_map.mp hpair, fun w hw => hin _ (mem_map_of_mem hw)⟩

theorem frameWords_offsets (action : SigAction) (saved : SavedFrame) (userRsp ret oldBlocked : U64) :
    WordsApart (frameWords action saved userRsp ret oldBlocked) ∧
      ∀ w ∈ frameWords action saved userRsp ret oldBlocked, w.1 + 8 ≤ PRETCODE_SIZE + UCONTEXT_SIZE :=
  words_of_offsets (show _ = [0, 48, 56, 64, 72, 112, 120, 144, 152, 160, 168, 176, 184, 304] from rfl)
    (by decide) (by decide)

section

variable {base signum : Nat} {words : List (Nat × U64)} (m : Bytes)

theorem writeFrame_mem : ((writeFrame base signum words).run m).mem =
    storeBytes ((storeWords base words).run (storeBytes m base (replicate FRAME_SIZE 0))).mem
      (base + PRETCODE_SIZE + UCONTEXT_SIZE) (signoBytes signum) := by
  unfold writeFrame
  rw [bind_mem_of rfl, bind_mem_of (storeWords_val _ _ _)]
  rfl

theorem writeFrame_val : ((writeFrame base signum words).run m).val = some () := by
  unfold writeFrame
  rw [bind_val_of rfl, bind_val_of (storeWords_val _ _ _)]
  rfl

theorem writeFrame_wordAt (hapart : WordsApart words) {w : Nat × U64} (hw : w ∈ words)
    (hin : w.1 + 8 ≤ PRETCODE_SIZE + UCONTEXT_SIZE) :
    wordAt ((writeFrame base signum words).run m).mem (base + w.1) = w.2 := by
  rw [writeFrame_mem, wordAt_storeBytes (.inl (by omega))]
  exact storeWords_wordAt _ hapart w hw

/-- Between its words the frame is zero. -/
theorem writeFrame_zero {off : Nat} (hin : off + 8 ≤ PRETCODE_SIZE + UCONTEXT_SIZE)
    (hfree : ∀ w ∈ words, off + 8 ≤ w.1 ∨ w.1 + 8 ≤ off) :
    wordAt ((writeFrame base signum words).run m).mem (base + off) = 0 := by
  have hsize : FRAME_SIZE = 440 ∧ PRETCODE_SIZE + UCONTEXT_SIZE = 312 := ⟨rfl, rfl⟩
  rw [writeFrame_mem, wordAt_storeBytes (.inl (by omega))]
  refine (wordAt_congr fun i hi => ?_).trans (wordAt_zero (base + off))
  rw [storeWords_outside _ fun w hw => ?_]
  · rw [storeBytes, if_pos (by omega), getElem?_replicate, if_pos (by omega)]
    rfl
  · have := hfree w hw
    omega

theorem writeFrame_outside (hin : ∀ w ∈ words, w.1 + 8 ≤ PRETCODE_SIZE + UCONTEXT_SIZE) {a : Nat}
    (ha : a < base ∨ base + FRAME_SIZE ≤ a) : ((writeFrame base signum words).run m).mem a = m a := by
  have hsize : FRAME_SIZE = 440 ∧ PRETCODE_SIZE + UCONTEXT_SIZE = 312 := ⟨rfl, rfl⟩
  have hsigno : (signoBytes signum).length = 4 := rfl
  rw [writeFrame_mem, storeBytes_of_outside (by omega), storeWords_outside _ fun w hw => ?_, storeBytes_of_outside]
  · rw [length_replicate]
    exact ha
  · have := hin w hw
    omega

end

/-! ## What is read back -/

/-- Word `i` of the sigcontext of the frame at `base`. -/
def sigcontext (m : Bytes) (base i : Nat) : U64 := wordAt m (base + (PRETCODE_SIZE + UC_HEADER + 8 * i))

variable {c : Ctx} {b a : U64}

theorem sysRtSigreturn_reads (m : Bytes) {base : Nat} (hrsp : c.userRsp.toNat = base + PRETCODE_SIZE)
    (hlt : base + FRAME_SIZE < 2 ^ 64) :
    ((sysRtSigreturn c).run m).val = some (sigcontext m base 13,
        { frame := ⟨sigcontext m base 16, sigcontext m base 17, sigcontext m base 8, sigcontext m base 9,
          sigcontext m base 12,
            sigcontext m base 2, sigcontext m base 0, sigcontext m base 1⟩
          userRsp := sigcontext m base 15
          signal := { c.signal with
            blocked := wordAt m (base + (PRETCODE_SIZE + UC_HEADER + SIGCONTEXT_SIZE)) &&& ~~~unblockable } }) ∧
      ((sysRtSigreturn c).run m).mem = m := by
  have hsizes : FRAME_SIZE = 440 ∧ PRETCODE_SIZE = 8 ∧ UC_HEADER = 40 ∧ SIGCONTEXT_SIZE = 256 := ⟨rfl, rfl, rfl, rfl⟩
  have hbase : subU64 c.userRsp.toNat PRETCODE_SIZE = some base := by
    rw [subU64, if_pos (by omega), hrsp, Nat.add_sub_cancel]
  have huc : Memory.addU64 base PRETCODE_SIZE = some (base + PRETCODE_SIZE) := Memory.addU64_of_lt (by omega)
  have hsc : Memory.addU64 (base + PRETCODE_SIZE) UC_HEADER = some (base + PRETCODE_SIZE + UC_HEADER) :=
    Memory.addU64_of_lt (by omega)
  have hmask : Memory.addU64 (base + PRETCODE_SIZE + UC_HEADER) SIGCONTEXT_SIZE =
      some (base + PRETCODE_SIZE + UC_HEADER + SIGCONTEXT_SIZE) := Memory.addU64_of_lt (by omega)
  unfold sysRtSigreturn
  rw [hbase, run_some_bind, huc, run_some_bind, hsc, run_some_bind]
  simp only [hmask]
  refine ⟨?_, rfl⟩
  rfl

/-! ## The mask -/

/-- SIGKILL and SIGSTOP are not blocked. -/
def Unblocked (blocked : U64) : Prop := blocked &&& unblockable = 0

theorem unblocked_iff : Unblocked b ↔ ∀ i, unblockable.getLsbD i = true → b.getLsbD i = false := by
  unfold Unblocked
  constructor
  · intro h i hi
    have hbit := congrArg (getLsbD · i) h
    simpa [getLsbD_and, hi] using hbit
  · intro h
    refine eq_of_getLsbD_eq fun i _ => ?_
    rw [getLsbD_and]
    cases hi : unblockable.getLsbD i with
    | false => simp
    | true => simp [h i hi]

theorem unblocked_and_not (b : U64) : Unblocked (b &&& ~~~unblockable) := by
  refine unblocked_iff.mpr fun i hi => ?_
  rw [getLsbD_and, getLsbD_not, hi]
  simp

theorem unblocked_or (ha : Unblocked a) (hb : Unblocked b) : Unblocked (a ||| b) := by
  refine unblocked_iff.mpr fun i hi => ?_
  rw [getLsbD_or, unblocked_iff.mp ha i hi, unblocked_iff.mp hb i hi]
  rfl

theorem unblocked_and (ha : Unblocked a) (b : U64) : Unblocked (a &&& b) := by
  refine unblocked_iff.mpr fun i hi => ?_
  rw [getLsbD_and, unblocked_iff.mp ha i hi]
  rfl

theorem unblocked_new : Unblocked SignalState.new.blocked := by
  unfold Unblocked
  decide

theorem Unblocked.and_not (h : Unblocked b) : b &&& ~~~unblockable = b := by
  refine eq_of_getLsbD_eq fun i hi => ?_
  rw [getLsbD_and, getLsbD_not]
  cases hu : unblockable.getLsbD i with
  | false => simp [hi]
  | true => simp [unblocked_iff.mp h i hu]

theorem unblocked_maskFor {blocked : U64} (h : Unblocked blocked) (how set : U64) :
    Unblocked (maskFor how set blocked) := by
  unfold maskFor
  split
  · exact unblocked_or h (unblocked_and_not set)
  split
  · exact unblocked_and h _
  · split
    · exact unblocked_and_not set
    · exact h

/-! ## Deliveries that have not returned -/

namespace Frames

/-- One delivery: its frame, its action, and what `deliver_signal` found. -/
structure Delivered where
  base : Nat
  action : SigAction
  ret : U64
  ctx : Ctx

/-- The words of its frame. -/
def Delivered.words (d : Delivered) : List (Nat × U64) :=
  frameWords d.action d.ctx.frame d.ctx.userRsp d.ret d.ctx.signal.blocked

/-- The delivery that `check_pending_signals` makes, if it makes one. -/
def delivered (ret : U64) (c : Ctx) : Option Delivered :=
  match c.signal.dequeue with
  | none => none
  | some (signum, signal) =>
    let action := signal.actions (signum - 1)
    if action.handler = SIG_IGN ∨ action.handler = SIG_DFL then none
    else (frameBase c.userRsp.toNat).map fun base => ⟨base, action, ret, { c with signal }⟩

structure St where
  mem : Bytes
  signal : SignalState
  frames : List Delivered

/-- A program with its signals. -/
inductive Ev
  /-- The program stores to its memory, or the kernel does it in a call. -/
  | store (addr : Nat) (bytes : List UInt8)
  | kill (signum : Nat)
  /-- A call; `rip` is where it returns to. -/
  | syscall (rip rflags rsp : U64) (regs : Registers.Regs) (call : Registers.Call)

/-- What the entry stub saves. -/
def entryCtx (s : St) (rip rflags rsp : U64) (regs : Registers.Regs) : Ctx where
  frame := ⟨rip, rflags, regs.rdi, regs.rsi, regs.rdx, regs.r10, regs.r8, regs.r9⟩
  userRsp := rsp
  signal := s.signal

/-- The deliveries left after a call. -/
def returned : Registers.Call → List Delivered → List Delivered
  | .rtSigreturn, frames => frames.tail
  | _, frames => frames

def step (s : St) : Ev → Option St
  | .store addr bytes => some { s with mem := storeBytes s.mem addr bytes }
  | .kill signum => some { s with signal := s.signal.queue signum }
  | .syscall rip rflags rsp regs call =>
    let d := (Registers.dispatch regs (entryCtx s rip rflags rsp regs) call).run s.mem
    match d.val with
    | none => none
    | some (ret, c) =>
      let r := (checkPendingSignals ret c).run d.mem
      match r.val with
      | some (.resumed _ c') => some ⟨r.mem, c'.signal, (delivered ret c).toList ++ returned call s.frames⟩
      | _ => none

def machine : Machine St Ev where
  start := fun s => ∃ mem, s = ⟨mem, .new, []⟩
  step := step

/-- The bytes of the frames are as they were. -/
def Intact (frames : List Delivered) (m m' : Bytes) : Prop :=
  ∀ d ∈ frames, ∀ i < FRAME_SIZE, m' (d.base + i) = m (d.base + i)

/-- The stack at `rsp`, as far down as one more frame can reach, is outside the frame. -/
def Clear (rsp : U64) (d : Delivered) : Prop := rsp.toNat ≤ d.base ∨ d.base + FRAME_SIZE + (FRAME_SIZE + 15) ≤ rsp.toNat

/-- Handlers leave the frames intact, also in the calls they make, have their stack outside
    them, and return, innermost first, with the stack pointer right above the return address. -/
def Proper (s : St) : Ev → Prop
  | .store addr bytes => Intact s.frames s.mem (storeBytes s.mem addr bytes)
  | .kill _ => True
  | .syscall rip rflags rsp regs call =>
    match call with
    | .rtSigreturn => match s.frames with
      | [] => False
      | d :: _ => rsp.toNat = d.base + PRETCODE_SIZE
    | call => (∀ d ∈ s.frames, Clear rsp d) ∧
        Intact s.frames s.mem ((Registers.dispatch regs (entryCtx s rip rflags rsp regs) call).run s.mem).mem

deriving instance Decidable for Clear

/-! ## Delivery -/

theorem dequeue_blocked {s s' : SignalState} {signum : Nat} (h : s.dequeue = some (signum, s')) :
    s'.blocked = s.blocked := by
  unfold SignalState.dequeue at h
  split at h
  · cases h
  · cases h
    rfl

theorem deliverSignal_run (signum : Nat) (action : SigAction) (ret : U64) (m : Bytes) {base : Nat}
    (h : frameBase c.userRsp.toNat = some base) :
    ((deliverSignal signum action ret c).run m).mem =
        ((writeFrame base signum (frameWords action c.frame c.userRsp ret c.signal.blocked)).run m).mem ∧
      ∃ c', ((deliverSignal signum action ret c).run m).val = some c' ∧ c'.signal = c.signal.enter signum action := by
  unfold deliverSignal
  rw [h, run_some_bind]
  refine ⟨bind_mem_of (writeFrame_val m), ?_⟩
  rw [bind_val_of (writeFrame_val m)]
  exact ⟨_, rfl, rfl⟩

/-- What a delivery has to do with the context `c` it interrupts. -/
structure Delivers (d : Delivered) (ret : U64) (c : Ctx) : Prop where
  base : frameBase c.userRsp.toNat = some d.base
  ret : d.ret = ret
  frame : d.ctx.frame = c.frame
  userRsp : d.ctx.userRsp = c.userRsp
  blocked : d.ctx.signal.blocked = c.signal.blocked

variable {c' : Ctx} {ret sigsetsize : U64}

/-- `check_pending_signals` leaves memory and mask alone, or writes the frame of a delivery. -/
theorem checkPendingSignals_cases {ret' : U64} {m : Bytes}
    (h : ((checkPendingSignals ret c).run m).val = some (.resumed ret' c')) :
    delivered ret c = none ∧ ((checkPendingSignals ret c).run m).mem = m ∧ c'.signal.blocked = c.signal.blocked ∨
      ∃ d signum, delivered ret c = some d ∧ Delivers d ret c ∧ Unblocked c'.signal.blocked ∧
        ((checkPendingSignals ret c).run m).mem = ((writeFrame d.base signum d.words).run m).mem := by
  unfold checkPendingSignals delivered at *
  cases hdeq : c.signal.dequeue with
  | none =>
    simp only [hdeq] at h
    cases h
    exact .inl ⟨rfl, rfl, rfl⟩
  | some r =>
    obtain ⟨signum, signal⟩ := r
    have hblocked := dequeue_blocked hdeq
    simp only [hdeq] at h ⊢
    by_cases hign : (signal.actions (signum - 1)).handler = SIG_IGN
    · rw [if_pos hign] at h ⊢
      cases h
      exact .inl ⟨if_pos (.inl hign), rfl, hblocked⟩
    rw [if_neg hign] at h ⊢
    by_cases hdfl : (signal.actions (signum - 1)).handler = SIG_DFL
    · -- by default a signal is ignored, or ends the process
      rw [if_pos hdfl] at h ⊢
      rw [if_pos (.inr hdfl)]
      refine .inl ⟨rfl, ?_⟩
      repeat' split at h
      all_goals cases h
      · rename_i hignore
        rw [if_pos hignore]
        exact ⟨rfl, hblocked⟩
      · rename_i hignore hterm
        rw [if_neg hignore, if_neg hterm]
        exact ⟨rfl, hblocked⟩
    · rw [if_neg hdfl] at h ⊢
      rw [if_neg (not_or.mpr ⟨hign, hdfl⟩)]
      obtain ⟨_, h₁, h⟩ := bind_val h
      cases h
      obtain ⟨base, hbase, -⟩ := bind_val h₁
      obtain ⟨hmem, _, hval, hsignal⟩ := deliverSignal_run signum (signal.actions (signum - 1)) ret m
        (show frameBase ({ c with signal } : Ctx).userRsp.toNat = some base from hbase)
      cases h₁.symm.trans hval
      refine .inr ⟨⟨base, _, ret, { c with signal }⟩,
        signum, by rw [show frameBase c.userRsp.toNat = some base from hbase]; rfl,
        ⟨hbase, rfl, rfl, rfl, hblocked⟩, ?_, ?_⟩
      · rw [hsignal]
        exact unblocked_and_not _
      · exact (bind_mem_of hval).trans hmem

/-! ## The frames of a run -/

/-- Its frame is in memory as it was written. -/
structure Held (m : Bytes) (d : Delivered) : Prop where
  words : ∀ w ∈ d.words, wordAt m (d.base + w.1) = w.2
  base : frameBase d.ctx.userRsp.toNat = some d.base
  unblocked : Unblocked d.ctx.signal.blocked

theorem Held.of_intact {m m' : Bytes} {d : Delivered} (h : Held m d)
    (hi : ∀ i < FRAME_SIZE, m' (d.base + i) = m (d.base + i)) : Held m' d := by
  refine ⟨fun w hw => ?_, h.base, h.unblocked⟩
  rw [← h.words w hw]
  refine wordAt_congr fun i hlt => ?_
  rw [add_assoc]
  refine hi _ ?_
  have hin := (frameWords_offsets _ _ _ _ _).2 w hw
  have hsize : FRAME_SIZE = 440 ∧ PRETCODE_SIZE + UCONTEXT_SIZE = 312 := ⟨rfl, rfl⟩
  omega

/-- All are in memory, and each was delivered on a stack clear of those further out. -/
structure Stack (m : Bytes) (frames : List Delivered) : Prop where
  held : ∀ d ∈ frames, Held m d
  clear : frames.Pairwise fun d e => Clear d.ctx.userRsp e

namespace Stack

variable {m m' : Bytes} {frames : List Delivered} {d : Delivered}

theorem nil (m : Bytes) : Stack m [] := ⟨nofun, .nil⟩

theorem intact (h : Stack m frames) (hi : Intact frames m m') : Stack m' frames :=
  ⟨fun d hd => (h.held d hd).of_intact (hi d hd), h.clear⟩

theorem pop (h : Stack m (d :: frames)) : Stack m frames :=
  ⟨fun e he => h.held e (.tail _ he), (pairwise_cons.mp h.clear).2⟩

theorem push {signum : Nat} (h : Stack m frames) (hd : Delivers d ret c) (hb : Unblocked c.signal.blocked)
    (hclear : ∀ e ∈ frames, Clear c.userRsp e) :
    Stack ((writeFrame d.base signum d.words).run m).mem (d :: frames) := by
  obtain ⟨hapart, hin⟩ := frameWords_offsets d.action d.ctx.frame d.ctx.userRsp d.ret d.ctx.signal.blocked
  obtain ⟨-, _, _⟩ := frameBase_spec hd.base
  have hold : Intact frames m ((writeFrame d.base signum d.words).run m).mem := by
    intro e he i hi
    refine writeFrame_outside m hin ?_
    have hc := hclear e he
    unfold Clear at hc
    omega
  refine ⟨fun e he => ?_, pairwise_cons.mpr ⟨fun e he => ?_, h.clear⟩⟩
  · rcases mem_cons.mp he with rfl | he
    · refine ⟨fun w hw => writeFrame_wordAt m hapart hw (hin w hw), ?_, ?_⟩
      · rw [hd.userRsp]
        exact hd.base
      · rw [hd.blocked]
        exact hb
    · exact (h.intact hold).held e he
  · rw [hd.userRsp]
    exact hclear e he

theorem apart (h : Stack m frames) : frames.Pairwise fun d e => d.base + FRAME_SIZE ≤ e.base ∨
      e.base + FRAME_SIZE ≤ d.base := by
  refine h.clear.imp_of_mem fun {d e} hd _ hc => ?_
  obtain ⟨-, _, _⟩ := frameBase_spec (h.held d hd).base
  unfold Clear at hc
  omega

end Stack

/-- `rt_sigreturn` right above the return address takes back what was delivered. -/
theorem sysRtSigreturn_run {m : Bytes} {d : Delivered} (h : Held m d)
    (hrsp : c.userRsp.toNat = d.base + PRETCODE_SIZE) : ((sysRtSigreturn c).run m).val =
        some (d.ret, ⟨d.ctx.frame, d.ctx.userRsp, { c.signal with blocked := d.ctx.signal.blocked }⟩) ∧
      ((sysRtSigreturn c).run m).mem = m := by
  obtain ⟨-, hbelow, -⟩ := frameBase_spec h.base
  obtain ⟨hval, hmem⟩ := sysRtSigreturn_reads m hrsp (hbelow.trans_lt d.ctx.userRsp.isLt)
  have hw := h.words
  simp only [Delivered.words, frameWords, forall_mem_cons] at hw
  obtain ⟨-, hr8, hr9, hr10, -, hrdi, hrsi, hrdx, hrax, -, hold, hrip, hrflags, hblocked, -⟩ := hw
  refine ⟨?_, hmem⟩
  rw [hval]
  simp only [sigcontext, hr8, hr9, hr10, hrdi, hrsi, hrdx, hrax, hold, hrip, hrflags, hblocked]
  rw [h.unblocked.and_not]

/-! ## Runs -/

theorem sysRtSigaction_keeps {signum actPtr oldPtr : U64} {m : Bytes}
    (h : ((sysRtSigaction signum actPtr oldPtr sigsetsize c).run m).val = some (ret, c')) :
    c'.userRsp = c.userRsp ∧ c'.signal.blocked = c.signal.blocked := by
  unfold sysRtSigaction at h
  dsimp only at h
  split at h
  · cases h
    exact ⟨rfl, rfl⟩
  split at h
  · cases h
    exact ⟨rfl, rfl⟩
  obtain ⟨r, -, h⟩ := bind_val h
  cases r with
  | error e =>
    cases h
    exact ⟨rfl, rfl⟩
  | ok u =>
    obtain ⟨r, -, h⟩ := bind_val h
    match r, h with
    | .error e, h =>
      cases h
      exact ⟨rfl, rfl⟩
    | .ok none, h =>
      cases h
      exact ⟨rfl, rfl⟩
    | .ok (some action), h =>
      cases h
      exact ⟨rfl, rfl⟩

theorem sysRtSigprocmask_keeps {how setPtr oldPtr : U64} {m : Bytes}
    (h : ((sysRtSigprocmask how setPtr oldPtr sigsetsize c).run m).val = some (ret, c')) :
    c'.userRsp = c.userRsp ∧ (Unblocked c.signal.blocked → Unblocked c'.signal.blocked) := by
  unfold sysRtSigprocmask at h
  split at h
  · cases h
    exact ⟨rfl, id⟩
  obtain ⟨r, -, h⟩ := bind_val h
  cases r with
  | error e =>
    cases h
    exact ⟨rfl, id⟩
  | ok u =>
    dsimp only at h
    split at h
    · cases h
      exact ⟨rfl, id⟩
    split at h
    · cases h
      exact ⟨rfl, id⟩
    · cases h
      exact ⟨rfl, fun hb => unblocked_maskFor hb _ _⟩

theorem sysRtSigreturn_unblocked {m : Bytes} (h : ((sysRtSigreturn c).run m).val = some (ret, c')) :
    Unblocked c'.signal.blocked := by
  obtain ⟨_, -, h⟩ := orStop_bind_val h
  obtain ⟨_, -, h⟩ := orStop_bind_val h
  obtain ⟨sc, -, h⟩ := orStop_bind_val h
  simp only [val_load64_bind] at h
  obtain ⟨mask, -, h⟩ := orStop_bind_val h
  cases h
  exact unblocked_and_not _

variable {regs : Registers.Regs} {call : Registers.Call} {s s' : St} {e : Ev}

theorem dispatch_unblocked {m : Bytes}
    (hb : Unblocked c.signal.blocked) (h : ((Registers.dispatch regs c call).run m).val = some (ret, c')) :
    Unblocked c'.signal.blocked := by
  cases call with
  | rtSigaction =>
    rw [(sysRtSigaction_keeps h).2]
    exact hb
  | rtSigprocmask => exact (sysRtSigprocmask_keeps h).2 hb
  | rtSigreturn => exact sysRtSigreturn_unblocked h
  | other ret =>
    cases h
    exact hb

theorem step_syscall {rip rflags rsp : U64} (h : step s (.syscall rip rflags rsp regs call) = some s') :
    ∃ ret c m, ((Registers.dispatch regs (entryCtx s rip rflags rsp regs) call).run s.mem).val = some (ret, c) ∧
      ((Registers.dispatch regs (entryCtx s rip rflags rsp regs) call).run s.mem).mem = m ∧
      (s'.frames = returned call s.frames ∧ s'.mem = m ∧ s'.signal.blocked = c.signal.blocked ∨
        ∃ d signum, s'.frames = d :: returned call s.frames ∧ Delivers d ret c ∧ Unblocked s'.signal.blocked ∧
          s'.mem = ((writeFrame d.base signum d.words).run m).mem) := by
  unfold step at h
  dsimp only at h
  split at h
  · cases h
  rename_i ret c hd
  split at h
  · rename_i hr
    cases h
    refine ⟨ret, c, _, hd, rfl, ?_⟩
    obtain ⟨hnone, hmem, hblocked⟩ | ⟨d, signum, hsome, hdel, hun, hmem⟩ := checkPendingSignals_cases hr
    · exact .inl ⟨by rw [hnone]; rfl, hmem, hblocked⟩
    · exact .inr ⟨d, signum, by rw [hsome]; rfl, hdel, hun, hmem⟩
  · cases h

theorem queue_blocked (signal : SignalState) (signum : Nat) : (signal.queue signum).blocked = signal.blocked := by
  unfold SignalState.queue
  split <;> rfl

theorem unblocked_step (hb : Unblocked s.signal.blocked) (h : step s e = some s') : Unblocked s'.signal.blocked := by
  cases e with
  | store addr bytes =>
    cases h
    exact hb
  | kill signum =>
    cases h
    rw [queue_blocked]
    exact hb
  | syscall rip rflags rsp regs call =>
    obtain ⟨_, _, -, hd, -, ⟨-, -, hblocked⟩ | ⟨-, -, -, -, hun, -⟩⟩ := step_syscall h
    · rw [hblocked]
      exact dispatch_unblocked hb hd
    · exact hun

/-- After the dispatch of a proper call the frames that are left are in memory, and the stack
    is clear of them. -/
theorem dispatch_stack {rip rflags rsp : U64}
    (hstack : Stack s.mem s.frames) (hg : Proper s (.syscall rip rflags rsp regs call))
    (hd : ((Registers.dispatch regs (entryCtx s rip rflags rsp regs) call).run s.mem).val = some (ret, c)) :
    Stack ((Registers.dispatch regs (entryCtx s rip rflags rsp regs) call).run s.mem).mem (returned call s.frames) ∧
      ∀ d ∈ returned call s.frames, Clear c.userRsp d := by
  cases call with
  | rtSigreturn =>
    cases hf : s.frames with
    | nil =>
      unfold Proper at hg
      simp only [hf] at hg
    | cons d rest =>
      unfold Proper at hg
      simp only [hf] at hg
      rw [hf] at hstack
      -- the stack pointer goes back to where the handler was delivered
      obtain ⟨hval, hmem⟩ := sysRtSigreturn_run (c := entryCtx s rip rflags rsp regs) (hstack.held d mem_cons_self) hg
      have hc := hval.symm.trans hd
      cases hc
      refine ⟨?_, (pairwise_cons.mp hstack.clear).1⟩
      exact hmem.symm ▸ hstack.pop
  | rtSigaction =>
    refine ⟨hstack.intact hg.2, fun d hm => ?_⟩
    rw [(sysRtSigaction_keeps hd).1]
    exact hg.1 d hm
  | rtSigprocmask =>
    refine ⟨hstack.intact hg.2, fun d hm => ?_⟩
    rw [(sysRtSigprocmask_keeps hd).1]
    exact hg.1 d hm
  | other ret =>
    cases hd
    exact ⟨hstack, hg.1⟩

theorem stack_step (hb : Unblocked s.signal.blocked) (hstack : Stack s.mem s.frames) (hg : Proper s e)
    (h : step s e = some s') : Stack s'.mem s'.frames := by
  cases e with
  | store addr bytes =>
    cases h
    exact hstack.intact hg
  | kill signum =>
    cases h
    exact hstack
  | syscall rip rflags rsp regs call =>
    obtain ⟨_, _, -, hd, rfl, ⟨hframes, hmem, -⟩ | ⟨d, signum, hframes, hdel, -, hmem⟩⟩ := step_syscall h
    · rw [hframes, hmem]
      exact (dispatch_stack hstack hg hd).1
    · rw [hframes, hmem]
      obtain ⟨hleft, hclear⟩ := dispatch_stack hstack hg hd
      exact hleft.push hdel (dispatch_unblocked hb hd) hclear

/-- What holds of the deliveries that have not returned: `rt_sigreturn` from the innermost
    handler, whatever it left in the other registers, takes back the RIP, RFLAGS, RSP, RAX, RDI,
    RSI, RDX, R8, R9, R10 and the mask of its delivery. -/
structure RoundTrip (s : St) : Prop where
  restores : ∀ d rest, s.frames = d :: rest → ∀ (frame : SavedFrame) (rsp : U64), rsp.toNat = d.base + PRETCODE_SIZE →
    ((sysRtSigreturn ⟨frame, rsp, s.signal⟩).run s.mem).val =
      some (d.ret, ⟨d.ctx.frame, d.ctx.userRsp, { s.signal with blocked := d.ctx.signal.blocked }⟩)
  restorer : ∀ d ∈ s.frames, wordAt s.mem d.base = d.action.restorer
  apart : s.frames.Pairwise fun d e => d.base + FRAME_SIZE ≤ e.base ∨ e.base + FRAME_SIZE ≤ d.base
  aligned : ∀ d ∈ s.frames, d.base % 16 = 8

theorem RoundTrip.of_stack (h : Stack s.mem s.frames) : RoundTrip s where
  restores d rest hf frame rsp hrsp :=
    (sysRtSigreturn_run (h.held d (by rw [hf]; exact mem_cons_self)) hrsp).1
  restorer d hd := (h.held d hd).words (0, d.action.restorer) mem_cons_self
  apart := h.apart
  aligned d hd := (frameBase_spec (h.held d hd).base).1

theorem inv_of_reach (h : machine.Reach Proper s) : Unblocked s.signal.blocked ∧ Stack s.mem s.frames := by
  refine Machine.Reach.inv (I := fun s => Unblocked s.signal.blocked ∧ Stack s.mem s.frames) ?_ ?_ h
  · rintro _ ⟨mem, rfl⟩
    exact ⟨unblocked_new, .nil mem⟩
  · rintro _ _ _ ⟨hb, hstack⟩ hg hs
    exact ⟨unblocked_step hb hs, stack_step hb hstack hg hs⟩

/-- Over all runs of `rt_sigaction`, `rt_sigprocmask`, deliveries and `rt_sigreturn` SIGKILL and
    SIGSTOP are never blocked, and over the properly nested ones each return restores what was in
    force at its delivery. -/
theorem signal_frames_round_trip (s : St) :
    (machine.Reachable s → Unblocked s.signal.blocked) ∧ (machine.Reach Proper s → RoundTrip s) := by
  refine ⟨fun h => ?_, fun h => .of_stack (inv_of_reach h).2⟩
  refine Machine.Reachable.inv (I := fun s => Unblocked s.signal.blocked) ?_
    (fun s e s' hb hs => unblocked_step hb hs) h
  rintro _ ⟨-, rfl⟩
  exact unblocked_new

/-- Proper at a glance: there are no frames to leave intact, or nothing is stored. -/
def quiet (s : St) : Ev → Bool
  | .store _ _ => s.frames.isEmpty
  | .kill _ => true
  | .syscall _ _ rsp _ call =>
    match call with
    | .rtSigreturn => false
    | .other _ => s.frames.all fun d => Clear rsp d
    | .rtSigaction | .rtSigprocmask => s.frames.isEmpty

theorem proper_of_quiet (h : quiet s e = true) : Proper s e := by
  have hempty : s.frames.isEmpty = true → ∀ d, d ∉ s.frames := fun hnil d hd => by
    rw [isEmpty_iff.mp hnil] at hd
    cases hd
  cases e with
  | store addr bytes => exact fun d hd => absurd hd (hempty h d)
  | kill signum => trivial
  | syscall rip rflags rsp regs call =>
    cases call with
    | rtSigreturn => cases h
    | other ret => exact ⟨fun d hd => of_decide_eq_true (all_eq_true.mp h d hd), fun _ _ _ _ => rfl⟩
    | rtSigaction | rtSigprocmask => exact ⟨fun d hd => absurd hd (hempty h d), fun d hd => absurd hd (hempty h d)⟩

/-- A program that handles signals 10 and 12 gets the first at the end of a call, and the second
    at the end of a call of the handler. -/
def nestedTrace : List Ev :=
  [.store 0x5000 (wordBytes 0x401000 ++ wordBytes SA_SIGINFO ++ wordBytes 0x402000 ++ wordBytes 0),
   .syscall 0x400002 0x202 0x7000 ⟨10, 0x5000, 0, 8, 0, 0⟩ .rtSigaction,
   .syscall 0x400004 0x202 0x7000 ⟨12, 0x5000, 0, 8, 0, 0⟩ .rtSigaction,
   .kill 10,
   .syscall 0x400006 0x202 0x7000 ⟨1, 2, 3, 4, 5, 6⟩ (.other 7),
   .kill 12,
   .syscall 0x401002 0x202 0x6d00 ⟨0, 0, 0, 0, 0, 0⟩ (.other 8)]

theorem nested_signals_round_trip :
    ∃ s, machine.Reach Proper s ∧ s.frames.map (·.base) = [0x6b48, 0x6e48] ∧ s.frames.map (·.ret) = [8, 7] ∧
      Unblocked s.signal.blocked ∧ RoundTrip s := by
  obtain ⟨s, hr, hbase, hret⟩ : ∃ s, machine.checkedRun quiet ⟨fun _ => 0, .new, []⟩ nestedTrace = some s ∧
      s.frames.map (·.base) = [0x6b48, 0x6e48] ∧ s.frames.map (·.ret) = [8, 7] := by decide
  have hreach := (Machine.reach_checkedRun (M := machine) (.start ⟨fun _ => 0, rfl⟩) hr).mono fun _ _ => proper_of_quiet
  exact ⟨s, hreach, hbase, hret, (signal_frames_round_trip s).1 (hreach.mono fun _ _ _ => trivial),
    (signal_frames_round_trip s).2 hreach⟩

end Frames

end Ostoo.User
