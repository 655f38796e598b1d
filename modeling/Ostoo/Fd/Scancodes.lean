/-
  Ostoo.Fd.Scancodes — what an IRQ fd hands on of the bytes of the i8042 (`irq_handle.rs`).

  An interrupt reads the controller at most 16 times, and each byte of the fd's own device is
  posted to the port that waits or, if none does, buffered; OP_IRQ_WAIT posts all that is
  buffered, and waits only if nothing was. Interrupts are off while the object is locked, so an
  interrupt and an arm are one step each.

  Proved for a keyboard fd (`scancodes_accounted`): what was posted and what is buffered are,
  in order and once each, the keyboard bytes that were read, but for those that found the
  buffer full.
-/

import Ostoo.Lib.Machine
import Ostoo.Lib.RingBuffer

namespace Ostoo.Fd.Scancodes

open Ostoo.Lib List

def SCANCODE_BUF_SIZE : Nat := 64

def MOUSE_EVENT_BUF_SIZE : Nat := 16

/-! ## Mouse packets -/

/-- `MouseDecoder`: the bytes of a packet so far, `idx` of them. -/
structure MouseDecoder where
  buf : List UInt8

/-- An `i64` with dx in bits 0 to 15, dy in bits 16 to 31 and the buttons from bit 32 on. -/
def packMouseEvent (dx dy : BitVec 16) (buttons : BitVec 8) : BitVec 64 :=
  dx.setWidth 64 ||| dy.setWidth 64 <<< 16 ||| buttons.setWidth 64 <<< 32

/-- The event of a complete packet; one with an overflow bit is discarded. -/
def decodePacket (b₀ b₁ b₂ : UInt8) : Option (BitVec 64) :=
  let state : BitVec 32 := b₀.toBitVec.setWidth 32
  let buttons : BitVec 8 := state.setWidth 8 &&& 0x07
  if state &&& 0xC0 ≠ 0 then none
  else
    let dx : BitVec 32 := b₁.toBitVec.setWidth 32 - ((state <<< 4) &&& 0x100)
    let dy : BitVec 32 := -(b₂.toBitVec.setWidth 32 - ((state <<< 3) &&& 0x100))
    some (packMouseEvent (dx.setWidth 16) (dy.setWidth 16) buttons)

def MouseDecoder.feed (d : MouseDecoder) (byte : UInt8) : Option (BitVec 64) × MouseDecoder :=
  match d.buf with
  | [] => if byte &&& 0x08 = 0 then (none, d) else (none, ⟨[byte]⟩)
  | [b₀, b₁] => (decodePacket b₀ b₁ byte, ⟨[]⟩)
  | buf => (none, ⟨buf ++ [byte]⟩)

/-! ## The object -/

structure IrqInner where
  gsi : Nat
  /-- The port that waits, and its `user_data`. -/
  pending : Option (Nat × Nat)
  scancodes : RingBuffer UInt8 SCANCODE_BUF_SIZE
  mouseDecoder : MouseDecoder
  mouseEvents : RingBuffer (BitVec 64) MOUSE_EVENT_BUF_SIZE

/-- A completion for OP_IRQ_WAIT, posted to `port`. -/
structure Post where
  port : Nat
  userData : Nat
  result : BitVec 64

/-- `byte as i64` -/
def scancode (byte : UInt8) : BitVec 64 := byte.toBitVec.setWidth 64

namespace IrqInner

instance : NeZero SCANCODE_BUF_SIZE := ⟨by decide⟩

instance : NeZero MOUSE_EVENT_BUF_SIZE := ⟨by decide⟩

def new (gsi : Nat) : IrqInner := ⟨gsi, none, .new 0, ⟨[]⟩, .new 0⟩

/-- To the port that waits, which then waits no more; with none, `buffered` is what becomes of it. -/
def deliver (inner : IrqInner) (result : BitVec 64) (buffered : IrqInner) : IrqInner × List Post :=
  match inner.pending with
  | some (port, userData) => ({ inner with pending := none }, [⟨port, userData, result⟩])
  | none => (buffered, [])

/-- One byte, in the loop of `irq_fd_dispatch`. -/
def handleByte (inner : IrqInner) (status byte : UInt8) : IrqInner × List Post :=
  let fromAux : Bool := status &&& 0x20 ≠ 0
  if inner.gsi = 1 ∧ fromAux ∨ inner.gsi = 12 ∧ !fromAux then (inner, [])
  else if inner.gsi = 12 then
    let (event, decoder) := inner.mouseDecoder.feed byte
    let inner := { inner with mouseDecoder := decoder }
    match event with
    | some event => inner.deliver event { inner with mouseEvents := inner.mouseEvents.push event }
    | none => (inner, [])
  else inner.deliver (scancode byte) { inner with scancodes := inner.scancodes.push byte }

/-- `arm_irq`: all that is buffered is posted, and the port waits only if nothing was. -/
def arm (inner : IrqInner) (port userData : Nat) : IrqInner × List Post :=
  let (results, inner) :=
    if inner.gsi = 12 then
      let (events, ring) := inner.mouseEvents.drain
      (events, { inner with mouseEvents := ring })
    else
      let (codes, ring) := inner.scancodes.drain
      (codes.map scancode, { inner with scancodes := ring })
  if results ≠ [] then (inner, results.map fun result => ⟨port, userData, result⟩)
  else ({ inner with pending := some (port, userData) }, [])

end IrqInner

/-- A byte that a handler took from the controller: the status register before, and whether
    all of the scancode buffer was in use. -/
structure Read where
  status : UInt8
  byte : UInt8
  full : Bool

def Read.fromAux (r : Read) : Bool := r.status &&& 0x20 ≠ 0

structure St where
  inner : IrqInner
  posts : List Post
  reads : List Read

namespace St

def full (s : St) : Bool := s.inner.scancodes.toList.length = SCANCODE_BUF_SIZE - 1

def handleByte (s : St) (status byte : UInt8) : St :=
  let (inner, posts) := s.inner.handleByte status byte
  ⟨inner, s.posts ++ posts, s.reads ++ [⟨status, byte, s.full⟩]⟩

/-- The loop of `irq_fd_dispatch` over what the controller answers: its status, and the byte if
    there is one. After the last answer its output buffer is empty. -/
def drain (s : St) : Nat → List (UInt8 × UInt8) → St
  | 0, _ => s
  | _ + 1, [] => s
  | n + 1, (status, byte) :: answers => if status &&& 0x01 = 0 then s else (s.handleByte status byte).drain n answers

def irqFdDispatch (s : St) (answers : List (UInt8 × UInt8)) : St :=
  if s.inner.gsi = 1 ∨ s.inner.gsi = 12 then s.drain 16 answers else s

def arm (s : St) (port userData : Nat) : St :=
  let (inner, posts) := s.inner.arm port userData
  { s with inner := inner, posts := s.posts ++ posts }

end St

inductive Ev
  | irq (answers : List (UInt8 × UInt8))
  | arm (port userData : Nat)

def step (s : St) : Ev → Option St
  | .irq answers => some (s.irqFdDispatch answers)
  | .arm port userData => some (s.arm port userData)

/-- An IRQ fd for the keyboard, from its creation on. -/
def keyboard : Machine St Ev := ⟨fun s => s = ⟨.new 1, [], []⟩, step⟩

/-! ## Accounting -/

/-- The bytes read that came from the keyboard, without those that found the buffer full. -/
def kept (reads : List Read) : List UInt8 := (reads.filter fun r => !r.fromAux && !r.full).map (·.byte)

structure Accounted (s : St) : Prop where
  bytes : s.posts.map (·.result) ++ s.inner.scancodes.toList.map scancode = (kept s.reads).map scancode
  waiting : s.inner.pending.isSome → s.inner.scancodes.toList = []

theorem kept_append (reads : List Read) (r : Read) :
    kept (reads ++ [r]) = if r.fromAux = false ∧ r.full = false then kept reads ++ [r.byte] else kept reads := by
  unfold kept
  rw [filter_append, map_append, filter_singleton]
  cases r.fromAux <;> cases r.full <;> simp

theorem handleByte_of_keyboard {inner : IrqInner} {status byte : UInt8} (hg : inner.gsi = 1)
    (haux : status &&& 0x20 = 0) :
    inner.handleByte status byte =
      inner.deliver (scancode byte) { inner with scancodes := inner.scancodes.push byte } := by
  have hne : inner.gsi ≠ 12 := by omega
  simp [IrqInner.handleByte, hne, haux]

/-- What holds of a keyboard fd after every step. -/
structure Inv (s : St) : Prop where
  gsi : s.inner.gsi = 1
  accounted : Accounted s

namespace Inv

variable {s : St}

theorem handleByte (h : Inv s) (status byte : UInt8) : Inv (s.handleByte status byte) := by
  obtain ⟨hg, hbytes, hwait⟩ := h
  by_cases haux : status &&& 0x20 = 0
  · have hread : Read.fromAux ⟨status, byte, s.full⟩ = false := decide_eq_false (not_not.mpr haux)
    rw [St.handleByte, handleByte_of_keyboard hg haux, IrqInner.deliver]
    cases hp : s.inner.pending with
    | some p =>
      have hnil := hwait (by rw [hp]; rfl)
      have hfull : s.full = false := by
        rw [St.full, hnil]
        rfl
      refine ⟨hg, ?_, nofun⟩
      simp only [hnil, map_nil, append_nil] at hbytes ⊢
      rw [kept_append, if_pos ⟨hread, hfull⟩, map_append, map_append, hbytes]
      rfl
    | none =>
      refine ⟨hg, ?_, nofun⟩
      simp only [append_nil, RingBuffer.toList_push]
      by_cases hfull : s.inner.scancodes.toList.length + 1 = SCANCODE_BUF_SIZE
      · have hf : s.full = true := decide_eq_true (Nat.eq_sub_of_add_eq hfull)
        rw [if_pos hfull, kept_append, if_neg fun hc => Bool.noConfusion (hf.symm.trans hc.2)]
        exact hbytes
      · have hf : s.full = false := decide_eq_false fun hc => hfull (by rw [hc]; rfl)
        rw [if_neg hfull, kept_append, if_pos ⟨hread, hf⟩, map_append, map_append, ← append_assoc, hbytes]
  · have hread : ¬ (Read.fromAux ⟨status, byte, s.full⟩ = false ∧ s.full = false) := fun hc =>
      of_decide_eq_false hc.1 haux
    rw [St.handleByte, IrqInner.handleByte, if_pos (.inl ⟨hg, decide_eq_true haux⟩)]
    refine ⟨hg, ?_, hwait⟩
    rw [kept_append, if_neg hread]
    simp only [append_nil]
    exact hbytes

theorem drain (h : Inv s) (n : Nat) (answers : List (UInt8 × UInt8)) : Inv (s.drain n answers) := by
  induction n generalizing s answers with
  | zero => exact h
  | succ n ih =>
    cases answers with
    | nil => exact h
    | cons a answers =>
      rw [St.drain]
      split
      · exact h
      · exact ih (h.handleByte a.1 a.2) answers

theorem arm (h : Inv s) (port userData : Nat) : Inv (s.arm port userData) := by
  obtain ⟨hg, hbytes, -⟩ := h
  have hne : s.inner.gsi ≠ 12 := by omega
  have hdrain := s.inner.scancodes.drain_fst
  have hempty := s.inner.scancodes.toList_drain
  simp only [St.arm, IrqInner.arm, if_neg hne, hdrain]
  split
  · refine ⟨hg, ?_, fun _ => hempty⟩
    simp only [hempty, map_nil, append_nil, map_append, map_map]
    exact hbytes
  · rename_i hnil
    refine ⟨hg, ?_, fun _ => hempty⟩
    have hnil' : s.inner.scancodes.toList = [] := map_eq_nil_iff.mp (not_not.mp hnil)
    rw [hnil'] at hbytes
    simp only [hempty, append_nil]
    exact hbytes

theorem step {s' : St} {e : Ev} (h : Inv s) (hs : step s e = some s') : Inv s' := by
  cases e with
  | irq answers =>
    cases hs
    rw [St.irqFdDispatch, if_pos (.inl h.gsi)]
    exact h.drain 16 answers
  | arm port userData =>
    cases hs
    exact h.arm port userData

end Inv

theorem scancodes_accounted {s : St} (h : keyboard.Reachable s) : Accounted s := by
  have hinv : Inv s := by
    refine Machine.Reachable.inv (I := Inv) (fun s hs => ?_) (fun _ _ _ hi he => hi.step he) h
    rw [hs]
    refine ⟨rfl, ?_, nofun⟩
    rfl
  exact hinv.accounted

/-- Two keys before anyone waits, then an arm, an arm that waits, and a key with a byte of the mouse before it. -/
def twoThenOne : List Ev :=
  [.irq [(0x01, 0x1E), (0x01, 0x9E)], .arm 3 7, .arm 3 8, .irq [(0x21, 0x08), (0x01, 0x30)]]

theorem scancodes_accounted_two_then_one : ∃ s, keyboard.Reachable s ∧ Accounted s ∧
    s.posts.map (·.result) = [0x1E, 0x9E, 0x30] := by
  obtain ⟨s, hr, he⟩ : ∃ s, keyboard.Reachable s ∧ s.posts.map (·.result) = [0x1E, 0x9E, 0x30] :=
    Machine.exists_reachable ⟨.new 1, [], []⟩ twoThenOne rfl (by decide)
  exact ⟨s, hr, scancodes_accounted hr, he⟩

end Ostoo.Fd.Scancodes
