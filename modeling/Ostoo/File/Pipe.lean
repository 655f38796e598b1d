/-
  Ostoo.File.Pipe — the kernel's pipes (`file.rs`).

  A pipe is a queue of bytes, a count of writer references and two places for whom to wake:
  one thread and one waker. A blocking read looks at the pipe in a loop, and between two looks
  the thread is blocked until somebody unblocks it; an OP_READ polls, and its task is polled
  again when its waker was called. Each look holds the pipe's lock, so it is one step here.

  Proved, over every run in which each writer reference is closed once: the reads return what
  was written, and end of file only when every reference is closed and every byte read
  (`byte_stream`).
-/

import Mathlib.Algebra.Group.Nat.Defs
import Mathlib.Tactic.SplitIfs
import Ostoo.Lib.Machine

namespace Ostoo.File

open Ostoo.Lib List

/-- Whom to wake: `reader_thread` and `reader_waker` of a pipe, `blocked_reader` and
    `blocked_waker` of the console. A waker is the task that it wakes. -/
structure Slots where
  thread : Option Nat
  waker : Option Nat
  deriving DecidableEq

/-- What one look at the buffer comes to. -/
inductive ReadOutcome
  | ok (bytes : List UInt8)
  | interrupted
  | blocked
  deriving DecidableEq

structure PipeInner where
  buffer : List UInt8
  writeClosed : Bool
  writerCount : Nat
  slots : Slots

namespace PipeInner

/-- `make_pipe` -/
def new : PipeInner := ⟨[], false, 1, ⟨none, none⟩⟩

/-- One turn of the loop of `PipeReader::read`; `signal` is whether one is pending and not blocked. -/
def read (inner : PipeInner) (thread len : Nat) (signal : Bool) : ReadOutcome × PipeInner :=
  if inner.buffer ≠ [] then (.ok (inner.buffer.take len), { inner with buffer := inner.buffer.drop len })
  else if inner.writeClosed then (.ok [], inner)
  else if signal then (.interrupted, inner)
  else (.blocked, { inner with slots := { inner.slots with thread := some thread } })

/-- `PipeReader::poll_read`; `none` is `Pending`. -/
def pollRead (inner : PipeInner) (task len : Nat) : Option (List UInt8) × PipeInner :=
  if inner.buffer ≠ [] then (some (inner.buffer.take len), { inner with buffer := inner.buffer.drop len })
  else if inner.writeClosed then (some [], inner)
  else (none, { inner with slots := { inner.slots with waker := some task } })

/-- `pipe_wake_reader` empties both slots; what was in them is woken. -/
def wakeReader (inner : PipeInner) : Slots × PipeInner := (inner.slots, { inner with slots := ⟨none, none⟩ })

/-- `PipeWriter::write`: the length it reports, and whom it wakes. -/
def write (inner : PipeInner) (bytes : List UInt8) : Nat × Slots × PipeInner :=
  (bytes.length, wakeReader { inner with buffer := inner.buffer ++ bytes })

/-- `PipeWriter::close` panics when the count is 0. -/
def close (inner : PipeInner) : Option (Slots × PipeInner) :=
  if inner.writerCount = 0 then none
  else if inner.writerCount - 1 = 0 then
    some (wakeReader { inner with writerCount := inner.writerCount - 1, writeClosed := true })
  else some (⟨none, none⟩, { inner with writerCount := inner.writerCount - 1 })

/-- `PipeWriter::on_dup`: the count is a `usize`. -/
def onDup (inner : PipeInner) : Option PipeInner :=
  if inner.writerCount + 1 < 2 ^ 64 then some { inner with writerCount := inner.writerCount + 1 } else none

end PipeInner

/-! ## The readers -/

/-- A reader and the length of its buffer. -/
structure Reader where
  id : Nat
  len : Nat
  deriving DecidableEq

/-- The readers of one pipe, as the scheduler and the executor have them. -/
structure Readers where
  /-- Threads blocked in a read. -/
  parked : List Reader
  /-- Threads that were unblocked and will look again. -/
  woken : List Reader
  /-- Tasks that wait for their waker. -/
  pending : List Reader
  /-- Tasks that will be polled again. -/
  queued : List Reader
  deriving DecidableEq

namespace Readers

def none : Readers := ⟨[], [], [], []⟩

variable (r : Readers)

/-- `scheduler::unblock` -/
def unblock (thread : Nat) : Readers :=
  { r with parked := r.parked.filter (·.id ≠ thread), woken := r.woken ++ r.parked.filter (·.id = thread) }

def wakeTask (task : Nat) : Readers :=
  { r with pending := r.pending.filter (·.id ≠ task), queued := r.queued ++ r.pending.filter (·.id = task) }

/-- Whoever was in the slots is woken. -/
def wake (slots : Slots) : Readers :=
  let r := slots.thread.elim r r.unblock
  slots.waker.elim r r.wakeTask

/-- A thread is in one read at a time. -/
def inRead (thread : Nat) : Bool := r.parked.any (·.id = thread) || r.woken.any (·.id = thread)

def inPoll (task : Nat) : Bool := r.pending.any (·.id = task) || r.queued.any (·.id = task)

end Readers

/-! ## Runs -/

/-- A pipe with its readers; the open writer references, and what was written and returned so far. -/
structure Pipe where
  inner : PipeInner
  readers : Readers
  writers : Nat
  written : List UInt8
  returned : List UInt8

inductive PipeEv
  | read (thread len : Nat) (signal : Bool)
  /-- A thread that was unblocked looks again. -/
  | retry (thread : Nat) (signal : Bool)
  | pollRead (task len : Nat)
  /-- A task whose waker was called is polled again. -/
  | repoll (task : Nat)
  | write (bytes : List UInt8)
  | close
  | onDup
  /-- A thread blocked here is unblocked by a signal, or by a slot elsewhere that still has it. -/
  | unblock (thread : Nat)

namespace Pipe

def new : Pipe := ⟨.new, .none, 1, [], []⟩

/-- A reader that has run into an empty pipe is parked until it is woken. -/
def look (p : Pipe) (r : Reader) (signal : Bool) : Pipe :=
  match p.inner.read r.id r.len signal with
  | (.ok bytes, inner) => { p with inner := inner, returned := p.returned ++ bytes }
  | (.interrupted, inner) => { p with inner := inner }
  | (.blocked, inner) => { p with inner := inner, readers := { p.readers with parked := p.readers.parked ++ [r] } }

def poll (p : Pipe) (r : Reader) : Pipe :=
  match p.inner.pollRead r.id r.len with
  | (some bytes, inner) => { p with inner := inner, returned := p.returned ++ bytes }
  | (none, inner) => { p with inner := inner, readers := { p.readers with pending := p.readers.pending ++ [r] } }

def step (p : Pipe) : PipeEv → Option Pipe
  | .read t len signal => if p.readers.inRead t then none else some (p.look ⟨t, len⟩ signal)
  | .retry t signal => do
    let r ← p.readers.woken.find? (·.id = t)
    pure (look { p with readers := { p.readers with woken := p.readers.woken.erase r } } r signal)
  | .pollRead k len => if p.readers.inPoll k then none else some (p.poll ⟨k, len⟩)
  | .repoll k => do
    let r ← p.readers.queued.find? (·.id = k)
    pure (poll { p with readers := { p.readers with queued := p.readers.queued.erase r } } r)
  | .write bytes =>
    let (_, slots, inner) := p.inner.write bytes
    some { p with inner := inner, readers := p.readers.wake slots, written := p.written ++ bytes }
  | .close => do
    let (slots, inner) ← p.inner.close
    pure { p with inner := inner, readers := p.readers.wake slots, writers := p.writers - 1 }
  | .onDup => do
    let inner ← p.inner.onDup
    pure { p with inner := inner, writers := p.writers + 1 }
  | .unblock t => some { p with readers := p.readers.unblock t }

def machine : Machine Pipe PipeEv where
  start p := p = new
  step := step

/-- A reference that is duplicated or closed is open. Writes may come late, from an
    operation that has the writer still when the last descriptor is gone. -/
def Disciplined (p : Pipe) : PipeEv → Prop
  | .close => 0 < p.writers
  | .onDup => 0 < p.writers
  | _ => True

instance (p : Pipe) (e : PipeEv) : Decidable (Disciplined p e) := by
  cases e <;> unfold Disciplined <;> infer_instance

/-! ### What a step can do -/

/-- The bytes `bytes` go from the buffer to a reader. -/
structure Takes (p : Pipe) (bytes : List UInt8) (p' : Pipe) : Prop where
  buffer : p.inner.buffer = bytes ++ p'.inner.buffer
  closed : p'.inner.writeClosed = p.inner.writeClosed
  count : p'.inner.writerCount = p.inner.writerCount
  writers : p'.writers = p.writers
  written : p'.written = p.written
  returned : p'.returned = p.returned ++ bytes

theorem look_takes (p : Pipe) (r : Reader) (signal : Bool) : ∃ bytes, Takes p bytes (p.look r signal) := by
  unfold look PipeInner.read
  split_ifs with hb hc hsig
  · exact ⟨p.inner.buffer.take r.len, (take_append_drop ..).symm, rfl, rfl, rfl, rfl, rfl⟩
  · exact ⟨[], rfl, rfl, rfl, rfl, rfl, rfl⟩
  · exact ⟨[], rfl, rfl, rfl, rfl, rfl, (append_nil _).symm⟩
  · exact ⟨[], rfl, rfl, rfl, rfl, rfl, (append_nil _).symm⟩

theorem poll_takes (p : Pipe) (r : Reader) : ∃ bytes, Takes p bytes (p.poll r) := by
  unfold poll PipeInner.pollRead
  split_ifs with hb hc
  · exact ⟨p.inner.buffer.take r.len, (take_append_drop ..).symm, rfl, rfl, rfl, rfl, rfl⟩
  · exact ⟨[], rfl, rfl, rfl, rfl, rfl, rfl⟩
  · exact ⟨[], rfl, rfl, rfl, rfl, rfl, (append_nil _).symm⟩

/-- Every byte written was returned or waits; the end is told when no reference is left. -/
structure Inv (p : Pipe) : Prop where
  bytes : p.returned ++ p.inner.buffer = p.written
  count : p.inner.writerCount = p.writers
  closed : p.inner.writeClosed = true → p.writers = 0

variable {p p' : Pipe}

theorem Inv.takes {bytes : List UInt8} (h : Inv p) (ht : Takes p bytes p') : Inv p' where
  bytes := by rw [ht.returned, append_assoc, ← ht.buffer, ht.written, h.bytes]
  count := by rw [ht.count, ht.writers, h.count]
  closed hc := ht.writers.trans (h.closed (ht.closed ▸ hc))

theorem Inv.readers (h : Inv p) (r : Readers) : Inv { p with readers := r } := ⟨h.bytes, h.count, h.closed⟩

theorem Inv.step {e : PipeEv} (h : Inv p) (hg : Disciplined p e) (hs : p.step e = some p') : Inv p' := by
  cases e with
  | read t len signal =>
    obtain ⟨-, ⟨⟩⟩ := of_unless hs
    obtain ⟨_, ht⟩ := look_takes p ⟨t, len⟩ signal
    exact h.takes ht
  | retry t signal =>
    obtain ⟨r, -, hs⟩ := of_bind hs
    cases hs
    obtain ⟨_, ht⟩ := look_takes { p with readers := { p.readers with woken := p.readers.woken.erase r } } r signal
    exact (h.readers _).takes ht
  | pollRead k len =>
    obtain ⟨-, ⟨⟩⟩ := of_unless hs
    obtain ⟨_, ht⟩ := poll_takes p ⟨k, len⟩
    exact h.takes ht
  | repoll k =>
    obtain ⟨r, -, hs⟩ := of_bind hs
    cases hs
    obtain ⟨_, ht⟩ := poll_takes { p with readers := { p.readers with queued := p.readers.queued.erase r } } r
    exact (h.readers _).takes ht
  | write bytes =>
    cases hs
    refine ⟨?_, h.count, h.closed⟩
    show p.returned ++ (p.inner.buffer ++ bytes) = p.written ++ bytes
    rw [← append_assoc, h.bytes]
  | close =>
    obtain ⟨⟨_, inner⟩, hc, hs⟩ := of_bind hs
    cases hs
    have hcount := h.count
    obtain ⟨-, hc⟩ := of_unless hc
    split at hc
    · rename_i h0
      cases hc
      exact ⟨h.bytes, by show p.inner.writerCount - 1 = p.writers - 1; rw [hcount],
        fun _ => by show p.writers - 1 = 0; rw [← hcount, h0]⟩
    · cases hc
      refine ⟨h.bytes, by show p.inner.writerCount - 1 = p.writers - 1; rw [hcount], fun hcl => ?_⟩
      have := h.closed hcl
      show p.writers - 1 = 0
      omega
  | onDup =>
    obtain ⟨_, hd, hs⟩ := of_bind hs
    cases hs
    obtain ⟨-, ⟨⟩⟩ := of_guard hd
    refine ⟨h.bytes, congrArg (· + 1) h.count, fun hcl => ?_⟩
    -- a reference is open, so the pipe is not closed
    have h0 := h.closed hcl
    have hpos : 0 < p.writers := hg
    omega
  | unblock t =>
    cases hs
    exact h.readers _

theorem reach_inv (h : machine.Reach Disciplined p) : Inv p := by
  refine h.inv (I := Inv) (fun p hp => ?_) fun _ _ _ hi hg hs => hi.step hg hs
  rw [hp]
  exact ⟨rfl, rfl, fun hc => absurd hc Bool.false_ne_true⟩

/-! ### The byte stream -/

structure ByteStream (p : Pipe) : Prop where
  inOrder : p.returned <+: p.written
  /-- End of file, told to a read that asked for bytes. -/
  readEof : ∀ t len signal, 0 < len → (p.inner.read t len signal).1 = .ok [] → p.writers = 0 ∧ p.returned = p.written
  pollEof : ∀ k len, 0 < len → (p.inner.pollRead k len).1 = some [] → p.writers = 0 ∧ p.returned = p.written
  full : ∀ bytes, (p.inner.write bytes).1 = bytes.length

/-- A look that asks for bytes and gets none finds the buffer empty and the pipe closed. -/
theorem eof_of_take {inner : PipeInner} {len : Nat} (hb : inner.buffer ≠ []) (hl : 0 < len) :
    inner.buffer.take len ≠ [] := by
  intro h
  rcases take_eq_nil_iff.mp h with h | h
  · omega
  · exact hb h

theorem Inv.eof (h : Inv p) (hb : p.inner.buffer = []) (hc : p.inner.writeClosed = true) :
    p.writers = 0 ∧ p.returned = p.written := by
  refine ⟨h.closed hc, ?_⟩
  rw [← h.bytes, hb, append_nil]

theorem byte_stream {p : Pipe} (h : machine.Reach Disciplined p) : ByteStream p := by
  have hi := reach_inv h
  refine ⟨⟨p.inner.buffer, hi.bytes⟩, ?_, ?_, fun _ => rfl⟩
  · intro t len signal hl hr
    unfold PipeInner.read at hr
    split_ifs at hr with hb hc hsig
    · exact absurd (ReadOutcome.ok.inj hr) (eof_of_take hb hl)
    · exact hi.eof (not_not.mp hb) hc
  · intro k len hl hr
    unfold PipeInner.pollRead at hr
    split_ifs at hr with hb hc
    · exact absurd (Option.some.inj hr) (eof_of_take hb hl)
    · exact hi.eof (not_not.mp hb) hc

/-- Two writers and two readers; the thread finds the pipe empty, and is woken by the write. -/
def twoWriters : List PipeEv :=
  [.read 1 2 false, .onDup, .write [10, 11, 12], .retry 1 false, .close, .pollRead 7 8, .pollRead 7 8,
    .close, .repoll 7]

theorem byte_stream_two_writers : ∃ p, machine.Reach Disciplined p ∧ ByteStream p ∧
    p.writers = 0 ∧ p.returned = [10, 11, 12] := by
  obtain ⟨p, hp, he⟩ : ∃ p, machine.Reach Disciplined p ∧ p.writers = 0 ∧ p.returned = [10, 11, 12] :=
    Machine.exists_reach new twoWriters rfl (by decide)
  exact ⟨p, hp, byte_stream hp, he⟩

end Pipe

end Ostoo.File
