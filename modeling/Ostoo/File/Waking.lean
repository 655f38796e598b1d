/-
  Ostoo.File.Waking — that a reader asleep on a pipe or on the console is woken when there is
  something to read (`file.rs`, `console.rs`).

  There is one slot for a thread and one for a waker, and whoever goes to sleep writes itself
  into its slot. A second sleeper so takes the first one's place: a write or the close of the
  last writer wakes the second only, and the first sleeps on although there is data or the
  end of file (`first_reader_forgotten`). Where a reader goes to sleep only while no other of
  its kind is asleep (`OneAtATime`), every sleeper is in its slot and each write, key press or
  last close wakes it (`readers_woken`).
-/

import Ostoo.File.Pipe

namespace Ostoo.File

open Ostoo.Lib List

/-! ## The console -/

def INPUT_BUF_CAP : Nat := 256

structure ConsoleInner where
  buf : List UInt8
  slots : Slots

namespace ConsoleInner

def new : ConsoleInner := ⟨[], ⟨none, none⟩⟩

/-- Both slots are emptied, whether or not the byte found room. -/
def pushInput (inner : ConsoleInner) (byte : UInt8) : Slots × ConsoleInner :=
  (inner.slots, ⟨if inner.buf.length < INPUT_BUF_CAP then inner.buf ++ [byte] else inner.buf, ⟨none, none⟩⟩)

/-- One turn of the loop of `read_input`. -/
def readInput (inner : ConsoleInner) (thread len : Nat) (signal : Bool) : ReadOutcome × ConsoleInner :=
  if inner.buf ≠ [] then (.ok (inner.buf.take len), { inner with buf := inner.buf.drop len })
  else if signal then (.interrupted, inner)
  else (.blocked, { inner with slots := { inner.slots with thread := some thread } })

def wakeBlockedReader (inner : ConsoleInner) : Slots × ConsoleInner :=
  (inner.slots, { inner with slots := ⟨none, none⟩ })

def pollReadInput (inner : ConsoleInner) (task len : Nat) : Option (List UInt8) × ConsoleInner :=
  if inner.buf ≠ [] then (some (inner.buf.take len), { inner with buf := inner.buf.drop len })
  else (none, { inner with slots := { inner.slots with waker := some task } })

def flushInput (inner : ConsoleInner) : ConsoleInner := { inner with buf := [] }

end ConsoleInner

structure Console where
  inner : ConsoleInner
  readers : Readers

inductive ConsoleEv
  | readInput (thread len : Nat) (signal : Bool)
  | retry (thread : Nat) (signal : Bool)
  | pollReadInput (task len : Nat)
  | repoll (task : Nat)
  | pushInput (byte : UInt8)
  | wakeBlockedReader
  | flushInput
  | unblock (thread : Nat)

namespace Console

def new : Console := ⟨.new, .none⟩

def look (c : Console) (r : Reader) (signal : Bool) : Console :=
  match c.inner.readInput r.id r.len signal with
  | (.blocked, inner) => ⟨inner, { c.readers with parked := c.readers.parked ++ [r] }⟩
  | (_, inner) => { c with inner := inner }

def poll (c : Console) (r : Reader) : Console :=
  match c.inner.pollReadInput r.id r.len with
  | (some _, inner) => { c with inner := inner }
  | (none, inner) => ⟨inner, { c.readers with pending := c.readers.pending ++ [r] }⟩

def step (c : Console) : ConsoleEv → Option Console
  | .readInput t len signal => if c.readers.inRead t then none else some (c.look ⟨t, len⟩ signal)
  | .retry t signal => do
    let r ← c.readers.woken.find? (·.id = t)
    pure (look { c with readers := { c.readers with woken := c.readers.woken.erase r } } r signal)
  | .pollReadInput k len => if c.readers.inPoll k then none else some (c.poll ⟨k, len⟩)
  | .repoll k => do
    let r ← c.readers.queued.find? (·.id = k)
    pure (poll { c with readers := { c.readers with queued := c.readers.queued.erase r } } r)
  | .pushInput byte => let (slots, inner) := c.inner.pushInput byte; some ⟨inner, c.readers.wake slots⟩
  | .wakeBlockedReader => let (slots, inner) := c.inner.wakeBlockedReader; some ⟨inner, c.readers.wake slots⟩
  | .flushInput => some { c with inner := c.inner.flushInput }
  | .unblock t => some { c with readers := c.readers.unblock t }

def machine : Machine Console ConsoleEv where
  start c := c = new
  step := step

end Console

/-! ## Sleepers and slots -/

/-- Everybody asleep is in its slot. -/
structure Slotted (slots : Slots) (r : Readers) : Prop where
  thread : ∀ x ∈ r.parked, slots.thread = some x.id
  waker : ∀ x ∈ r.pending, slots.waker = some x.id

namespace Slotted

variable {slots : Slots} {r : Readers}

variable (h : Slotted slots r)
include h

theorem wake : (r.wake slots).parked = [] ∧ (r.wake slots).pending = [] := by
  have hfilter : ∀ {l : List Reader} {o : Option Nat}, (∀ x ∈ l, o = some x.id) →
      (∀ n, o = some n → l.filter (·.id ≠ n) = []) ∧ (o = none → l = []) := by
    intro l o hl
    refine ⟨fun n hn => ?_, fun hn => ?_⟩
    · refine filter_eq_nil_iff.mpr fun x hx => ?_
      have := Option.some.inj ((hl x hx).symm.trans hn)
      simp [this]
    · refine eq_nil_iff_forall_not_mem.mpr fun x hx => ?_
      cases hn.symm.trans (hl x hx)
  obtain ⟨ht, ht0⟩ := hfilter h.thread
  obtain ⟨hw, hw0⟩ := hfilter h.waker
  unfold Readers.wake
  cases hthread : slots.thread with
  | none =>
    cases hwaker : slots.waker with
    | none => exact ⟨ht0 hthread, hw0 hwaker⟩
    | some k => exact ⟨ht0 hthread, hw k hwaker⟩
  | some t =>
    cases hwaker : slots.waker with
    | none => exact ⟨ht t hthread, hw0 hwaker⟩
    | some k => exact ⟨ht t hthread, hw k hwaker⟩

omit h in
theorem empty {slots : Slots} (hp : r.parked = []) (hq : r.pending = []) : Slotted slots r where
  thread _ hx := absurd (hp ▸ hx) not_mem_nil
  waker _ hx := absurd (hq ▸ hx) not_mem_nil

theorem unblock (t : Nat) : Slotted slots (r.unblock t) where
  thread x hx := h.thread x (mem_filter.mp hx).1
  waker := h.waker

theorem park (hp : r.parked = []) (x : Reader) :
    Slotted { slots with thread := some x.id } { r with parked := r.parked ++ [x] } where
  thread y hy := by
    rw [hp, nil_append] at hy
    exact congrArg (fun z : Reader => some z.id) (mem_singleton.mp hy).symm
  waker := h.waker

theorem pend (hp : r.pending = []) (x : Reader) :
    Slotted { slots with waker := some x.id } { r with pending := r.pending ++ [x] } where
  thread := h.thread
  waker y hy := by
    rw [hp, nil_append] at hy
    exact congrArg (fun z : Reader => some z.id) (mem_singleton.mp hy).symm

end Slotted

/-- Sleepers are in their slots, and there are none while there is something to read. -/
structure Awake (slots : Slots) (r : Readers) (readable : Prop) : Prop where
  slotted : Slotted slots r
  asleep : readable → r.parked = [] ∧ r.pending = []

namespace Awake

variable {slots : Slots} {r : Readers} {readable readable' : Prop}

variable (h : Awake slots r readable)
include h

theorem woken : Awake ⟨none, none⟩ (r.wake slots) readable' :=
  have hw := h.slotted.wake
  ⟨.empty hw.1 hw.2, fun _ => hw⟩

theorem unblock (t : Nat) : Awake slots (r.unblock t) readable where
  slotted := h.slotted.unblock t
  asleep hr := by
    obtain ⟨hp, hq⟩ := h.asleep hr
    refine ⟨?_, hq⟩
    show r.parked.filter _ = []
    rw [hp]
    rfl

theorem mono (hr : readable' → readable) : Awake slots r readable' :=
  ⟨h.slotted, fun h' => h.asleep (hr h')⟩

theorem congr {r' : Readers} (hp : r'.parked = r.parked) (hq : r'.pending = r.pending) : Awake slots r' readable :=
  ⟨⟨hp ▸ h.slotted.thread, hq ▸ h.slotted.waker⟩, fun hr => hp ▸ hq ▸ h.asleep hr⟩

end Awake

/-! ## The pipe -/

namespace Pipe

/-- Data, or the end of file. -/
def Readable (p : Pipe) : Prop := p.inner.buffer ≠ [] ∨ p.inner.writeClosed = true

deriving instance Decidable for Readable

/-- A thread goes to sleep only while no other thread sleeps on the pipe, and a task only
    while no other task does. -/
def OneAtATime (p : Pipe) : PipeEv → Prop
  | .read _ _ signal => p.Readable ∨ signal = true ∨ p.readers.parked = []
  | .retry _ signal => p.Readable ∨ signal = true ∨ p.readers.parked = []
  | .pollRead _ _ => p.Readable ∨ p.readers.pending = []
  | .repoll _ => p.Readable ∨ p.readers.pending = []
  | _ => True

instance (p : Pipe) : ∀ e, Decidable (OneAtATime p e)
  | .read .. | .retry .. => inferInstanceAs (Decidable (_ ∨ _ ∨ _))
  | .pollRead .. | .repoll _ => inferInstanceAs (Decidable (_ ∨ _))
  | .write _ | .close | .onDup | .unblock _ => isTrue trivial

/-- Once those woken have returned, nobody sleeps on a pipe that is readable; after the last
    close nobody sleeps at all, and whoever looks again returns. -/
structure AllWoken (p : Pipe) : Prop where
  settled : p.readers.woken = [] → p.readers.queued = [] → p.Readable → p.readers.parked = [] ∧ p.readers.pending = []
  closed : p.inner.writeClosed = true → p.readers.parked = [] ∧ p.readers.pending = []
  returns : p.inner.writeClosed = true →
    (∀ r ∈ p.readers.woken, ∀ signal, ∃ bytes, (p.inner.read r.id r.len signal).1 = .ok bytes) ∧
    ∀ r ∈ p.readers.queued, ∃ bytes, (p.inner.pollRead r.id r.len).1 = some bytes

def Good (p : Pipe) : Prop := Awake p.inner.slots p.readers p.Readable

variable {p : Pipe}

theorem Good.look (h : p.Good) (r : Reader) {signal : Bool}
    (hg : p.Readable ∨ signal = true ∨ p.readers.parked = []) : (p.look r signal).Good := by
  unfold Pipe.look PipeInner.read
  split_ifs with hb hc hsig
  · exact h.mono fun _ => .inl hb
  · exact h
  · exact h
  · have hnot : ¬ p.Readable := by
      rintro (h | h)
      · exact hb h
      · exact hc h
    refine ⟨h.slotted.park ((hg.resolve_left hnot).resolve_left hsig) r, fun hr => absurd hr hnot⟩

theorem Good.poll (h : p.Good) (r : Reader) (hg : p.Readable ∨ p.readers.pending = []) : (p.poll r).Good := by
  unfold Pipe.poll PipeInner.pollRead
  split_ifs with hb hc
  · exact h.mono fun _ => .inl hb
  · exact h
  · have hnot : ¬ p.Readable := by
      rintro (h | h)
      · exact hb h
      · exact hc h
    exact ⟨h.slotted.pend (hg.resolve_left hnot) r, fun hr => absurd hr hnot⟩

theorem Good.step {p' : Pipe} {e : PipeEv} (h : p.Good) (hg : OneAtATime p e) (hs : p.step e = some p') : p'.Good := by
  cases e with
  | read t len signal =>
    obtain ⟨-, ⟨⟩⟩ := of_unless hs
    exact h.look _ hg
  | retry t signal =>
    obtain ⟨r, -, hs⟩ := of_bind hs
    cases hs
    exact Good.look (p := { p with readers := { p.readers with woken := p.readers.woken.erase r } })
      (h.congr rfl rfl) r hg
  | pollRead k len =>
    obtain ⟨-, ⟨⟩⟩ := of_unless hs
    exact h.poll _ hg
  | repoll k =>
    obtain ⟨r, -, hs⟩ := of_bind hs
    cases hs
    exact Good.poll (p := { p with readers := { p.readers with queued := p.readers.queued.erase r } })
      (h.congr rfl rfl) r hg
  | write bytes =>
    cases hs
    exact h.woken
  | close =>
    obtain ⟨⟨_, inner⟩, hc, hs⟩ := of_bind hs
    cases hs
    unfold PipeInner.close at hc
    split_ifs at hc
    · cases hc
      exact h.woken
    · cases hc
      exact h
  | onDup =>
    obtain ⟨_, hd, hs⟩ := of_bind hs
    cases hs
    unfold PipeInner.onDup at hd
    split_ifs at hd
    cases hd
    exact h
  | unblock t =>
    cases hs
    exact h.unblock t

theorem reach_good (h : machine.Reach OneAtATime p) : p.Good := by
  refine h.inv (I := Good) (fun p hp => ?_) fun _ _ _ hi hg hs => hi.step hg hs
  rw [hp]
  exact ⟨.empty rfl rfl, fun _ => ⟨rfl, rfl⟩⟩

theorem Good.allWoken (h : p.Good) : p.AllWoken where
  settled _ _ hr := h.asleep hr
  closed hc := h.asleep (.inr hc)
  returns hc := by
    refine ⟨fun r _ signal => ?_, fun r _ => ?_⟩
    · unfold PipeInner.read
      split_ifs
      · exact ⟨_, rfl⟩
      · exact ⟨_, rfl⟩
    · unfold PipeInner.pollRead
      split_ifs
      · exact ⟨_, rfl⟩
      · exact ⟨_, rfl⟩

end Pipe

/-! ## The console's readers -/

namespace Console

def Readable (c : Console) : Prop := c.inner.buf ≠ []

deriving instance Decidable for Readable

def OneAtATime (c : Console) : ConsoleEv → Prop
  | .readInput _ _ signal => c.Readable ∨ signal = true ∨ c.readers.parked = []
  | .retry _ signal => c.Readable ∨ signal = true ∨ c.readers.parked = []
  | .pollReadInput _ _ => c.Readable ∨ c.readers.pending = []
  | .repoll _ => c.Readable ∨ c.readers.pending = []
  | _ => True

instance (c : Console) (e : ConsoleEv) : Decidable (OneAtATime c e) := by
  unfold OneAtATime
  split <;> infer_instance

def AllWoken (c : Console) : Prop :=
  c.readers.woken = [] → c.readers.queued = [] → c.Readable → c.readers.parked = [] ∧ c.readers.pending = []

def Good (c : Console) : Prop := Awake c.inner.slots c.readers c.Readable

variable {c : Console}

theorem Good.look (h : c.Good) (r : Reader) {signal : Bool}
    (hg : c.Readable ∨ signal = true ∨ c.readers.parked = []) : (c.look r signal).Good := by
  unfold Console.look ConsoleInner.readInput
  split_ifs with hb hsig
  · exact h.mono fun _ => hb
  · exact h
  · exact ⟨h.slotted.park ((hg.resolve_left hb).resolve_left hsig) r, fun hr => absurd hr hb⟩

theorem Good.poll (h : c.Good) (r : Reader) (hg : c.Readable ∨ c.readers.pending = []) : (c.poll r).Good := by
  unfold Console.poll ConsoleInner.pollReadInput
  split_ifs with hb
  · exact h.mono fun _ => hb
  · exact ⟨h.slotted.pend (hg.resolve_left hb) r, fun hr => absurd hr hb⟩

theorem Good.step {c' : Console} {e : ConsoleEv} (h : c.Good) (hg : OneAtATime c e) (hs : c.step e = some c') :
    c'.Good := by
  cases e with
  | readInput t len signal =>
    obtain ⟨-, ⟨⟩⟩ := of_unless hs
    exact h.look _ hg
  | retry t signal =>
    obtain ⟨r, -, hs⟩ := of_bind hs
    cases hs
    exact Good.look (c := { c with readers := { c.readers with woken := c.readers.woken.erase r } })
      (h.congr rfl rfl) r hg
  | pollReadInput k len =>
    obtain ⟨-, ⟨⟩⟩ := of_unless hs
    exact h.poll _ hg
  | repoll k =>
    obtain ⟨r, -, hs⟩ := of_bind hs
    cases hs
    exact Good.poll (c := { c with readers := { c.readers with queued := c.readers.queued.erase r } })
      (h.congr rfl rfl) r hg
  | pushInput byte | wakeBlockedReader =>
    cases hs
    exact h.woken
  | flushInput =>
    cases hs
    exact h.mono fun hr => absurd rfl hr
  | unblock t =>
    cases hs
    exact h.unblock t

theorem reach_good (h : machine.Reach OneAtATime c) : c.Good := by
  refine h.inv (I := Good) (fun c hc => ?_) fun _ _ _ hi hg hs => hi.step hg hs
  rw [hc]
  exact ⟨.empty rfl rfl, fun _ => ⟨rfl, rfl⟩⟩

end Console

/-! ## Every sleeper is woken -/

theorem readers_woken {p : Pipe} {c : Console} (hp : Pipe.machine.Reach Pipe.OneAtATime p)
    (hc : Console.machine.Reach Console.OneAtATime c) : p.AllWoken ∧ c.AllWoken :=
  ⟨(Pipe.reach_good hp).allWoken, fun _ _ hr => (Console.reach_good hc).asleep hr⟩

/-- A thread and a task wait, the writer closes, both come back; on the console a key wakes both. -/
theorem readers_woken_one_of_each : ∃ p c, Pipe.machine.Reach Pipe.OneAtATime p ∧
    Console.machine.Reach Console.OneAtATime c ∧ p.AllWoken ∧ c.AllWoken ∧ p.inner.writeClosed = true ∧ c.Readable := by
  obtain ⟨p, hp, hclosed⟩ : ∃ p, Pipe.machine.Reach Pipe.OneAtATime p ∧ p.inner.writeClosed = true :=
    Machine.exists_reach Pipe.new [.read 1 8 false, .pollRead 7 8, .close, .retry 1 false] rfl (by decide)
  obtain ⟨c, hc, hread⟩ : ∃ c, Console.machine.Reach Console.OneAtATime c ∧ c.Readable :=
    Machine.exists_reach Console.new [.readInput 1 8 false, .pollReadInput 7 8, .pushInput 97] rfl (by decide)
  obtain ⟨hpipe, hconsole⟩ := readers_woken hp hc
  exact ⟨p, c, hp, hc, hpipe, hconsole, hclosed, hread⟩

/-- Two threads read an empty pipe and two tasks poll it; the last writer closes; the second
    thread and the second task come back with end of file, and the first ones sleep on. On
    the console the first of two threads sleeps on beside a byte that the second left. -/
theorem first_reader_forgotten : ∃ p c, Pipe.machine.Reachable p ∧ Console.machine.Reachable c ∧
    p.inner.writeClosed = true ∧ p.readers = ⟨[⟨1, 8⟩], [], [⟨7, 8⟩], []⟩ ∧ ¬ p.AllWoken ∧
    c.readers = ⟨[⟨1, 8⟩], [], [], []⟩ ∧ ¬ c.AllWoken := by
  obtain ⟨p, hp, hclosed, hpr⟩ : ∃ p, Pipe.machine.Reachable p ∧ p.inner.writeClosed = true ∧
      p.readers = ⟨[⟨1, 8⟩], [], [⟨7, 8⟩], []⟩ :=
    Machine.exists_reachable Pipe.new [.read 1 8 false, .read 2 8 false, .pollRead 7 8, .pollRead 9 8, .close,
      .retry 2 false, .repoll 9] rfl (by decide)
  obtain ⟨c, hc, hread, hcr⟩ : ∃ c, Console.machine.Reachable c ∧ c.Readable ∧ c.readers = ⟨[⟨1, 8⟩], [], [], []⟩ :=
    Machine.exists_reachable Console.new [.readInput 1 8 false, .readInput 2 1 false, .pushInput 97, .pushInput 98,
      .retry 2 false] rfl (by decide)
  refine ⟨p, c, hp, hc, hclosed, hpr, fun h => ?_, hcr, fun h => ?_⟩
  · have := (h.closed hclosed).1
    rw [hpr] at this
    cases this
  · have := (h (by rw [hcr]) (by rw [hcr]) hread).1
    rw [hcr] at this
    cases this

end Ostoo.File
