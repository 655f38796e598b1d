/-
  Ostoo.CompletionPort.Ring — the single-producer single-consumer ring
  (`completion-port/src/ring.rs`, `SpscRing::push` / `pop`) and its user-space twins
  (`user-rs/rt/src/ostoo.rs`, `push_sqe` / `pop_cqe`), one load or store at a time.

  The shared page is `head`, `tail`, `mask` and the slots; an entry is `w` words, copied
  in and out of its slot word by word. The producer runs any number of pushes, the
  consumer any number of pops, each with either code, and their steps interleave freely.
  Loads and stores are sequentially consistent. The kernel masks with `entry_count - 1`,
  user space with the header's `mask`.

  `pushed` lists the entries whose push returned `true` with the slot each went to,
  `popped` the entries pops returned. A snapshot taken by a load carries how many
  entries were unread at that load, and a push that reports full (a pop that reports
  empty) logs that number in `fulls` (`empties`).

  Proved over every schedule, wraps of the counters included (`spsc_correct`): what was
  popped is a prefix of what was pushed, every unread entry is intact in its slot, and a
  push that reports full, or a pop that reports empty, was right when it looked.
-/

import Ostoo.Lib.Machine
import Ostoo.Lib.Serial
import Mathlib.Data.List.TakeDrop

namespace Ostoo.CompletionPort.Ring

open Ostoo.Lib Ostoo.Lib.Serial List Option

variable {W : Type}

abbrev U32 := BitVec 32

/-- The page both sides map: `RingHeader`'s words and the entries, by slot and word. -/
structure Page (W : Type) where
  head : U32
  tail : U32
  mask : U32
  slots : Nat → Nat → W

def Page.store (m : Page W) (slot i : Nat) (x : W) : Page W :=
  { m with slots := fun a b => if a = slot ∧ b = i then x else m.slots a b }

/-- Where a producer is: the next load or store it makes. -/
inductive PPc (W : Type) where
  | idle
  /-- `push`: load `head` (Acquire). -/
  | acquireHead (e : List W)
  /-- `push`: load `tail`, then check for full. -/
  | loadTail (e : List W) (head : U32) (unread : Nat)
  /-- `push_sqe`: load `tail`. -/
  | sqeTail (e : List W)
  /-- `push_sqe`: load `head` (Acquire), then check for full. -/
  | sqeHead (e : List W) (tail : U32)
  /-- `push_sqe`: load `mask`. -/
  | sqeMask (e : List W) (tail : U32)
  /-- Store word `i` of the entry, or `tail` (Release) once all are stored. -/
  | writeSlot (e : List W) (tail : U32) (slot i : Nat)

/-- Where a consumer is. -/
inductive CPc (W : Type) where
  | idle
  /-- `pop`: load `tail` (Acquire). -/
  | acquireTail
  /-- `pop`: load `head`, then check for empty. -/
  | loadHead (tail : U32) (unread : Nat)
  /-- `pop_cqe`: load `head`. -/
  | cqeHead
  /-- `pop_cqe`: load `tail` (Acquire), then check for empty. -/
  | cqeTail (head : U32)
  /-- `pop_cqe`: load `mask`. -/
  | cqeMask (head : U32)
  /-- Load word `i` of the entry, or store `head` (Release) once all are loaded. -/
  | readSlot (head : U32) (slot i : Nat) (buf : List W)

structure St (W : Type) where
  page : Page W
  p : PPc W
  c : CPc W
  pushed : List (Nat × List W)
  popped : List (List W)
  fulls : List Nat
  empties : List Nat

/-- How many entries are pushed and not popped. -/
def St.unreadCount (s : St W) : Nat := s.pushed.length - s.popped.length

/-- The entries pushed and not popped, each with its slot. -/
def St.unread (s : St W) : List (Nat × List W) := s.pushed.drop s.popped.length

/-- `read_entry` / `write_entry`: the slot of a logical index. -/
def slotOf (entryCount index : U32) : Nat := (index &&& (entryCount - 1)).toNat

section Steps

variable (entryCount : U32) (w : Nat)

/-- The producer's next load or store. -/
def prodStep (s : St W) : Option (St W) :=
  match s.p with
  | .idle => none
  | .acquireHead e => some { s with p := .loadTail e s.page.head s.unreadCount }
  | .loadTail e head n =>
    if entryCount ≤ s.page.tail - head then some { s with p := .idle, fulls := s.fulls ++ [n] }
    else some { s with p := .writeSlot e s.page.tail (slotOf entryCount s.page.tail) 0 }
  | .sqeTail e => some { s with p := .sqeHead e s.page.tail }
  | .sqeHead e tail =>
    if entryCount ≤ tail - s.page.head then some { s with p := .idle, fulls := s.fulls ++ [s.unreadCount] }
    else some { s with p := .sqeMask e tail }
  | .sqeMask e tail => some { s with p := .writeSlot e tail (tail &&& s.page.mask).toNat 0 }
  | .writeSlot e tail slot i =>
    match e[i]? with
    | some x => some { s with page := s.page.store slot i x, p := .writeSlot e tail slot (i + 1) }
    | none => some { s with page := { s.page with tail := tail + 1 }, p := .idle, pushed := s.pushed ++ [(slot, e)] }

/-- The consumer's next load or store. -/
def consStep (s : St W) : Option (St W) :=
  match s.c with
  | .idle => none
  | .acquireTail => some { s with c := .loadHead s.page.tail s.unreadCount }
  | .loadHead tail n =>
    if s.page.head = tail then some { s with c := .idle, empties := s.empties ++ [n] }
    else some { s with c := .readSlot s.page.head (slotOf entryCount s.page.head) 0 [] }
  | .cqeHead => some { s with c := .cqeTail s.page.head }
  | .cqeTail head =>
    if head = s.page.tail then some { s with c := .idle, empties := s.empties ++ [s.unreadCount] }
    else some { s with c := .cqeMask head }
  | .cqeMask head => some { s with c := .readSlot head (head &&& s.page.mask).toNat 0 [] }
  | .readSlot head slot i buf =>
    if i < w then some { s with c := .readSlot head slot (i + 1) (buf ++ [s.page.slots slot i]) }
    else some { s with page := { s.page with head := head + 1 }, c := .idle, popped := s.popped ++ [buf] }

inductive Ev (W : Type) where
  /-- Call `push` (`kernel := true`) or `push_sqe` with an entry. -/
  | push (kernel : Bool) (e : List W)
  /-- Call `pop` (`kernel := true`) or `pop_cqe`. -/
  | pop (kernel : Bool)
  | prod
  | cons

def step (s : St W) : Ev W → Option (St W)
  | .push kernel e =>
    match s.p with
    | .idle => if e.length = w then some { s with p := if kernel then .acquireHead e else .sqeTail e } else none
    | _ => none
  | .pop kernel =>
    match s.c with
    | .idle => some { s with c := if kernel then .acquireTail else .cqeHead }
    | _ => none
  | .prod => prodStep entryCount s
  | .cons => consStep entryCount w s

/-- An empty ring whose counters both read `start`: `init_header` with `start = 0`. -/
def Start (start : U32) (s : St W) : Prop :=
  s.page.head = start ∧ s.page.tail = start ∧ s.page.mask = entryCount - 1 ∧ s.p = .idle ∧ s.c = .idle ∧
    s.pushed = [] ∧ s.popped = [] ∧ s.fulls = [] ∧ s.empties = []

def machine (start : U32) : Machine (St W) (Ev W) := ⟨Start entryCount start, step entryCount w⟩

end Steps

/-! ## The invariant -/

section Invariant

variable (entryCount start : U32) (w : Nat)

/-- What the producer knows of the ring at each of its steps. -/
def ProdOk (s : St W) : Prop :=
  match s.p with
  | .idle => True
  | .acquireHead e | .sqeTail e => e.length = w
  | .loadTail e head n =>
    -- the snapshot of `head` may be stale: the consumer has only moved on since
    e.length = w ∧ n ≤ s.pushed.length ∧ n ≤ entryCount.toNat ∧ head = reading start (s.pushed.length - n) ∧
      s.pushed.length - n ≤ s.popped.length
  | .sqeHead e tail => e.length = w ∧ tail = reading start s.pushed.length
  | .sqeMask e tail =>
    e.length = w ∧ tail = reading start s.pushed.length ∧ s.pushed.length < s.popped.length + entryCount.toNat
  | .writeSlot e tail slot i =>
    e.length = w ∧ tail = reading start s.pushed.length ∧ slot = slotOf entryCount tail ∧
      s.pushed.length < s.popped.length + entryCount.toNat ∧ ∀ j < i, ∀ x, e[j]? = some x → s.page.slots slot j = x

/-- What the consumer knows of the ring at each of its steps. -/
def ConsOk (s : St W) : Prop :=
  match s.c with
  | .idle | .acquireTail | .cqeHead => True
  | .loadHead tail n => tail = reading start (s.popped.length + n) ∧ s.popped.length + n ≤ s.pushed.length
  | .cqeTail head => head = reading start s.popped.length
  | .cqeMask head => head = reading start s.popped.length ∧ s.popped.length < s.pushed.length
  | .readSlot head slot i buf =>
    head = reading start s.popped.length ∧ slot = slotOf entryCount head ∧ i ≤ w ∧
      ∃ x, s.pushed[s.popped.length]? = some x ∧ buf = x.2.take i

structure Inv (s : St W) : Prop where
  head : s.page.head = reading start s.popped.length
  tail : s.page.tail = reading start s.pushed.length
  mask : s.page.mask = entryCount - 1
  le : s.popped.length ≤ s.pushed.length
  room : s.pushed.length ≤ s.popped.length + entryCount.toNat
  placed : ∀ (j : Nat) x, s.pushed[j]? = some x → x.1 = slotOf entryCount (reading start j) ∧ x.2.length = w
  intact : ∀ (j : Nat) x, s.popped.length ≤ j → s.pushed[j]? = some x →
    ∀ i y, x.2[i]? = some y → s.page.slots x.1 i = y
  fifo : s.popped = (s.pushed.map (·.2)).take s.popped.length
  prod : ProdOk entryCount start w s
  cons : ConsOk entryCount start w s
  fulls : ∀ n ∈ s.fulls, n = entryCount.toNat
  empties : ∀ n ∈ s.empties, n = 0

variable {s : St W} {i n slot : Nat}

theorem start_inv (h : Start entryCount start s) : Inv entryCount start w s := by
  obtain ⟨_, _, hm, hp, hc, h1, h2, h3, h4⟩ := h
  constructor <;> simp_all [ProdOk, ConsOk]

/-! ### Counters -/

variable {entryCount start} {w}

theorem Inv.unread_count (h : Inv entryCount start w s) : (s.page.tail - s.page.head).toNat = s.unreadCount := by
  have hl := h.le
  have hr := h.room
  rw [h.tail, h.head, reading_sub _ hl (by omega), St.unreadCount]

/-- Full, seen through a snapshot `n` behind the tail, is `n` at the capacity. -/
theorem full_iff {T : Nat} (hn : n ≤ T) (hc : n ≤ entryCount.toNat) :
    entryCount ≤ reading start T - reading start (T - n) ↔ n = entryCount.toNat := by
  have hs := reading_sub start (m := T - n) (n := T) (by omega) (by omega)
  rw [BitVec.le_def, hs]
  omega

theorem empty_iff {H : Nat} (hn : n ≤ entryCount.toNat) : reading start H = reading start (H + n) ↔ n = 0 := by
  constructor
  · intro h
    have := reading_inj start (by omega) (by omega) h
    omega
  · rintro rfl; rfl

section

variable (h : Inv entryCount start w s) {e : List W} {tail : U32} {s' : St W}
include h

/-- The slot the producer fills is no unread entry's. -/
theorem Inv.slot_free (hp : Pow2 entryCount) (hroom : s.pushed.length < s.popped.length + entryCount.toNat) {j : Nat}
    {x : Nat × List W} (hj : s.popped.length ≤ j) (hx : s.pushed[j]? = some x) :
    x.1 ≠ slotOf entryCount (reading start s.pushed.length) := by
  have hlt : j < s.pushed.length := (List.getElem?_eq_some_iff.mp hx).1
  rw [(h.placed j x hx).1]
  exact slot_ne hp start hlt (by omega)

/-! ### Steps -/

theorem Inv.setP (p : PPc W) (hp : ProdOk entryCount start w { s with p := p }) :
    Inv entryCount start w { s with p := p } :=
  ⟨h.head, h.tail, h.mask, h.le, h.room, h.placed, h.intact, h.fifo, hp, h.cons, h.fulls, h.empties⟩

theorem Inv.setC (c : CPc W) (hc : ConsOk entryCount start w { s with c := c }) :
    Inv entryCount start w { s with c := c } :=
  ⟨h.head, h.tail, h.mask, h.le, h.room, h.placed, h.intact, h.fifo, h.prod, hc, h.fulls, h.empties⟩

theorem Inv.full (hn : n = entryCount.toNat) :
    Inv entryCount start w { s with p := .idle, fulls := s.fulls ++ [n] } := by
  refine ⟨h.head, h.tail, h.mask, h.le, h.room, h.placed, h.intact, h.fifo, trivial, h.cons, ?_, h.empties⟩
  intro m hm
  rcases mem_append.mp hm with hm | hm
  · exact h.fulls m hm
  · rw [mem_singleton.mp hm, hn]

theorem Inv.empty (hn : n = 0) : Inv entryCount start w { s with c := .idle, empties := s.empties ++ [n] } := by
  refine ⟨h.head, h.tail, h.mask, h.le, h.room, h.placed, h.intact, h.fifo, h.prod, trivial, h.fulls, ?_⟩
  intro m hm
  rcases mem_append.mp hm with hm | hm
  · exact h.empties m hm
  · rw [mem_singleton.mp hm, hn]

theorem Inv.storeWord (hp : Pow2 entryCount) {x : W} (hs : s.p = .writeSlot e tail slot i) (hx : e[i]? = some x) :
    Inv entryCount start w { s with page := s.page.store slot i x, p := .writeSlot e tail slot (i + 1) } := by
  have hok := h.prod
  simp only [ProdOk, hs] at hok
  obtain ⟨he, ht, hslot, hroom, hdone⟩ := hok
  refine ⟨h.head, h.tail, h.mask, h.le, h.room, h.placed, ?_, h.fifo, ?_, h.cons, h.fulls, h.empties⟩
  · intro j y hj hy k z hz
    have hne := h.slot_free hp hroom hj hy
    rw [← ht, ← hslot] at hne
    simpa [Page.store, hne] using h.intact j y hj hy k z hz
  · refine ⟨he, ht, hslot, hroom, ?_⟩
    intro j hj y hy
    by_cases e' : j = i
    · subst e'
      rw [hx] at hy
      cases hy
      simp [Page.store]
    · simpa [Page.store, e'] using hdone j (by omega) y hy

/-- The Release store of `tail` publishes the entry: it becomes the newest unread one. -/
theorem Inv.publish (hs : s.p = .writeSlot e tail slot i) (hend : e[i]? = none) : Inv entryCount start w
      { s with page := { s.page with tail := tail + 1 }, p := .idle, pushed := s.pushed ++ [(slot, e)] } := by
  have hok := h.prod
  simp only [ProdOk, hs] at hok
  obtain ⟨he, ht, hslot, _, hdone⟩ := hok
  have hlen : e.length ≤ i := getElem?_eq_none_iff.mp hend
  have hold : ∀ j < s.pushed.length, (s.pushed ++ [(slot, e)])[j]? = s.pushed[j]? :=
    fun j hj => getElem?_append_left hj
  have hnew : ∀ (j : Nat) x, (s.pushed ++ [(slot, e)])[j]? = some x → s.pushed[j]? = some x ∨
      (j = s.pushed.length ∧ x = (slot, e)) := by
    intro j x hx
    rcases lt_or_ge j s.pushed.length with hj | hj
    · exact .inl (by rwa [hold j hj] at hx)
    · rw [getElem?_append_right hj, getElem?_singleton] at hx
      obtain ⟨_, hx⟩ := of_guard hx
      exact .inr ⟨by omega, by cases hx; rfl⟩
  refine ⟨h.head, ?_, h.mask, ?_, ?_, ?_, ?_, ?_, trivial, ?_, h.fulls, h.empties⟩
  · show tail + 1 = reading start (s.pushed ++ [(slot, e)]).length
    rw [ht, reading_succ, length_append, length_singleton]
  · have := h.le
    simp only [length_append, length_singleton]
    omega
  · simp only [length_append, length_singleton]
    omega
  · intro j x hx
    rcases hnew j x hx with hx | ⟨rfl, rfl⟩
    · exact h.placed j x hx
    · exact ⟨by rw [hslot, ht], he⟩
  · intro j x hj hx k y hy
    rcases hnew j x hx with hx | ⟨rfl, rfl⟩
    · exact h.intact j x hj hx k y hy
    · have hk : k < e.length := (List.getElem?_eq_some_iff.mp hy).1
      exact hdone k (by omega) y hy
  · show s.popped = ((s.pushed ++ [(slot, e)]).map (·.2)).take s.popped.length
    rw [map_append, take_append_of_le_length (by simpa using h.le)]
    exact h.fifo
  · have hc := h.cons
    simp only [ConsOk] at hc ⊢
    split at hc
    · trivial
    · trivial
    · trivial
    · exact ⟨hc.1, by simp only [length_append, length_singleton]; omega⟩
    · exact hc
    · exact ⟨hc.1, by simp only [length_append, length_singleton]; omega⟩
    · obtain ⟨h1, h2, h3, x, hx, hb⟩ := hc
      exact ⟨h1, h2, h3, x, by rw [hold _ (List.getElem?_eq_some_iff.mp hx).1]; exact hx, hb⟩

theorem Inv.consume {head : U32} {buf : List W} (hs : s.c = .readSlot head slot i buf) (hend : ¬ i < w) :
    Inv entryCount start w
      { s with page := { s.page with head := head + 1 }, c := .idle, popped := s.popped ++ [buf] } := by
  have hok := h.cons
  simp only [ConsOk, hs] at hok
  obtain ⟨hh, -, -, x, hx, hb⟩ := hok
  obtain ⟨_, -⟩ := List.getElem?_eq_some_iff.mp hx
  have hlen : (s.popped ++ [buf]).length = s.popped.length + 1 := by simp
  have hbuf : buf = x.2 := by
    rw [hb, take_of_length_le]
    rw [(h.placed _ _ hx).2]
    omega
  refine ⟨?_, h.tail, h.mask, ?_, ?_, h.placed, ?_, ?_, ?_, trivial, h.fulls, h.empties⟩
  · show head + 1 = reading start (s.popped ++ [buf]).length
    rw [hh, reading_succ, hlen]
  · show (s.popped ++ [buf]).length ≤ s.pushed.length
    omega
  · have := h.room
    show s.pushed.length ≤ (s.popped ++ [buf]).length + entryCount.toNat
    omega
  · intro j y hj hy
    exact h.intact j y (by rw [hlen] at hj; omega) hy
  · show s.popped ++ [buf] = (s.pushed.map (·.2)).take (s.popped ++ [buf]).length
    have hget : (s.pushed.map (·.2))[s.popped.length]? = some x.2 := by rw [getElem?_map, hx]; rfl
    rw [hlen, take_add_one, hget, ← h.fifo, hbuf]
    rfl
  · have hp := h.prod
    simp only [ProdOk] at hp ⊢
    split at hp
    · trivial
    · exact hp
    · exact hp
    · exact ⟨hp.1, hp.2.1, hp.2.2.1, hp.2.2.2.1, by rw [hlen]; omega⟩
    · exact hp
    · exact ⟨hp.1, hp.2.1, by rw [hlen]; omega⟩
    · exact ⟨hp.1, hp.2.1, hp.2.2.1, by rw [hlen]; omega, hp.2.2.2.2⟩

theorem prodStep_inv (hp : Pow2 entryCount) (he : prodStep entryCount s = some s') : Inv entryCount start w s' := by
  have hok := h.prod
  have hle := h.le
  have hroom := h.room
  simp only [prodStep] at he
  cases hpc : s.p with
  | idle => simp [hpc] at he
  | acquireHead e =>
    simp only [hpc, some.injEq] at he
    simp only [ProdOk, hpc] at hok
    subst he
    refine h.setP _ ⟨hok, ?_, ?_, ?_, ?_⟩
    · simp only [St.unreadCount]; omega
    · simp only [St.unreadCount]; omega
    · rw [h.head]; congr 1; simp only [St.unreadCount]; omega
    · simp only [St.unreadCount]; omega
  | loadTail e head n =>
    simp only [hpc] at he
    simp only [ProdOk, hpc] at hok
    obtain ⟨hlen, hn, hc, hh, _⟩ := hok
    rw [h.tail, hh] at he
    split at he
    · rename_i hf
      cases he
      exact h.full ((full_iff hn hc).mp hf)
    · rename_i hf
      have hne : n ≠ entryCount.toNat := fun e => hf ((full_iff hn hc).mpr e)
      cases he
      exact h.setP _ ⟨hlen, rfl, rfl, by show s.pushed.length < s.popped.length + _; omega, by intro j hj; omega⟩
  | sqeTail e =>
    simp only [hpc, some.injEq] at he
    simp only [ProdOk, hpc] at hok
    subst he
    exact h.setP _ ⟨hok, h.tail⟩
  | sqeHead e tail =>
    simp only [hpc] at he
    simp only [ProdOk, hpc] at hok
    obtain ⟨hlen, ht⟩ := hok
    have hu : s.popped.length = s.pushed.length - s.unreadCount := by simp only [St.unreadCount]; omega
    have hn : s.unreadCount ≤ s.pushed.length := by simp only [St.unreadCount]; omega
    have hc : s.unreadCount ≤ entryCount.toNat := by simp only [St.unreadCount]; omega
    rw [ht, h.head, hu] at he
    split at he
    · rename_i hf
      cases he
      exact h.full ((full_iff hn hc).mp hf)
    · rename_i hf
      have hne : s.unreadCount ≠ entryCount.toNat := fun e => hf ((full_iff hn hc).mpr e)
      cases he
      exact h.setP _ ⟨hlen, rfl, by show s.pushed.length < s.popped.length + _; omega⟩
  | sqeMask e tail =>
    simp only [hpc, some.injEq] at he
    simp only [ProdOk, hpc] at hok
    subst he
    exact h.setP _ ⟨hok.1, hok.2.1, by rw [h.mask]; rfl, hok.2.2, by intro j hj; omega⟩
  | writeSlot e tail slot i =>
    simp only [hpc] at he
    split at he
    · rename_i hx
      cases he
      exact h.storeWord hp hpc hx
    · rename_i hx
      cases he
      exact h.publish hpc hx

theorem consStep_inv (he : consStep entryCount w s = some s') : Inv entryCount start w s' := by
  have hok := h.cons
  have hle := h.le
  have hroom := h.room
  have hu : s.popped.length + s.unreadCount = s.pushed.length := by simp only [St.unreadCount]; omega
  have hc : s.unreadCount ≤ entryCount.toNat := by omega
  -- an entry is unread, so the consumer may read the oldest one
  have hread : s.popped.length < s.pushed.length →
      ∃ x, s.pushed[s.popped.length]? = some x ∧ [] = x.2.take 0 :=
    fun hlt => ⟨_, getElem?_eq_getElem hlt, by simp⟩
  simp only [consStep] at he
  cases hpc : s.c with
  | idle => simp [hpc] at he
  | acquireTail =>
    simp only [hpc, some.injEq] at he
    subst he
    exact h.setC _ ⟨by rw [h.tail, hu], le_of_eq hu⟩
  | loadHead tail n =>
    simp only [hpc] at he
    simp only [ConsOk, hpc] at hok
    obtain ⟨ht, _⟩ := hok
    have hcn : n ≤ entryCount.toNat := by omega
    rw [h.head, ht] at he
    split at he
    · rename_i hf
      cases he
      exact h.empty ((empty_iff hcn).mp hf)
    · rename_i hf
      have hne : n ≠ 0 := fun e => hf ((empty_iff hcn).mpr e)
      cases he
      exact h.setC _ ⟨rfl, rfl, Nat.zero_le _, hread (by omega)⟩
  | cqeHead =>
    simp only [hpc, some.injEq] at he
    subst he
    exact h.setC _ h.head
  | cqeTail head =>
    simp only [hpc] at he
    simp only [ConsOk, hpc] at hok
    rw [hok, h.tail, ← hu] at he
    split at he
    · rename_i hf
      cases he
      exact h.empty ((empty_iff hc).mp hf)
    · rename_i hf
      have hne : s.unreadCount ≠ 0 := fun e => hf ((empty_iff hc).mpr e)
      cases he
      exact h.setC _ ⟨rfl, by show s.popped.length < s.pushed.length; omega⟩
  | cqeMask head =>
    simp only [hpc, some.injEq] at he
    simp only [ConsOk, hpc] at hok
    subst he
    exact h.setC _ ⟨hok.1, by rw [h.mask]; rfl, Nat.zero_le _, hread hok.2⟩
  | readSlot head slot i buf =>
    simp only [hpc] at he
    split at he
    · cases he
      simp only [ConsOk, hpc] at hok
      obtain ⟨hh, hslot, -, x, hx, hb⟩ := hok
      obtain ⟨hx1, _⟩ := h.placed _ _ hx
      refine h.setC _ ⟨hh, hslot, by omega, x, hx, ?_⟩
      have hlt : i < x.2.length := by omega
      have hget := getElem?_eq_getElem hlt
      have hw := h.intact _ _ le_rfl hx i _ hget
      rw [hx1, ← hh, ← hslot] at hw
      rw [take_add_one, hget, ← hb, hw]
      rfl
    · rename_i hi
      cases he
      exact h.consume hpc hi

end

theorem step_inv (hp : Pow2 entryCount) (s : St W) (e : Ev W) (s' : St W) (h : Inv entryCount start w s)
    (he : step entryCount w s e = some s') : Inv entryCount start w s' := by
  cases e with
  | push kernel e =>
    simp only [step] at he
    split at he
    · split at he
      · rename_i hlen
        cases he
        cases kernel
        · exact h.setP _ hlen
        · exact h.setP _ hlen
      · cases he
    · cases he
  | pop kernel =>
    simp only [step] at he
    split at he
    · cases he
      cases kernel
      · exact h.setC _ trivial
      · exact h.setC _ trivial
    · cases he
  | prod => exact prodStep_inv h hp he
  | cons => exact consStep_inv h he

theorem inv (hp : Pow2 entryCount) (h : (machine entryCount w start).Reachable s) : Inv entryCount start w s :=
  Machine.Reachable.inv (I := Inv entryCount start w) (fun _ h0 => start_inv entryCount start w h0) (step_inv hp) h

end Invariant

/-! ## Correctness -/

/-- Every schedule of one producer and one consumer, either code on either side, any
    power-of-two capacity and any first value of the counters. -/
theorem spsc_correct (entryCount start : U32) (w : Nat) (hp : Pow2 entryCount) (s : St W)
    (h : (machine entryCount w start).Reachable s) :
    s.popped <+: s.pushed.map (·.2) ∧
      (s.page.tail - s.page.head).toNat ≤ entryCount.toNat ∧
      (∀ x ∈ s.unread, ∀ i y, x.2[i]? = some y → s.page.slots x.1 i = y) ∧
      (∀ e tail slot i, s.p = .writeSlot e tail slot i → ∀ x ∈ s.unread, x.1 ≠ slot) ∧
      (∀ n ∈ s.fulls, n = entryCount.toNat) ∧ (∀ n ∈ s.empties, n = 0) := by
  have hi := inv hp h
  have hun : ∀ x ∈ s.unread, ∃ j, s.popped.length ≤ j ∧ s.pushed[j]? = some x := by
    intro x hx
    obtain ⟨_, hk⟩ := mem_iff_getElem?.mp hx
    rw [St.unread, getElem?_drop] at hk
    exact ⟨_, Nat.le_add_right _ _, hk⟩
  refine ⟨?_, ?_, ?_, ?_, hi.fulls, hi.empties⟩
  · rw [hi.fifo]; exact take_prefix _ _
  · rw [hi.unread_count, St.unreadCount]
    have := hi.room
    omega
  · intro x hx
    obtain ⟨j, hj, hx⟩ := hun x hx
    exact hi.intact j x hj hx
  · intro e tail slot i hpc x hx
    obtain ⟨_, hj, hx⟩ := hun x hx
    have hok := hi.prod
    simp only [ProdOk, hpc] at hok
    obtain ⟨-, ht, hslot, hroom, -⟩ := hok
    rw [hslot, ht]
    exact hi.slot_free hp hroom hj hx

/-- A ring of two one-word entries whose counters are about to wrap. -/
def wrapStart : St Nat := ⟨⟨0xFFFFFFFF, 0xFFFFFFFF, 1, fun _ _ => 0⟩, .idle, .idle, [], [], [], []⟩

/-- Two kernel pushes take `tail` past the wrap, a third finds the ring full, and a
    user-space pop returns the first entry. -/
def wrapTrace : List (Ev Nat) :=
  [.push true [7], .prod, .prod, .prod, .prod, .push true [8], .prod, .prod, .prod, .prod,
    .push true [9], .prod, .prod, .pop false, .cons, .cons, .cons, .cons, .cons]

theorem spsc_correct_at_wrap :
    ∃ s, (machine 2 1 0xFFFFFFFF).run wrapStart wrapTrace = some s ∧ s.page.tail = 1 ∧ s.popped = [[7]] ∧
      s.fulls = [2] ∧ s.popped <+: s.pushed.map (·.2) ∧ (s.page.tail - s.page.head).toNat ≤ 2 := by
  refine ⟨_, rfl, rfl, rfl, rfl, ?_⟩
  have h := spsc_correct 2 0xFFFFFFFF 1 ⟨1, rfl⟩ _
    (Machine.reachable_of_run wrapStart wrapTrace ⟨rfl, rfl, rfl, rfl, rfl, rfl, rfl, rfl, rfl⟩ rfl)
  exact ⟨h.1, h.2.1⟩

end Ostoo.CompletionPort.Ring
