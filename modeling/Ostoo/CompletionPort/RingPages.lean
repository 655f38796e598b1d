/-
  Ostoo.CompletionPort.RingPages — the sizes `io_setup_rings` settles on, and where in the
  two ring pages the kernel then reads and writes (`io_port.rs`, `completion_port.rs`,
  `ring.rs`). The arithmetic wraps, as in a release build; the build with overflow checks
  panics where it wraps, and computes the same elsewhere.

  User space maps both pages and may store anything in them between any two loads of the
  kernel. The kernel never uses the header's `mask`: an index, whatever its value, is
  masked with `entry_count - 1`. So an entry is inside its page as long as `entry_count`
  is what the negotiation promises (`entry_in_page`).

  `next_power_of_two` gives 0 above 2^31, and `min` keeps that 0: such a request gets a
  ring of 0 entries, whose mask is all ones.
-/

import Ostoo.CompletionPort.Ring

namespace Ostoo.CompletionPort.RingPages

open Ostoo.Lib Ostoo.Lib.Serial Ostoo.CompletionPort.Ring List BitVec

def PAGE_SIZE : Nat := 0x1000

def RING_ENTRIES_OFFSET : Nat := 64

def MAX_SQ_ENTRIES : U32 := 64

def MAX_CQ_ENTRIES : U32 := 128

/-- `size_of::<IoSubmission>()` -/
def SQE_SIZE : Nat := 48

/-- `size_of::<IoCompletion>()` -/
def CQE_SIZE : Nat := 24

/-! ## Negotiation -/

/-- `u32::next_power_of_two` -/
def nextPowerOfTwo (x : U32) : U32 :=
  if x.toNat ≤ 1 then 1 else BitVec.ofNat 32 (2 ^ ((x.toNat - 1).log2 + 1))

def maxU32 (a b : U32) : U32 := if a.toNat ≤ b.toNat then b else a

def minU32 (a b : U32) : U32 := if a.toNat ≤ b.toNat then a else b

/-- `requested.max(1).next_power_of_two().min(maximum)` -/
def negotiate (requested maximum : U32) : U32 := minU32 (nextPowerOfTwo (maxU32 requested 1)) maximum

/-- What a negotiated size promises. -/
structure Negotiated (requested maximum n : U32) : Prop where
  pow2 : Pow2 n
  pos : 1 ≤ n.toNat
  le : n.toNat ≤ maximum.toNat
  enough : min requested.toNat maximum.toNat ≤ n.toNat

theorem nextPowerOfTwo_of_le {x : U32} (h : x.toNat ≤ 2 ^ 31) :
    ∃ k, (nextPowerOfTwo x).toNat = 2 ^ k ∧ x.toNat ≤ 2 ^ k := by
  unfold nextPowerOfTwo
  split
  · rename_i h1
    exact ⟨0, rfl, h1⟩
  have hk : (x.toNat - 1).log2 + 1 < 32 := by
    have := (Nat.log2_lt (k := 31) (show x.toNat - 1 ≠ 0 by omega)).mpr (by omega)
    omega
  refine ⟨(x.toNat - 1).log2 + 1, ?_, ?_⟩
  · rw [toNat_ofNat, Nat.mod_eq_of_lt (Nat.pow_lt_pow_right (by decide) hk)]
  · have := @Nat.lt_log2_self (x.toNat - 1)
    omega

theorem nextPowerOfTwo_of_gt {x : U32} (h : 2 ^ 31 < x.toNat) : nextPowerOfTwo x = 0 := by
  have hk : (x.toNat - 1).log2 = 31 := by
    have h0 : x.toNat - 1 ≠ 0 := by omega
    have h1 := (Nat.log2_lt (k := 32) h0).mpr (by omega)
    have h2 := mt (Nat.log2_lt (k := 31) h0).mp (by omega)
    omega
  unfold nextPowerOfTwo
  rw [if_neg (by omega), hk]
  rfl

theorem maxU32_toNat (a b : U32) : (maxU32 a b).toNat = max a.toNat b.toNat := by
  unfold maxU32
  split <;> omega

theorem minU32_toNat (a b : U32) : (minU32 a b).toNat = min a.toNat b.toNat := by
  unfold minU32
  split <;> omega

variable {requested maximum entries index sqEntries cqEntries : U32}

theorem negotiated_of_le (hm : Pow2 maximum) (h : requested.toNat ≤ 2 ^ 31) :
    Negotiated requested maximum (negotiate requested maximum) := by
  have hpos := pow2_pos hm
  have hone : (1 : U32).toNat = 1 := rfl
  obtain ⟨k, hk, hle⟩ := nextPowerOfTwo_of_le (x := maxU32 requested 1) (by rw [maxU32_toNat, hone]; omega)
  rw [maxU32_toNat, hone] at hle
  have hn : (negotiate requested maximum).toNat = min (2 ^ k) maximum.toNat := by
    rw [negotiate, minU32_toNat, hk]
  refine ⟨?_, by omega, by omega, by omega⟩
  by_cases hkm : 2 ^ k ≤ maximum.toNat
  · exact ⟨k, by omega⟩
  · obtain ⟨j, _⟩ := hm
    exact ⟨j, by omega⟩

theorem negotiate_of_gt (h : 2 ^ 31 < requested.toNat) : negotiate requested maximum = 0 := by
  have hone : (1 : U32).toNat = 1 := rfl
  have hmax : 2 ^ 31 < (maxU32 requested 1).toNat := by
    rw [maxU32_toNat, hone]
    omega
  apply eq_of_toNat_eq
  rw [negotiate, nextPowerOfTwo_of_gt hmax, minU32_toNat]
  exact zero_min _

/-! ## Accesses -/

inductive Which
  | sq
  | cq
  deriving DecidableEq, Repr

/-- The bytes of one entry, from the start of its ring's page. -/
structure Access where
  ring : Which
  offset : Nat
  size : Nat
  deriving DecidableEq, Repr

def Access.InPage (a : Access) : Prop := a.offset + a.size ≤ PAGE_SIZE

/-- `read_entry` of the SQ. -/
def readSqe (sqEntries index : U32) : Access :=
  ⟨.sq, RING_ENTRIES_OFFSET + slotOf sqEntries index * SQE_SIZE, SQE_SIZE⟩

/-- `write_entry` of the CQ. -/
def writeCqe (cqEntries index : U32) : Access :=
  ⟨.cq, RING_ENTRIES_OFFSET + slotOf cqEntries index * CQE_SIZE, CQE_SIZE⟩

theorem slotOf_lt (h : Pow2 entries) (index : U32) : slotOf entries index < entries.toNat := by
  rw [slotOf, mask_toNat h]
  exact Nat.mod_lt _ (pow2_pos h)

theorem readSqe_inPage (h : Negotiated requested MAX_SQ_ENTRIES entries) : (readSqe entries index).InPage := by
  have hs := slotOf_lt h.pow2 index
  have hle : entries.toNat ≤ 64 := h.le
  simp only [Access.InPage, readSqe, RING_ENTRIES_OFFSET, SQE_SIZE, PAGE_SIZE]
  omega

theorem writeCqe_inPage (h : Negotiated requested MAX_CQ_ENTRIES entries) : (writeCqe entries index).InPage := by
  have hs := slotOf_lt h.pow2 index
  have hle : entries.toNat ≤ 128 := h.le
  simp only [Access.InPage, writeCqe, RING_ENTRIES_OFFSET, CQE_SIZE, PAGE_SIZE]
  omega

/-! ## The kernel on the pages -/

/-- The words of a header that the kernel loads. -/
structure Header where
  head : U32
  tail : U32

/-- Where a thread is in phase 1 of `io_ring_enter`. -/
inductive Enter
  | idle
  /-- `sq_head` is loaded, `sq_tail` comes next. -/
  | head (head toSubmit : U32)
  /-- Entry `i` of `count` comes next, then the new head. -/
  | reading (head : U32) (i count : Nat)

/-- Where a `push` on the CQ is. -/
inductive Post
  | idle
  | head (head : U32)

structure St where
  sq : Header
  cq : Header
  enter : Enter
  post : Post
  accesses : List Access

inductive Ev
  /-- User space stores what it likes in the headers (no entry is looked at here). -/
  | store (sq cq : Header)
  | enter (toSubmit : U32)
  | submit
  | post

def step (sqEntries cqEntries : U32) (s : St) : Ev → Option St
  | .store sq cq => some { s with sq := sq, cq := cq }
  | .enter toSubmit =>
    match s.enter with
    | .idle => if toSubmit = 0 then none else some { s with enter := .head s.sq.head toSubmit }
    | _ => none
  | .submit =>
    match s.enter with
    | .idle => none
    | .head head toSubmit =>
      some { s with enter := .reading head 0 (min (s.sq.tail - head).toNat toSubmit.toNat) }
    | .reading head i count =>
      if i < count then
        some { s with
          enter := .reading head (i + 1) count
          accesses := s.accesses ++ [readSqe sqEntries (head + BitVec.ofNat 32 i)] }
      else
        -- `advance_sq_head` loads the head again
        some { s with enter := .idle, sq := { s.sq with head := s.sq.head + BitVec.ofNat 32 count } }
  | .post =>
    match s.post with
    | .idle => some { s with post := .head s.cq.head }
    | .head head =>
      if cqEntries ≤ s.cq.tail - head then some { s with post := .idle }
      else
        some { s with
          post := .idle
          cq := { s.cq with tail := s.cq.tail + 1 }
          accesses := s.accesses ++ [writeCqe cqEntries s.cq.tail] }

/-- Two fresh pages with rings of these sizes. -/
def machine (sqEntries cqEntries : U32) : Machine St Ev where
  start := fun s => s = ⟨⟨0, 0⟩, ⟨0, 0⟩, .idle, .idle, []⟩
  step := step sqEntries cqEntries

theorem step_accesses {s s' : St} {e : Ev} (h : step sqEntries cqEntries s e = some s') :
    s'.accesses = s.accesses ∨ ∃ index, s'.accesses = s.accesses ++ [readSqe sqEntries index] ∨
      s'.accesses = s.accesses ++ [writeCqe cqEntries index] := by
  revert h
  fun_cases step sqEntries cqEntries s e
  all_goals intro h
  all_goals cases h
  case case7 => exact .inr ⟨_, .inl rfl⟩
  case case11 => exact .inr ⟨_, .inr rfl⟩
  all_goals exact .inl rfl

/-- With negotiated sizes every access is in its page, whatever user space stores. -/
theorem reachable_inPage {sqReq cqReq : U32} (hs : Negotiated sqReq MAX_SQ_ENTRIES sqEntries)
    (hc : Negotiated cqReq MAX_CQ_ENTRIES cqEntries) {s : St} (h : (machine sqEntries cqEntries).Reachable s) :
    ∀ a ∈ s.accesses, a.InPage := by
  refine Machine.Reachable.inv (I := fun s => ∀ a ∈ s.accesses, a.InPage) ?_ ?_ h
  · rintro s rfl a ha
    cases ha
  · intro s e s' hi he a ha
    rcases step_accesses he with h | ⟨_, h | h⟩ <;> rw [h] at ha
    · exact hi a ha
    all_goals rcases mem_append.mp ha with ha | ha
    · exact hi a ha
    · obtain rfl := mem_singleton.mp ha
      exact readSqe_inPage hs
    · exact hi a ha
    · obtain rfl := mem_singleton.mp ha
      exact writeCqe_inPage hc

/-- The sizes are as promised and the kernel stays in the pages exactly for requests of at
    most 2^31. -/
theorem ring_memory_confined (sqReq cqReq : U32) :
    (Negotiated sqReq MAX_SQ_ENTRIES (negotiate sqReq MAX_SQ_ENTRIES) ∧
      Negotiated cqReq MAX_CQ_ENTRIES (negotiate cqReq MAX_CQ_ENTRIES) ∧
      ∀ s, (machine (negotiate sqReq MAX_SQ_ENTRIES) (negotiate cqReq MAX_CQ_ENTRIES)).Reachable s →
        ∀ a ∈ s.accesses, a.InPage) ↔
    sqReq.toNat ≤ 2 ^ 31 ∧ cqReq.toNat ≤ 2 ^ 31 := by
  have hzero : ∀ {req maximum : U32}, Negotiated req maximum (negotiate req maximum) → req.toNat ≤ 2 ^ 31 := by
    intro req maximum h
    by_contra hgt
    have hpos := h.pos
    rw [negotiate_of_gt (Nat.lt_of_not_le hgt)] at hpos
    exact absurd hpos (by decide)
  refine ⟨fun ⟨hs, hc, _⟩ => ⟨hzero hs, hzero hc⟩, fun ⟨hs, hc⟩ => ?_⟩
  have hsq : Negotiated sqReq MAX_SQ_ENTRIES _ := negotiated_of_le ⟨6, rfl⟩ hs
  have hcq : Negotiated cqReq MAX_CQ_ENTRIES _ := negotiated_of_le ⟨7, rfl⟩ hc
  exact ⟨hsq, hcq, fun s h => reachable_inPage hsq hcq h⟩

/-- A request just above 2^31 gets no entries at all, and user space then chooses where
    the kernel reads: here at 4.8 MB from the start of the page. -/
theorem huge_request_reads_anywhere :
    negotiate 0x8000_0001 MAX_SQ_ENTRIES = 0 ∧
      ∃ s, (machine (negotiate 0x8000_0001 MAX_SQ_ENTRIES) (negotiate 1 MAX_CQ_ENTRIES)).Reachable s ∧
        ⟨.sq, 4_800_064, 48⟩ ∈ s.accesses := by
  refine ⟨by decide, Machine.exists_reachable ⟨⟨0, 0⟩, ⟨0, 0⟩, .idle, .idle, []⟩
    [.store ⟨100_000, 100_001⟩ ⟨0, 0⟩, .enter 1, .submit, .submit] rfl ?_⟩
  decide

end Ostoo.CompletionPort.RingPages
