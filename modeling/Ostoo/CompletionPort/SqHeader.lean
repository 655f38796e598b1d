/-
  Ostoo.CompletionPort.SqHeader — `sys_io_ring_enter` (`io_port.rs`, phase 1) against a user
  space that writes what it likes into the SQ page, header words included.

  The calls are those of `SqLoop`. `live` says which slots hold an entry that a tail advance has
  published and no call has taken: a call finds the advance by comparing the tail it reads with
  the one the last call read (`seen`), and takes a slot when it processes its entry.

  A batch is as long as the header words say, up to `to_submit`: with the tail eight ahead on
  a ring of four, one call takes every slot twice (`a_tail_too_far_ahead_is_replayed`).
-/

import Ostoo.CompletionPort.SqLoop

namespace Ostoo.CompletionPort.SqHeader

open Ostoo.Lib Ostoo.Lib.Serial
open Ostoo.CompletionPort.Ring (U32 slotOf)
open Ostoo.CompletionPort.SqLoop (Call sqPending enter process advance)

variable {E : Type}

structure St (E : Type) where
  sq : SqLoop.St E
  /-- The tail as the last call read it. -/
  seen : U32
  live : Nat → Bool

inductive Ev (E : Type)
  /-- User space writes the page. -/
  | write (head tail : U32) (slots : Nat → E)
  | enter (t toSubmit : Nat)
  | process (t : Nat) (woken : Bool)
  | advance (t : Nat)

section Step

variable (entryCount : U32)

/-- The slots between the tail of the last call and this one's are published. -/
def publishTo (s : St E) (tail : U32) (slot : Nat) : Bool :=
  s.live slot || decide (∃ j < (tail - s.seen).toNat, slotOf entryCount (s.seen + BitVec.ofNat 32 j) = slot)

def step (s : St E) : Ev E → Option (St E)
  | .write head tail slots => some { s with sq := { s.sq with head := head, tail := tail, slots := slots } }
  | .enter t toSubmit => (SqLoop.step entryCount s.sq (.enter t toSubmit)).map fun sq =>
      ⟨sq, s.sq.tail, publishTo entryCount s s.sq.tail⟩
  | .process t woken =>
    match s.sq.calls t with
    | .loop sqHead i _ => (SqLoop.step entryCount s.sq (.process t woken)).map fun sq =>
        { s with sq := sq, live := Function.update s.live (slotOf entryCount (sqHead + BitVec.ofNat 32 i)) false }
    | .out => none
  | .advance t => (SqLoop.step entryCount s.sq (.advance t)).map fun sq => { s with sq := sq }

/-- A ring as `init_header` leaves it. -/
def Start (s : St E) : Prop := SqLoop.Start 0 s.sq ∧ s.seen = 0 ∧ ∀ slot, s.live slot = false

def machine : Machine (St E) (Ev E) := ⟨Start, step entryCount⟩

/-- Every batch in progress is at most as long as the ring, and what it still has to take is
    published and not taken. -/
def Bounded (s : St E) : Prop :=
  ∀ t sqHead i count, s.sq.calls t = .loop sqHead i count → count ≤ entryCount.toNat ∧
    ∀ j, i ≤ j → j < count → s.live (slotOf entryCount (sqHead + BitVec.ofNat 32 j)) = true

/-- User space leaves the head alone; a call begins with no other in its loop, and with the tail at most a
    ring ahead of the head. -/
def Consistent (s : St E) : Ev E → Prop
  | .write head _ _ => head = s.sq.head
  | .enter _ _ => (∀ u, s.sq.calls u = .out) ∧ sqPending s.sq ≤ entryCount.toNat
  | _ => True

end Step

/-! ## The invariant -/

variable {entryCount sqHead : U32} {s s' : St E} {done count t i : Nat}

/-- The entries of the last call's tail that the head has not passed, the first `done` of them taken. -/
structure Window (entryCount : U32) (s : St E) (done : Nat) : Prop where
  room : (s.seen - s.sq.head).toNat ≤ entryCount.toNat
  live : ∀ j, done ≤ j → j < (s.seen - s.sq.head).toNat → s.live (slotOf entryCount (reading s.sq.head j)) = true

/-- Nobody is in the loop, or one thread, with a batch inside the window. -/
def Inv (entryCount : U32) (s : St E) : Prop :=
  ((∀ t, s.sq.calls t = .out) ∧ Window entryCount s 0) ∨
  ∃ t i count, s.sq.calls t = .loop s.sq.head i count ∧ (∀ u, u ≠ t → s.sq.calls u = .out) ∧
    count ≤ (s.seen - s.sq.head).toNat ∧ Window entryCount s i

theorem start_inv (h : Start s) : Inv entryCount s := by
  obtain ⟨⟨hh, -, hc, -⟩, hseen, -⟩ := h
  have hz : (s.seen - s.sq.head).toNat = 0 := by rw [hseen, hh]; rfl
  refine .inl ⟨hc, by omega, fun j _ hj => by omega⟩

theorem Inv.of_loop (h : Inv entryCount s) (ht : s.sq.calls t = .loop sqHead i count) :
    sqHead = s.sq.head ∧ (∀ u, u ≠ t → s.sq.calls u = .out) ∧ count ≤ (s.seen - s.sq.head).toNat ∧
      Window entryCount s i := by
  rcases h with ⟨hout, -⟩ | ⟨u, _, _, hu, hothers, hcount, hw⟩
  · rw [hout t] at ht
    cases ht
  by_cases htu : t = u
  · subst htu
    rw [hu] at ht
    cases ht
    exact ⟨rfl, hothers, hcount, hw⟩
  · rw [hothers t htu] at ht
    cases ht

theorem Inv.bounded (h : Inv entryCount s) : Bounded entryCount s := by
  intro t sqHead i count ht
  obtain ⟨rfl, -, hcount, hw⟩ := h.of_loop ht
  exact ⟨hcount.trans hw.room, fun j hij hj => hw.live j hij (by omega)⟩

theorem enter_inv (h : Window entryCount s 0) (hout : ∀ u, s.sq.calls u = .out)
    (hroom : sqPending s.sq ≤ entryCount.toNat)
    (t toSubmit : Nat) : Inv entryCount ⟨enter s.sq t toSubmit, s.sq.tail, publishTo entryCount s s.sq.tail⟩ := by
  refine .inr ⟨t, 0, min (sqPending s.sq) toSubmit, Function.update_self .., fun u hu => ?_, min_le_left .., hroom,
    fun j _ hj => ?_⟩
  · exact (Function.update_of_ne hu ..).trans (hout u)
  · simp only [publishTo, Bool.or_eq_true, decide_eq_true_eq]
    have hj : j < (s.sq.tail - s.sq.head).toNat := hj
    by_cases hold : j < (s.seen - s.sq.head).toNat
    · exact .inl (h.live j (Nat.zero_le j) hold)
    refine .inr ⟨j - (s.seen - s.sq.head).toNat, by bv_omega, ?_⟩
    have hidx : s.seen + BitVec.ofNat 32 (j - (s.seen - s.sq.head).toNat) = reading s.sq.head j := by
      simp only [reading]
      bv_omega
    rw [hidx]
    rfl

theorem process_inv (hp : Pow2 entryCount) (h : Inv entryCount s) {woken : Bool}
    (ht : s.sq.calls t = .loop sqHead i count) :
    Inv entryCount { s with
      sq := process entryCount s.sq t woken sqHead i count
      live := Function.update s.live (slotOf entryCount (sqHead + BitVec.ofNat 32 i)) false } := by
  obtain ⟨rfl, hothers, hcount, hw⟩ := h.of_loop ht
  refine .inr ⟨t, i + 1, count, Function.update_self .., fun u hu => ?_, hcount, hw.room, fun j hij hj => ?_⟩
  · exact (Function.update_of_ne hu ..).trans (hothers u hu)
  · -- the slot that is taken is no later entry's
    have hj : j < (s.seen - s.sq.head).toNat := hj
    have hroom := hw.room
    have hslot : slotOf entryCount (reading s.sq.head i) ≠ slotOf entryCount (reading s.sq.head j) :=
      slot_ne hp s.sq.head (by omega) (by omega)
    exact (Function.update_of_ne hslot.symm ..).trans (hw.live j (by omega) hj)

theorem advance_inv (h : Inv entryCount s) (ht : s.sq.calls t = .loop sqHead count count) :
    Inv entryCount { s with sq := advance s.sq t count } := by
  obtain ⟨-, hothers, _, hw⟩ := h.of_loop ht
  have hroom := hw.room
  have hrest : (s.seen - (s.sq.head + BitVec.ofNat 32 count)).toNat = (s.seen - s.sq.head).toNat - count := by bv_omega
  refine .inl ⟨fun u => ?_, ?_, fun j _ hj => ?_⟩
  · by_cases hu : u = t
    · exact hu ▸ Function.update_self ..
    · exact (Function.update_of_ne hu ..).trans (hothers u hu)
  · show (s.seen - (s.sq.head + BitVec.ofNat 32 count)).toNat ≤ entryCount.toNat
    omega
  · have hj : j < (s.seen - (s.sq.head + BitVec.ofNat 32 count)).toNat := hj
    have hlive := hw.live (count + j) (by omega) (by omega)
    rw [← reading_add s.sq.head count j] at hlive
    exact hlive

theorem step_inv (hp : Pow2 entryCount) {e : Ev E} (h : Inv entryCount s) (hg : Consistent entryCount s e)
    (hs : step entryCount s e = some s') : Inv entryCount s' := by
  cases e <;> simp only [step] at hs
  case write head tail slots =>
    cases hs
    obtain rfl : head = s.sq.head := hg
    rcases h with ⟨hout, hw⟩ | ⟨t, i, count, ht, hothers, hcount, hw⟩
    · exact .inl ⟨hout, hw.room, hw.live⟩
    · exact .inr ⟨t, i, count, ht, hothers, hcount, hw.room, hw.live⟩
  case enter t toSubmit =>
    obtain ⟨sq, hsq, rfl⟩ := of_map hs
    obtain ⟨-, hsq⟩ := of_guard hsq
    cases hsq
    rcases h with ⟨-, hw⟩ | ⟨u, i, count, hu, -⟩
    · exact enter_inv hw hg.1 hg.2 t toSubmit
    · rw [hg.1 u] at hu
      cases hu
  case process t woken =>
    split at hs
    · rename_i sqHead i count ht
      simp only [SqLoop.step, ht] at hs
      obtain ⟨sq, hsq, rfl⟩ := of_map hs
      obtain ⟨-, hsq⟩ := of_guard hsq
      cases hsq
      exact process_inv hp h ht
    · cases hs
  case advance t =>
    obtain ⟨_, hsq, rfl⟩ := of_map hs
    simp only [SqLoop.step] at hsq
    split at hsq
    · rename_i ht
      obtain ⟨hc, hsq⟩ := of_guard hsq
      cases hsq
      rw [hc.2] at ht
      exact advance_inv h ht
    · cases hsq

/-- In every run of this kind a batch is at most as long as the ring, and each of its entries is
    taken from a slot that was published and not taken before. -/
theorem sq_batches_bounded (entryCount : U32) (hp : Pow2 entryCount) (s : St E)
    (h : (machine entryCount).Reach (Consistent entryCount) s) : Bounded entryCount s :=
  (Machine.Reach.inv (I := Inv entryCount) (fun _ h0 => start_inv h0) (fun _ _ _ hi hg hs =>
    step_inv hp hi hg hs) h).bounded

/-- A ring of four entries that nobody has used, and slot `i` holding `i`. -/
def freshRing : St Nat := ⟨⟨0, 0, id, fun _ => .out, none, [], []⟩, 0, fun _ => false⟩

theorem freshRing_start : Start freshRing := ⟨⟨rfl, rfl, fun _ => rfl, rfl, rfl, rfl⟩, rfl, fun _ => rfl⟩

/-- The tail is moved by two, and a call takes the first of the two entries. -/
theorem sq_batches_bounded_one_of_two : ∃ s : St Nat, (machine 4).Reach (Consistent 4) s ∧ s.sq.processed = [0] ∧
    s.live 1 = true ∧ s.sq.calls 1 = .loop 0 1 2 ∧ Bounded 4 s := by
  have hg : (machine 4).Guarded (Consistent 4) freshRing [.write 0 2 id, .enter 1 9, .process 1 true] :=
    ⟨rfl, ⟨fun _ => rfl, by decide⟩, trivial, trivial⟩
  have h := Machine.reach_of_run freshRing _ freshRing_start hg rfl
  exact ⟨_, h, rfl, rfl, rfl, sq_batches_bounded 4 ⟨2, rfl⟩ _ h⟩

/-- The tail is written eight ahead of the head on a ring of four, and one call takes the entry of every slot twice. -/
def tooFarAhead : List (Ev Nat) :=
  [.write 0 8 id, .enter 1 9] ++ List.replicate 8 (.process 1 false) ++ [.advance 1]

theorem a_tail_too_far_ahead_is_replayed :
    (∃ s : St Nat, (machine 4).Reachable s ∧ s.sq.calls 1 = .loop 0 0 8 ∧ ¬ Bounded 4 s) ∧
    ∃ s : St Nat, (machine 4).Reachable s ∧ s.sq.processed = [0, 1, 2, 3, 0, 1, 2, 3] ∧ s.sq.head = 8 := by
  refine ⟨⟨_, Machine.reachable_of_run freshRing [.write 0 8 id, .enter 1 9] freshRing_start rfl, rfl, fun h => ?_⟩,
    ⟨_, Machine.reachable_of_run freshRing tooFarAhead freshRing_start rfl, rfl, rfl⟩⟩
  exact absurd (h 1 0 0 8 rfl).1 (by decide)

end Ostoo.CompletionPort.SqHeader
