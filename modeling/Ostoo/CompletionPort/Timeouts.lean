/-
  Ostoo.CompletionPort.Timeouts — from nanoseconds to ticks: OP_TIMEOUT and the deadline of
  `io_wait` (`io_port.rs`), over `Delay` (`task/timer.rs`).

  Both round up to milliseconds by adding 999 999 first, which leaves the 64 bits for the
  largest timeouts. An `io_wait` computes its deadline at once. An
  OP_TIMEOUT spawns a task, and the delay starts when that task is first polled: nothing ends
  early, but a longer timeout can end before a shorter one of the same tick whose task was
  polled late (`longer_timeout_first`).

  Slots for wakers are left out here: a request is looked at again whenever the executor or
  the waiting thread pleases. An `io_wait` that has its completions is not looked at again.
-/

import Mathlib.Algebra.Order.Floor.Div
import Ostoo.Lib.Machine
import Ostoo.Memory.Page

namespace Ostoo.CompletionPort.Timeouts

open Ostoo.Lib List
open Ostoo.Memory (addU64 addU64_of_lt addU64_eq_some)
open Option (bind_eq_some_iff)

def TICKS_PER_SECOND : Nat := 1000

def mulU64 (a b : Nat) : Option Nat := if a * b < 2 ^ 64 then some (a * b) else none

/-- The milliseconds of OP_TIMEOUT and of `sys_io_wait`. -/
def timeoutMs (timeoutNs : Nat) : Option Nat := do
  let sum ← addU64 timeoutNs 999_999
  pure (sum / 1_000_000)

/-- `Delay::from_millis` at tick `now`: the target. -/
def fromMillis (now ms : Nat) : Option Nat := do
  let scaled ← mulU64 ms TICKS_PER_SECOND
  let sum ← addU64 scaled 999
  addU64 now (sum / 1000)

/-- The ticks a timeout stands for. -/
def ticksFor (timeoutNs : Nat) : Nat := timeoutNs ⌈/⌉ 1_000_000

structure Request where
  start : Nat
  timeoutNs : Nat
  ms : Nat
  /-- `Delay::target`, set by the first poll of the task, or the deadline of an `io_wait`. -/
  target : Option Nat
  /-- The tick at which the completion was posted or the wait given up. -/
  ended : Option Nat
  deriving DecidableEq, Repr

structure St where
  tick : Nat
  requests : List Request
  deriving DecidableEq, Repr

inductive Ev
  | tick
  | opTimeout (timeoutNs : Nat)
  | ioWait (timeoutNs : Nat)
  /-- The request's task is polled, or its thread compares the clock with the deadline. -/
  | look (i : Nat)
  deriving DecidableEq, Repr

def Request.look (now : Nat) (r : Request) : Option Request :=
  if r.ended.isSome then none
  else (r.target.elim (fromMillis now r.ms) some).map fun target =>
    { r with target := some target, ended := if now ≥ target then some now else none }

def step (s : St) : Ev → Option St
  | .tick => some { s with tick := s.tick + 1 }
  | .opTimeout ns => do
    let ms ← timeoutMs ns
    pure { s with requests := s.requests ++ [⟨s.tick, ns, ms, none, none⟩] }
  | .ioWait ns =>
    if ns > 0 then do
      let ms ← timeoutMs ns
      let deadline ← addU64 s.tick ms
      pure { s with requests := s.requests ++ [⟨s.tick, ns, ms, some deadline, none⟩] }
    else none
  | .look i => do
    let r ← s.requests[i]?
    let r' ← r.look s.tick
    pure { s with requests := s.requests.set i r' }

def machine : Machine St Ev where
  start := fun s => s.requests = []
  step := step

/-! ## The property -/

/-- Every step from nanoseconds to the tick it ends at is exact. -/
def DelayExact (tick timeoutNs : Nat) : Prop :=
  timeoutMs timeoutNs = some (ticksFor timeoutNs) ∧
    fromMillis tick (ticksFor timeoutNs) = some (tick + ticksFor timeoutNs) ∧
    addU64 tick (ticksFor timeoutNs) = some (tick + ticksFor timeoutNs)

/-- Nothing ends before its ticks have gone by. -/
def NothingEarly (s : St) : Prop := ∀ r ∈ s.requests, ∀ w, r.ended = some w → r.start + ticksFor r.timeoutNs ≤ w

/-- When one of two requests of the same tick has ended, a shorter one has ended too and no later, or
    both are due in this tick. -/
def ShorterFirst (s : St) : Prop :=
  ∀ r ∈ s.requests, ∀ r' ∈ s.requests, r.start = r'.start → r.timeoutNs < r'.timeoutNs → ∀ w', r'.ended = some w' →
    (∃ w ≤ w', r.ended = some w) ∨ r.ended = none ∧ w' = s.tick ∧ ticksFor r.timeoutNs = ticksFor r'.timeoutNs

/-- Before the clock moves on, every new task is polled, and every request that is due is looked at. -/
def Prompt (s : St) : Ev → Prop
  | .tick => ∀ r ∈ s.requests, r.ended = none → r.target.any (s.tick < ·)
  | _ => True

instance (s : St) (e : Ev) : Decidable (Prompt s e) := by
  cases e <;> unfold Prompt <;> infer_instance

theorem ticksFor_eq (ns : Nat) : ticksFor ns = (ns + 999_999) / 1_000_000 := by
  rw [ticksFor, Nat.ceilDiv_eq_add_pred_div, Nat.add_sub_assoc (by decide)]

theorem ticksFor_mono {a b : Nat} (h : a ≤ b) : ticksFor a ≤ ticksFor b := by
  rw [ticksFor_eq, ticksFor_eq]
  exact Nat.div_le_div_right (Nat.add_le_add_right h _)

theorem timeoutMs_eq_some {ns ms : Nat} : timeoutMs ns = some ms ↔ ns + 999_999 < 2 ^ 64 ∧ ms = ticksFor ns := by
  simp only [timeoutMs, Option.bind_eq_bind, bind_eq_some_iff, addU64_eq_some, Option.pure_def, Option.some.injEq,
    ticksFor_eq]
  constructor
  · rintro ⟨_, ⟨hlt, rfl⟩, rfl⟩
    exact ⟨hlt, rfl⟩
  · rintro ⟨hlt, rfl⟩
    exact ⟨_, ⟨hlt, rfl⟩, rfl⟩

theorem fromMillis_eq_some {now ms target : Nat} (h : fromMillis now ms = some target) : target = now + ms := by
  obtain ⟨_, hs, h⟩ := of_bind h
  obtain ⟨_, hsum, h⟩ := of_bind h
  obtain ⟨-, rfl⟩ := addU64_eq_some.mp hsum
  obtain ⟨-, rfl⟩ := addU64_eq_some.mp h
  obtain ⟨-, hs⟩ := of_guard hs
  cases hs
  simp only [TICKS_PER_SECOND]
  omega

theorem delayExact_iff {tick ns : Nat} (htick : tick < 2 ^ 63) : DelayExact tick ns ↔ ns + 999_999 < 2 ^ 64 := by
  constructor
  · exact fun h => (timeoutMs_eq_some.mp h.1).1
  · intro h
    have hms := ticksFor_eq ns
    refine ⟨timeoutMs_eq_some.mpr ⟨h, rfl⟩, ?_, addU64_of_lt (by omega)⟩
    rw [fromMillis, mulU64, if_pos (by simp only [TICKS_PER_SECOND]; omega), Option.bind_eq_bind, Option.bind_some,
      TICKS_PER_SECOND, addU64_of_lt (by omega), Option.bind_some, addU64_of_lt (by omega)]
    congr 1
    omega

/-! ## Runs -/

/-- A request at tick `now`. -/
structure Request.Ok (now : Nat) (r : Request) : Prop where
  ms : r.ms = ticksFor r.timeoutNs
  started : r.start ≤ now
  target : ∀ t, r.target = some t → r.start + ticksFor r.timeoutNs ≤ t
  ended : ∀ w, r.ended = some w → w ≤ now ∧ ∃ t, r.target = some t ∧ t ≤ w

/-- A request at tick `now`, if nothing has been late. -/
structure Request.OnTime (now : Nat) (r : Request) : Prop where
  ok : r.Ok now
  target : r.target = none ∧ r.start = now ∨ r.target = some (r.start + ticksFor r.timeoutNs)
  ended : ∀ w, r.ended = some w → w = r.start + ticksFor r.timeoutNs
  due : r.ended = none → now ≤ r.start + ticksFor r.timeoutNs

section

variable {s s' : St} {r r' : Request} {now : Nat}

theorem nothingEarly (h : ∀ r ∈ s.requests, r.Ok s.tick) : NothingEarly s := by
  intro r hr w hw
  obtain ⟨-, t, ht, hle⟩ := (h r hr).ended w hw
  exact Nat.le_trans ((h r hr).target t ht) hle

theorem shorterFirst (h : ∀ r ∈ s.requests, r.OnTime s.tick) : ShorterFirst s := by
  intro r hr r' hr' hstart hlt w' hw'
  have hshort := ticksFor_mono hlt.le
  have hw := (h r' hr').ended w' hw'
  have hnow := ((h r' hr').ok.ended w' hw').1
  cases hend : r.ended with
  | some w =>
    have := (h r hr).ended w hend
    exact .inl ⟨w, by omega, rfl⟩
  | none =>
    have := (h r hr).due hend
    exact .inr ⟨rfl, by omega, by omega⟩

theorem Request.Ok.tick (h : r.Ok now) : r.Ok (now + 1) where
  ms := h.ms
  started := Nat.le_succ_of_le h.started
  target := h.target
  ended w hw := ⟨Nat.le_succ_of_le (h.ended w hw).1, (h.ended w hw).2⟩

theorem Request.OnTime.tick (h : r.OnTime now) (hg : r.ended = none → r.target.any (now < ·)) : r.OnTime (now + 1) := by
  have htarget : r.target = some (r.start + ticksFor r.timeoutNs) := by
    refine h.target.resolve_left fun hnone => ?_
    cases hend : r.ended with
    | none =>
      have := hg hend
      rw [hnone.1] at this
      cases this
    | some w =>
      obtain ⟨-, t, ht, -⟩ := h.ok.ended w hend
      exact nomatch hnone.1.symm.trans ht
  refine ⟨h.ok.tick, .inr htarget, h.ended, fun hend => ?_⟩
  have := hg hend
  rw [htarget, Option.any_some, decide_eq_true_eq] at this
  exact this

/-- What a look does: the first sets the target, and one at the target or after it ends the request. -/
theorem look_cases (h : r.Ok now) (hl : r.look now = some r') : r.ended = none ∧
    ∃ t, r' = { r with target := some t, ended := if now ≥ t then some now else none } ∧
      (r.target = some t ∨ r.target = none ∧ t = now + ticksFor r.timeoutNs) := by
  unfold Request.look at hl
  split at hl
  · cases hl
  rename_i hend
  obtain ⟨t, ht, rfl⟩ := of_map hl
  refine ⟨Option.not_isSome_iff_eq_none.mp hend, t, rfl, ?_⟩
  cases htarget : r.target with
  | some u =>
    rw [htarget] at ht
    exact .inl ht
  | none =>
    rw [htarget] at ht
    exact .inr ⟨rfl, by rw [fromMillis_eq_some ht, h.ms]⟩

theorem Request.Ok.look (h : r.Ok now) (hl : r.look now = some r') : r'.Ok now := by
  obtain ⟨-, t, rfl, ht⟩ := look_cases h hl
  refine ⟨h.ms, h.started, fun u hu => ?_, fun w hw => ?_⟩
  · cases hu
    rcases ht with ht | ⟨-, rfl⟩
    · exact h.target t ht
    · exact Nat.add_le_add_right h.started _
  · obtain ⟨hle, hw⟩ := of_guard hw
    cases hw
    exact ⟨le_refl _, t, rfl, hle⟩

theorem Request.OnTime.look (h : r.OnTime now) (hl : r.look now = some r') : r'.OnTime now := by
  have hok := h.ok.look hl
  obtain ⟨hend, t, rfl, ht⟩ := look_cases h.ok hl
  have hdue := h.due hend
  have hsame : t = r.start + ticksFor r.timeoutNs := by
    rcases h.target, ht with ⟨⟨hnone, hs⟩ | hsome, ht | ⟨hnone', ht⟩⟩
    · exact nomatch hnone.symm.trans ht
    · rw [ht, hs]
    · exact (Option.some.inj (hsome.symm.trans ht)).symm
    · exact nomatch hnone'.symm.trans hsome
  subst hsame
  refine ⟨hok, .inr rfl, fun w hw => ?_, fun _ => hdue⟩
  obtain ⟨hle, hw⟩ := of_guard hw
  cases hw
  exact Nat.le_antisymm hdue hle

/-- What holds of every request when it is made, when it is looked at and when the clock moves on
    holds of every request. -/
theorem step_all {I : Nat → Request → Prop} {e : Ev}
    (hmade : ∀ ns target, (∀ t, target = some t → t = s.tick + ticksFor ns) →
      I s.tick ⟨s.tick, ns, ticksFor ns, target, none⟩)
    (hlook : ∀ r r', I s.tick r → r.look s.tick = some r' → I s.tick r')
    (htick : e = .tick → ∀ r ∈ s.requests, I s.tick r → I (s.tick + 1) r)
    (h : ∀ r ∈ s.requests, I s.tick r) (hs : step s e = some s') : ∀ r ∈ s'.requests, I s'.tick r := by
  cases e <;> simp only [step] at hs
  case tick =>
    cases hs
    exact fun r hr => htick rfl r hr (h r hr)
  case opTimeout ns =>
    obtain ⟨ms, hms, hs⟩ := of_bind hs
    cases hs
    obtain ⟨-, rfl⟩ := timeoutMs_eq_some.mp hms
    exact forall_mem_append.mpr ⟨h, forall_mem_singleton.mpr (hmade ns none nofun)⟩
  case ioWait ns =>
    obtain ⟨-, hs⟩ := of_guard hs
    obtain ⟨_, hms, hs⟩ := of_bind hs
    obtain ⟨_, hd, hs⟩ := of_bind hs
    cases hs
    obtain ⟨-, rfl⟩ := timeoutMs_eq_some.mp hms
    obtain ⟨-, rfl⟩ := addU64_eq_some.mp hd
    exact forall_mem_append.mpr ⟨h, forall_mem_singleton.mpr (hmade ns _ fun t ht => (Option.some.inj ht).symm)⟩
  case look i =>
    obtain ⟨r, hr, hs⟩ := of_bind hs
    obtain ⟨r', hl, hs⟩ := of_bind hs
    cases hs
    intro a ha
    rcases mem_or_eq_of_mem_set ha with ha | rfl
    · exact h a ha
    · exact hlook r _ (h r (mem_of_getElem? hr)) hl

theorem made_ok {ns : Nat} {target : Option Nat} (h : ∀ t, target = some t → t = now + ticksFor ns) :
    Request.Ok now ⟨now, ns, ticksFor ns, target, none⟩ :=
  ⟨rfl, le_refl _, fun t ht => (h t ht).ge, nofun⟩

theorem made_onTime {ns : Nat} {target : Option Nat} (h : ∀ t, target = some t → t = now + ticksFor ns) :
    Request.OnTime now ⟨now, ns, ticksFor ns, target, none⟩ := by
  refine ⟨made_ok h, ?_, nofun, fun _ => Nat.le_add_right ..⟩
  cases target with
  | none => exact .inl ⟨rfl, rfl⟩
  | some t => exact .inr (congrArg some (h t rfl))

theorem step_ok {e : Ev} (h : ∀ r ∈ s.requests, r.Ok s.tick) (hs : step s e = some s') :
    ∀ r ∈ s'.requests, r.Ok s'.tick :=
  step_all (I := Request.Ok) (fun _ _ => made_ok) (fun _ _ => Request.Ok.look) (fun _ _ _ => Request.Ok.tick) h hs

theorem step_onTime {e : Ev} (h : ∀ r ∈ s.requests, r.OnTime s.tick) (hg : Prompt s e) (hs : step s e = some s') :
    ∀ r ∈ s'.requests, r.OnTime s'.tick := by
  refine step_all (I := Request.OnTime) (fun _ _ => made_onTime) (fun _ _ => Request.OnTime.look) ?_ h hs
  rintro rfl r hr hi
  exact hi.tick (hg r hr)

end

/-- The delay of a timeout is exact if and only if its nanoseconds plus 999 999 stay in the 64 bits. In
    every run, nothing ends before its delay is over; and in every run in which no request is kept
    waiting for longer than a tick, no longer timeout ends before a shorter one of the same tick. -/
theorem timeouts_exact (s : St) : (∀ ns, s.tick < 2 ^ 63 → 0 < ns → (DelayExact s.tick ns ↔ ns + 999_999 < 2 ^ 64)) ∧
    (machine.Reachable s → NothingEarly s) ∧ (machine.Reach Prompt s → ShorterFirst s) := by
  have hnone : ∀ {s}, machine.start s → ∀ {P : Request → Prop}, ∀ r ∈ s.requests, P r := fun h0 _ r hr => by
    rw [show _ = [] from h0] at hr
    cases hr
  refine ⟨fun ns htick _ => delayExact_iff htick, fun h => nothingEarly ?_, fun h => shorterFirst ?_⟩
  · exact Machine.Reachable.inv (I := fun s => ∀ r ∈ s.requests, r.Ok s.tick) (fun s h0 => hnone h0)
      (fun s e s' => step_ok) h
  · exact Machine.Reach.inv (I := fun s => ∀ r ∈ s.requests, r.OnTime s.tick) (fun s h0 => hnone h0)
      (fun s e s' => step_onTime) h

/-- Timeouts of two and of one tick and an `io_wait` of two, all of tick 7. -/
def oneTick : List Ev :=
  [.opTimeout 2_000_000, .opTimeout 1_000_000, .ioWait 1_000_001, .look 0, .look 1, .tick, .look 1, .tick,
    .look 2, .look 0]

theorem timeouts_of_one_tick : DelayExact 7 1_000_001 ∧
    ∃ s, (machine.Reach Prompt s ∧ s.requests.map (·.ended) = [some 9, some 8, some 9]) ∧ NothingEarly s ∧
      ShorterFirst s := by
  refine ⟨((timeouts_exact ⟨7, []⟩).1 1_000_001 (by decide) (by decide)).mpr (by decide), ?_⟩
  obtain ⟨s, hs⟩ := Machine.exists_reach (M := machine) (G := Prompt)
    (P := fun s => s.requests.map (·.ended) = [some 9, some 8, some 9])
    ⟨7, []⟩ oneTick rfl (by decide)
  exact ⟨s, hs, (timeouts_exact s).2.1 (hs.1.mono fun _ _ _ => trivial), (timeouts_exact s).2.2 hs.1⟩

/-- The largest timeout leaves the 64 bits; and of two timeouts of tick 0 the longer one is over at
    tick 2, and the shorter one, whose task was polled late, at tick 3. -/
theorem longer_timeout_first : timeoutMs (2 ^ 64 - 1) = none ∧
    ∃ s, machine.Reachable s ∧ ∃ r ∈ s.requests, ∃ r' ∈ s.requests, r.start = r'.start ∧ r.timeoutNs < r'.timeoutNs ∧
      r'.ended = some 2 ∧ r.ended = some 3 := by
  refine ⟨by decide, ⟨3, [⟨0, 2_000_000, 2, some 2, some 2⟩, ⟨0, 1_000_000, 1, some 3, some 3⟩]⟩, ?_, ?_⟩
  · exact Machine.reachable_of_run (M := machine) ⟨0, []⟩
      [.opTimeout 2_000_000, .opTimeout 1_000_000, .look 0, .tick, .tick, .look 0, .look 1, .tick, .look 1] rfl
        (by decide)
  · exact ⟨_, mem_cons_of_mem _ (mem_singleton_self _), _, mem_cons_self .., rfl, by decide, rfl, rfl⟩

end Ostoo.CompletionPort.Timeouts
