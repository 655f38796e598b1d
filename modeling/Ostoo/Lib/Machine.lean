/-
  Ostoo.Lib.Machine — machines that take one labelled step at a time, and what holds
  in every state their runs reach.

  A step is a partial function of the state and an event: `none` is an event that is
  not possible now (or a run that ends there). A run is guarded by a condition on the
  state before each step and the step's event (`Reach M G`); `fun _ _ => True` guards
  nothing.
-/

import Mathlib.Data.Option.Basic

namespace Ostoo.Lib

open Option

universe u v

/-- That a step or a run can be made, and where it leads passes a test, can be evaluated. -/
instance decidableExistsSome {α : Type u} {o : Option α} {P : α → Prop} [DecidablePred P] :
    Decidable (∃ a, o = some a ∧ P a) :=
  match o with
  | none => isFalse nofun
  | some a => decidable_of_iff (P a) (by simp)

section
variable {α β : Type u} {o : Option α} {b : β}

/-- A step made of two: the first was made, and the second from where it led. -/
theorem of_bind {f : α → Option β} (h : o.bind f = some b) : ∃ a, o = some a ∧ f a = some b := bind_eq_some_iff.mp h

theorem of_map {f : α → β} (h : o.map f = some b) : ∃ a, o = some a ∧ f a = b := map_eq_some_iff.mp h

theorem of_guard {p : Prop} [Decidable p] {a : α} (h : (if p then o else none) = some a) : p ∧ o = some a :=
  ite_none_right_eq_some.mp h

theorem of_unless {p : Prop} [Decidable p] {a : α} (h : (if p then none else o) = some a) : ¬ p ∧ o = some a :=
  ite_none_left_eq_some.mp h

end

structure Machine (σ : Type u) (ε : Type v) where
  start : σ → Prop
  step : σ → ε → Option σ

namespace Machine

variable {σ : Type u} {ε : Type v} (M : Machine σ ε)

/-- The states of the runs each of whose steps meets `G`. -/
inductive Reach (G : σ → ε → Prop) : σ → Prop
  | start {s : σ} : M.start s → Reach G s
  | step {s s' : σ} (e : ε) : Reach G s → G s e → M.step s e = some s' → Reach G s'

/-- Every run, whatever its steps. -/
def Reachable (s : σ) : Prop := M.Reach (fun _ _ => True) s

/-- The state after the events `es`, in order, if each was possible. -/
def run : σ → List ε → Option σ
  | s, [] => some s
  | s, e :: es => (M.step s e).bind fun s' => run s' es

/-- `run` that goes on only while each event passes the check. -/
def checkedRun (g : σ → ε → Bool) : σ → List ε → Option σ
  | s, [] => some s
  | s, e :: es => if g s e then (M.step s e).bind fun s' => checkedRun g s' es else none

/-- Each event of the trace meets the guard in the state it finds. -/
def Guarded (G : σ → ε → Prop) : σ → List ε → Prop
  | _, [] => True
  | s, e :: es => G s e ∧ match M.step s e with
    | some s' => Guarded G s' es
    | none => True

/-- The same machine, started in one state. -/
def startedAt (s : σ) : Machine σ ε := { M with start := (· = s) }

variable {M}

/-- What holds at the start and is kept by every step that meets the guard holds in
    every state reached. -/
theorem Reach.inv {G : σ → ε → Prop} {I : σ → Prop} (h0 : ∀ s, M.start s → I s)
    (hs : ∀ s e s', I s → G s e → M.step s e = some s' → I s') {s : σ} (h : M.Reach G s) : I s := by
  induction h with
  | start h => exact h0 _ h
  | step e _ hg he ih => exact hs _ e _ ih hg he

theorem Reach.mono {G G' : σ → ε → Prop} (hG : ∀ s e, G s e → G' s e) {s : σ} (h : M.Reach G s) : M.Reach G' s := by
  induction h with
  | start h => exact .start h
  | step e _ hg he ih => exact .step e ih (hG _ _ hg) he

theorem Reachable.inv {I : σ → Prop} (h0 : ∀ s, M.start s → I s)
    (hs : ∀ s e s', I s → M.step s e = some s' → I s') {s : σ} (h : M.Reachable s) : I s :=
  Reach.inv h0 (fun s e s' hi _ => hs s e s' hi) h

/-- What one state has and every step keeps is kept from that state on. -/
theorem Reach.inv_from {G : σ → ε → Prop} {I : σ → Prop} {s s' : σ} (h0 : I s)
    (hs : ∀ s e s', I s → G s e → M.step s e = some s' → I s') (h : (M.startedAt s).Reach G s') : I s' :=
  Reach.inv (M := M.startedAt s) (fun _ he => he ▸ h0) hs h

theorem Reach.append {G : σ → ε → Prop} {s s' : σ} (h : M.Reach G s) (h' : (M.startedAt s).Reach G s') : M.Reach G s' :=
  Reach.inv_from (I := M.Reach G) h (fun _ e _ hi hg he => .step e hi hg he) h'

theorem reach_run {G : σ → ε → Prop} {es : List ε} :
    ∀ {s t : σ}, M.Reach G s → M.Guarded G s es → M.run s es = some t → M.Reach G t := by
  induction es with
  | nil => intro s t h _ hr; cases hr; exact h
  | cons e es ih =>
    intro s t h hg hr
    obtain ⟨_, he, hr⟩ := of_bind hr
    obtain ⟨hg, hrest⟩ := hg
    rw [he] at hrest
    exact ih (.step e h hg he) hrest hr

theorem reach_of_run {G : σ → ε → Prop} (s : σ) (es : List ε) {t : σ} (h0 : M.start s) (hg : M.Guarded G s es)
    (hr : M.run s es = some t) : M.Reach G t :=
  reach_run (.start h0) hg hr

theorem reach_checkedRun {g : σ → ε → Bool} {es : List ε} {t : σ} :
    ∀ {s : σ}, M.Reach (fun s e => g s e = true) s → M.checkedRun g s es = some t →
      M.Reach (fun s e => g s e = true) t := by
  induction es with
  | nil =>
    intro s h hr
    cases hr
    exact h
  | cons e es ih =>
    intro s h hr
    obtain ⟨hg, hr⟩ := of_guard hr
    obtain ⟨_, he, hr⟩ := of_bind hr
    exact ih (.step e h hg he) hr

theorem exists_reach {G : σ → ε → Prop} [∀ s e, Decidable (G s e)] {P : σ → Prop} (s : σ) (es : List ε) (h0 : M.start s)
    (h : ∃ t, M.checkedRun (fun s e => decide (G s e)) s es = some t ∧ P t) : ∃ t, M.Reach G t ∧ P t := by
  obtain ⟨t, hr, hp⟩ := h
  exact ⟨t, (reach_checkedRun (.start h0) hr).mono fun _ _ => of_decide_eq_true, hp⟩

theorem guarded_true (es : List ε) : ∀ s, M.Guarded (fun _ _ => True) s es := by
  induction es with
  | nil => exact fun _ => trivial
  | cons e es ih =>
    intro s
    refine ⟨trivial, ?_⟩
    split
    · exact ih _
    · trivial

theorem reachable_of_run (s : σ) (es : List ε) {t : σ} (h0 : M.start s) (hr : M.run s es = some t) : M.Reachable t :=
  reach_of_run s es h0 (guarded_true es s) hr

theorem exists_reachable {P : σ → Prop} (s : σ) (es : List ε) (h0 : M.start s) (h : ∃ t, M.run s es = some t ∧ P t) :
    ∃ t, M.Reachable t ∧ P t := by
  obtain ⟨t, hr, hp⟩ := h
  exact ⟨t, reachable_of_run s es h0 hr, hp⟩

end Machine

end Ostoo.Lib
