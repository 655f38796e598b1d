/-
  Ostoo.Lib.Linked — singly linked lists whose links are kept somewhere else.

  `link` leads from a node to the next one and `stop` ends the list. `Linked` relates the
  first node to the list of all of them. It is kept by every change of the links that leaves
  those of its nodes alone, which is how a list in memory is separate from the rest of it.
-/

import Mathlib.Data.List.Basic

namespace Ostoo.Lib

variable {α : Type} {link link' : α → α} {stop : α}

/-- The nodes from `head` on are `l`. -/
def Linked (link : α → α) (stop : α) : α → List α → Prop
  | head, [] => head = stop
  | head, a :: l => head = a ∧ a ≠ stop ∧ Linked link stop (link a) l

namespace Linked

variable {head a : α} {l l' : List α}

variable (h : Linked link stop head l)
include h

theorem congr (hlink : ∀ a ∈ l, link' a = link a) : Linked link' stop head l := by
  induction l generalizing head with
  | nil => exact h
  | cons b l ih =>
    obtain ⟨hb, hne, hl⟩ := h
    refine ⟨hb, hne, ?_⟩
    rw [hlink b List.mem_cons_self]
    exact ih hl fun a ha => hlink a (.tail _ ha)

theorem push (ha : a ≠ stop) (hhead : link' a = head) (hlink : ∀ b ∈ l, link' b = link b) :
    Linked link' stop a (a :: l) := by
  refine ⟨rfl, ha, ?_⟩
  rw [hhead]
  exact h.congr hlink

theorem pop (hne : head ≠ stop) : ∃ l', l = head :: l' ∧ Linked link stop (link head) l' := by
  cases l with
  | nil => exact absurd h hne
  | cons a l =>
    obtain ⟨rfl, -, hl⟩ := h
    exact ⟨l, rfl, hl⟩

omit h in
theorem eq_nil (h : Linked link stop stop l) : l = [] := by
  cases l with
  | nil => rfl
  | cons a l => exact absurd h.1.symm h.2.1

theorem unique (h' : Linked link stop head l') : l = l' := by
  induction l generalizing head l' with
  | nil =>
    cases h
    exact h'.eq_nil.symm
  | cons a l ih =>
    obtain ⟨rfl, hne, hl⟩ := h
    obtain ⟨_, rfl, hl'⟩ := h'.pop hne
    rw [ih hl hl']

end Linked

end Ostoo.Lib
