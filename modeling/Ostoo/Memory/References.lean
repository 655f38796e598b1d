/-
  Ostoo.Memory.References — the reference counts of frames (`ref_share`, `ref_release`).

  Each frame starts with one reference. As long as only frames that have references are shared
  and released (`Legal`), the table has the frames with two or more and their exact counts, and
  a release reports the last reference exactly when it drops it (`references_exact`). A frame
  without references counts as one again when it is shared (`a_released_frame_is_shared`).
-/

import Ostoo.Memory.Ledger

namespace Ostoo.Memory.Mem

open Ostoo.Lib OrdMap

inductive RefCall
  | share (f : Nat)
  | release (f : Nat)
  deriving DecidableEq

variable {τ : Type} {m m' : Mem τ} {calls : List RefCall} {f : Nat}

def refCall (m : Mem τ) : RefCall → Option (Mem τ)
  | .share f => m.refShare f
  | .release f => some (m.refRelease f).2

def references (calls : List RefCall) (f : Nat) : Nat := 1 + calls.count (.share f) - calls.count (.release f)

/-- No frame is released or shared without a reference, and none gets 65536 of them. -/
inductive Legal : List RefCall → Prop
  | nil : Legal []
  | share {calls : List RefCall} {f : Nat} : Legal calls → 1 ≤ references calls f → references calls f + 1 < 2 ^ 16 →
      Legal (calls ++ [.share f])
  | release {calls : List RefCall} {f : Nat} : Legal calls → 1 ≤ references calls f → Legal (calls ++ [.release f])

def Exact (m : Mem τ) (calls : List RefCall) : Prop :=
  ∀ f, m.refcounts.get? f = if 2 ≤ references calls f then some (references calls f) else none

theorem references_share (g : Nat) (h : 1 ≤ references calls f) :
    references (calls ++ [.share f]) g = references calls g + if g = f then 1 else 0 := by
  unfold references at h ⊢
  by_cases he : g = f
  · subst he
    simp
    omega
  · simp [he, Ne.symm he]

theorem references_release (g : Nat) :
    references (calls ++ [.release f]) g = references calls g - if g = f then 1 else 0 := by
  unfold references
  by_cases he : g = f
  · subst he
    simp
    omega
  · simp [he, Ne.symm he]

theorem Exact.share (h : Exact m calls) (h1 : 1 ≤ references calls f) (hmax : references calls f + 1 < 2 ^ 16) :
    ∃ m', m.refShare f = some m' ∧ Exact m' (calls ++ [.share f]) := by
  have hcount : (m.refcounts.get? f).getD 1 = references calls f := by
    rw [h f]
    split
    · rfl
    · rename_i h2
      exact le_antisymm h1 (not_lt.mp h2)
  refine ⟨_, by rw [refShare, hcount, if_pos hmax], fun g => ?_⟩
  rw [references_share g h1]
  show (m.refcounts.insert f _).get? g = _
  rw [get?_insert]
  split
  · rename_i he
    rw [he, if_pos (by omega)]
  · exact h g

theorem Exact.release (h : Exact m calls) (h1 : 1 ≤ references calls f) :
    Exact (m.refRelease f).2 (calls ++ [.release f]) ∧ ((m.refRelease f).1 = true ↔ references calls f = 1) := by
  have hf := h f
  split at hf
  · rename_i h2
    obtain ⟨r, hr, hother, hself, hmin⟩ := refRelease_some hf h2
    rw [hr]
    refine ⟨fun g => ?_, iff_of_false nofun (by omega)⟩
    rw [references_release]
    show r.get? g = _
    by_cases he : g = f
    · subst he
      rw [if_pos rfl, ← hself]
      cases hg : r.get? g with
      | none => rfl
      | some c => rw [Option.getD_some, if_pos (hmin c hg)]
    · rw [hother g he, if_neg he]
      exact h g
  · rw [refRelease_none hf]
    refine ⟨fun g => ?_, iff_of_true rfl (by omega)⟩
    rw [references_release]
    by_cases he : g = f
    · rw [he, hf, if_pos rfl, if_neg (by omega)]
    · rw [if_neg he]
      exact h g

/-- In every run of legal calls, and for the release that comes next. -/
theorem references_exact (h0 : m.refcounts = .empty) (h : Legal calls) :
    ∃ m', calls.foldlM refCall m = some m' ∧ Exact m' calls ∧
      ∀ f, 1 ≤ references calls f → ((m'.refRelease f).1 = true ↔ references calls f = 1) := by
  suffices hrun : ∃ m', calls.foldlM refCall m = some m' ∧ Exact m' calls by
    obtain ⟨m', hm, he⟩ := hrun
    exact ⟨m', hm, he, fun f h1 => (he.release h1).2⟩
  induction h with
  | nil => exact ⟨m, rfl, fun f => by rw [h0]; rfl⟩
  | share hl h1 hmax ih =>
    obtain ⟨m', hm, he⟩ := ih
    obtain ⟨m'', hs, he⟩ := he.share h1 hmax
    exact ⟨m'', by simp [hm, refCall, hs], he⟩
  | release hl h1 ih =>
    obtain ⟨_, hm, he⟩ := ih
    exact ⟨_, by simp [hm, refCall], (he.release h1).1⟩

/-- No frame has been shared. -/
def unshared : Mem Unit := ⟨⟨[], 0, []⟩, .empty, .empty⟩

def twoFrames : List RefCall := [.share 7, .share 8, .share 7, .release 7, .release 8, .release 8]

theorem references_exact_two_frames : ∃ m', twoFrames.foldlM refCall unshared = some m' ∧ Exact m' twoFrames ∧
    references twoFrames 7 = 2 ∧ references twoFrames 8 = 0 ∧ (m'.refRelease 7).1 = false := by
  have h : Legal twoFrames :=
    ((((((Legal.nil.share (f := 7) (by decide) (by decide)).share (f := 8) (by decide) (by decide)).share
      (f := 7) (by decide) (by decide)).release (f := 7) (by decide)).release (f := 8) (by decide)).release
      (f := 8) (by decide))
  obtain ⟨m', hm, he, hlast⟩ := references_exact (m := unshared) rfl h
  exact ⟨m', hm, he, rfl, rfl, Bool.eq_false_iff.mpr fun ht => absurd ((hlast 7 (by decide)).mp ht) (by decide)⟩

/-- Released by its last holder, and shared afterwards. -/
theorem a_released_frame_is_shared : ∃ m', [RefCall.release 7, .share 7].foldlM refCall unshared = some m' ∧
    references [.release 7, .share 7] 7 = 1 ∧ m'.refcounts.get? 7 = some 2 := by
  decide

end Ostoo.Memory.Mem
