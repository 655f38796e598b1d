/-
  Ostoo.Lib.Pieces — lists cut at a separator, and put together again.

  `pieces sep s` are the non-empty stretches of `s` between separators, and `joined sep ps`
  is the list in which each of `ps` stands after a separator. Cutting undoes joining
  (`pieces_joined`), and one joined list continues another at a separator exactly if its
  pieces continue the other's (`joined_boundary_iff`): a test on the lists decides a
  question about their pieces.
-/

import Mathlib.Data.List.Basic

namespace Ostoo.Lib

open List

variable {α : Type} {sep : α} {ps : List (List α)}

/-- Each piece after a separator. -/
def joined (sep : α) (ps : List (List α)) : List α := ps.flatMap (sep :: ·)

/-- What can be a piece. -/
def IsPiece (sep : α) (p : List α) : Prop := p ≠ [] ∧ sep ∉ p

@[simp] theorem joined_nil : joined sep [] = [] := rfl

@[simp] theorem joined_cons (p : List α) (ps : List (List α)) : joined sep (p :: ps) = sep :: (p ++ joined sep ps) :=
  rfl

theorem joined_append (ps qs : List (List α)) : joined sep (ps ++ qs) = joined sep ps ++ joined sep qs :=
  flatMap_append

theorem joined_eq_nil_or (sep : α) (ps : List (List α)) : joined sep ps = [] ∨ ∃ t, joined sep ps = sep :: t := by
  cases ps with
  | nil => exact .inl rfl
  | cons p ps => exact .inr ⟨_, rfl⟩

theorem joined_eq_intercalate (ps : List (List α)) : joined sep ps = [sep].intercalate ([] :: ps) := by
  induction ps with
  | nil => rfl
  | cons p ps ih =>
    rw [joined_cons, ih]
    cases ps <;> simp [intercalate]

theorem getLast?_joined (h : ∀ p ∈ ps, IsPiece sep p) : (joined sep ps).getLast? ≠ some sep := by
  rcases eq_nil_or_concat ps with rfl | ⟨_, p, rfl⟩
  · exact nofun
  obtain ⟨hne, hsep⟩ := h p (by simp)
  rw [concat_eq_append, joined_append, joined_cons, joined_nil, append_nil]
  rw [getLast?_append_of_ne_nil _ (cons_ne_nil _ _), getLast?_cons_of_ne_nil hne]
  exact fun he => hsep (mem_of_getLast? he)

variable [DecidableEq α]

/-- The non-empty stretches between separators. -/
def pieces (sep : α) (s : List α) : List (List α) := (s.splitOn sep).filter (· ≠ [])

@[simp] theorem pieces_nil : pieces sep ([] : List α) = [] := rfl

theorem pieces_append_sep (s t : List α) : pieces sep (s ++ sep :: t) = pieces sep s ++ pieces sep t := by
  unfold pieces
  rw [splitOn_append_cons_self, filter_append]

theorem pieces_cons_sep (t : List α) : pieces sep (sep :: t) = pieces sep t := pieces_append_sep [] t

theorem splitOn_joined (h : ∀ p ∈ ps, sep ∉ p) : (joined sep ps).splitOn sep = [] :: ps := by
  rw [joined_eq_intercalate]
  exact splitOn_intercalate sep (forall_mem_cons.mpr ⟨not_mem_nil, h⟩) (cons_ne_nil _ _)

theorem pieces_joined (h : ∀ p ∈ ps, IsPiece sep p) : pieces sep (joined sep ps) = ps := by
  unfold pieces
  rw [splitOn_joined fun p hp => (h p hp).2, filter_cons_of_neg (by simp)]
  exact filter_eq_self.mpr fun p hp => decide_eq_true (h p hp).1

/-- A list that goes on from a joined one, at a separator or not at all, has its pieces and more. -/
theorem joined_boundary_iff {qs : List (List α)} (hp : ∀ p ∈ ps, IsPiece sep p) (hq : ∀ q ∈ qs, IsPiece sep q) :
    (joined sep qs = joined sep ps ∨ ∃ t, joined sep qs = joined sep ps ++ sep :: t) ↔ ps <+: qs := by
  constructor
  · rintro (h | ⟨t, h⟩)
    · obtain rfl : qs = ps := by rw [← pieces_joined hq, h, pieces_joined hp]
      exact prefix_rfl
    · refine ⟨pieces sep t, ?_⟩
      have hpieces := congrArg (pieces sep) h
      rw [pieces_append_sep, pieces_joined hp, pieces_joined hq] at hpieces
      exact hpieces.symm
  · rintro ⟨rs, rfl⟩
    rw [joined_append]
    rcases joined_eq_nil_or sep rs with hj | ⟨t, hj⟩
    · exact .inl (by rw [hj, append_nil])
    · exact .inr ⟨t, by rw [hj]⟩

theorem not_mem_of_mem_splitOn {s p : List α} (h : p ∈ s.splitOn sep) : sep ∉ p := by
  induction s generalizing p with
  | nil =>
    rw [mem_singleton.mp h]
    exact not_mem_nil
  | cons a s ih =>
    rw [splitOn_cons_eq_if_modifyHead] at h
    split at h
    · rcases mem_cons.mp h with rfl | h
      · exact not_mem_nil
      · exact ih h
    rename_i ha
    -- the element goes to the front of the first stretch
    cases hs : s.splitOn sep with
    | nil => exact absurd hs (splitOn_ne_nil _ _)
    | cons q qs =>
      rw [hs, modifyHead_cons] at h
      rcases mem_cons.mp h with rfl | h
      · intro hm
        rcases mem_cons.mp hm with rfl | hm
        · exact ha (beq_self_eq_true _)
        · exact ih (hs ▸ mem_cons_self) hm
      · exact ih (hs ▸ mem_cons_of_mem _ h)

theorem joined_splitOn (s : List α) : joined sep (s.splitOn sep) = sep :: s := by
  rw [joined_eq_intercalate]
  obtain ⟨_, _, hs⟩ := exists_cons_of_ne_nil (splitOn_ne_nil sep s)
  have hback : [sep].intercalate (s.splitOn sep) = s := intercalate_splitOn sep
  rw [hs] at hback ⊢
  rw [intercalate_cons_cons, hback]
  rfl

end Ostoo.Lib
