/-
  Ostoo.Lib.Segments — values laid over disjoint stretches of the number line, and
  changing them on a window.

  A segment puts a value on the points `start ≤ a < start + len`. A list of segments is
  `Apart` when none is empty and no two share a point; it then gives each point at most
  one value (`valAt`). `cut lo hi f` splits one segment at the window
  `[lo, hi)`: what lies outside keeps the value, what lies inside gets `f`'s value, or is
  dropped where `f` gives none. Cutting every segment of an apart list keeps it apart
  (`cut_apart`) and changes the values exactly in the window (`valAt_cut`); the clipped
  segments are what the list covers there (`clip_covers`).
-/

import Mathlib.Data.List.Pairwise

namespace Ostoo.Lib

open List

universe u

structure Seg (α : Type u) where
  start : Nat
  len : Nat
  val : α

namespace Seg

variable {α : Type u} {p : Seg α} {a : Nat}

def stop (s : Seg α) : Nat := s.start + s.len

def Covers (s : Seg α) (a : Nat) : Prop := s.start ≤ a ∧ a < s.stop

deriving instance Decidable for Covers

/-- Two segments share no point. -/
def Disjoint (s t : Seg α) : Prop := s.stop ≤ t.start ∨ t.stop ≤ s.start

deriving instance Decidable for Disjoint

instance : Std.Symm (@Disjoint α) := ⟨fun _ _ h => Or.symm h⟩

theorem Disjoint.not_covers {s t : Seg α} (h : s.Disjoint t) (hs : s.Covers a) : ¬ t.Covers a := by
  intro ht
  obtain ⟨_, _⟩ := hs
  obtain ⟨h3, h4⟩ := ht
  rcases h with h | h <;> omega

/-- `p` lies inside `s`. -/
def Within (p s : Seg α) : Prop := s.start ≤ p.start ∧ p.stop ≤ s.stop

theorem Disjoint.within {s t q : Seg α} (h : s.Disjoint t) (hp : p.Within s) (hq : q.Within t) : p.Disjoint q := by
  obtain ⟨_, _⟩ := hp
  obtain ⟨h3, h4⟩ := hq
  rcases h with h | h
  · exact .inl (by omega)
  · exact .inr (by omega)

theorem Disjoint.start_ne {s t : Seg α} (h : s.Disjoint t) (hs : 0 < s.len) (ht : 0 < t.len) : s.start ≠ t.start := by
  simp only [Disjoint, stop] at h
  omega

theorem Within.refl (s : Seg α) : s.Within s := ⟨Nat.le_refl _, Nat.le_refl _⟩

/-- The parts of `s` left of the window, in it and right of it. -/
def cut (lo hi : Nat) (f : α → Option α) (s : Seg α) : List (Seg α) :=
  (if s.start < lo then [⟨s.start, min s.stop lo - s.start, s.val⟩] else []) ++
    (match f s.val with
      | some y => if max s.start lo < min s.stop hi then [⟨max s.start lo, min s.stop hi - max s.start lo, y⟩] else []
      | none => []) ++
    (if hi < s.stop then [⟨max s.start hi, s.stop - max s.start hi, s.val⟩] else [])

variable {lo hi : Nat} {f : α → Option α} {s : Seg α}

theorem mem_cut : p ∈ cut lo hi f s ↔ (s.start < lo ∧ p = ⟨s.start, min s.stop lo - s.start, s.val⟩) ∨
      (∃ y, f s.val = some y ∧ max s.start lo < min s.stop hi ∧
        p = ⟨max s.start lo, min s.stop hi - max s.start lo, y⟩) ∨
      (hi < s.stop ∧ p = ⟨max s.start hi, s.stop - max s.start hi, s.val⟩) := by
  simp only [cut, mem_append, or_assoc]
  refine or_congr ?_ (or_congr ?_ ?_)
  · by_cases h : s.start < lo <;> simp [h]
  · cases f s.val with
    | none => simp
    | some y => by_cases h : max s.start lo < min s.stop hi <;> simp [h]
  · by_cases h : hi < s.stop <;> simp [h]

theorem cut_of_outside (hpos : 0 < s.len) (hw : lo < hi) (h : s.stop ≤ lo ∨ hi ≤ s.start) : cut lo hi f s = [s] := by
  have hs : s.stop = s.start + s.len := rfl
  have hmid : ¬ max s.start lo < min s.stop hi := by omega
  have hf : (match f s.val with
      | some y => if max s.start lo < min s.stop hi then [(⟨max s.start lo, min s.stop hi - max s.start lo, y⟩ : Seg α)]
        else []
      | none => []) = [] := by
    cases f s.val <;> simp [hmid]
  rcases h with _ | _
  · have h1 : s.start < lo := by omega
    have h2 : ¬ hi < s.stop := by omega
    have h3 : min s.stop lo - s.start = s.len := by omega
    simp only [cut, hf, h1, h2, h3, if_true, if_false, append_nil]
  · have h1 : ¬ s.start < lo := by omega
    have h2 : hi < s.stop := by omega
    have h3 : max s.start hi = s.start := by omega
    have h4 : s.stop - s.start = s.len := by omega
    simp only [cut, hf, h1, h2, h3, h4, if_true, if_false, nil_append]

theorem cut_within (hpos : 0 < s.len) (hp : p ∈ cut lo hi f s) : p.Within s ∧ 0 < p.len := by
  rcases mem_cut.mp hp with ⟨_, rfl⟩ | ⟨-, -, _, rfl⟩ | ⟨h, rfl⟩ <;>
    refine ⟨⟨?_, ?_⟩, ?_⟩ <;> simp only [stop] at * <;> omega

/-- Cutting a segment with both ends on a grid at grid points gives such segments. -/
theorem cut_dvd {n : Nat} (hlo : n ∣ lo) (hhi : n ∣ hi) (hs : n ∣ s.start) (hl : n ∣ s.len)
    (hp : p ∈ cut lo hi f s) : n ∣ p.start ∧ n ∣ p.len := by
  have hstop : n ∣ s.stop := Nat.dvd_add hs hl
  have hmin : ∀ {a b : Nat}, n ∣ a → n ∣ b → n ∣ min a b := fun ha hb => by
    rcases Nat.le_total _ _ with h | h
    · rw [Nat.min_eq_left h]; exact ha
    · rw [Nat.min_eq_right h]; exact hb
  have hmax : ∀ {a b : Nat}, n ∣ a → n ∣ b → n ∣ max a b := fun ha hb => by
    rcases Nat.le_total _ _ with h | h
    · rw [Nat.max_eq_right h]; exact hb
    · rw [Nat.max_eq_left h]; exact ha
  rcases mem_cut.mp hp with ⟨-, rfl⟩ | ⟨-, -, -, rfl⟩ | ⟨-, rfl⟩
  · exact ⟨hs, Nat.dvd_sub (hmin hstop hlo) hs⟩
  · exact ⟨hmax hs hlo, Nat.dvd_sub (hmin hstop hhi) (hmax hs hlo)⟩
  · exact ⟨hmax hs hhi, Nat.dvd_sub hstop (hmax hs hhi)⟩

theorem cut_pairwise (hw : lo < hi) : (cut lo hi f s).Pairwise Disjoint := by
  rw [cut, append_assoc, pairwise_append]
  refine ⟨by split <;> simp, ?_, ?_⟩
  · rw [pairwise_append]
    refine ⟨?_, by split <;> simp, ?_⟩
    · cases f s.val with
      | none => exact .nil
      | some y => simp only; split <;> simp
    · intro p hp q hq
      split at hq
      · rw [mem_singleton] at hq
        cases hf : f s.val with
        | none => simp [hf] at hp
        | some y =>
          simp only [hf] at hp
          split at hp
          · rw [mem_singleton] at hp
            subst hp hq
            exact .inl (by simp only [stop]; omega)
          · cases hp
      · cases hq
  · intro p hp q hq
    split at hp
    · rw [mem_singleton] at hp
      have hst : lo ≤ q.start ∨ p.stop ≤ q.start := by
        rcases mem_append.mp hq with hq | hq
        · cases hf : f s.val with
          | none => simp [hf] at hq
          | some y =>
            simp only [hf] at hq
            split at hq
            · rw [mem_singleton] at hq
              subst hq
              exact .inl (by simp only; omega)
            · cases hq
        · split at hq
          · rw [mem_singleton] at hq
            subst hq
            exact .inl (by simp only; omega)
          · cases hq
      subst hp
      refine .inl ?_
      simp only [stop] at hst ⊢
      omega
    · cases hp

theorem cut_covers_iff (hw : lo < hi) {y : α} : (∃ p ∈ cut lo hi f s, p.Covers a ∧ p.val = y) ↔
      s.Covers a ∧ if lo ≤ a ∧ a < hi then f s.val = some y else s.val = y := by
  have hs : s.stop = s.start + s.len := rfl
  constructor
  · rintro ⟨_, hp, ⟨h1, h2⟩, hv⟩
    rcases mem_cut.mp hp with ⟨h, rfl⟩ | ⟨_, hz, h, rfl⟩ | ⟨h, rfl⟩ <;> simp only [stop] at h1 h2 hv h
    · refine ⟨⟨by omega, by omega⟩, ?_⟩
      rw [if_neg (by omega)]; exact hv
    · refine ⟨⟨by omega, by simp only [stop]; omega⟩, ?_⟩
      rw [if_pos (by omega), hz, hv]
    · refine ⟨⟨by omega, by simp only [stop]; omega⟩, ?_⟩
      rw [if_neg (by omega)]; exact hv
  · rintro ⟨⟨h1, h2⟩, hv⟩
    by_cases hin : lo ≤ a ∧ a < hi
    · rw [if_pos hin] at hv
      refine ⟨⟨max s.start lo, min s.stop hi - max s.start lo, y⟩,
        mem_cut.mpr (.inr (.inl ⟨y, hv, by omega, rfl⟩)), ⟨?_, ?_⟩, rfl⟩
      · simp only; omega
      · simp only [stop] at h2 ⊢; omega
    · rw [if_neg hin] at hv
      by_cases hlo : a < lo
      · refine ⟨⟨s.start, min s.stop lo - s.start, s.val⟩, mem_cut.mpr (.inl ⟨by omega, rfl⟩), ⟨h1, ?_⟩, hv⟩
        simp only [stop] at h2 ⊢; omega
      refine ⟨⟨max s.start hi, s.stop - max s.start hi, s.val⟩,
        mem_cut.mpr (.inr (.inr ⟨by omega, rfl⟩)), ⟨?_, ?_⟩, hv⟩
      · simp only; omega
      · simp only [stop] at h2 ⊢; omega

/-- The segment meets the window. -/
def Meets (lo hi : Nat) (s : Seg α) : Prop := s.start < hi ∧ lo < s.stop

instance (lo hi : Nat) : DecidablePred (@Meets α lo hi) := fun _ => inferInstanceAs (Decidable (_ ∧ _))

/-- The part of the segment in the window. -/
def clip (lo hi : Nat) (s : Seg α) : Seg α := ⟨max s.start lo, min s.stop hi - max s.start lo, s.val⟩

theorem clip_covers : (clip lo hi s).Covers a ↔ s.Covers a ∧ lo ≤ a ∧ a < hi := by
  simp only [Covers, clip, stop]
  omega

theorem cut_of_meets (hpos : 0 < s.len) (hw : lo < hi) (h : s.Meets lo hi) : cut lo hi f s =
    (if s.start < lo then [⟨s.start, lo - s.start, s.val⟩] else []) ++
      (f s.val).toList.map (fun y => { clip lo hi s with val := y }) ++
      (if hi < s.stop then [⟨hi, s.stop - hi, s.val⟩] else []) := by
  obtain ⟨_, _⟩ := h
  have hs : s.stop = s.start + s.len := rfl
  have hl : min s.stop lo = lo := by omega
  have hr : max s.start hi = hi := by omega
  have hm : max s.start lo < min s.stop hi := by omega
  rw [cut, hl, hr]
  cases f s.val <;> simp [hm, clip]

theorem clip_mem_cut (hpos : 0 < s.len) (hw : lo < hi) (h : s.Meets lo hi) : clip lo hi s ∈ cut lo hi some s := by
  obtain ⟨_, _⟩ := h
  have hs : s.stop = s.start + s.len := rfl
  exact mem_cut.mpr (.inr (.inl ⟨s.val, rfl, by omega, rfl⟩))

theorem cut_start_iff (hpos : 0 < s.len) (hw : lo < hi) :
    (∀ p ∈ cut lo hi f s, p.start = s.start) ↔ (s.Meets lo hi → s.stop ≤ hi ∧ ((f s.val).isSome → lo ≤ s.start)) := by
  have hs : s.stop = s.start + s.len := rfl
  constructor
  · rintro h ⟨_, _⟩
    refine ⟨?_, fun hf => ?_⟩
    · by_contra hlt
      have := h _ (mem_cut.mpr (.inr (.inr ⟨by omega, rfl⟩)))
      simp only at this
      omega
    · have := h _ (mem_cut.mpr (.inr (.inl ⟨_, Option.some_get hf |>.symm, by omega, rfl⟩)))
      simp only at this
      omega
  · intro h p hp
    rcases mem_cut.mp hp with ⟨-, rfl⟩ | ⟨y, hy, hlt, rfl⟩ | ⟨hlt, rfl⟩
    · rfl
    · have := (h ⟨by omega, by omega⟩).2 (by rw [hy]; rfl)
      exact Nat.max_eq_left this
    by_cases hm : s.Meets lo hi
    · exact absurd (h hm).1 (by omega)
    · simp only [Meets] at hm
      exact Nat.max_eq_left (by omega)

end Seg

/-! ## Lists of segments -/

variable {α : Type u}

/-- No segment is empty and no two share a point. -/
structure Apart (l : List (Seg α)) : Prop where
  pos : ∀ s ∈ l, 0 < s.len
  disjoint : l.Pairwise Seg.Disjoint

/-- The value on the point `a`. -/
def valAt (l : List (Seg α)) (a : Nat) : Option α := (l.find? fun s => s.Covers a).map Seg.val

namespace Apart

variable {l l' : List (Seg α)} {lo hi : Nat} {f : α → Option α} {a : Nat}

variable (h : Apart l)
include h

theorem disjoint_of_ne {s t : Seg α} (hs : s ∈ l) (ht : t ∈ l) (hne : s ≠ t) : s.Disjoint t :=
  h.disjoint.forall hs ht hne

theorem sublist (hl : l'.Sublist l) : Apart l' :=
  ⟨fun s hs => h.pos s (hl.subset hs), h.disjoint.sublist hl⟩

theorem starts_ne : l.Pairwise fun s t => s.start ≠ t.start :=
  h.disjoint.imp_of_mem fun hs ht hd => hd.start_ne (h.pos _ hs) (h.pos _ ht)

theorem eq_of_covers {s t : Seg α} (hs : s ∈ l) (ht : t ∈ l) (ha : s.Covers a) (hb : t.Covers a) : s = t := by
  by_contra hne
  exact (h.disjoint_of_ne hs ht hne).not_covers ha hb

theorem find?_covers {s : Seg α} (hs : s ∈ l) (hc : s.Covers a) : (l.find? fun s => s.Covers a) = some s := by
  cases hf : l.find? fun s => s.Covers a with
  | none => exact absurd hc (by simpa using find?_eq_none.mp hf s hs)
  | some t => rw [h.eq_of_covers hs (mem_of_find?_eq_some hf) hc (by simpa using find?_some hf)]

theorem valAt_eq_some {x : α} : valAt l a = some x ↔ ∃ s ∈ l, s.Covers a ∧ s.val = x := by
  simp only [valAt, Option.map_eq_some_iff]
  constructor
  · rintro ⟨s, hs, hv⟩
    exact ⟨s, mem_of_find?_eq_some hs, by simpa using find?_some hs, hv⟩
  · rintro ⟨s, hs, hc, hv⟩
    exact ⟨s, h.find?_covers hs hc, hv⟩

theorem valAt_isSome : (valAt l a).isSome ↔ ∃ s ∈ l, s.Covers a := by
  rw [Option.isSome_iff_exists]
  constructor
  · rintro ⟨_, hx⟩
    obtain ⟨s, hs, hc, -⟩ := h.valAt_eq_some.mp hx
    exact ⟨s, hs, hc⟩
  · rintro ⟨s, hs, hc⟩
    exact ⟨s.val, h.valAt_eq_some.mpr ⟨s, hs, hc, rfl⟩⟩

theorem valAt_congr (h' : Apart l') (hm : ∀ s, s ∈ l ↔ s ∈ l') : valAt l a = valAt l' a := by
  refine Option.ext fun x => ?_
  rw [h.valAt_eq_some, h'.valAt_eq_some]
  simp only [hm]

theorem cut_apart (hw : lo < hi) : Apart (l.flatMap (Seg.cut lo hi f)) := by
  refine ⟨fun p hp => ?_, pairwise_flatMap.mpr ⟨fun s _ => Seg.cut_pairwise hw, ?_⟩⟩
  · obtain ⟨s, hs, hp⟩ := mem_flatMap.mp hp
    exact (Seg.cut_within (h.pos s hs) hp).2
  · refine h.disjoint.imp_of_mem fun hs ht hd p hp q hq => ?_
    exact hd.within (Seg.cut_within (h.pos _ hs) hp).1 (Seg.cut_within (h.pos _ ht) hq).1

theorem valAt_cut (hw : lo < hi) :
    valAt (l.flatMap (Seg.cut lo hi f)) a = if lo ≤ a ∧ a < hi then (valAt l a).bind f else valAt l a := by
  refine Option.ext fun y => ?_
  rw [(h.cut_apart hw).valAt_eq_some]
  have hcut : (∃ p ∈ l.flatMap (Seg.cut lo hi f), p.Covers a ∧ p.val = y) ↔
      ∃ s ∈ l, ∃ p ∈ Seg.cut lo hi f s, p.Covers a ∧ p.val = y := by
    simp only [mem_flatMap]
    exact ⟨fun ⟨p, ⟨s, hs, hp⟩, h⟩ => ⟨s, hs, p, hp, h⟩, fun ⟨s, hs, p, hp, h⟩ => ⟨p, ⟨s, hs, hp⟩, h⟩⟩
  simp only [hcut, Seg.cut_covers_iff hw]
  split
  · rw [Option.bind_eq_some_iff]
    simp only [h.valAt_eq_some]
    exact ⟨fun ⟨s, hs, hc, hf⟩ => ⟨s.val, ⟨s, hs, hc, rfl⟩, hf⟩, fun ⟨x, ⟨s, hs, hc, hv⟩, hf⟩ => ⟨s, hs, hc, hv ▸ hf⟩⟩
  · rw [h.valAt_eq_some]

theorem clip_apart (hw : lo < hi) : Apart ((l.filter (Seg.Meets lo hi ·)).map (Seg.clip lo hi)) := by
  have hpart : ∀ s ∈ l.filter (Seg.Meets lo hi ·), (s.clip lo hi).Within s ∧ 0 < (s.clip lo hi).len := by
    intro s hs
    obtain ⟨hs, hm⟩ := mem_filter.mp hs
    exact Seg.cut_within (h.pos s hs) (Seg.clip_mem_cut (h.pos s hs) hw (by simpa using hm))
  refine ⟨fun p hp => ?_, pairwise_map.mpr ?_⟩
  · obtain ⟨s, hs, rfl⟩ := mem_map.mp hp
    exact (hpart s hs).2
  · exact (h.disjoint.filter _).imp_of_mem fun hs ht hd => hd.within (hpart _ hs).1 (hpart _ ht).1

theorem clip_covers :
    (∃ p ∈ (l.filter (Seg.Meets lo hi ·)).map (Seg.clip lo hi), p.Covers a) ↔
      (lo ≤ a ∧ a < hi) ∧ (valAt l a).isSome := by
  rw [h.valAt_isSome]
  constructor
  · rintro ⟨_, hp, hc⟩
    obtain ⟨s, hs, rfl⟩ := mem_map.mp hp
    obtain ⟨hc, hin⟩ := Seg.clip_covers.mp hc
    exact ⟨hin, s, (mem_filter.mp hs).1, hc⟩
  · rintro ⟨hin, s, hs, hc⟩
    have hm : s.Meets lo hi := ⟨Nat.lt_of_le_of_lt hc.1 hin.2, Nat.lt_of_le_of_lt hin.1 hc.2⟩
    exact ⟨_, mem_map_of_mem (mem_filter.mpr ⟨hs, by simpa using hm⟩), Seg.clip_covers.mpr ⟨hc, hin⟩⟩

end Apart

end Ostoo.Lib
