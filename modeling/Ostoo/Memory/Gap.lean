/-
  Ostoo.Memory.Gap — the top-down search for a free window (`gap.rs`) and its use for
  `mmap` (`Process::find_mmap_gap`).

  The walk takes the occupied ranges from the highest down and keeps the end of the
  lowest gap seen so far. What it returns meets no range, above it or below it
  (`gapWalk_free`), so an area placed there keeps the map well formed.

  It is not always the highest free base: a range that ends below the floor takes the end of
  the gap down with it (`mmap_fails_above_a_low_area`), and sums may leave the 64 bits.
  `gap_exact_iff` says for which ranges the search is exact.
-/

import Mathlib.Order.Bounds.Defs
import Ostoo.Memory.Vma

namespace Ostoo.Memory

open Ostoo.Lib List OrdMap

def MMAP_FLOOR : Nat := 0x0000_0010_0000_0000

def MMAP_CEILING : Nat := 0x0000_4000_0000_0000

/-- The walk over the occupied ranges, the highest first. -/
def gapWalk (floor len : Nat) : Nat → List (Nat × Nat) → Option (Option Nat)
  | gapEnd, [] => do
    let bottom ← addU64 floor len
    pure (if gapEnd ≥ bottom then some (gapEnd - len) else none)
  | gapEnd, (rangeStart, rangeLen) :: rest => do
    let rangeEnd ← addU64 rangeStart rangeLen
    if rangeEnd > gapEnd then
      gapWalk floor len (if rangeStart < gapEnd then rangeStart else gapEnd) rest
    else
      let need ← addU64 rangeEnd len
      if gapEnd ≥ need ∧ rangeEnd ≥ floor then pure (some (gapEnd - len))
      else gapWalk floor len rangeStart rest

def findGapTopdown (ranges : List (Nat × Nat)) (floor ceiling len : Nat) : Option (Option Nat) :=
  if len = 0 ∨ ceiling ≤ floor ∨ len > ceiling - floor then pure none
  else gapWalk floor len ceiling ranges.reverse

def occupiedRanges (m : VmaMap) : List (Nat × Nat) := m.values.map fun v => (v.start, v.len)

def findMmapGap (m : VmaMap) (len : Nat) : Option (Option Nat) :=
  findGapTopdown (occupiedRanges m) MMAP_FLOOR MMAP_CEILING len

/-- What the walk returns lies between the floor and the current gap end and meets none
    of the ranges still to come; it is on every grid that the ranges and the length are on. -/
theorem gapWalk_free {floor len base : Nat} {l : List (Nat × Nat)} :
    ∀ {gapEnd : Nat}, (l.Pairwise fun a b => b.1 + b.2 ≤ a.1) → gapWalk floor len gapEnd l = some (some base) →
      floor ≤ base ∧ base + len ≤ gapEnd ∧ (∀ r ∈ l, r.1 + r.2 ≤ base ∨ base + len ≤ r.1) ∧
        ∀ n, n ∣ gapEnd → n ∣ len → (∀ r ∈ l, n ∣ r.1) → n ∣ base := by
  induction l with
  | nil =>
    intro gapEnd _ h
    obtain ⟨_, hb, h⟩ := Option.bind_eq_some_iff.mp h
    obtain ⟨-, rfl⟩ := addU64_eq_some.mp hb
    simp only [Option.pure_def, Option.some.injEq, Option.ite_none_right_eq_some] at h
    obtain ⟨_, rfl⟩ := h
    exact ⟨by omega, by omega, by simp, fun n h1 h2 _ => Nat.dvd_sub h1 h2⟩
  | cons r rest ih =>
    intro gapEnd hsorted h
    obtain ⟨hr, hrest⟩ := pairwise_cons.mp hsorted
    obtain ⟨rangeEnd, he, h⟩ := Option.bind_eq_some_iff.mp h
    obtain ⟨-, rfl⟩ := addU64_eq_some.mp he
    split at h
    · obtain ⟨h1, h2, h3, h4⟩ := ih hrest h
      refine ⟨h1, by split at h2 <;> omega, fun s hs => ?_, fun n hg hl hall => ?_⟩
      · rcases mem_cons.mp hs with rfl | hs
        · exact .inr (by split at h2 <;> omega)
        · exact h3 s hs
      · refine h4 n ?_ hl fun s hs => hall s (.tail _ hs)
        split
        · exact hall r mem_cons_self
        · exact hg
    · obtain ⟨need, hn, h⟩ := Option.bind_eq_some_iff.mp h
      obtain ⟨-, rfl⟩ := addU64_eq_some.mp hn
      split at h
      · obtain rfl : gapEnd - len = base := by simpa using h
        refine ⟨by omega, by omega, fun s hs => .inl ?_, fun n hg hl _ => Nat.dvd_sub hg hl⟩
        rcases mem_cons.mp hs with rfl | hs
        · omega
        · have := hr s hs
          omega
      · obtain ⟨h1, h2, h3, h4⟩ := ih hrest h
        refine ⟨h1, by omega, fun s hs => ?_, fun n _ hl hall => ?_⟩
        · rcases mem_cons.mp hs with rfl | hs
          · exact .inr h2
          · exact h3 s hs
        · exact h4 n (hall r mem_cons_self) hl fun s hs => hall s (.tail _ hs)

/-! ## The highest free base -/

/-- `[b, b + len)` lies in `[floor, ceiling)` and meets no range; a range without bytes is a point. -/
def Fits (ranges : List (Nat × Nat)) (floor ceiling len b : Nat) : Prop :=
  floor ≤ b ∧ b + len ≤ ceiling ∧ ∀ r ∈ ranges, r.1 + r.2 ≤ b ∨ b + len ≤ r.1

/-- Disjoint ranges in ascending order, with 64-bit ends. -/
structure Occupied (ranges : List (Nat × Nat)) : Prop where
  ascending : ranges.Pairwise fun a b => a.1 + a.2 ≤ b.1
  ends : ∀ r ∈ ranges, r.1 + r.2 < 2 ^ 64

/-- The search ended with the highest base that fits, or with `None` where none does. -/
def GapExact (ranges : List (Nat × Nat)) (floor ceiling len : Nat) (found : Option (Option Nat)) : Prop :=
  ∃ o, found = some o ∧ (∀ b, o = some b → IsGreatest (Fits ranges floor ceiling len) b) ∧
    (o = none → ∀ b, ¬ Fits ranges floor ceiling len b)

/-- No end of a range in the window leaves the 64 bits with `len` added; and no range ends
    below the floor, or one that ends in the window has room for `len` right above it, or
    there is no room at all. -/
def GapFindable (ranges : List (Nat × Nat)) (floor ceiling len : Nat) : Prop :=
  ceiling - floor < len ∨
    (∀ r ∈ ranges, r.1 + r.2 ≤ ceiling → r.1 + r.2 + len < 2 ^ 64) ∧
      ((∀ r ∈ ranges, floor ≤ r.1 + r.2) ∨ (∃ r ∈ ranges, Fits ranges floor ceiling len (r.1 + r.2)) ∨
        ∀ b, ¬ Fits ranges floor ceiling len b)

section

variable {floor len gapEnd ceiling b : Nat} {r : Nat × Nat} {rest l ranges : List (Nat × Nat)}

/-- Below a range that reaches over the end of the gap, the gap ends where that range starts. -/
theorem fits_cons_over (h : gapEnd < r.1 + r.2) :
    Fits (r :: rest) floor gapEnd len b ↔ Fits rest floor (if r.1 < gapEnd then r.1 else gapEnd) len b := by
  simp only [Fits, forall_mem_cons]
  constructor
  · rintro ⟨h1, h2, _, h4⟩
    exact ⟨h1, by split <;> omega, h4⟩
  · rintro ⟨h1, h2, h4⟩
    split at h2 <;> exact ⟨h1, by omega, by omega, h4⟩

/-- Where there is no room above a range that ends in the window, a base that fits is below it. -/
theorem fits_cons_below (hend : r.1 + r.2 ≤ gapEnd) (hroom : gapEnd < r.1 + r.2 + len) :
    Fits (r :: rest) floor gapEnd len b ↔ Fits rest floor r.1 len b := by
  simp only [Fits, forall_mem_cons]
  constructor
  · rintro ⟨h1, h2, _, h4⟩
    exact ⟨h1, by omega, h4⟩
  · rintro ⟨h1, h2, h4⟩
    exact ⟨h1, by omega, .inr h2, h4⟩

/-- What the walk from `gapEnd` down returns where no sum overflows. -/
structure Found (l : List (Nat × Nat)) (floor gapEnd len : Nat) (o : Option Nat) : Prop where
  highest : ∀ b, o = some b → IsGreatest (Fits l floor gapEnd len) b ∧
    ((∀ r ∈ l, floor ≤ r.1 + r.2) ∨ ∃ r ∈ l, Fits l floor gapEnd len (r.1 + r.2))
  missed : o = none → (∀ r ∈ l, ¬ Fits l floor gapEnd len (r.1 + r.2)) ∧
    ((∀ r ∈ l, floor ≤ r.1 + r.2) → ∀ b, ¬ Fits l floor gapEnd len b)

theorem Found.cons {e : Nat} {o : Option Nat} (h : Found rest floor e len o) (he : e ≤ r.1 + r.2)
    (hiff : ∀ b, Fits (r :: rest) floor gapEnd len b ↔ Fits rest floor e len b) (hroom : gapEnd < r.1 + r.2 + len) :
    Found (r :: rest) floor gapEnd len o := by
  have hself : ¬ Fits (r :: rest) floor gapEnd len (r.1 + r.2) := fun hfit => absurd hfit.2.1 (by omega)
  have hset : Fits (r :: rest) floor gapEnd len = Fits rest floor e len := funext fun b => propext (hiff b)
  refine ⟨fun b hb => ?_, fun hn => ?_⟩
  · rw [hset]
    obtain ⟨hmax, hwhere⟩ := h.highest b hb
    have h1 := hmax.1.1
    have h2 := hmax.1.2.1
    refine ⟨hmax, hwhere.imp (fun h => ?_) fun ⟨s, hs, hfit⟩ => ⟨s, mem_cons_of_mem _ hs, hfit⟩⟩
    exact forall_mem_cons.mpr ⟨by omega, h⟩
  · obtain ⟨h1, h2⟩ := h.missed hn
    refine ⟨forall_mem_cons.mpr ⟨hself, ?_⟩, ?_⟩ <;> rw [hset]
    · exact h1
    · exact fun h => h2 (forall_mem_cons.mp h).2

theorem gapWalk_found (hfloor : floor + len < 2 ^ 64) :
    ∀ {gapEnd : Nat}, (l.Pairwise fun a b => b.1 + b.2 ≤ a.1) → (∀ r ∈ l, r.1 + r.2 < 2 ^ 64) →
      (∀ r ∈ l, r.1 + r.2 ≤ gapEnd → r.1 + r.2 + len < 2 ^ 64) →
        ∃ o, gapWalk floor len gapEnd l = some o ∧ Found l floor gapEnd len o := by
  induction l with
  | nil =>
    intro gapEnd _ _ _
    refine ⟨_, by rw [gapWalk, addU64_of_lt hfloor]; rfl, ?_, ?_⟩
    · intro b hb
      simp only [Option.ite_none_right_eq_some, Option.some.injEq] at hb
      obtain ⟨_, rfl⟩ := hb
      refine ⟨⟨⟨by omega, by omega, by simp⟩, fun b hb => ?_⟩, by simp⟩
      have := hb.2.1
      omega
    · intro hnone
      simp only [ite_eq_right_iff, reduceCtorEq, imp_false] at hnone
      refine ⟨by simp, fun _ b hb => ?_⟩
      have := hb.1
      have := hb.2.1
      omega
  | cons r rest ih =>
    intro gapEnd hsorted hends hsums
    obtain ⟨hr, hrest⟩ := pairwise_cons.mp hsorted
    rw [gapWalk, addU64_of_lt (hends r mem_cons_self), Option.bind_eq_bind, Option.bind_some]
    have ih : ∀ e, e ≤ gapEnd → ∃ o, gapWalk floor len e rest = some o ∧ Found rest floor e len o := fun e he =>
      ih hrest (fun s hs => hends s (mem_cons_of_mem _ hs))
        fun s hs hle => hsums s (.tail _ hs) (hle.trans he)
    by_cases hover : gapEnd < r.1 + r.2
    · rw [if_pos hover]
      obtain ⟨o, ho, hfound⟩ := ih (if r.1 < gapEnd then r.1 else gapEnd) (by split <;> omega)
      exact ⟨o, ho, hfound.cons (by split <;> omega) (fun b => fits_cons_over hover) (by omega)⟩
    rw [if_neg hover, addU64_of_lt (hsums r mem_cons_self (by omega)), Option.bind_some]
    by_cases hroom : gapEnd < r.1 + r.2 + len
    · rw [if_neg fun h => absurd h.1 (by omega)]
      obtain ⟨o, ho, hfound⟩ := ih r.1 (by omega)
      exact ⟨o, ho, hfound.cons (by omega) (fun b => fits_cons_below (by omega) hroom) hroom⟩
    by_cases hlow : floor ≤ r.1 + r.2
    · rw [if_pos ⟨by omega, hlow⟩]
      have hbelow : ∀ b, r.1 + r.2 ≤ b → ∀ s ∈ r :: rest, s.1 + s.2 ≤ b ∨ b + len ≤ s.1 := by
        intro b hb s hs
        rcases mem_cons.mp hs with rfl | hs
        · exact .inl hb
        · have := hr s hs
          exact .inl (by omega)
      refine ⟨_, rfl, fun b hb => ?_, fun hn => nomatch hn⟩
      cases hb
      refine ⟨⟨⟨by omega, by omega, hbelow _ (by omega)⟩, fun b hb => ?_⟩, .inr ⟨r, mem_cons_self .., ?_⟩⟩
      · have := hb.2.1
        omega
      · exact ⟨hlow, by omega, hbelow _ le_rfl⟩
    · -- the range ends below the floor, and nothing below it fits
      rw [if_neg fun h => hlow h.2]
      obtain ⟨o, ho, hfound⟩ := ih r.1 (by omega)
      refine ⟨o, ho, fun b hb => ?_, fun _ => ⟨fun s hs hfit => ?_, fun h => absurd (h r mem_cons_self) hlow⟩⟩
      · obtain ⟨⟨⟨h1, _, -⟩, -⟩, -⟩ := hfound.highest b hb
        omega
      · have h1 := hfit.1
        rcases mem_cons.mp hs with rfl | hs
        · omega
        · have := hr s hs
          omega

theorem gapWalk_overflow (hsorted : l.Pairwise fun a b => b.1 + b.2 ≤ a.1) (hends : ∀ r ∈ l, r.1 + r.2 < 2 ^ 64)
    (h : ∃ r ∈ l, r.1 + r.2 ≤ gapEnd ∧ 2 ^ 64 ≤ r.1 + r.2 + len) : gapWalk floor len gapEnd l = none := by
  induction l generalizing gapEnd with
  | nil => obtain ⟨r, hr, -⟩ := h; cases hr
  | cons r rest ih =>
    obtain ⟨hr, hrest⟩ := pairwise_cons.mp hsorted
    obtain ⟨s, hs, _, hsum⟩ := h
    rw [gapWalk, addU64_of_lt (hends r mem_cons_self), Option.bind_eq_bind, Option.bind_some]
    have hs : s = r ∨ s ∈ rest ∧ s.1 + s.2 ≤ r.1 := (mem_cons.mp hs).imp_right fun hs => ⟨hs, hr s hs⟩
    by_cases hover : gapEnd < r.1 + r.2
    · rw [if_pos hover]
      rcases hs with rfl | ⟨hs, hle'⟩
      · omega
      · exact ih hrest (fun t ht => hends t (.tail _ ht)) ⟨s, hs, by split <;> omega, hsum⟩
    · have hno : ¬ r.1 + r.2 + len < 2 ^ 64 := by
        rcases hs with rfl | ⟨-, _⟩ <;> omega
      rw [if_neg hover, addU64, if_neg hno]
      rfl

theorem fits_reverse : Fits ranges.reverse floor ceiling len = Fits ranges floor ceiling len := by
  funext b
  simp only [Fits, mem_reverse]

theorem gapExact_iff_findable (hr : Occupied ranges) (hc : floor < ceiling)
    (hceil : ceiling < 2 ^ 64) (hlen : 0 < len) :
    GapExact ranges floor ceiling len (findGapTopdown ranges floor ceiling len) ↔
      GapFindable ranges floor ceiling len := by
  unfold GapExact GapFindable findGapTopdown
  by_cases hlong : ceiling - floor < len
  · rw [if_pos (.inr (.inr hlong))]
    refine iff_of_true ⟨none, rfl, fun b hb => (nomatch hb), fun _ b hb => ?_⟩ (.inl hlong)
    have h1 := hb.1
    have h2 := hb.2.1
    omega
  rw [if_neg (by omega)]
  have hsorted : ranges.reverse.Pairwise fun a b => b.1 + b.2 ≤ a.1 := pairwise_reverse.mpr hr.ascending
  have hends : ∀ r ∈ ranges.reverse, r.1 + r.2 < 2 ^ 64 := fun r h => hr.ends r (mem_reverse.mp h)
  by_cases hsums : ∀ r ∈ ranges, r.1 + r.2 ≤ ceiling → r.1 + r.2 + len < 2 ^ 64
  · obtain ⟨o, ho, hsome, hnone⟩ := gapWalk_found (show floor + len < 2 ^ 64 by omega) hsorted hends
      fun r h => hsums r (mem_reverse.mp h)
    simp only [fits_reverse, mem_reverse] at hsome hnone
    rw [ho]
    constructor
    · rintro ⟨_, ho', -, hno⟩
      obtain rfl := Option.some.inj ho'
      refine .inr ⟨hsums, ?_⟩
      cases o with
      | none => exact .inr (.inr (hno rfl))
      | some b => exact (hsome b rfl).2.imp_right .inl
    · rintro (h | ⟨-, h⟩)
      · exact absurd h hlong
      refine ⟨o, rfl, fun b hb => (hsome b hb).1, fun hn => ?_⟩
      rcases h with h | ⟨r, hr, h⟩ | h
      · exact (hnone hn).2 h
      · exact absurd h ((hnone hn).1 r hr)
      · exact h
  · have hbad : ∃ r ∈ ranges.reverse, r.1 + r.2 ≤ ceiling ∧ 2 ^ 64 ≤ r.1 + r.2 + len := by
      push Not at hsums
      obtain ⟨r, h, hle, hsum⟩ := hsums
      exact ⟨r, mem_reverse.mpr h, hle, hsum⟩
    rw [gapWalk_overflow hsorted hends hbad]
    refine iff_of_false ?_ ?_
    · rintro ⟨_, ho, -⟩
      cases ho
    · rintro (h | h)
      · exact hlong h
      · exact hsums h.1

end

/-! ## The areas of a process -/

variable {m : VmaMap}

theorem WellFormed.ascending (hm : WellFormed m) : (occupiedRanges m).Pairwise fun a b => a.1 + a.2 ≤ b.1 := by
  rw [occupiedRanges, values, map_map, pairwise_map]
  have hd := hm.disjoint
  rw [segs, values, map_map, pairwise_map] at hd
  refine (hd.and m.sorted).imp_of_mem fun {x y} hx hy h => ?_
  obtain ⟨hd, hlt⟩ := h
  rw [hm.key x hx, hm.key y hy] at hlt
  rcases hd with hd | hd
  · exact hd
  · simp only [Function.comp, Vma.seg, Seg.stop] at hd
    omega

theorem mem_occupiedRanges {r : Nat × Nat} : r ∈ occupiedRanges m ↔ ∃ x ∈ m, (x.2.start, x.2.len) = r := by
  simp only [occupiedRanges, mem_map, mem_values, Prod.exists]
  constructor
  · rintro ⟨v, ⟨k, hk⟩, hr⟩
    exact ⟨k, v, hk, hr⟩
  · rintro ⟨k, v, hk, hr⟩
    exact ⟨v, ⟨k, hk⟩, hr⟩

/-- The window found for an `mmap` lies in the mmap region, on the page grid, and meets no area. -/
theorem findMmapGap_free {len base : Nat} (hm : WellFormed m) (hl : PAGE_SIZE ∣ len)
    (h : findMmapGap m len = some (some base)) :
    MMAP_FLOOR ≤ base ∧ base + len ≤ MMAP_CEILING ∧ PAGE_SIZE ∣ base ∧
      ∀ x ∈ m, x.2.start + x.2.len ≤ base ∨ base + len ≤ x.2.start := by
  simp only [findMmapGap, findGapTopdown] at h
  split at h
  · cases h
  obtain ⟨h1, h2, h3, h4⟩ := gapWalk_free (pairwise_reverse.mpr hm.ascending) h
  refine ⟨h1, h2, h4 PAGE_SIZE (by decide) hl fun r hr => ?_, fun x hx => ?_⟩
  · obtain ⟨x, hx, rfl⟩ := mem_occupiedRanges.mp (mem_reverse.mp hr)
    exact hm.start_aligned x hx
  · exact h3 (x.2.start, x.2.len) (mem_reverse.mpr (mem_occupiedRanges.mpr ⟨x, hx, rfl⟩))

/-- The areas of a process leave the search exact: none lies below the mmap region, or one
    that ends in it has room right above it, or there is no room. -/
def MmapFindable (m : VmaMap) (len : Nat) : Prop :=
  (∀ x ∈ m, MMAP_FLOOR ≤ x.2.start + x.2.len) ∨
    (∃ x ∈ m, Fits (occupiedRanges m) MMAP_FLOOR MMAP_CEILING len (x.2.start + x.2.len)) ∨
      ∀ b, ¬ Fits (occupiedRanges m) MMAP_FLOOR MMAP_CEILING len b

/-- The search returns the highest free base, and `None` only where there is none, for
    exactly these ranges; and the one for `mmap` for exactly these maps of areas. -/
theorem gap_exact_iff {len : Nat} (hlen : 0 < len) :
    (∀ ranges floor ceiling, Occupied ranges → floor < ceiling → ceiling < 2 ^ 64 →
      (GapExact ranges floor ceiling len (findGapTopdown ranges floor ceiling len) ↔
        GapFindable ranges floor ceiling len)) ∧
    (∀ m, WellFormed m → EndsFit m →
      (GapExact (occupiedRanges m) MMAP_FLOOR MMAP_CEILING len (findMmapGap m len) ↔ MmapFindable m len)) := by
  refine ⟨fun ranges floor ceiling hr hc hceil => gapExact_iff_findable hr hc hceil hlen, fun m hm he => ?_⟩
  have hends : ∀ r ∈ occupiedRanges m, r.1 + r.2 < 2 ^ 64 := by
    intro r hr
    obtain ⟨x, hx, rfl⟩ := mem_occupiedRanges.mp hr
    exact he x hx
  refine (gapExact_iff_findable ⟨hm.ascending, hends⟩ (by decide) (by decide) hlen).trans ?_
  have hareas : ∀ {P : Nat → Prop}, (∀ r ∈ occupiedRanges m, P (r.1 + r.2)) ↔ ∀ x ∈ m, P (x.2.start + x.2.len) := by
    intro P
    refine ⟨fun h x hx => h (x.2.start, x.2.len) (mem_occupiedRanges.mpr ⟨x, hx, rfl⟩), fun h r hr => ?_⟩
    obtain ⟨x, hx, rfl⟩ := mem_occupiedRanges.mp hr
    exact h x hx
  constructor
  · rintro (hlong | ⟨-, h | ⟨r, hr, h⟩ | h⟩)
    · refine .inr (.inr fun b hb => ?_)
      have h1 := hb.1
      have h2 := hb.2.1
      omega
    · exact .inl (hareas.mp h)
    · obtain ⟨x, hx, rfl⟩ := mem_occupiedRanges.mp hr
      exact .inr (.inl ⟨x, hx, h⟩)
    · exact .inr (.inr h)
  · intro h
    by_cases hlong : MMAP_CEILING - MMAP_FLOOR < len
    · exact .inl hlong
    refine .inr ⟨fun r _ hle => ?_, h.imp hareas.mpr (Or.imp_left fun ⟨x, hx, h⟩ => ?_)⟩
    · simp only [MMAP_CEILING, MMAP_FLOOR] at *
      omega
    · exact ⟨(x.2.start, x.2.len), mem_occupiedRanges.mpr ⟨x, hx, rfl⟩, h⟩

/-- One read-write area. -/
def oneArea (start len : Nat) : VmaMap := OrdMap.empty.insert start ⟨start, len, 3, 0x22, none, 0⟩

theorem oneArea_wellFormed {start len : Nat} (hs : PAGE_SIZE ∣ start) (hl : PAGE_SIZE ∣ len) (hpos : 0 < len) :
    WellFormed (oneArea start len) :=
  insert_wellFormed (v := ⟨start, len, 3, 0x22, none, 0⟩) ⟨by simp, by simp, by simp, by simp, .nil⟩ hs hl hpos
    (by simp)

theorem oneArea_all {start len : Nat} {P : Nat → Nat → Prop} (h : P start len) :
    ∀ x ∈ oneArea start len, P x.2.start x.2.len := by
  intro x hx
  rcases mem_insert.mp hx with rfl | ⟨hx, -⟩
  · exact h
  · simp at hx

/-- An area of the mmap region does not hide the gap above it. -/
theorem gap_exact_in_the_region :
    GapExact [(0x4000, 0x1000)] 0x1000 0x5000 0x2000 (findGapTopdown [(0x4000, 0x1000)] 0x1000 0x5000 0x2000) ∧
    ∃ o, findMmapGap (oneArea MMAP_FLOOR 0x1000) 0x1000 = some o := by
  refine ⟨((gap_exact_iff (by decide)).1 _ _ _ ⟨by simp, by simp⟩ (by decide) (by decide)).mpr
    (.inr ⟨by simp, .inl (by simp)⟩), ?_⟩
  obtain ⟨o, ho, -⟩ := ((gap_exact_iff (by decide : 0 < 0x1000)).2 (oneArea MMAP_FLOOR 0x1000)
    (oneArea_wellFormed (by decide) (by decide) (by decide))
    (oneArea_all (P := fun s l => s + l < 2 ^ 64) (by decide))).mpr
      (.inl (oneArea_all (P := fun s l => MMAP_FLOOR ≤ s + l) (by decide)))
  exact ⟨o, ho⟩

/-- With one area below the mmap region, the empty region has no room. -/
theorem mmap_fails_above_a_low_area :
    WellFormed (oneArea 0x10000 0x1000) ∧ findMmapGap (oneArea 0x10000 0x1000) 0x1000 = some none ∧
      Fits (occupiedRanges (oneArea 0x10000 0x1000)) MMAP_FLOOR MMAP_CEILING 0x1000 (MMAP_CEILING - 0x1000) :=
  ⟨oneArea_wellFormed (by decide) (by decide) (by decide), by decide, by decide, by decide, by decide⟩

end Ostoo.Memory
