/-
  Ostoo.Memory.Vma — the per-process map of virtual memory areas (`process.rs`).

  `munmapVmas` and `mprotectVmas` run the same sweep: collect the keys of the areas
  that meet the window, split each in one of four ways, take all of them out and put the
  parts back. Read as segments that carry the areas' attributes, one split is
  `Lib.Seg.cut` (`munmapSplit_cuts`, `mprotectSplit_cuts`), so the sweep changes the
  attributes of exactly the addresses in the window and hands back exactly the covered
  part of it in pages (`sweep_spec`).
-/

import Ostoo.Lib.OrdMap
import Ostoo.Lib.Segments
import Ostoo.Memory.Page

namespace Ostoo.Memory

open Ostoo.Lib List OrdMap

/-! ## Areas -/

structure Vma where
  start : Nat
  len : Nat
  prot : BitVec 32
  flags : BitVec 32
  fd : Option Nat
  offset : Nat
  deriving DecidableEq, Repr

def PROT_NONE : BitVec 32 := 0x0
def PROT_WRITE : BitVec 32 := 0x2
def PROT_EXEC : BitVec 32 := 0x4

def MAP_SHARED : BitVec 32 := 0x01
def MAP_PRIVATE : BitVec 32 := 0x02
def MAP_FIXED : BitVec 32 := 0x10
def MAP_ANONYMOUS : BitVec 32 := 0x20

def protToPageFlags (prot : BitVec 32) : PtFlags :=
  if prot = PROT_NONE then
    -- no PRESENT bit: any access faults
    ⟨false, false, true, false⟩
  else
    ⟨true, prot &&& PROT_WRITE ≠ 0, true, prot &&& PROT_EXEC = 0⟩

def Vma.pageTableFlags (v : Vma) : PtFlags := protToPageFlags v.prot

/-- What an area says of each of its addresses. -/
structure Attr where
  prot : BitVec 32
  flags : BitVec 32
  fd : Option Nat
  offset : Nat
  deriving DecidableEq, Repr

def Vma.attr (v : Vma) : Attr := ⟨v.prot, v.flags, v.fd, v.offset⟩

def Vma.seg (v : Vma) : Seg Attr := ⟨v.start, v.len, v.attr⟩

theorem Vma.seg_inj {v w : Vma} (h : v.seg = w.seg) : v = w := by
  cases v
  cases w
  obtain ⟨rfl, rfl, rfl, rfl, rfl, rfl⟩ := h
  rfl

theorem Vma.seg_surj (s : Seg Attr) : ∃ v : Vma, v.seg = s :=
  ⟨⟨s.start, s.len, s.val.prot, s.val.flags, s.val.fd, s.val.offset⟩, rfl⟩

abbrev VmaMap := OrdMap Nat Vma

section

variable (m : VmaMap)

def segs : List (Seg Attr) := m.values.map Vma.seg

/-- The attributes of address `a`; none when no area covers it. -/
def attrAt (a : Nat) : Option Attr := valAt (segs m) a

structure WellFormed (m : VmaMap) : Prop where
  key : ∀ x ∈ m, x.1 = x.2.start
  start_aligned : ∀ x ∈ m, PAGE_SIZE ∣ x.2.start
  len_aligned : ∀ x ∈ m, PAGE_SIZE ∣ x.2.len
  len_pos : ∀ x ∈ m, 0 < x.2.len
  disjoint : (segs m).Pairwise Seg.Disjoint

/-- Every area's end is a 64-bit number. -/
def EndsFit : Prop := ∀ x ∈ m, x.2.start + x.2.len < 2 ^ 64

/-! ## munmap and mprotect on the map -/

/-- The keys of the areas that meet `[start, stop)`. -/
def overlapping (start stop : Nat) : Option (List Nat) := do
  let ends ← (m.rangeTo stop).mapM fun x => (addU64 x.2.start x.2.len).map fun e => (x.1, e)
  pure ((ends.filter fun x => x.2 > start).map (·.1))

/-- The body of both functions as one: `split` gives, for an area that meets the window,
    the page range handed back and the entries inserted for it. -/
def sweep (split : Nat → Nat → Vma → Nat → (Nat × Nat) × List (Nat × Vma)) (m : VmaMap) (start len : Nat) :
    Option (VmaMap × List (Nat × Nat)) := do
  let stop ← addU64 start len
  let keys ← overlapping m start stop
  let parts ← keys.mapM fun key => do
    let vma ← m.get? key
    let vmaEnd ← addU64 vma.start vma.len
    pure (split start stop vma vmaEnd)
  pure ((m.removeAll keys).insertAll (parts.flatMap (·.2)), parts.map (·.1))

def munmapSplit (start stop : Nat) (vma : Vma) (vmaEnd : Nat) : (Nat × Nat) × List (Nat × Vma) :=
  if start ≤ vma.start ∧ stop ≥ vmaEnd then
    ((vma.start, vma.len / PAGE_SIZE), [])
  else if start ≤ vma.start ∧ stop < vmaEnd then
    let removed := stop - vma.start
    ((vma.start, removed / PAGE_SIZE), [(stop, { vma with start := stop, len := vma.len - removed })])
  else if start > vma.start ∧ stop ≥ vmaEnd then
    ((start, (vmaEnd - start) / PAGE_SIZE), [(vma.start, { vma with len := start - vma.start })])
  else
    ((start, (stop - start) / PAGE_SIZE),
      [(vma.start, { vma with len := start - vma.start }), (stop, { vma with start := stop, len := vmaEnd - stop })])

def mprotectSplit (prot : BitVec 32) (start stop : Nat) (vma : Vma) (vmaEnd : Nat) :
    (Nat × Nat) × List (Nat × Vma) :=
  if start ≤ vma.start ∧ stop ≥ vmaEnd then
    ((vma.start, vma.len / PAGE_SIZE), [(vma.start, { vma with prot := prot })])
  else if start ≤ vma.start ∧ stop < vmaEnd then
    let frontLen := stop - vma.start
    ((vma.start, frontLen / PAGE_SIZE),
      [(vma.start, { vma with len := frontLen, prot := prot }),
        (stop, { vma with start := stop, len := vmaEnd - stop })])
  else if start > vma.start ∧ stop ≥ vmaEnd then
    let tailLen := vmaEnd - start
    ((start, tailLen / PAGE_SIZE),
      [(vma.start, { vma with len := start - vma.start }),
        (start, { vma with start := start, len := tailLen, prot := prot })])
  else
    let midLen := stop - start
    ((start, midLen / PAGE_SIZE),
      [(vma.start, { vma with len := start - vma.start }),
        (start, { vma with start := start, len := midLen, prot := prot }),
        (stop, { vma with start := stop, len := vmaEnd - stop })])

def munmapVmas (start len : Nat) : Option (VmaMap × List (Nat × Nat)) := sweep munmapSplit m start len

def mprotectVmas (start len : Nat) (prot : BitVec 32) : Option (VmaMap × List (Nat × Nat)) :=
  sweep (mprotectSplit prot) m start len

end

/-! ## What the sweep does -/

/-- `split` acts on an area as `cut` does on its segment, and hands back the clipped part in pages. -/
structure Cuts (f : Attr → Option Attr) (split : Nat → Nat → Vma → Nat → (Nat × Nat) × List (Nat × Vma)) : Prop where
  parts : ∀ {start stop : Nat} {v : Vma}, 0 < v.len → start < stop → v.seg.Meets start stop →
    (split start stop v (v.start + v.len)).2.map (fun x => x.2.seg) = v.seg.cut start stop f
  keys : ∀ {start stop : Nat} {v : Vma}, ∀ x ∈ (split start stop v (v.start + v.len)).2, x.1 = x.2.start
  pages : ∀ {start stop : Nat} {v : Vma}, (split start stop v (v.start + v.len)).1 =
    ((v.seg.clip start stop).start, (v.seg.clip start stop).len / PAGE_SIZE)

def Attr.setProt (prot : BitVec 32) (x : Attr) : Attr := { x with prot := prot }

theorem mprotectSplit_cuts (prot : BitVec 32) : Cuts (fun x => some (x.setProt prot)) (mprotectSplit prot) where
  parts := by
    intro start stop v hpos hw hm
    rw [Seg.cut_of_meets hpos hw hm]
    simp only [mprotectSplit, Seg.clip, Vma.seg, Seg.stop, Option.toList_some, map_cons, map_nil]
    rcases lt_or_ge v.start start with h1 | h1 <;> rcases lt_or_ge stop (v.start + v.len) with h2 | h2
    · simp [Vma.attr, Attr.setProt, h1, h2, h1.not_ge, h2.not_ge, max_eq_right h1.le, min_eq_right h2.le]
    · simp [Vma.attr, Attr.setProt, h1, h2, h1.not_ge, h2.not_gt, max_eq_right h1.le]
    · simp [Vma.attr, Attr.setProt, h1, h2, h1.not_gt, h2.not_ge, min_eq_right h2.le]
    · simp [Vma.attr, Attr.setProt, h1, h2, h1.not_gt, h2.not_gt]
  keys := by
    intro start stop v
    simp only [mprotectSplit]
    split_ifs <;> simp
  pages := by
    intro start stop v
    simp only [mprotectSplit, Seg.clip, Vma.seg, Seg.stop]
    rcases lt_or_ge v.start start with h1 | h1 <;> rcases lt_or_ge stop (v.start + v.len) with h2 | h2
    · simp [h1, h1.not_ge, h2.not_ge, max_eq_right h1.le, min_eq_right h2.le]
    · simp [h1, h2, h1.not_ge, max_eq_right h1.le]
    · simp [h1, h2, h2.not_ge, min_eq_right h2.le]
    · simp [h1, h2]

theorem munmapSplit_cuts : Cuts (fun _ => none) munmapSplit where
  parts := by
    intro start stop v hpos hw hm
    rw [Seg.cut_of_meets hpos hw hm]
    have hstop : v.seg.stop = v.start + v.len := rfl
    simp only [munmapSplit, hstop, Option.toList_none, map_nil, append_nil]
    rcases lt_or_ge v.start start with h1 | h1 <;> rcases lt_or_ge stop (v.start + v.len) with h2 | h2
    · simp [Vma.seg, Vma.attr, h1, h2, h1.not_ge, h2.not_ge]
    · simp [Vma.seg, Vma.attr, h1, h2, h1.not_ge, h2.not_gt]
    · have hlen : v.len - (stop - v.start) = v.start + v.len - stop := by
        have := hm.1; simp only [Vma.seg] at this; omega
      simp [Vma.seg, Vma.attr, h1, h2, h1.not_gt, h2.not_ge, hlen]
    · simp [Vma.seg, h1, h2, h1.not_gt, h2.not_gt]
  keys := by
    intro start stop v
    simp only [munmapSplit]
    split_ifs <;> simp
  pages := by
    -- the two calls hand back the same pages
    intro start stop v
    rw [← (mprotectSplit_cuts v.prot).pages]
    simp only [munmapSplit, mprotectSplit]
    split_ifs <;> rfl

theorem mapM_eq_some_map {α β : Type} {f : α → Option β} {g : α → β} {l : List α} (h : ∀ x ∈ l, f x = some (g x)) :
    l.mapM f = some (l.map g) := by
  induction l with
  | nil => rfl
  | cons x l ih =>
    have hx := h x mem_cons_self
    have hl := ih fun y hy => h y (.tail _ hy)
    simp [mapM_cons, hx, hl]

section Sweep

variable {f : Attr → Option Attr} {split : Nat → Nat → Vma → Nat → (Nat × Nat) × List (Nat × Vma)}
variable {m : VmaMap} {start len : Nat}

theorem WellFormed.apart (hm : WellFormed m) : Apart (segs m) := by
  refine ⟨fun s hs => ?_, hm.disjoint⟩
  obtain ⟨_, hv, rfl⟩ := mem_map.mp hs
  obtain ⟨_, hk⟩ := mem_values.mp hv
  exact hm.len_pos _ hk

/-- The entries that meet the window. -/
def hits (m : VmaMap) (start stop : Nat) : List (Nat × Vma) := m.entries.filter fun x => x.2.seg.Meets start stop

variable {stop : Nat} {ranges : List (Nat × Nat)} {l : List (Seg Attr)} {x : Nat × Vma}

theorem mem_hits : x ∈ hits m start stop ↔ x ∈ m ∧ x.2.seg.Meets start stop := by
  simp [hits, mem_def]

theorem overlapping_eq (hm : WellFormed m) (he : EndsFit m) (start stop : Nat) :
    overlapping m start stop = some ((hits m start stop).map (·.1)) := by
  have hends : (m.rangeTo stop).mapM (fun x => (addU64 x.2.start x.2.len).map fun e => (x.1, e)) =
      some ((m.rangeTo stop).map fun x => (x.1, x.2.start + x.2.len)) := by
    refine mapM_eq_some_map fun x hx => ?_
    rw [addU64_of_lt (he x (mem_rangeTo.mp hx).1)]
    rfl
  have hfilter : (m.rangeTo stop).filter (fun x => x.2.start + x.2.len > start) = hits m start stop := by
    rw [rangeTo, filter_filter, hits]
    refine filter_congr fun x hx => ?_
    rw [Bool.eq_iff_iff]
    simp [Seg.Meets, Seg.stop, Vma.seg, hm.key x hx, and_comm]
  simp only [overlapping, hends, Option.bind_eq_bind, Option.bind_some, Option.pure_def, Option.some.injEq, filter_map,
    map_map, ← hfilter]
  rfl

theorem sweep_eq (hm : WellFormed m) (he : EndsFit m) (h : start + len < 2 ^ 64) : sweep split m start len =
    some ((m.removeAll ((hits m start (start + len)).map (·.1))).insertAll
        ((hits m start (start + len)).flatMap fun x => (split start (start + len) x.2 (x.2.start + x.2.len)).2),
      (hits m start (start + len)).map fun x => (split start (start + len) x.2 (x.2.start + x.2.len)).1) := by
  have hparts : ((hits m start (start + len)).map (·.1)).mapM (fun key => do
      let vma ← m.get? key
      let vmaEnd ← addU64 vma.start vma.len
      pure (split start (start + len) vma vmaEnd)) =
      some ((hits m start (start + len)).map fun x => split start (start + len) x.2 (x.2.start + x.2.len)) := by
    rw [mapM_map]
    refine mapM_eq_some_map fun x hx => ?_
    have hx := (mem_hits.mp hx).1
    have hget : m.get? x.1 = some x.2 := get?_eq_some.mpr hx
    simp [hget, addU64_of_lt (he x hx)]
  simp only [Option.bind_eq_bind, Option.pure_def] at hparts
  simp only [sweep, addU64_of_lt h, overlapping_eq hm he, Option.bind_eq_bind, Option.bind_some,
    Option.pure_def, hparts, map_map, flatMap_map]
  rfl

theorem mem_segs {s : Seg Attr} : s ∈ segs m ↔ ∃ x ∈ m, x.2.seg = s := by
  simp [segs, values, mem_def]

theorem inserted_segs (hc : Cuts f split) (hm : WellFormed m) (hw : start < stop) :
    ((hits m start stop).flatMap fun x => (split start stop x.2 (x.2.start + x.2.len)).2).map (fun x => x.2.seg) =
      ((hits m start stop).map fun x => x.2.seg).flatMap (Seg.cut start stop f) := by
  rw [map_flatMap, flatMap_map]
  refine flatMap_congr fun x hx => ?_
  obtain ⟨hx, hmeets⟩ := mem_hits.mp hx
  exact hc.parts (hm.len_pos x hx) hw hmeets

theorem hits_apart (hm : WellFormed m) (start stop : Nat) : Apart ((hits m start stop).map fun x => x.2.seg) := by
  refine hm.apart.sublist ?_
  rw [segs, values, map_map]
  exact filter_sublist.map _

/-- The map after the sweep: each entry under its start, and the segments those of the cut. -/
theorem mem_swept (hc : Cuts f split) (hm : WellFormed m) (hw : start < stop) :
    x ∈ (m.removeAll ((hits m start stop).map (·.1))).insertAll
        ((hits m start stop).flatMap fun x => (split start stop x.2 (x.2.start + x.2.len)).2) ↔
      x.1 = x.2.start ∧ x.2.seg ∈ (segs m).flatMap (Seg.cut start stop f) := by
  have hkeys : ∀ y ∈ (hits m start stop).flatMap fun x => (split start stop x.2 (x.2.start + x.2.len)).2,
      y.1 = y.2.start := by
    intro y hy
    obtain ⟨z, -, hy⟩ := mem_flatMap.mp hy
    exact hc.keys y hy
  have hdist : ((hits m start stop).flatMap fun x => (split start stop x.2 (x.2.start + x.2.len)).2).Pairwise
      fun a b => a.1 ≠ b.1 := by
    have := ((hits_apart hm start stop).cut_apart (f := f) hw).starts_ne
    rw [← inserted_segs hc hm hw, pairwise_map] at this
    exact this.imp_of_mem fun ha hb hne => by rw [hkeys _ ha, hkeys _ hb]; exact hne
  rw [mem_insertAll hdist, mem_removeAll]
  constructor
  · rintro (hx | ⟨⟨hx, hnot⟩, -⟩)
    · refine ⟨hkeys x hx, ?_⟩
      obtain ⟨z, hz, hx⟩ := mem_flatMap.mp hx
      obtain ⟨hz, hmeets⟩ := mem_hits.mp hz
      refine mem_flatMap.mpr ⟨z.2.seg, mem_segs.mpr ⟨z, hz, rfl⟩, ?_⟩
      rw [← hc.parts (hm.len_pos z hz) hw hmeets]
      exact mem_map_of_mem hx
    · refine ⟨hm.key x hx, mem_flatMap.mpr ⟨x.2.seg, mem_segs.mpr ⟨x, hx, rfl⟩, ?_⟩⟩
      have hmiss : ¬ x.2.seg.Meets start stop := fun h => hnot (mem_map_of_mem (mem_hits.mpr ⟨hx, h⟩))
      rw [Seg.cut_of_outside (hm.len_pos x hx) hw (by simp only [Seg.Meets] at hmiss; omega)]
      exact mem_singleton.mpr rfl
  · rintro ⟨hk, hx⟩
    obtain ⟨_, ht, hx⟩ := mem_flatMap.mp hx
    obtain ⟨z, hz, rfl⟩ := mem_segs.mp ht
    by_cases hmeets : z.2.seg.Meets start stop
    · rw [← hc.parts (hm.len_pos z hz) hw hmeets] at hx
      obtain ⟨y, hy, hyx⟩ := mem_map.mp hx
      have hv : y.2 = x.2 := Vma.seg_inj hyx
      have hyx : y = x := Prod.ext (by rw [hc.keys y hy, hv, hk]) hv
      exact .inl (mem_flatMap.mpr ⟨z, mem_hits.mpr ⟨hz, hmeets⟩, hyx ▸ hy⟩)
    · rw [Seg.cut_of_outside (hm.len_pos z hz) hw (by simp only [Seg.Meets] at hmeets; omega), mem_singleton] at hx
      have hv : x.2 = z.2 := Vma.seg_inj hx
      have hxz : x = z := Prod.ext (by rw [hk, hv, hm.key z hz]) hv
      subst hxz
      refine .inr ⟨⟨hz, fun h => ?_⟩, fun y hy => ?_⟩
      · obtain ⟨w, hw', hwx⟩ := mem_map.mp h
        obtain ⟨hw', hwm⟩ := mem_hits.mp hw'
        exact hmeets (eq_of_key hw' hz hwx ▸ hwm)
      · -- the inserted part lies in an area that is apart from this one
        obtain ⟨w, hw', hyw⟩ := mem_flatMap.mp hy
        obtain ⟨hw', hwm⟩ := mem_hits.mp hw'
        have hcut : y.2.seg ∈ w.2.seg.cut start stop f := by
          rw [← hc.parts (hm.len_pos w hw') hw hwm]
          exact mem_map_of_mem hyw
        obtain ⟨hin, hpos⟩ := Seg.cut_within (hm.len_pos w hw') hcut
        have hne : x.2.seg ≠ w.2.seg := fun h => hmeets (h ▸ hwm)
        have hd := hm.apart.disjoint_of_ne (mem_segs.mpr ⟨x, hz, rfl⟩) (mem_segs.mpr ⟨w, hw', rfl⟩) hne
        rw [hk, hkeys y hy]
        exact (hd.within (Seg.Within.refl _) hin).start_ne (hm.len_pos x hz) hpos

/-- A map that holds, each under its start, the areas of an apart list on the page grid. -/
theorem wellFormed_of_mem {m : VmaMap} (hl : Apart l) (hgrid : ∀ s ∈ l, PAGE_SIZE ∣ s.start ∧ PAGE_SIZE ∣ s.len)
    (hmem : ∀ x, x ∈ m ↔ x.1 = x.2.start ∧ x.2.seg ∈ l) : WellFormed m where
  key := fun x hx => ((hmem x).mp hx).1
  start_aligned := fun x hx => (hgrid _ ((hmem x).mp hx).2).1
  len_aligned := fun x hx => (hgrid _ ((hmem x).mp hx).2).2
  len_pos := fun x hx => hl.pos _ ((hmem x).mp hx).2
  disjoint := by
    rw [segs, values, map_map, pairwise_map]
    refine m.sorted.imp_of_mem fun {x y} hx hy hlt => ?_
    obtain ⟨hxk, hx⟩ := (hmem x).mp hx
    obtain ⟨hyk, hy⟩ := (hmem y).mp hy
    refine hl.disjoint_of_ne hx hy fun h => ?_
    have hv : x.2 = y.2 := Vma.seg_inj h
    rw [hxk, hyk, hv] at hlt
    exact lt_irrefl _ hlt

theorem mem_segs_of_mem {m : VmaMap} (hmem : ∀ x, x ∈ m ↔ x.1 = x.2.start ∧ x.2.seg ∈ l)
    (s : Seg Attr) : s ∈ segs m ↔ s ∈ l := by
  rw [mem_segs]
  constructor
  · rintro ⟨x, hx, rfl⟩
    exact ((hmem x).mp hx).2
  · intro hs
    obtain ⟨v, rfl⟩ := Vma.seg_surj s
    exact ⟨(v.start, v), (hmem _).mpr ⟨rfl, hs⟩, rfl⟩

/-- The page ranges share no page and together are the covered part of the window. -/
structure ExactPages (m : VmaMap) (start len : Nat) (ranges : List (Nat × Nat)) : Prop where
  disjoint : ranges.Pairwise fun r s => r.1 + r.2 * PAGE_SIZE ≤ s.1 ∨ s.1 + s.2 * PAGE_SIZE ≤ r.1
  union : ∀ a, (∃ r ∈ ranges, r.1 ≤ a ∧ a < r.1 + r.2 * PAGE_SIZE) ↔
    (start ≤ a ∧ a < start + len) ∧ (attrAt m a).isSome

theorem ExactPages.page (h : ExactPages m start len ranges) (hal : ∀ r ∈ ranges, PAGE_SIZE ∣ r.1)
    {v : Nat} (hv : PAGE_SIZE ∣ v) (hw : start ≤ v ∧ v < start + len) (hc : (attrAt m v).isSome) :
    ∃ r ∈ ranges, ∃ i < r.2, v = r.1 + i * PAGE_SIZE := by
  obtain ⟨r, hr, _, _⟩ := (h.union v).mpr ⟨hw, hc⟩
  obtain ⟨j, hj⟩ := hv
  obtain ⟨k, hk⟩ := hal r hr
  refine ⟨r, hr, j - k, ?_, ?_⟩ <;> simp only [PAGE_SIZE] at * <;> omega

theorem exactPages_of_clip (hm : WellFormed m) (hs : PAGE_SIZE ∣ start) (hl : PAGE_SIZE ∣ len) (hpos : 0 < len) :
    ExactPages m start len (((segs m).filter (Seg.Meets start (start + len) ·)).map fun s =>
      ((s.clip start (start + len)).start, (s.clip start (start + len)).len / PAGE_SIZE)) := by
  have hw : start < start + len := by omega
  have hgrid : ∀ s ∈ (segs m).filter (Seg.Meets start (start + len) ·),
      (s.clip start (start + len)).len / PAGE_SIZE * PAGE_SIZE = (s.clip start (start + len)).len := by
    intro s hmem
    obtain ⟨hmem, hmeets⟩ := mem_filter.mp hmem
    obtain ⟨x, hx, rfl⟩ := mem_segs.mp hmem
    have hclip := Seg.clip_mem_cut (hm.len_pos x hx) hw (by simpa using hmeets)
    exact Nat.div_mul_cancel
      (Seg.cut_dvd hs (Nat.dvd_add hs hl) (hm.start_aligned x hx) (hm.len_aligned x hx) hclip).2
  constructor
  · have hd := (hm.apart.clip_apart hw).disjoint
    rw [pairwise_map] at hd ⊢
    refine hd.imp_of_mem fun {s t} hs ht h => ?_
    simp only [hgrid s hs, hgrid t ht]
    exact h
  · intro a
    rw [attrAt, ← hm.apart.clip_covers]
    simp only [mem_map, exists_exists_and_eq_and]
    refine exists_congr fun s => and_congr_right fun hs => ?_
    rw [hgrid s hs]
    exact Iff.rfl

variable (hc : Cuts f split) (hm : WellFormed m) (he : EndsFit m) (hs : PAGE_SIZE ∣ start) (hl : PAGE_SIZE ∣ len)
  (hpos : 0 < len) {m' : VmaMap}
include hc hm he hs hl hpos

/-- The sweep ends without a panic in a well-formed map whose attributes are changed by
    `f` in the window and nowhere else, and hands back the covered part of the window. -/
theorem sweep_spec (hlt : start + len < 2 ^ 64) : ∃ m' ranges, sweep split m start len = some (m', ranges) ∧
      WellFormed m' ∧ EndsFit m' ∧
      (∀ a, attrAt m' a = if start ≤ a ∧ a < start + len then (attrAt m a).bind f else attrAt m a) ∧
      ExactPages m start len ranges := by
  have hw : start < start + len := by omega
  have hcut : Apart ((segs m).flatMap (Seg.cut start (start + len) f)) := hm.apart.cut_apart hw
  have hgrid : ∀ p ∈ (segs m).flatMap (Seg.cut start (start + len) f), PAGE_SIZE ∣ p.start ∧ PAGE_SIZE ∣ p.len := by
    intro p hp
    obtain ⟨s, hs', hp⟩ := mem_flatMap.mp hp
    obtain ⟨x, hx, rfl⟩ := mem_segs.mp hs'
    exact Seg.cut_dvd hs (Nat.dvd_add hs hl) (hm.start_aligned x hx) (hm.len_aligned x hx) hp
  have hmem := fun x => mem_swept hc hm hw (x := x)
  have hwf := wellFormed_of_mem hcut hgrid hmem
  refine ⟨_, _, sweep_eq hm he hlt, hwf, fun x hx => ?_, fun a => ?_, ?_⟩
  · obtain ⟨-, hx⟩ := (hmem x).mp hx
    obtain ⟨s, hs', hp⟩ := mem_flatMap.mp hx
    obtain ⟨y, hy, rfl⟩ := mem_segs.mp hs'
    exact lt_of_le_of_lt (Seg.cut_within (hm.len_pos y hy) hp).1.2 (he y hy)
  · rw [attrAt, hwf.apart.valAt_congr hcut (mem_segs_of_mem hmem), hm.apart.valAt_cut hw]
    rfl
  · have hranges : ((hits m start (start + len)).map fun x =>
        (split start (start + len) x.2 (x.2.start + x.2.len)).1) =
        ((segs m).filter (Seg.Meets start (start + len) ·)).map fun s =>
          ((s.clip start (start + len)).start, (s.clip start (start + len)).len / PAGE_SIZE) := by
      rw [segs, values, map_map, filter_map, map_map, hits]
      exact map_congr_left fun x _ => hc.pages
    rw [hranges]
    exact exactPages_of_clip hm hs hl hpos

theorem sweep_aligned (h : sweep split m start len = some (m', ranges)) : ∀ r ∈ ranges, PAGE_SIZE ∣ r.1 := by
  obtain ⟨_, hstop, -⟩ := Option.bind_eq_some_iff.mp h
  rw [sweep_eq hm he (addU64_eq_some.mp hstop).1] at h
  cases h
  intro r hr
  obtain ⟨x, hx, rfl⟩ := mem_map.mp hr
  obtain ⟨hx, hmeets⟩ := mem_hits.mp hx
  rw [hc.pages]
  exact (Seg.cut_dvd hs (Nat.dvd_add hs hl) (hm.start_aligned x hx) (hm.len_aligned x hx)
    (Seg.clip_mem_cut (hm.len_pos x hx) (by omega) hmeets)).1

/-- A sweep that returns did not overflow, so `sweep_spec` says what it returned. -/
theorem sweep_some (h : sweep split m start len = some (m', ranges)) :
    start + len < 2 ^ 64 ∧ WellFormed m' ∧ EndsFit m' ∧
      (∀ a, attrAt m' a = if start ≤ a ∧ a < start + len then (attrAt m a).bind f else attrAt m a) ∧
      ExactPages m start len ranges := by
  obtain ⟨_, hstop, -⟩ := Option.bind_eq_some_iff.mp h
  have hlt := (addU64_eq_some.mp hstop).1
  obtain ⟨m'', ranges', h', hspec⟩ := sweep_spec hc hm he hs hl hpos hlt
  obtain ⟨rfl, rfl⟩ : m'' = m' ∧ ranges' = ranges := by simpa using h'.symm.trans h
  exact ⟨hlt, hspec⟩

end Sweep

/-! ## Inserting an area where none is -/

theorem free_of_attrAt_none {m : VmaMap} {start len : Nat} (hm : WellFormed m) (hpos : 0 < len)
    (h : ∀ a, start ≤ a → a < start + len → attrAt m a = none) :
    ∀ x ∈ m, x.2.start + x.2.len ≤ start ∨ start + len ≤ x.2.start := by
  intro x hx
  by_contra hmeets
  have hlen := hm.len_pos x hx
  have hcov : x.2.seg.Covers (max x.2.start start) := by
    simp only [Seg.Covers, Seg.stop, Vma.seg]
    omega
  have hsome : attrAt m (max x.2.start start) = some x.2.attr :=
    hm.apart.valAt_eq_some.mpr ⟨x.2.seg, mem_segs.mpr ⟨x, hx, rfl⟩, hcov, rfl⟩
  rw [h _ (by omega) (by omega)] at hsome
  cases hsome

theorem sweep_of_free {m : VmaMap} {start len : Nat} {split : Nat → Nat → Vma → Nat → (Nat × Nat) × List (Nat × Vma)}
    (hm : WellFormed m) (he : EndsFit m) (hpos : 0 < len) (hlt : start + len < 2 ^ 64)
    (h : ∀ a, start ≤ a → a < start + len → attrAt m a = none) : sweep split m start len = some (m, []) := by
  have hnone : hits m start (start + len) = [] := by
    refine eq_nil_iff_forall_not_mem.mpr fun x hx => ?_
    obtain ⟨hmem, hmeets⟩ := mem_hits.mp hx
    have hfree := free_of_attrAt_none hm hpos h x hmem
    simp only [Seg.Meets, Seg.stop, Vma.seg] at hmeets
    omega
  rw [sweep_eq hm he hlt, hnone]
  rfl

section Insert

variable {m : VmaMap} {v : Vma}

theorem attrAt_none_of_free {start len a : Nat} (hm : WellFormed m)
    (hfree : ∀ x ∈ m, x.2.start + x.2.len ≤ start ∨ start + len ≤ x.2.start) (h1 : start ≤ a) (h2 : a < start + len) :
    attrAt m a = none := by
  rw [← Option.not_isSome_iff_eq_none, attrAt, hm.apart.valAt_isSome]
  rintro ⟨_, hs, hc⟩
  obtain ⟨x, hx, rfl⟩ := mem_segs.mp hs
  simp only [Seg.Covers, Seg.stop, Vma.seg] at hc
  rcases hfree x hx with _ | _ <;> omega

theorem insert_apart (hm : WellFormed m) (hpos : 0 < v.len)
    (hfree : ∀ x ∈ m, x.2.start + x.2.len ≤ v.start ∨ v.start + v.len ≤ x.2.start) : Apart (v.seg :: segs m) := by
  refine ⟨?_, ?_⟩
  · intro s hs
    rcases mem_cons.mp hs with rfl | hs
    · exact hpos
    · exact hm.apart.pos s hs
  · refine pairwise_cons.mpr ⟨fun s hs => ?_, hm.disjoint⟩
    obtain ⟨x, hx, rfl⟩ := mem_segs.mp hs
    exact Or.symm (hfree x hx)

theorem mem_insert_area (hm : WellFormed m) (hpos : 0 < v.len)
    (hfree : ∀ x ∈ m, x.2.start + x.2.len ≤ v.start ∨ v.start + v.len ≤ x.2.start) (x : Nat × Vma) :
    x ∈ m.insert v.start v ↔ x.1 = x.2.start ∧ x.2.seg ∈ v.seg :: segs m := by
  have hv : ∀ x ∈ m, x.1 ≠ v.start := by
    intro x hx h
    have := hm.len_pos x hx
    rw [hm.key x hx] at h
    rcases hfree x hx with _ | _ <;> omega
  rw [mem_insert, mem_cons, mem_segs]
  constructor
  · rintro (rfl | ⟨hx, -⟩)
    · exact ⟨rfl, .inl rfl⟩
    · exact ⟨hm.key x hx, .inr ⟨x, hx, rfl⟩⟩
  · rintro ⟨hk, hx | ⟨y, hy, hyx⟩⟩
    · have hxv := Vma.seg_inj hx
      exact .inl (Prod.ext (by rw [hk, hxv]) hxv)
    · have hyx := Vma.seg_inj hyx
      have hxy : x = y := Prod.ext (by rw [hk, ← hyx, hm.key y hy]) hyx.symm
      exact .inr ⟨hxy ▸ hy, hxy ▸ hv y hy⟩

variable (hm : WellFormed m) (hs : PAGE_SIZE ∣ v.start) (hl : PAGE_SIZE ∣ v.len) (hpos : 0 < v.len)
  (hfree : ∀ x ∈ m, x.2.start + x.2.len ≤ v.start ∨ v.start + v.len ≤ x.2.start)
include hm hs hl hpos hfree

theorem insert_wellFormed : WellFormed (m.insert v.start v) := by
  refine wellFormed_of_mem (insert_apart hm hpos hfree) (fun s hs' => ?_) (mem_insert_area hm hpos hfree)
  rcases mem_cons.mp hs' with rfl | hs'
  · exact ⟨hs, hl⟩
  · obtain ⟨x, hx, rfl⟩ := mem_segs.mp hs'
    exact ⟨hm.start_aligned x hx, hm.len_aligned x hx⟩

theorem attrAt_insert (a : Nat) :
    attrAt (m.insert v.start v) a = if v.start ≤ a ∧ a < v.start + v.len then some v.attr else attrAt m a := by
  have happ := insert_apart hm hpos hfree
  rw [attrAt, (insert_wellFormed hm hs hl hpos hfree).apart.valAt_congr happ
    (mem_segs_of_mem (mem_insert_area hm hpos hfree))]
  split
  · rename_i hin
    exact happ.valAt_eq_some.mpr ⟨v.seg, mem_cons_self .., hin, rfl⟩
  rename_i hout
  rw [attrAt, valAt, find?_cons_of_neg]
  · rfl
  · exact fun hc => hout (of_decide_eq_true hc)

omit hm hs hl hpos hfree

theorem insert_endsFit (he : EndsFit m) (hv : v.start + v.len < 2 ^ 64) : EndsFit (m.insert v.start v) := by
  intro x hx
  rcases mem_insert.mp hx with rfl | ⟨hx, -⟩
  · exact hv
  · exact he x hx

end Insert

end Ostoo.Memory
