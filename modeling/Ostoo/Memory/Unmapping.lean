/-
  Ostoo.Memory.Unmapping — what `munmap`, and the implicit unmap of MAP_FIXED, leave of the
  pages they remove.

  PROT_NONE clears the PRESENT bit of a leaf and keeps the rest of the word. The mapper's
  `unmap` takes such a leaf for no mapping at all, so `munmap` forgets the area, leaves the
  leaf where it is and keeps the reference it holds; `map_to` then refuses the page for good.
  Apart from these leaves an unmap clears every page it removes, drops exactly the references
  they held, and the pages can be mapped again, if no `mmap` on the way has run out of frames
  and left pages mapped that no area covers.
-/

import Mathlib.Algebra.BigOperators.Intervals
import Mathlib.Algebra.Order.BigOperators.Group.Finset
import Ostoo.Memory.Ledger
import Ostoo.Memory.Pages

namespace Ostoo.Memory

open Ostoo.Lib Mem Ostoo.Memory.Tree Option OrdMap Finset Frames

section

variable {τ : Type} (M : Mapper τ)

/-! ## References released -/

/-- The references that a frame's count stands for; none when the frame is free. -/
def Mem.held (m : Mem τ) (f : Nat) : Nat := if f ∈ m.frames.freeList then 0 else m.count f

/-- How many covered pages of the range have a leaf that names the frame. -/
def named (s : Proc × Mem τ) (addr length f : Nat) : Nat :=
  ((Finset.range (pagesOf length)).filter fun i => (attrAt s.1.vmaMap (addr + i * PAGE_SIZE)).isSome = true ∧
    (s.2.leafAt M s.1.pml4 (addr + i * PAGE_SIZE)).map (·.1) = some f).card

/-- `s1` is `s` after an unmap of the range: the pages it removed have no leaf, and each
    reference their leaves held was dropped once. -/
structure Released (s s1 : Proc × Mem τ) (addr length : Nat) : Prop where
  zero : ∀ v, CoveredPage s.1 addr length v → s1.2.leafAt M s.1.pml4 v = none
  once : ∀ f, s1.2.held f + named M s addr length f = s.2.held f

/-- The leaves of the pages to be removed have PRESENT. -/
def LeavesPresent (s : Proc × Mem τ) (addr length : Nat) : Prop :=
  ∀ v, CoveredPage s.1 addr length v → ∀ e, s.2.leafAt M s.1.pml4 v = some e → e.2.present = true

variable {M} {D : Descent M} {owners : Nat → Nat} {listed : Nat → Prop} {m m' : Mem τ} {pml4 v w f j k : Nat}
  {p p' : Proc} {addr length : Nat} {r : Int}

namespace Mem

theorem releaseFrame_held (h : Ledger M owners listed m) (hf : owners f ≠ 0) (g : Nat) :
    (m.releaseFrame f).held g + (if f = g then 1 else 0) = m.held g := by
  have hnot : f ∉ m.frames.freeList := by
    intro hm
    have := (h.free f hm).1
    omega
  unfold releaseFrame
  cases hc : m.refcounts.get? f with
  | none =>
    rw [refRelease_none hc]
    simp only [if_true, held, deallocate, Frames.deallocate, List.mem_cons]
    by_cases he : f = g
    · subst he
      rw [if_pos (.inl rfl), if_pos rfl, if_neg hnot, count, hc]
      rfl
    · rw [if_neg he]
      simp only [Ne.symm he, false_or]
      rfl
  | some c =>
    have h2 := h.counted f c hc
    obtain ⟨rc, hr, hother, hself, -⟩ := refRelease_some hc h2
    rw [hr]
    simp only [Bool.false_eq_true, if_false, held]
    by_cases he : f = g
    · subst he
      rw [if_neg hnot, if_neg hnot, if_pos rfl]
      show (rc.get? f).getD 1 + 1 = (m.refcounts.get? f).getD 1
      rw [hself, hc, getD_some]
      omega
    · rw [if_neg he]
      split
      · rfl
      · show (rc.get? g).getD 1 = (m.refcounts.get? g).getD 1
        rw [hother g (Ne.symm he)]

variable (hM : M.Lawful) (hD : D.Lawful) (hv : v < USER_END) (h : m.unmapAndReleaseUserPage M pml4 v = some m')
include hM hD hv h

/-- An unmapped page had a leaf, whose reference is dropped, or nothing happens. -/
theorem unmapAndRelease_held : (m' = m ∧ ∀ e, m.leafAt M pml4 v = some e → e.2.present = false) ∨
    ∃ f, (m.leafAt M pml4 v).map (·.1) = some f ∧ m'.leafAt M pml4 v = none ∧
      ∀ owners listed, Ledger M owners listed m → ∀ g, m'.held g + (if f = g then 1 else 0) = m.held g := by
  obtain ⟨_, ht, ⟨hun, rfl⟩ | ⟨f, _, hun, rfl⟩⟩ := unmapAndRelease_cases h
  · refine .inl ⟨rfl, fun e he => ?_⟩
    rw [leafAt_eq ht] at he
    by_contra hp
    have := hD.unmap_present hv he (Bool.not_eq_false _ ▸ hp)
    rw [hun] at this
    cases this
  · obtain ⟨⟨_, hleaf⟩, hremove, -⟩ := hM.unmap_leaf hv hun
    refine .inr ⟨f, ?_, ?_, fun owners listed hl g => ?_⟩
    · rw [leafAt_eq ht, hleaf]
      rfl
    · rw [leafAt_congr (releaseFrame_spaces ..), leafAt_insert, hremove, get?_remove, if_pos rfl]
    · exact releaseFrame_held (hl.unmap hM hv ht hun) (by simp) g

theorem unmapAndRelease_clears (hw : w = v ∨ ∀ e, m.leafAt M pml4 w = some e → e.2.present = false) :
    ∀ e, m'.leafAt M pml4 w = some e → e.2.present = false := by
  by_cases he : w = v
  · subst he
    rcases unmapAndRelease_held hM hD hv h with ⟨rfl, hnot⟩ | ⟨-, -, hnone, -⟩
    · exact hnot
    · intro e he
      rw [hnone] at he
      cases he
  · rw [unmapAndRelease_leafAt hM hv h he]
    exact hw.resolve_left he

end Mem

/-- How many of the covered pages of the range had a leaf in `s` that names the frame, and
    have none in `m`. -/
def cleared (M : Mapper τ) (s : Proc × Mem τ) (addr length : Nat) (m : Mem τ) (f : Nat) : Nat :=
  ((Finset.range (pagesOf length)).filter fun i => ((attrAt s.1.vmaMap (addr + i * PAGE_SIZE)).isSome = true ∧
    (s.2.leafAt M s.1.pml4 (addr + i * PAGE_SIZE)).map (·.1) = some f) ∧
    m.leafAt M s.1.pml4 (addr + i * PAGE_SIZE) = none).card

theorem cleared_step {s : Proc × Mem τ} {m1 m2 : Mem τ} {g : Nat} (hk : k < pagesOf length)
    (hcov : (attrAt s.1.vmaMap (addr + k * PAGE_SIZE)).isSome = true)
    (hnamed : (s.2.leafAt M s.1.pml4 (addr + k * PAGE_SIZE)).map (·.1) = some g)
    (hbefore : m1.leafAt M s.1.pml4 (addr + k * PAGE_SIZE) ≠ none)
    (hafter : m2.leafAt M s.1.pml4 (addr + k * PAGE_SIZE) = none)
    (hother : ∀ w, w ≠ addr + k * PAGE_SIZE → m2.leafAt M s.1.pml4 w = m1.leafAt M s.1.pml4 w) (f : Nat) :
    cleared M s addr length m2 f = cleared M s addr length m1 f + if g = f then 1 else 0 := by
  have hne : ∀ i, i ≠ k → addr + i * PAGE_SIZE ≠ addr + k * PAGE_SIZE := fun i hi he => hi (page_inj he)
  unfold cleared
  by_cases hgf : g = f
  · subst hgf
    rw [if_pos rfl, ← card_insert_of_notMem (a := k)]
    · congr 1
      ext i
      simp only [Finset.mem_filter, Finset.mem_range, Finset.mem_insert]
      by_cases hi : i = k
      · subst hi
        exact iff_of_true ⟨hk, ⟨hcov, hnamed⟩, hafter⟩ (.inl rfl)
      · rw [hother _ (hne i hi)]
        simp [hi]
    · intro hmem
      exact hbefore (mem_filter.mp hmem).2.2
  · rw [if_neg hgf, add_zero]
    congr 1
    ext i
    simp only [mem_filter]
    by_cases hi : i = k
    · subst hi
      have hno : ¬ (s.2.leafAt M s.1.pml4 (addr + i * PAGE_SIZE)).map (·.1) = some f := by
        rw [hnamed]
        exact fun he => hgf (some.inj he)
      exact iff_of_false (fun h => hno h.2.1.2) fun h => hno h.2.1.2
    · rw [hother _ (hne i hi)]

theorem cleared_all {s : Proc × Mem τ} (hal : PAGE_SIZE ∣ addr)
    (hzero : ∀ v, CoveredPage s.1 addr length v → m.leafAt M s.1.pml4 v = none) (f : Nat) :
    cleared M s addr length m f = named M s addr length f := by
  unfold cleared named
  congr 1
  ext i
  simp only [mem_filter, mem_range, and_congr_right_iff, and_iff_left_iff_imp]
  intro hi hin
  have hv : PAGE_SIZE ∣ addr + i * PAGE_SIZE := Nat.dvd_add hal (Nat.dvd_mul_left ..)
  refine hzero _ ⟨hv, Nat.le_add_right .., (lt_of_page hal hv).mp ?_, hin.1⟩
  simp only [PAGE_SIZE]
  omega

/-- In the middle of an unmap of the range: some leaves of `s` are gone, each with its reference. -/
structure Unmaps (M : Mapper τ) (owners : Nat → Nat) (listed : Nat → Prop) (s : Proc × Mem τ) (addr length : Nat)
    (m : Mem τ) : Prop where
  ledger : m.Ledger M owners listed
  leaves : ∀ w, m.leafAt M s.1.pml4 w = s.2.leafAt M s.1.pml4 w ∨ m.leafAt M s.1.pml4 w = none
  once : ∀ f, m.held f + cleared M s addr length m f = s.2.held f

theorem Unmaps.refl (hl : m.Ledger M owners listed) : Unmaps M owners listed (p, m) addr length m := by
  refine ⟨hl, fun w => .inl rfl, fun f => ?_⟩
  have hzero : cleared M (p, m) addr length m f = 0 := by
    unfold cleared
    rw [card_eq_zero, filter_eq_empty_iff]
    rintro i - ⟨⟨-, hf⟩, hn⟩
    rw [show m.leafAt M p.pml4 (addr + i * PAGE_SIZE) = none from hn] at hf
    cases hf
  rw [hzero, add_zero]

theorem Unmaps.step {s : Proc × Mem τ} (h : Unmaps M owners listed s addr length m) (hM : M.Lawful) (hD : D.Lawful)
    (hal : PAGE_SIZE ∣ addr) (hc : CoveredPage s.1 addr length v) (hv : v < USER_END)
    (hb : m.unmapAndReleaseUserPage M s.1.pml4 v = some m') : Unmaps M owners listed s addr length m' := by
  rcases unmapAndRelease_held hM hD hv hb with ⟨rfl, -⟩ | ⟨f, hf, hnone, hrel⟩
  · exact h
  have hother : ∀ w, w ≠ v → m'.leafAt M s.1.pml4 w = m.leafAt M s.1.pml4 w := fun w hw =>
    unmapAndRelease_leafAt hM hv hb hw
  have hsome : m.leafAt M s.1.pml4 v ≠ none := by
    intro he
    rw [he] at hf
    cases hf
  refine ⟨h.ledger.unmapAndRelease hM hv hb, fun w => ?_, fun g => ?_⟩
  · by_cases hw : w = v
    · subst hw
      exact .inr hnone
    · rw [hother w hw]
      exact h.leaves w
  · obtain ⟨hpage, h1, h2, hcov⟩ := hc
    obtain ⟨_, hk, rfl⟩ := page_of_range hal hpage h1 h2
    rw [(h.leaves _).resolve_right hsome] at hf
    have hstep := cleared_step hk hcov hf hsome hnone hother g
    have hg := hrel owners listed h.ledger g
    have := h.once g
    omega

theorem sysMunmap_released (hM : M.Lawful) (hD : D.Lawful) (hl : m.Ledger M owners listed) (hp : VmasOk p)
    (hend : addr + length ≤ USER_END) (hpresent : LeavesPresent M (p, m) addr length)
    (h : sysMunmap (services M) p m addr length = some (0, p', m')) :
    m'.Ledger M owners listed ∧ Released M (p, m) (p', m') addr length := by
  rcases sysMunmap_inv h with ⟨hr, -⟩ | ⟨-, haddr, hpos, _, ranges, hsweep, hun, rfl⟩
  · exact absurd hr (by decide)
  have hal := aligned_iff.mp haddr
  have hloop : Unmaps M owners listed (p, m) addr length m' :=
    sysMunmap_keeps hp hend (.refl hl) (fun v m1 m2 hc hv hI hb => hI.step hM hD hal hc hv hb) h
  obtain ⟨hin, hall⟩ := sweep_covers munmapSplit_cuts hp haddr hpos hsweep
  have huser : ∀ r ∈ ranges, ∀ i < r.2, r.1 + i * PAGE_SIZE < USER_END := fun r hr i hi =>
    lt_of_lt_of_le (hin r hr i hi).2.2.1 hend
  have hgone := forRanges_each (fun v m1 => ∀ e, m1.leafAt M p.pml4 v = some e → e.2.present = false)
    (fun r hr i hi m1 m2 hb => unmapAndRelease_clears hM hD (huser r hr i hi) hb (.inl rfl))
    (fun r hr i hi m1 m2 w hw hb => unmapAndRelease_clears hM hD (huser r hr i hi) hb (.inr hw)) hun
  have hzero : ∀ v, CoveredPage p addr length v → m'.leafAt M p.pml4 v = none := by
    intro v hv
    refine (hloop.leaves v).elim (fun he => ?_) fun he => he
    cases hleaf : m.leafAt M p.pml4 v with
    | none => exact he.trans hleaf
    | some e =>
      have hp1 := hpresent v hv e hleaf
      obtain ⟨r, hr, i, hi, rfl⟩ := hall v hv
      rw [hgone r hr i hi e (he.trans hleaf)] at hp1
      cases hp1
  exact ⟨hloop.ledger, hzero, fun f => cleared_all (s := (p, m)) hal hzero f ▸ hloop.once f⟩

/-! ## Room to map -/

namespace Mem

/-- The tables missing on the way to a page. -/
def missingAt (D : Descent M) (m : Mem τ) (pml4 v : Nat) : Nat :=
  ((m.spaces.get? pml4).map fun t => D.missing t v).getD 0

variable {fl : PtFlags} {ok : Bool}

theorem missingAt_eq {t : τ} (ht : m.spaces.get? pml4 = some t) (v : Nat) : m.missingAt D pml4 v = D.missing t v := by
  rw [missingAt, ht]
  rfl

theorem missingAt_congr (h : m'.spaces = m.spaces) : m'.missingAt D = m.missingAt D := by
  unfold missingAt
  rw [h]

theorem missingAt_insert (spaces : OrdMap Nat τ) (t : τ) (frames : Frames) (refcounts : OrdMap Nat Nat) (w : Nat) :
    missingAt D ⟨frames, refcounts, spaces.insert pml4 t⟩ pml4 w = D.missing t w :=
  missingAt_eq (by dsimp only; rw [get?_insert, if_pos rfl]) w

variable (hD : D.Lawful)
include hD

theorem missingAt_of_leafAt {e : Entry} (hv : v < USER_END) (h : m.leafAt M pml4 v = some e) :
    m.missingAt D pml4 w ≤ apart v w := by
  obtain ⟨_, ht, he⟩ := of_bind h
  rw [missingAt_eq ht]
  exact hD.of_leaf hv he w

theorem mapUserPage_missingAt (hv : v < USER_END) (h : m.mapUserPage M pml4 v f fl = some (ok, m')) (w : Nat) :
    m'.missingAt D pml4 w ≤ m.missingAt D pml4 w := by
  obtain ⟨_, _, _, ht, hmap, rfl⟩ := mapUserPage_cases h
  rw [missingAt_insert, missingAt_eq ht]
  exact hD.mapTo_missing hv hmap w

/-- A page is mapped unless it has a leaf already or the frames for its tables run out. -/
theorem mapUserPage_available (hv : v < USER_END) (h : m.mapUserPage M pml4 v f fl = some (ok, m')) :
    if ok then m.frames.available = m'.frames.available + m.missingAt D pml4 v
    else m.leafAt M pml4 v ≠ none ∨ m.frames.available < m.missingAt D pml4 v := by
  obtain ⟨_, _, _, ht, hmap, rfl⟩ := mapUserPage_cases h
  rw [missingAt_eq ht, leafAt_eq ht]
  cases ok with
  | true => exact hD.mapTo_takes hv hmap
  | false => exact hD.mapTo_fails hv hmap

theorem mapUserPage_returns (hv : v < USER_END) (hs : (m.spaces.get? pml4).isSome)
    (hfl : fl.present = true ∨ m.missingAt D pml4 v = 0) : ∃ x, m.mapUserPage M pml4 v f fl = some x := by
  obtain ⟨_, ht⟩ := isSome_iff_exists.mp hs
  rw [missingAt_eq ht] at hfl
  obtain ⟨⟨ok, t', a⟩, hmap⟩ := isSome_iff_exists.mp (hD.mapTo_returns (a := m.frames) (f := f) hv hfl)
  refine ⟨(ok, { m with frames := a, spaces := m.spaces.insert pml4 t' }), ?_⟩
  rw [mapUserPage, ht, bind_eq_bind, bind_some, hmap]
  rfl

omit hD

theorem mapUserPage_space (h : m.mapUserPage M pml4 v f fl = some (ok, m')) : (m'.spaces.get? pml4).isSome := by
  obtain ⟨-, -, -, -, -, rfl⟩ := mapUserPage_cases h
  rw [get?_insert_self]
  rfl

theorem releaseFrame_available (m : Mem τ) (f : Nat) : m.frames.available ≤ (m.releaseFrame f).frames.available := by
  have hr : (m.refRelease f).2.frames = m.frames := by
    unfold refRelease
    split
    · split <;> rfl
    · rfl
  unfold releaseFrame
  split
  · show _ ≤ ((m.refRelease f).2.frames.deallocate f).available
    rw [deallocate_available, hr]
    exact Nat.le_succ _
  · rw [hr]

theorem unmapAndRelease_room (hD : D.Lawful) (hv : v < USER_END) (h : m.unmapAndReleaseUserPage M pml4 v = some m') :
    m.frames.available ≤ m'.frames.available ∧ m'.missingAt D pml4 = m.missingAt D pml4 ∧
      (m'.spaces.get? pml4).isSome := by
  obtain ⟨_, ht, ⟨-, rfl⟩ | ⟨f, t', hun, rfl⟩⟩ := unmapAndRelease_cases h
  · exact ⟨le_refl _, rfl, by rw [ht]; rfl⟩
  refine ⟨releaseFrame_available { m with spaces := m.spaces.insert pml4 t' } f, funext fun w => ?_, ?_⟩
  · rw [missingAt_congr (releaseFrame_spaces ..), missingAt_insert, missingAt_eq ht, hD.unmap_missing hv hun]
  · rw [releaseFrame_spaces, get?_insert_self]
    rfl

theorem unmapAndRelease_returns (hs : (m.spaces.get? pml4).isSome) (v : Nat) :
    ∃ m', m.unmapAndReleaseUserPage M pml4 v = some m' := by
  obtain ⟨t, ht⟩ := isSome_iff_exists.mp hs
  simp only [unmapAndReleaseUserPage, unmapUserPage, ht, bind_eq_bind, bind_some]
  cases M.unmap t v with
  | none => exact ⟨_, rfl⟩
  | some x => exact ⟨_, rfl⟩

end Mem

theorem sysMunmap_room (hD : D.Lawful) (hp : VmasOk p) (hend : addr + length ≤ USER_END)
    (h : sysMunmap (services M) p m addr length = some (r, p', m')) :
    m.frames.available ≤ m'.frames.available ∧ m'.missingAt D p.pml4 = m.missingAt D p.pml4 ∧
      ((m.spaces.get? p.pml4).isSome → (m'.spaces.get? p.pml4).isSome) := by
  refine sysMunmap_keeps (I := fun m1 => m.frames.available ≤ m1.frames.available ∧
    m1.missingAt D p.pml4 = m.missingAt D p.pml4 ∧
    ((m.spaces.get? p.pml4).isSome → (m1.spaces.get? p.pml4).isSome)) hp hend ⟨le_refl _, rfl, id⟩
    (fun v m1 m2 _ hv hI hb => ?_) h
  obtain ⟨hav, hmiss, hspace⟩ := unmapAndRelease_room hD hv hb
  exact ⟨le_trans hI.1 hav, hmiss.trans hI.2.1, fun _ => hspace⟩

theorem sysMunmap_returns (hp : VmasOk p) (haddr : Aligned addr) (hpos : 0 < length) (hend : addr + length ≤ USER_END)
    (hs : (m.spaces.get? p.pml4).isSome) : ∃ p' m', sysMunmap (services M) p m addr length = some (0, p', m') := by
  obtain ⟨hgrid, hlen⟩ := pagesOf_len hpos
  have hstop := pages_le_userEnd haddr hend
  obtain ⟨vmaMap, ranges, hsweep, -⟩ := sweep_spec munmapSplit_cuts hp.1 hp.2 (aligned_iff.mp haddr) hgrid hlen
    (by unfold USER_END at hstop; omega)
  have hpage : ∀ r ∈ ranges, ∀ i < r.2, ∀ m1 : Mem τ, (m1.spaces.get? p.pml4).isSome →
      ∃ m2, (services M).unmapAndReleaseUserPage m1 p.pml4 (r.1 + i * PAGE_SIZE) = some m2 ∧
        (m2.spaces.get? p.pml4).isSome := by
    intro r hr i hi m1 hs1
    obtain ⟨m2, h2⟩ := unmapAndRelease_returns (M := M) hs1 (r.1 + i * PAGE_SIZE)
    refine ⟨m2, h2, ?_⟩
    obtain ⟨-, -, ⟨-, rfl⟩ | ⟨-, -, -, rfl⟩⟩ := unmapAndRelease_cases h2
    · exact hs1
    · rw [releaseFrame_spaces, get?_insert_self]
      rfl
  obtain ⟨m', hun, -⟩ := forRanges_total (fun m1 : Mem τ => (m1.spaces.get? p.pml4).isSome)
    (fun r hr i hi => lt_of_lt_of_le ((sweep_covers munmapSplit_cuts hp haddr hpos hsweep).1 r hr i hi).2.2.1 hend)
      hpage hs
  refine ⟨{ p with vmaMap := vmaMap }, m', ?_⟩
  have hsweep' : munmapVmas p.vmaMap addr (pagesOf length * PAGE_SIZE) = some (vmaMap, ranges) := hsweep
  rw [sysMunmap, if_neg (not_or.mpr ⟨not_not.mpr haddr, ne_of_gt hpos⟩),
    alignUp_of_lt (by unfold USER_END at hend; simp only [PAGE_MASK]; omega)]
  simp only [bind_eq_bind, bind_some, hsweep', hun]
  rfl

/-! ## Mapping pages that are free -/

section

variable {fds : Nat → FdView} {base n : Nat} {fl : PtFlags} {mapPages : Nat → Mem τ → Option (Bool × Mem τ)}
  {ok shared : Bool} {m1 : Mem τ}

/-- How many tables page `i` needs after the pages from `j` on before it. -/
def tablesAt (D : Descent M) (m : Mem τ) (pml4 base j i : Nat) : Nat :=
  let missing := m.missingAt D pml4 (base + i * PAGE_SIZE)
  if i = j then missing else min missing (apart (base + (i - 1) * PAGE_SIZE) (base + i * PAGE_SIZE))

/-- The frames that the pages from `j` on need, with `k` for each page and one for each missing table. -/
def framesFor (D : Descent M) (m : Mem τ) (pml4 base n k j : Nat) : Nat :=
  k * (n - j) + ∑ i ∈ Finset.Ico j n, tablesAt D m pml4 base j i

/-- What the loop over an area's pages needs before page `j`: no leaf in the way, and the frames. -/
structure Vacant (D : Descent M) (pml4 base n k j : Nat) (m : Mem τ) : Prop where
  zero : ∀ i, j ≤ i → i < n → m.leafAt M pml4 (base + i * PAGE_SIZE) = none
  frames : framesFor D m pml4 base n k j ≤ m.frames.available

theorem framesFor_succ (hj : j < n) : framesFor D m pml4 base n k j =
    k + m.missingAt D pml4
      (base + j * PAGE_SIZE) + (k * (n - (j + 1)) + ∑ i ∈ Finset.Ico (j + 1) n, tablesAt D m pml4 base j i) := by
  have hk : k * (n - j) = k * (n - (j + 1)) + k := by rw [← Nat.mul_succ, ← Nat.sub_sub, Nat.succ_eq_add_one,
    Nat.sub_add_cancel (by omega)]
  rw [framesFor, Finset.sum_eq_sum_Ico_succ_bot hj, hk, tablesAt, if_pos rfl]
  omega

/-- Mapping page `j` succeeds, and leaves enough for the rest. `k` frames have been taken for the
    page itself. -/
theorem Vacant.map (hM : M.Lawful) (hD : D.Lawful) (hend : base + n * PAGE_SIZE ≤ USER_END) (hj : j < n)
    (hv : Vacant D pml4 base n k j m) (hsp : m1.spaces = m.spaces) (hav : m.frames.available = m1.frames.available + k)
    (h : m1.mapUserPage M pml4 (base + j * PAGE_SIZE) f fl = some (ok, m')) :
    ok = true ∧ Vacant D pml4 base n k (j + 1) m' := by
  have huser := page_lt_userEnd hend hj
  have htakes := mapUserPage_available hD huser h
  have hmiss := mapUserPage_missingAt hD huser h
  have hfr := hv.frames
  rw [framesFor_succ hj] at hfr
  obtain ⟨-, hleaf⟩ := mapUserPage_leafAt hM huser h
  rw [leafAt_congr hsp, missingAt_congr hsp] at htakes
  rw [leafAt_congr hsp] at hleaf
  rw [missingAt_congr hsp] at hmiss
  cases ok with
  | false =>
    rcases htakes with hsome | _
    · exact absurd (hv.zero j (le_refl j) hj) hsome
    · omega
  | true =>
    rw [if_pos rfl] at htakes
    refine ⟨rfl, fun i hi hin => ?_, ?_⟩
    · rw [hleaf, if_neg fun hc => ne_of_gt hi (page_inj hc.2)]
      exact hv.zero i (Nat.le_of_succ_le hi) hin
    -- the next page has the tables of this one
    have hrest : ∑ i ∈ Finset.Ico (j + 1) n, tablesAt D m' pml4 base (j + 1) i ≤ ∑ i ∈ Finset.Ico (j + 1) n,
        tablesAt D m pml4 base j i := by
      refine Finset.sum_le_sum fun i hi => ?_
      have hi := Finset.mem_Ico.mp hi
      have hm := hmiss (base + i * PAGE_SIZE)
      unfold tablesAt
      rw [if_neg (Nat.ne_of_gt hi.1)]
      split
      · rename_i he
        subst he
        exact le_min hm (missingAt_of_leafAt hD huser (by rw [hleaf, if_pos ⟨rfl, rfl⟩]))
      · exact min_le_min_right _ hm
    rw [framesFor]
    omega

theorem framesFor_congr (h : m'.missingAt D pml4 = m.missingAt D pml4) : framesFor D m' pml4 = framesFor D m pml4 := by
  unfold framesFor tablesAt
  rw [h]

theorem Vacant.congr (hv : Vacant D pml4 base n k j m) (hsp : m'.spaces = m.spaces) (hfr : m'.frames = m.frames) :
    Vacant D pml4 base n k j m' := by
  constructor
  · rw [leafAt_congr hsp]
    exact hv.zero
  · rw [framesFor_congr (congrFun (missingAt_congr hsp) pml4), hfr]
    exact hv.frames

theorem allocFrame_available {o : Option Nat} (h : (services M).allocFrame m = (o, m1)) :
    m.frames.allocate = (o, m1.frames) := by
  cases h
  rfl

variable (hs : PageSource (Mem.services M) fds pml4 fl n shared mapPages)
include hs

theorem PageSource.succeeds (hM : M.Lawful) (hD : D.Lawful) (hend : base + n * PAGE_SIZE ≤ USER_END)
    (hv : Vacant D pml4 base n (!shared).toNat 0 m) (h : mapPages base m = some (ok, m')) : ok = true := by
  have hinv := hs.inv base (Vacant D pml4 base n (!shared).toNat) (fun _ => False) ?_ ?_ ?_ ?_ hv h
  · cases ok with
    | true => rfl
    | false => exact hinv.elim
  · rintro rfl j hj m m1 m2 frame hI ha ok hmap
    obtain ⟨rfl, hI'⟩ := hI.map hM hD hend hj (allocFrame_spaces ha)
      (allocate_some_available (allocFrame_available ha)) hmap
    exact hI'
  · rintro rfl j hj m m1 hI ha
    have h0 := (allocate_none_available (allocFrame_available ha)).1
    have := framesFor_succ (k := 1) hj ▸ hI.frames
    omega
  · rintro rfl j hj m m1 m2 fd size frames frame hI _ _ hmap hshare
    obtain ⟨-, hI'⟩ := hI.map hM hD hend hj rfl rfl hmap
    exact hI'.congr (refShare_spaces hshare) (by rw [refShare_cases hshare])
  · rintro rfl j hj m m1 fd size frames frame hI _ _ hmap
    exact nomatch (hI.map hM hD hend hj rfl rfl hmap).1

theorem PageSource.room (hD : D.Lawful) (hend : base + n * PAGE_SIZE ≤ USER_END) (h : mapPages base m = some (ok, m')) :
    (∀ w, m'.missingAt D pml4 w ≤ m.missingAt D pml4 w) ∧
      ((m.spaces.get? pml4).isSome → (m'.spaces.get? pml4).isSome) := by
  let I : Mem τ → Prop := fun m1 => (∀ w, m1.missingAt D pml4 w ≤ m.missingAt D pml4 w) ∧
    ((m.spaces.get? pml4).isSome → (m1.spaces.get? pml4).isSome)
  have hinv := hs.inv_spaces (fun _ => I) I ?_ (fun _ _ _ hI => hI) ?_ ⟨fun w => le_refl _, id⟩ h
  · cases ok <;> exact hinv
  · intro _ m1 m2 hI hsp
    unfold I
    rw [missingAt_congr hsp, hsp]
    exact hI
  · intro j hj m1 m2 f ok hI hmap
    have hI2 : I m2 := ⟨fun w => le_trans (mapUserPage_missingAt hD (page_lt_userEnd hend hj) hmap w) (hI.1 w),
      fun _ => mapUserPage_space hmap⟩
    cases ok <;> exact hI2

/-- The shared-memory objects behind the fds hold their frames. -/
def Lists (fds : Nat → FdView) (listed : Nat → Prop) : Prop :=
  ∀ fd size frames, fds fd = .shmem size frames → ∀ f ∈ frames, listed f

theorem PageSource.ledger (hM : M.Lawful) (hend : base + n * PAGE_SIZE ≤ USER_END) (hfds : Lists fds listed)
    (hl : m.Ledger M owners listed) (h : mapPages base m = some (ok, m')) : m'.Ledger M owners listed := by
  have hinv := hs.inv base (fun _ m1 => m1.Ledger M owners listed) (fun m1 => m1.Ledger M owners listed) ?_
    ?_ ?_ ?_ hl h
  · cases ok <;> exact hinv
  · intro _ j hj m1 m2 m3 frame hl1 ha ok hmap
    cases ha' : m1.frames.allocate with
    | mk o a =>
      have htook := allocate_took hl1.sound ha'
      obtain ⟨rfl, rfl⟩ : o = some frame ∧ { m1 with frames := a } = m2 := by
        simp only [services, ha', Prod.mk.injEq] at ha
        exact ha
      have hroom := (hl1.loose htook (f := frame) (by simp)).room
      have hl3 := (hl1.took htook).map hM (page_lt_userEnd hend hj) (fun _ => hroom) hmap
      cases ok <;> exact hl3
  · intro _ j hj m1 m2 hl1 ha
    cases ha' : m1.frames.allocate with
    | mk o a =>
      obtain ⟨rfl, rfl⟩ : o = none ∧ { m1 with frames := a } = m2 := by
        simp only [services, ha', Prod.mk.injEq] at ha
        exact ha
      exact hl1.took (allocate_took hl1.sound ha')
  · intro _ j hj m1 m2 m3 fd size frames frame hl1 hfd hmem hmap hshare
    exact hl1.mapShared hM (page_lt_userEnd hend hj) (hfds fd size frames hfd frame hmem) hmap hshare
  · intro _ j hj m1 m2 fd size frames frame hl1 _ _ hmap
    refine hl1.map hM (page_lt_userEnd hend hj) ?_ hmap
    intro he
    cases he

end

theorem sysMunmap_ledger (hM : M.Lawful) (hl : m.Ledger M owners listed) (hp : VmasOk p)
    (hend : addr + length ≤ USER_END)
    (h : sysMunmap (services M) p m addr length = some (r, p', m')) : m'.Ledger M owners listed := by
  exact sysMunmap_keeps hp hend hl (fun v m1 m2 _ hv hl1 hb => hl1.unmapAndRelease hM hv hb) h

theorem sysMmap_ledger {fds : Nat → FdView} {prot flags a5 r9 : Nat} (hM : M.Lawful) (hl : m.Ledger M owners listed)
    (hp : VmasOk p) (hfds : Lists fds listed) (hend : BitVec.ofNat 32 flags &&& MAP_FIXED ≠ 0 →
      addr + length ≤ USER_END)
    (h : sysMmap (services M) fds p m addr length prot flags a5 r9 = some (r, p', m')) : m'.Ledger M owners listed := by
  rcases sysMmap_placed hp hend h with ⟨-, rfl, rfl, -⟩ | ⟨_, _, m1, vma, mapPages, ok, hpl, hmap, -⟩
  · exact hl
  have hl1 : m1.Ledger M owners listed := by
    rcases hpl.before with ⟨hf, -, hun⟩ | ⟨-, -, -, rfl⟩
    · exact sysMunmap_ledger hM hl hp (hend hf) hun
    · exact hl
  exact hpl.source.ledger hM hpl.stop hfds hl1 hmap

theorem sysMprotect_room {prot : Nat} (hM : M.Lawful) (hD : D.Lawful) (hp : VmasOk p) (hend : addr + length ≤ USER_END)
    (h : sysMprotect (services M) p m addr length prot = some (r, p', m')) :
    m'.missingAt D p.pml4 = m.missingAt D p.pml4 ∧ ((m.spaces.get? p.pml4).isSome → (m'.spaces.get? p.pml4).isSome) ∧
      ∀ owners listed, m.Ledger M owners listed → m'.Ledger M owners listed := by
  refine sysMprotect_keeps (I := fun m1 => m1.missingAt D p.pml4 = m.missingAt D p.pml4 ∧
    ((m.spaces.get? p.pml4).isSome → (m1.spaces.get? p.pml4).isSome) ∧
    ∀ owners listed, m.Ledger M owners listed → m1.Ledger M owners listed) hp hend ⟨rfl, id, fun _ _ => id⟩
    (fun v m1 m2 _ hv hI hb => ?_) h
  obtain ⟨_, ht, rfl⟩ := updateFlags_cases hb
  refine ⟨funext fun w => ?_, fun _ => by rw [get?_insert_self]; rfl, fun _ _ hl =>
    (hI.2.2 _ _ hl).updateFlags hM hv hb⟩
  rw [missingAt_insert, hD.updateFlags_missing hv, ← missingAt_eq ht, hI.1]

/-! ## Runs -/

/-- A page that can be mapped: an area covers it, so that it is unmapped first, or it has no
    leaf, and the tables above it are there if the new leaf is not to be present. -/
def Mappable (D : Descent M) (s : Proc × Mem τ) (prot v : Nat) : Prop :=
  (attrAt s.1.vmaMap v).isSome = true ∨ (s.2.leafAt M s.1.pml4 v = none ∧
    (BitVec.ofNat 32 prot ≠ PROT_NONE ∨ s.2.missingAt D s.1.pml4 v = 0))

/-- The calls considered: on ranges of the user half, over fds whose objects hold their frames. -/
def Ranged (listed : Nat → Prop) (e : Ev) : Prop :=
  OnUserHalf e ∧ match e with
    | .mmap fds .. => Lists fds listed
    | _ => True

/-- An unmap meets only leaves with PRESENT. -/
def Clears (M : Mapper τ) (s : Proc × Mem τ) : Ev → Prop
  | .mmap _ addr length _ flags _ _ => BitVec.ofNat 32 flags &&& MAP_FIXED ≠ 0 → LeavesPresent M s addr length
  | .munmap addr length => LeavesPresent M s addr length
  | _ => True

/-- An `mmap` finds its pages free, a frame for each unless they are shared, and one for each
    missing table. -/
def Roomy (D : Descent M) (s : Proc × Mem τ) : Ev → Prop
  | .mmap _ addr length prot flags _ _ => ∀ base, mmapBase s.1 addr length flags = some base →
      framesFor D s.2 s.1.pml4 base (pagesOf length) (!decide (BitVec.ofNat 32 flags &&& MAP_SHARED ≠ 0)).toNat 0 ≤
        s.2.frames.available ∧
      ∀ i < pagesOf length, Mappable D s prot (base + i * PAGE_SIZE)
  | _ => True

/-- A process without areas; its other pages, if it has any, are no concern of the calls. -/
def unmapMachine (M : Mapper τ) (owners : Nat → Nat) (listed : Nat → Prop) : Machine (Proc × Mem τ) Ev where
  start := fun s => s.1.vmaMap = .empty ∧ s.2.Ledger M owners listed ∧ (s.2.spaces.get? s.1.pml4).isSome
  step := fun s e => (call (Mem.services M) s.1 s.2 e).map (·.2)

structure UnmapInv (M : Mapper τ) (owners : Nat → Nat) (listed : Nat → Prop) (s : Proc × Mem τ) : Prop where
  vmas : VmasOk s.1
  backed : Backed M s.1 s.2
  ledger : s.2.Ledger M owners listed
  space : (s.2.spaces.get? s.1.pml4).isSome

variable {s s' : Proc × Mem τ} {e : Ev} {q : Nat}

/-- A page that could be mapped before an unmap, be it only over an area, can be mapped after. -/
theorem sysMunmap_mappable (hM : M.Lawful) (hD : D.Lawful) (hi : UnmapInv M owners listed s)
    (hend : addr + length ≤ USER_END) (hpresent : LeavesPresent M s addr length)
    (h : sysMunmap (services M) s.1 s.2 addr length = some (0, s')) {prot : Nat} (hv : PAGE_SIZE ∣ v)
    (huser : v < USER_END) (hmap : Mappable D s prot v) : Mappable D s' prot v := by
  obtain ⟨-, hrel⟩ := sysMunmap_released hM hD hi.ledger hi.vmas hend hpresent h
  obtain ⟨-, hmiss, -⟩ := sysMunmap_room hD hi.vmas hend h
  rcases sysMunmap_pages hM hi.vmas hend h with ⟨hr, -⟩ | ⟨-, haddr, -, -, hpml4, hattr, hleaf⟩
  · exact absurd hr (by decide)
  have hal := aligned_iff.mp haddr
  unfold Mappable
  rw [hpml4, hmiss]
  by_cases hc : CoveredPage s.1 addr length v
  · obtain ⟨_, he⟩ := isSome_iff_exists.mp (hi.backed v hv huser hc.2.2.2)
    have h0 : s.2.missingAt D s.1.pml4 v ≤ apart v v := missingAt_of_leafAt hD huser he
    exact .inr ⟨hrel.zero v hc, .inr (by simpa [apart] using h0)⟩
  rw [hleaf v hc, hattr v]
  rcases hmap with hcov | hfree
  · refine .inl ?_
    rw [if_neg]
    · exact hcov
    · rintro ⟨h1, h2⟩
      exact hc ⟨hv, h1, (lt_of_page hal hv).mp h2, hcov⟩
  · exact .inr hfree

section

variable {fds : Nat → FdView} {prot flags a5 r9 base : Nat} {p1 : Proc} {m1 : Mem τ}

variable (hM : M.Lawful) (hD : D.Lawful) (hi : UnmapInv M owners listed s)
  (he : Ranged listed (.mmap fds addr length prot flags a5 r9))

include hD hi he in
theorem Cleared.space (h : Cleared M s.1 s.2 addr length flags base p1 m1) : (m1.spaces.get? s.1.pml4).isSome := by
  rcases h.before with ⟨hf, -, hun⟩ | ⟨-, -, -, rfl⟩
  · exact (sysMunmap_room hD hi.vmas (he.1 hf) hun).2.2 hi.space
  · exact hi.space

include hD hi he in
theorem sysMmap_space (h : sysMmap (services M) fds s.1 s.2 addr length prot flags a5 r9 = some (r, s')) :
    (s'.2.spaces.get? s.1.pml4).isSome := by
  rcases sysMmap_placed hi.vmas he.1 h with ⟨-, -, hm, -⟩ | ⟨_, _, m1, vma, mapPages, ok, hpl, hmap, -⟩
  · exact hm ▸ hi.space
  exact (hpl.source.room hD hpl.stop hmap).2 (hpl.space hD hi he)

variable (hc : Clears M s (.mmap fds addr length prot flags a5 r9))
  (hg : Roomy D s (.mmap fds addr length prot flags a5 r9))
include hM hD hi he hc hg

/-- The state in which the pages are mapped, and that they are free there. -/
theorem Cleared.vacant (h : Cleared M s.1 s.2 addr length flags base p1 m1) :
    (∀ v, PAGE_SIZE ∣ v → v < USER_END → ∀ q, Mappable D s q v → Mappable D (p1, m1) q v) ∧
      Vacant D s.1.pml4 base (pagesOf length) (!decide (BitVec.ofNat 32 flags &&& MAP_SHARED ≠ 0)).toNat 0 m1 ∧
      ∀ i < pagesOf length, BitVec.ofNat 32 prot ≠ PROT_NONE ∨ m1.missingAt D s.1.pml4 (base + i * PAGE_SIZE) = 0 := by
  obtain ⟨hframes, hwin⟩ := hg base h.base_eq
  have hmap : ∀ v, PAGE_SIZE ∣ v → v < USER_END → ∀ q, Mappable D s q v → Mappable D (p1, m1) q v := by
    intro v hv huser q hmv
    rcases h.before with ⟨hf, -, hun⟩ | ⟨-, -, rfl, rfl⟩
    · exact sysMunmap_mappable hM hD hi (he.1 hf) (hc hf) hun hv huser hmv
    · exact hmv
  have hav : s.2.frames.available ≤ m1.frames.available ∧ m1.missingAt D s.1.pml4 = s.2.missingAt D s.1.pml4 := by
    rcases h.before with ⟨hf, -, hun⟩ | ⟨-, -, -, rfl⟩
    · obtain ⟨hle, hmiss, -⟩ := sysMunmap_room hD hi.vmas (he.1 hf) hun
      exact ⟨hle, hmiss⟩
    · exact ⟨le_refl _, rfl⟩
  -- no area is left over the window, so mappable means free
  have hfree : ∀ i < pagesOf length, m1.leafAt M s.1.pml4 (base + i * PAGE_SIZE) = none ∧
      (BitVec.ofNat 32 prot ≠ PROT_NONE ∨ m1.missingAt D s.1.pml4 (base + i * PAGE_SIZE) = 0) := by
    intro i hi
    have hpage := hmap _ (Nat.dvd_add h.aligned (Nat.dvd_mul_left ..)) (page_lt_userEnd h.stop hi) _ (hwin i hi)
    have hnone : attrAt p1.vmaMap (base + i * PAGE_SIZE) = none :=
      attrAt_none_of_free h.vmas.1 h.free (Nat.le_add_right ..) (by simp only [PAGE_SIZE]; omega)
    unfold Mappable at hpage
    rw [show (p1, m1).1.pml4 = s.1.pml4 from h.pml4] at hpage
    rcases hpage with hcov | hpage
    · rw [show attrAt (p1, m1).1.vmaMap (base + i * PAGE_SIZE) = none from hnone] at hcov
      cases hcov
    · exact hpage
  refine ⟨hmap, ⟨fun i _ hi => (hfree i hi).1, ?_⟩, fun i hi => (hfree i hi).2⟩
  rw [framesFor_congr hav.2]
  exact le_trans hframes hav.1

/-- An `mmap` that goes well does not give up half-way, and takes no page from later calls. -/
theorem sysMmap_mappable (h : sysMmap (services M) fds s.1 s.2 addr length prot flags a5 r9 = some (r, s')) :
    ∀ v, PAGE_SIZE ∣ v → v < USER_END → ∀ q, Mappable D s q v → Mappable D s' q v := by
  rcases sysMmap_placed hi.vmas he.1 h with ⟨-, hp, hm, -⟩ | ⟨_, _, m1, vma, mapPages, ok, hpl, hmap, hres⟩
  · rw [show s' = s from Prod.ext hp hm]
    exact fun _ _ _ _ hv => hv
  obtain ⟨hkeep, hvac, -⟩ := hpl.vacant hM hD hi he hc hg
  obtain rfl := hpl.source.succeeds hM hD hpl.stop hvac hmap
  obtain ⟨hmiss, -⟩ := hpl.source.room hD hpl.stop hmap
  obtain ⟨hother, -, -⟩ := hpl.source.leafAt hM hpl.stop hmap
  obtain ⟨-, hp'⟩ := hres
  intro v hv huser q hq
  have hq1 := hkeep v hv huser q hq
  unfold Mappable at hq1 ⊢
  rw [hp']
  rw [hpl.pml4] at hq1 ⊢
  rw [hpl.attrAt_insert]
  split
  · exact .inl rfl
  rename_i hout
  refine hq1.imp_right fun hfree => ?_
  rw [hother v]
  · exact ⟨hfree.1, hfree.2.imp_right fun h0 => Nat.le_zero.mp (Nat.le_trans (hmiss v) (Nat.le_of_eq h0))⟩
  · rintro i hi rfl
    exact hout ⟨Nat.le_add_right .., by simp only [PAGE_SIZE]; omega⟩

end

theorem sysMprotect_mappable {prot : Nat} (hM : M.Lawful) (hD : D.Lawful) (hi : UnmapInv M owners listed s)
    (hend : addr + length ≤ USER_END) (h : sysMprotect (services M) s.1 s.2 addr length prot = some (r, s'))
    (hmap : Mappable D s q v) : Mappable D s' q v := by
  obtain ⟨hmiss, -, -⟩ := sysMprotect_room hM hD hi.vmas hend h
  rcases sysMprotect_pages hM hi.vmas hend h with ⟨-, hp, hm⟩ | ⟨-, hpml4, hattr, -, hkeep⟩
  · rw [show s' = s from Prod.ext hp hm]
    exact hmap
  unfold Mappable
  rw [hpml4, hattr v, hmiss]
  rcases hmap with hcov | hfree
  · exact .inl hcov
  by_cases hc : CoveredPage s.1 addr length v
  · exact .inl hc.2.2.2
  · rw [hkeep v hc]
    exact .inr hfree

theorem call_unmapInv (hM : M.Lawful) (hD : D.Lawful) (hi : UnmapInv M owners listed s) (he : Ranged listed e)
    (h : call (services M) s.1 s.2 e = some (r, s')) : UnmapInv M owners listed s' := by
  obtain ⟨hvmas, hpml4, hbacked⟩ := call_backed hM hi.vmas hi.backed he.1 h
  cases e with
  | brk addr => exact he.1.elim
  | mmap fds addr length prot flags a5 r9 =>
    exact ⟨hvmas, hbacked, sysMmap_ledger hM hi.ledger hi.vmas he.2 he.1 h, hpml4 ▸ sysMmap_space hD hi he h⟩
  | munmap addr length =>
    exact ⟨hvmas, hbacked, sysMunmap_ledger hM hi.ledger hi.vmas he.1 h,
      hpml4 ▸ (sysMunmap_room hD hi.vmas he.1 h).2.2 hi.space⟩
  | mprotect addr length prot =>
    obtain ⟨-, hspace, hledger⟩ := sysMprotect_room hM hD hi.vmas he.1 h
    exact ⟨hvmas, hbacked, hledger _ _ hi.ledger, hpml4 ▸ hspace hi.space⟩

theorem call_mappable (hM : M.Lawful) (hD : D.Lawful) (hi : UnmapInv M owners listed s) (he : Ranged listed e)
    (hc : Clears M s e) (hg : Roomy D s e) (h : call (services M) s.1 s.2 e = some (r, s')) (hv : PAGE_SIZE ∣ v)
    (huser : v < USER_END) (hq : Mappable D s q v) : Mappable D s' q v := by
  cases e with
  | brk addr => exact he.1.elim
  | mmap fds addr length prot flags a5 r9 => exact sysMmap_mappable hM hD hi he hc hg h v hv huser q hq
  | munmap addr length =>
    rcases sysMunmap_inv h with ⟨-, hp, hm⟩ | ⟨rfl, -⟩
    · rw [show s' = s from Prod.ext hp hm]
      exact hq
    · exact sysMunmap_mappable hM hD hi he.1 hc h hv huser hq
  | mprotect addr length prot => exact sysMprotect_mappable hM hD hi he.1 h hq

/-! ## The pages can be mapped again -/

section

variable {fds : Nat → FdView} {prot flags a5 r9 base n : Nat} {fl : PtFlags}

/-- Arguments that `mmap` accepts: anonymous memory, a file with content, or a part of a
    shared-memory object whose counts do not overflow. -/
inductive Accepted (m : Mem τ) (fds : Nat → FdView) (length flags a5 r9 : Nat) : Prop
  | anonymous (hshared : BitVec.ofNat 32 flags &&& MAP_SHARED = 0) (hpriv : BitVec.ofNat 32 flags &&& MAP_PRIVATE ≠ 0)
      (hanon : BitVec.ofNat 32 flags &&& MAP_ANONYMOUS ≠ 0)
  | file (content : Nat) (hshared : BitVec.ofNat 32 flags &&& MAP_SHARED = 0)
      (hpriv : BitVec.ofNat 32 flags &&& MAP_PRIVATE ≠ 0) (hanon : BitVec.ofNat 32 flags &&& MAP_ANONYMOUS = 0)
      (haligned : Aligned r9) (hfd : fds (fdI32 a5) = .file (some content))
        (hend : r9 + pagesOf length * PAGE_SIZE < 2 ^ 64)
  | shared (size : Nat) (frames : List Nat) (hshared : BitVec.ofNat 32 flags &&& MAP_SHARED ≠ 0)
      (hpriv : BitVec.ofNat 32 flags &&& MAP_PRIVATE = 0) (hanon : BitVec.ofNat 32 flags &&& MAP_ANONYMOUS = 0)
      (haligned : Aligned r9) (hfd : fds a5 = .shmem size frames)
      (hfits : sharedFits r9 (pagesOf length * PAGE_SIZE) size = some true)
      (hlen : r9 / PAGE_SIZE + pagesOf length ≤ frames.length)
        (hcount : ∀ f ∈ frames, m.count f + pagesOf length < 2 ^ 16)

/-- What the loop over an area's pages needs to return, before page `j`. -/
structure Returns (D : Descent M) (pml4 base n k : Nat) (fl : PtFlags) (j : Nat) (m : Mem τ) : Prop where
  vacant : Vacant D pml4 base n k j m
  space : (m.spaces.get? pml4).isSome
  tables : ∀ i, j ≤ i → i < n → fl.present = true ∨ m.missingAt D pml4 (base + i * PAGE_SIZE) = 0

theorem Returns.congr (h : Returns D pml4 base n k fl j m) (hsp : m'.spaces = m.spaces) (hfr : m'.frames = m.frames) :
    Returns D pml4 base n k fl j m' := by
  refine ⟨h.vacant.congr hsp hfr, hsp ▸ h.space, ?_⟩
  rw [missingAt_congr hsp]
  exact h.tables

theorem Returns.map {m1 : Mem τ} (hM : M.Lawful) (hD : D.Lawful) (hend : base + n * PAGE_SIZE ≤ USER_END) (hj : j < n)
    (h : Returns D pml4 base n k fl j m) (hsp : m1.spaces = m.spaces)
    (hav : m.frames.available = m1.frames.available + k)
    (f : Nat) : ∃ m', m1.mapUserPage M pml4 (base + j * PAGE_SIZE) f fl = some (true, m') ∧
      Returns D pml4 base n k fl (j + 1) m' := by
  have huser := page_lt_userEnd hend hj
  have htables := h.tables j (le_refl j) hj
  rw [← missingAt_congr hsp] at htables
  obtain ⟨⟨_, m'⟩, hmap⟩ := mapUserPage_returns (f := f) hD huser (hsp ▸ h.space) htables
  obtain ⟨rfl, hvac⟩ := h.vacant.map hM hD hend hj hsp hav hmap
  refine ⟨m', hmap, hvac, mapUserPage_space hmap, fun i hi hin => ?_⟩
  refine (h.tables i (Nat.le_of_succ_le hi) hin).imp_right fun h0 => ?_
  rw [← missingAt_congr hsp] at h0
  have := mapUserPage_missingAt hD huser hmap (base + i * PAGE_SIZE)
  omega

theorem page_virt (hend : base + n * PAGE_SIZE ≤ USER_END) (hj : j < n) :
    addU64 base (j * PAGE_SIZE) = some (base + j * PAGE_SIZE) ∧
      virtAddrNew (base + j * PAGE_SIZE) = some (base + j * PAGE_SIZE) := by
  have hlt := page_lt_userEnd hend hj
  unfold USER_END at hlt
  exact ⟨addU64_of_lt (by omega), if_pos (.inl hlt)⟩

theorem mmapAllocPages_returns {file : Option Nat} (hM : M.Lawful) (hD : D.Lawful)
    (hend : base + n * PAGE_SIZE ≤ USER_END)
    (hfile : ∀ offset, file = some offset → offset + n * PAGE_SIZE < 2 ^ 64) (h : Returns D pml4 base n 1 fl 0 m) :
    ∃ m', mmapAllocPages (services M) n base pml4 fl file m = some (true, m') := by
  have hloop : ∀ fill : Nat → Option Unit, (∀ j < n, fill j = some ()) →
      ∃ m', forPages (allocAndMapPage (services M) pml4 base fl fill) n 0 m = some (true, m') := by
    intro fill hfill
    refine (forPages_total (Returns D pml4 base n 1 fl) (fun j m1 hj hI => ?_) h).imp fun _ hm => hm.1
    have hav := framesFor_succ hj ▸ hI.vacant.frames
    obtain ⟨f, hf⟩ := isSome_iff_exists.mp (m1.frames.allocate_isSome.mpr (by omega))
    have ha : (services M).allocFrame m1 = (some f, { m1 with frames := m1.frames.allocate.2 }) := Prod.ext hf rfl
    obtain ⟨m2, hmap, hI2⟩ := hI.map hM hD hend hj (allocFrame_spaces ha)
      (allocate_some_available (allocFrame_available ha)) f
    refine ⟨m2, ?_, hI2⟩
    obtain ⟨hadd, hvirt⟩ := page_virt hend hj
    rw [allocAndMapPage, hadd, bind_eq_bind, bind_some, ha]
    simp only [hfill j hj, hvirt, bind_some]
    exact hmap
  cases file with
  | none => exact hloop _ fun _ _ => rfl
  | some offset =>
    refine hloop _ fun j hj => ?_
    have hlt : offset + j * PAGE_SIZE < 2 ^ 64 :=
      Nat.lt_of_le_of_lt (Nat.add_le_add_left (Nat.mul_le_mul_right _ (hj.le)) _) (hfile offset rfl)
    rw [addU64_of_lt hlt]
    rfl

theorem mmapSharedPages_returns {frames : List Nat} (hM : M.Lawful) (hD : D.Lawful)
    (hend : base + n * PAGE_SIZE ≤ USER_END)
    (hlen : frames.length = n) (hcount : ∀ f ∈ frames, m.count f + n < 2 ^ 16) (h : Returns D pml4 base n 0 fl 0 m) :
    ∃ m', mmapSharedPages (services M) frames base pml4 fl m = some (true, m') := by
  unfold mmapSharedPages
  rw [hlen]
  refine (forPages_total (fun j m1 => Returns D pml4 base n 0 fl j m1 ∧ ∀ f ∈ frames, m1.count f + (n - j) < 2 ^ 16)
    (fun j m1 hj hI => ?_) ⟨h, hcount⟩).imp fun _ hm => hm.1
  obtain ⟨f, hf⟩ : ∃ f, frames[j]? = some f := ⟨frames[j], List.getElem?_eq_getElem (hlen ▸ hj)⟩
  obtain ⟨m2, hmap, hI2⟩ := hI.1.map hM hD hend hj rfl rfl f
  have hcount2 : ∀ g, m2.count g = m1.count g := by
    obtain ⟨-, -, -, -, -, rfl⟩ := mapUserPage_cases hmap
    exact fun g => rfl
  have hroom := hI.2 f (List.mem_of_getElem? hf)
  have hshare : m2.refShare f = some { m2 with refcounts := m2.refcounts.insert f (m2.count f + 1) } := by
    have hlt : m2.count f + 1 < 2 ^ 16 := by
      rw [hcount2]
      omega
    unfold count at hlt ⊢
    simp only [refShare, hlt, if_true]
  refine ⟨_, ?_, hI2.congr (refShare_spaces hshare) (by rw [refShare_cases hshare]), fun g hg => ?_⟩
  · obtain ⟨hadd, hvirt⟩ := page_virt hend hj
    simp only [hf, hadd, hvirt, bind_eq_bind, bind_some]
    rw [show (services M).mapUserPage m1 pml4 (base + j * PAGE_SIZE) f fl = some (true, m2) from hmap, bind_some]
    dsimp only
    rw [show (services M).refShare m2 f = _ from hshare]
    rfl
  · have hgroom := hI.2 g hg
    show ((m2.refcounts.insert f (m2.count f + 1)).get? g).getD 1 + _ < _
    rw [get?_insert]
    split
    · rw [getD_some, hcount2]
      omega
    · have := hcount2 g
      unfold count at this hgroom
      omega

variable {p1 : Proc} {m1 : Mem τ} {vma : Vma} {mapPages : Nat → Mem τ → Option (Bool × Mem τ)}

/-- The window is cleared, and the area inserted, if its pages can be mapped there. -/
theorem Cleared.place (h : Cleared M p m addr length flags base p1 m1) (hl : vma.len = pagesOf length * PAGE_SIZE)
    (hmap : mapPages base m1 = some (true, m')) : ∃ p', mmapPlace (services M) p m addr
      (BitVec.ofNat 32 flags &&& MAP_FIXED ≠ 0) vma mapPages = some ((base : Int), p', m') := by
  have hbase : asI64 base = base := by
    have hstop := h.stop
    have := (pagesOf_len h.pos).2
    exact asI64_of_lt (by omega)
  unfold mmapPlace
  rcases h.before with ⟨hf, rfl, hun⟩ | ⟨hf, hgap, rfl, rfl⟩
  · have hargs : ¬ (base = 0 ∨ ¬ Aligned base) :=
      not_or.mpr ⟨ne_of_gt h.base_pos, not_not.mpr (aligned_iff.mpr h.aligned)⟩
    rcases sysMunmap_inv hun with ⟨hr, -⟩ | ⟨-, -, -, _, _, hsweep, hranges, rfl⟩
    · exact absurd hr (by decide)
    rw [if_pos (decide_eq_true hf), if_neg hargs, hl, hsweep]
    simp only [bind_eq_bind, bind_some, hranges, hmap, if_true, hbase]
    exact ⟨_, rfl⟩
  · have hnot : decide (BitVec.ofNat 32 flags &&& MAP_FIXED ≠ 0) = false := decide_eq_false (not_not.mpr hf)
    rw [hnot, if_neg Bool.false_ne_true, hl, hgap]
    simp only [bind_eq_bind, bind_some, hmap, if_true, hbase]
    exact ⟨_, rfl⟩

theorem cleared_of_base (hM : M.Lawful) (hi : UnmapInv M owners listed s) (hpos : 0 < length)
    (hend : BitVec.ofNat 32 flags &&& MAP_FIXED ≠ 0 → addr + length ≤ USER_END)
    (hb : mmapBase s.1 addr length flags = some base) : ∃ p1 m1, Cleared M s.1 s.2 addr length flags base p1 m1 := by
  obtain ⟨hgrid, hlen⟩ := pagesOf_len hpos
  unfold mmapBase at hb
  split at hb
  · rename_i hf
    obtain ⟨hargs, ⟨⟩⟩ := of_unless hb
    obtain ⟨hne, hal⟩ := not_or.mp hargs
    have hal := not_not.mp hal
    obtain ⟨p1, m1, hun⟩ := sysMunmap_returns (M := M) hi.vmas hal hpos (hend hf) hi.space
    rcases sysMunmap_pages hM hi.vmas (hend hf) hun with ⟨hr, -⟩ | ⟨-, -, -, hvmas, hpml4, hattr, -⟩
    · exact absurd hr (by decide)
    refine ⟨p1, m1, hpos, Nat.pos_of_ne_zero hne, aligned_iff.mp hal, pages_le_userEnd hal (hend hf),
      .inl ⟨hf, rfl, hun⟩, hvmas, hpml4, free_of_attrAt_none hvmas.1 hlen fun a h1 h2 => ?_⟩
    rw [hattr a, if_pos ⟨h1, h2⟩]
  · rename_i hf
    have hgap : findMmapGap s.1.vmaMap (pagesOf length * PAGE_SIZE) = some (some base) := join_eq_some_iff.mp hb
    obtain ⟨hfloor, hceil, hal, hfree⟩ := findMmapGap_free hi.vmas.1 hgrid hgap
    exact ⟨s.1, s.2, hpos, lt_of_lt_of_le (by decide) hfloor, hal, le_trans hceil (by decide),
      .inr ⟨not_not.mp hf, hgap, rfl, rfl⟩, hi.vmas, rfl, hfree⟩

variable (hM : M.Lawful) (hD : D.Lawful) (hi : UnmapInv M owners listed s)
  (he : Ranged listed (.mmap fds addr length prot flags a5 r9))
  (hc : Clears M s (.mmap fds addr length prot flags a5 r9))
include hM hD hi he hc

theorem Cleared.count_le (h : Cleared M s.1 s.2 addr length flags base p1 m1) (hf : listed f) :
    m1.count f ≤ s.2.count f := by
  rcases h.before with ⟨hfix, -, hun⟩ | ⟨-, -, -, rfl⟩
  · obtain ⟨hl1, hrel⟩ := sysMunmap_released hM hD hi.ledger hi.vmas (he.1 hfix) (hc hfix) hun
    have hheld := hrel.once f
    simp only [held, if_neg (hl1.listed_not_free hf), if_neg (hi.ledger.listed_not_free hf)] at hheld
    omega
  · exact le_refl _

theorem sysMmap_returns (hg : Roomy D s (.mmap fds addr length prot flags a5 r9)) (hpos : 0 < length)
    (hlen : length + PAGE_MASK < 2 ^ 64) (hacc : Accepted s.2 fds length flags a5 r9)
    (hb : mmapBase s.1 addr length flags = some base) :
    ∃ s', sysMmap (services M) fds s.1 s.2 addr length prot flags a5 r9 = some ((base : Int), s') := by
  obtain ⟨_, m1, hw⟩ := cleared_of_base hM hi hpos he.1 hb
  obtain ⟨-, hvac, htables⟩ := hw.vacant hM hD hi he hc hg
  have hspace := hw.space hD hi he
  have hret : Returns D s.1.pml4 base (pagesOf length) (!decide (BitVec.ofNat 32 flags &&& MAP_SHARED ≠ 0)).toNat
      (protToPageFlags (BitVec.ofNat 32 prot)) 0 m1 :=
    ⟨hvac, hspace, fun i _ hin => (htables i hin).imp_left fun h => by rw [protToPageFlags, if_neg h]⟩
  have hpages : pagesOf length * PAGE_SIZE / PAGE_SIZE = pagesOf length := Nat.mul_div_cancel _ (by decide)
  have hne : ¬ pagesOf length * PAGE_SIZE = 0 := ne_of_gt (pagesOf_len hpos).2
  -- past the checks of its arguments, `mmap` is the placing of the area
  have hplace : ∀ {vma mapPages}, vma.len = pagesOf length * PAGE_SIZE → (∃ m', mapPages base m1 = some (true, m')) →
      ∃ s', mmapPlace (services M) s.1 s.2 addr (BitVec.ofNat 32 flags &&& MAP_FIXED ≠ 0) vma mapPages =
        some ((base : Int), s') := by
    rintro _ _ hl ⟨m', hmap⟩
    obtain ⟨p', h⟩ := hw.place hl hmap
    exact ⟨(p', m'), h⟩
  unfold sysMmap
  rw [alignUp_of_lt hlen, bind_eq_bind, bind_some]
  simp only [hpages, if_neg hne]
  cases hacc with
  | anonymous hshared hpriv hanon =>
    rw [hshared] at hret
    simp only [hshared, hpriv, hanon, ne_eq, not_true_eq_false, not_false_eq_true, decide_true, decide_false,
      Bool.false_eq_true, Bool.false_and, if_false, if_true]
    exact hplace rfl (mmapAllocPages_returns hM hD hw.stop (fun _ he => nomatch he) hret)
  | file content hshared hpriv hanon haligned hfd hoff =>
    rw [hshared] at hret
    simp only [hshared, hpriv, hanon, ne_eq, not_true_eq_false, not_false_eq_true, decide_true, decide_false,
      Bool.false_eq_true, Bool.false_and, if_false, haligned, hfd]
    exact hplace rfl (mmapAllocPages_returns hM hD hw.stop (fun _ he => some.inj he ▸ hoff) hret)
  | shared size frames hshared hpriv hanon haligned hfd hfits hfirst hcount =>
    have hsub : ∀ f ∈ (frames.drop (r9 / PAGE_SIZE)).take (pagesOf length), f ∈ frames := fun f hf =>
      List.mem_of_mem_drop (List.mem_of_mem_take hf)
    have hlen : ((frames.drop (r9 / PAGE_SIZE)).take (pagesOf length)).length = pagesOf length := by
      rw [List.length_take, List.length_drop]
      omega
    rw [decide_eq_true hshared] at hret
    simp only [hshared, hpriv, hanon, ne_eq, not_true_eq_false, not_false_eq_true, decide_true, decide_false,
      Bool.true_eq_false, Bool.and_false, Bool.false_eq_true, if_false, if_true, haligned, hfd, hfits, bind_eq_bind,
      bind_some, Bool.not_true, Bool.false_or, gt_iff_lt, not_lt.mpr hfirst]
    refine hplace rfl (mmapSharedPages_returns hM hD hw.stop hlen (fun f hf => ?_) hret)
    have := hcount f (hsub f hf)
    have := hw.count_le hM hD hi he hc (he.2 a5 size frames hfd f (hsub f hf))
    omega

end

/-- What a call that unmaps should leave: `munmap` at its end, and `mmap` with MAP_FIXED
    before it maps its own pages. -/
def Removal (M : Mapper τ) (s : Proc × Mem τ) (e : Ev) (r : Int) (s' : Proc × Mem τ) : Prop :=
  match e with
  | .munmap addr length => r = 0 → Released M s s' addr length
  | .mmap fds addr length prot flags _ _ => BitVec.ofNat 32 flags &&& MAP_FIXED ≠ 0 → (r < 0 ∧ s' = s) ∨
      ∃ p1 m1 vma mapPages ok, Placed M s.1 s.2 fds addr length prot flags addr p1 m1 vma mapPages ∧
        mapPages addr m1 = some (ok, s'.2) ∧ Released M s (p1, m1) addr length
  | _ => True

theorem call_removal (hM : M.Lawful) (hD : D.Lawful) (hi : UnmapInv M owners listed s) (he : Ranged listed e)
    (hc : Clears M s e) (h : call (services M) s.1 s.2 e = some (r, s')) : Removal M s e r s' := by
  cases e with
  | brk addr => trivial
  | mprotect addr length prot => trivial
  | munmap addr length =>
    rintro rfl
    exact (sysMunmap_released hM hD hi.ledger hi.vmas he.1 hc h).2
  | mmap fds addr length prot flags a5 r9 =>
    intro hf
    rcases sysMmap_placed hi.vmas he.1 h with ⟨hr, hp, hm, -⟩ | ⟨_, p1, m1, vma, mapPages, ok, hpl, hmap, -⟩
    · exact .inl ⟨hr, Prod.ext hp hm⟩
    rcases hpl.before with ⟨-, rfl, hun⟩ | ⟨hnot, -⟩
    · exact .inr ⟨p1, m1, vma, mapPages, ok, hpl, hmap,
        (sysMunmap_released hM hD hi.ledger hi.vmas (he.1 hf) (hc hf) hun).2⟩
    · exact absurd hnot hf

theorem reach_unmapInv (hM : M.Lawful) (hD : D.Lawful)
    (hs : (unmapMachine M owners listed).Reach (fun _ => Ranged listed) s) : UnmapInv M owners listed s := by
  refine Machine.Reach.inv ?_ (fun s e s' hi he hstep => ?_) hs
  · rintro _ ⟨hempty, hledger, hspace⟩
    exact ⟨empty_vmasOk hempty, empty_backed hempty, hledger, hspace⟩
  · obtain ⟨⟨_, _⟩, hc, rfl⟩ := of_map hstep
    exact call_unmapInv hM hD hi he hc

theorem later_mappable (hM : M.Lawful) (hD : D.Lawful) (hi : UnmapInv M owners listed s) (hv : PAGE_SIZE ∣ v)
    (huser : v < USER_END) (hmap : Mappable D s q v) (hs : ((unmapMachine M owners listed).startedAt s).Reach
      (fun s e => Ranged listed e ∧ Clears M s e ∧ Roomy D s e) s') : Mappable D s' q v := by
  refine (Machine.Reach.inv_from (I := fun s' => UnmapInv M owners listed s' ∧ Mappable D s' q v) ⟨hi, hmap⟩
    (fun s1 e s2 hi hg hstep => ?_) hs).2
  obtain ⟨⟨_, _⟩, hc, rfl⟩ := of_map hstep
  exact ⟨call_unmapInv hM hD hi.1 hg.1 hc, call_mappable hM hD hi.1 hg.1 hg.2.1 hg.2.2 hc hv huser hi.2⟩

/-- In every run on ranges of the user half: an unmap that meets only leaves with PRESENT clears the
    pages it removes and drops each of their references once; a page that an area covers can be
    mapped from then on, as long as unmaps meet only such leaves and no `mmap` gives up
    half-way; and an `mmap` of such pages returns its address if the frames it takes are there. -/
theorem munmap_releases (hM : M.Lawful) (hD : D.Lawful)
    (hs : (unmapMachine M owners listed).Reach (fun _ => Ranged listed) s) :
    (∀ e r s', Ranged listed e → Clears M s e → call (services M) s.1 s.2 e = some (r, s') → Removal M s e r s') ∧
    (∀ v, PAGE_SIZE ∣ v → v < USER_END → (attrAt s.1.vmaMap v).isSome →
      ∀ s', ((unmapMachine M owners listed).startedAt s).Reach
      (fun s e => Ranged listed e ∧ Clears M s e ∧ Roomy D s e) s' → ∀ prot, Mappable D s' prot v) ∧
    ∀ fds addr length prot flags a5 r9 base, Ranged listed (.mmap fds addr length prot flags a5 r9) →
      Clears M s (.mmap fds addr length prot flags a5 r9) → Roomy D s (.mmap fds addr length prot flags a5 r9) →
        0 < length →
      length + PAGE_MASK < 2 ^ 64 → Accepted s.2 fds length flags a5 r9 → mmapBase s.1 addr length flags = some base →
      ∃ s', sysMmap (services M) fds s.1 s.2 addr length prot flags a5 r9 = some ((base : Int), s') := by
  have hi := reach_unmapInv hM hD hs
  refine ⟨fun e r s' he hc h => call_removal hM hD hi he hc h, fun v hv huser hcov s' hs' prot => ?_, ?_⟩
  · exact later_mappable hM hD hi hv huser (.inl hcov) hs'
  · intro fds addr length prot flags a5 r9 base he hc hg hpos hlen hacc hb
    exact sysMmap_returns hM hD hi he hc hg hpos hlen hacc hb

end

/-! ## A page at 0x400000 -/

namespace Unmapping

def owners : Nat → Nat := fun _ => 0

def listed : Nat → Prop := fun _ => False

/-- Nothing but frames. -/
def boot : Mem Tree :=
  ⟨⟨[0x1000, 0x2000, 0x3000, 0x4000, 0x5000, 0x6000, 0x7000, 0x8000, 0x9000], 0, []⟩, .empty, .empty⟩

/-- A process with an address space of its own and nothing mapped. -/
def blank : Proc × Mem Tree :=
  (⟨0x1000, 0, 0, .empty⟩, ⟨{ boot.frames with next := 1 }, .empty, OrdMap.empty.insert 0x1000 Tree.fresh⟩)

theorem boot_ledger : boot.Ledger mapper owners listed :=
  ⟨⟨by decide, .nil, by simp [boot]⟩, fun f => Nat.zero_le _, by simp [boot], fun f hf => by
    rcases hf with hf | hf <;> exact absurd rfl hf, by simp [boot], by simp [boot], fun f hf => hf.elim⟩

theorem blank_ledger : blank.2.Ledger mapper owners listed :=
  have hcreate : boot.createUserPageTable mapper = some (0x1000, blank.2) := rfl
  (boot_ledger.createUserPageTable mapper_lawful hcreate).1

theorem blank_start : (unmapMachine mapper owners listed).start blank := ⟨rfl, blank_ledger, rfl⟩

/-- One anonymous private page, readable and writable. -/
def mmapPage : Ev := .mmap (fun _ => .absent) 0x400000 0x1000 3 0x32 0 0

theorem page_eq {p : Proc} {v : Nat} (h : CoveredPage p 0x400000 0x1000 v) : v = 0x400000 := by
  obtain ⟨⟨_, rfl⟩, _, _, -⟩ := h
  simp only [PAGE_SIZE] at *
  omega

theorem mmapPage_ranged : Ranged listed mmapPage := ⟨fun _ => by decide, fun fd size frames h => nomatch h⟩

end Unmapping

open Unmapping in
/-- The page is mapped and unmapped, and mapped again with the one frame it needs. -/
theorem munmap_releases_a_page : ∃ s s', (unmapMachine Tree.mapper owners listed).Reach (fun _ => Ranged listed) s ∧
    call (services Tree.mapper) s.1 s.2 (.munmap 0x400000 0x1000) = some (0, s') ∧
      Released Tree.mapper s s' 0x400000 0x1000 ∧
    framesFor Tree.descent s'.2 s'.1.pml4 0x400000 1 1 0 = 1 ∧
    ∃ s'', sysMmap (services Tree.mapper) (fun _ => .absent) s'.1 s'.2 0x400000 0x1000 3 0x32 0 0 =
      some (0x400000, s'') := by
  obtain ⟨s, hs, hleaf, hcov, ⟨_, s'⟩, hcall, hr, hnone, hframes, hav⟩ :
      ∃ s, (unmapMachine mapper owners listed).step blank mmapPage = some s ∧
      s.2.leafAt mapper s.1.pml4 0x400000 = some (0x2000, ⟨true, true, true, true⟩) ∧
        (attrAt s.1.vmaMap 0x400000).isSome ∧
      ∃ x, call (services mapper) s.1 s.2 (.munmap 0x400000 0x1000) = some x ∧ x.1 = 0 ∧
        attrAt x.2.1.vmaMap 0x400000 = none ∧
        framesFor descent x.2.2 x.2.1.pml4 0x400000 1 1 0 = 1 ∧ 1 ≤ x.2.2.frames.available := by decide
  cases hr
  have hreach : (unmapMachine mapper owners listed).Reach (fun _ => Ranged listed) s :=
    .step _ (.start blank_start) mmapPage_ranged hs
  have hunmap : Ranged listed (.munmap 0x400000 0x1000) := ⟨show 0x401000 ≤ USER_END by decide, trivial⟩
  have hpresent : LeavesPresent mapper s 0x400000 0x1000 := by
    intro v hv e he
    rw [page_eq hv, hleaf] at he
    cases he
    rfl
  have hall := munmap_releases mapper_lawful descent_lawful hreach
  have hstep : (unmapMachine mapper owners listed).step s (.munmap 0x400000 0x1000) = some s' := by
    show (call ..).map _ = _
    rw [hcall]
    rfl
  have hmappable := hall.2.1 0x400000 (by decide) (by decide) hcov s'
    (.step _ (.start rfl) ⟨hunmap, hpresent, trivial⟩ hstep) 3
  refine ⟨s, s', hreach, hcall, hall.1 (.munmap 0x400000 0x1000) 0 s' hunmap hpresent hcall rfl, hframes, ?_⟩
  refine (munmap_releases mapper_lawful descent_lawful (.step _ hreach hunmap hstep)).2.2
    (fun _ => .absent) 0x400000 0x1000 3 0x32 0 0
    0x400000 mmapPage_ranged (fun _ v hv => ?_) (fun base hb => ?_) (by decide) (by decide)
      (.anonymous (by decide) (by decide) (by decide)) rfl
  · have := hv.2.2.2
    rw [page_eq hv, hnone] at this
    cases this
  · obtain rfl : 0x400000 = base := some.inj hb
    refine ⟨le_trans (le_of_eq hframes) hav, fun i hi => ?_⟩
    obtain rfl : i = 0 := Nat.lt_one_iff.mp hi
    exact hmappable

open Unmapping in
/-- The page is made PROT_NONE and then unmapped: `munmap` answers 0, the area is gone, but
    the leaf and its reference are still there, and the page cannot be mapped again. -/
theorem munmap_leaves_protected_page : ∃ s s', (unmapMachine Tree.mapper owners listed).Reachable s ∧
    call (services Tree.mapper) s.1 s.2 (.munmap 0x400000 0x1000) = some (0, s') ∧
    CoveredPage s.1 0x400000 0x1000 0x400000 ∧ attrAt s'.1.vmaMap 0x400000 = none ∧
    s'.2.leafAt Tree.mapper s'.1.pml4 0x400000 = some (0x2000, ⟨false, false, true, false⟩) ∧
    named Tree.mapper s 0x400000 0x1000 0x2000 = 1 ∧ s'.2.held 0x2000 = s.2.held 0x2000 ∧
    4 ≤ s'.2.frames.available ∧ (call (services Tree.mapper) s'.1 s'.2 mmapPage).map (·.1) = some (-ENOMEM) := by
  obtain ⟨s, hs, hcov, ⟨_, s'⟩, hcall, hr, hrest⟩ :
      ∃ s, (unmapMachine mapper owners listed).run blank [mmapPage, .mprotect 0x400000 0x1000 0] = some s ∧
      (attrAt s.1.vmaMap 0x400000).isSome ∧
      ∃ x, call (services mapper) s.1 s.2 (.munmap 0x400000 0x1000) = some x ∧ x.1 = 0 ∧
        attrAt x.2.1.vmaMap 0x400000 = none ∧
        x.2.2.leafAt mapper x.2.1.pml4 0x400000 = some (0x2000, ⟨false, false, true, false⟩) ∧
        named mapper s 0x400000 0x1000 0x2000 = 1 ∧ x.2.2.held 0x2000 = s.2.held 0x2000 ∧
        4 ≤ x.2.2.frames.available ∧
        (call (services mapper) x.2.1 x.2.2 mmapPage).map (·.1) = some (-ENOMEM) := by decide
  cases hr
  exact ⟨s, s', Machine.reachable_of_run _ _ blank_start hs, hcall, ⟨by decide, by decide, by decide, hcov⟩, hrest⟩

end Ostoo.Memory
