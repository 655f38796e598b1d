/-
  Ostoo.Memory.Pages — `mmap`, `munmap` and `mprotect` page by page: what they do to the
  leaf of a page and to the areas that cover it, for ranges of the user half.

  Each memory service is an equation for the leaf of any page (`Mem.leafAt`). An `mmap` that
  gets past its arguments is first a `munmap` of the window, for MAP_FIXED, or the choice of
  a gap, and then the mapping of the area's pages (`Cleared`, `Placed`). From both: a page that an area
  covers has a leaf, in every run (`call_backed`).
-/

import Ostoo.Memory.Services

namespace Ostoo.Memory

open Ostoo.Lib Mem Option OrdMap

section

variable {τ : Type} (M : Mapper τ)

/-- The leaf word of a page of an address space, if it is not zero. -/
def Mem.leafAt (m : Mem τ) (pml4 v : Nat) : Option Entry := (m.spaces.get? pml4).bind fun t => (M.leaves t).get? v

/-- The calls considered: `mmap`, `munmap` and `mprotect` on ranges of the user half. -/
def OnUserHalf : Ev → Prop
  | .brk _ => False
  | .mmap _ addr length _ flags _ _ => BitVec.ofNat 32 flags &&& MAP_FIXED ≠ 0 → addr + length ≤ USER_END
  | .munmap addr length => addr + length ≤ USER_END
  | .mprotect addr length _ => addr + length ≤ USER_END

/-- A page of the range that an area covers. -/
def CoveredPage (p : Proc) (addr length v : Nat) : Prop :=
  PAGE_SIZE ∣ v ∧ addr ≤ v ∧ v < addr + length ∧ (attrAt p.vmaMap v).isSome

variable {M} {m m' : Mem τ} {pml4 v w f : Nat} {fl : PtFlags} {ok : Bool}

/-! ## The services -/

namespace Mem

theorem leafAt_eq {t : τ} (ht : m.spaces.get? pml4 = some t) (v : Nat) : m.leafAt M pml4 v = (M.leaves t).get? v := by
  rw [leafAt, ht, bind_some]

theorem leafAt_congr (h : m'.spaces = m.spaces) : m'.leafAt M = m.leafAt M := by
  unfold leafAt
  rw [h]

theorem leafAt_insert (spaces : OrdMap Nat τ) (t : τ) (frames : Frames) (refcounts : OrdMap Nat Nat) (w : Nat) :
    leafAt M ⟨frames, refcounts, spaces.insert pml4 t⟩ pml4 w = (M.leaves t).get? w :=
  leafAt_eq (by dsimp only; rw [get?_insert, if_pos rfl]) w

theorem mapUserPage_leafAt (hM : M.Lawful) (hv : v < USER_END) (h : m.mapUserPage M pml4 v f fl = some (ok, m')) :
    (ok = true → m.leafAt M pml4 v = none) ∧
      ∀ w, m'.leafAt M pml4 w = if ok = true ∧ w = v then some (f, fl) else m.leafAt M pml4 w := by
  obtain ⟨_, _, _, ht, hmap, rfl⟩ := mapUserPage_cases h
  have hleaf := hM.mapTo_leaves hv hmap
  simp only [leafAt_insert, leafAt_eq ht]
  cases ok with
  | false =>
    exact ⟨fun he => (nomatch he), fun w => by rw [hleaf, if_neg (by simp)]⟩
  | true =>
    refine ⟨fun _ => hleaf.1, fun w => ?_⟩
    rw [hleaf.2, get?_insert]
    simp

theorem unmapAndRelease_leafAt (hM : M.Lawful) (hv : v < USER_END) (h : m.unmapAndReleaseUserPage M pml4 v = some m')
    (hw : w ≠ v) : m'.leafAt M pml4 w = m.leafAt M pml4 w := by
  obtain ⟨_, ht, ⟨-, rfl⟩ | ⟨_, _, hun, rfl⟩⟩ := unmapAndRelease_cases h
  · rfl
  · rw [leafAt_congr (releaseFrame_spaces ..), leafAt_insert, leafAt_eq ht, (hM.unmap_leaf hv hun).2.1, get?_remove,
      if_neg hw]

theorem updateFlags_leafAt (hM : M.Lawful) (hv : v < USER_END) (h : m.updateUserPageFlags M pml4 v fl = some m')
    (w : Nat) :
    m'.leafAt M pml4 w = if w = v then (m.leafAt M pml4 w).map fun e => (e.1, fl) else m.leafAt M pml4 w := by
  obtain ⟨_, ht, rfl⟩ := updateFlags_cases h
  rw [leafAt_insert, (hM.updateFlags_leaf hv).1, get?_alter, leafAt_eq ht]

theorem allocFrame_spaces {o : Option Nat} (h : (services M).allocFrame m = (o, m')) : m'.spaces = m.spaces :=
  congrArg (·.2.spaces) h.symm

theorem refShare_spaces (h : m.refShare f = some m') : m'.spaces = m.spaces := by rw [refShare_cases h]

end Mem

/-! ## Pages of a range -/

variable {base flags prot n i : Nat} {fds : Nat → FdView} {p1 : Proc} {m1 : Mem τ} {mapPages : Nat → Mem τ →
  Option (Bool × Mem τ)}

theorem page_lt_userEnd (hend : base + n * PAGE_SIZE ≤ USER_END) (hi : i < n) : base + i * PAGE_SIZE < USER_END := by
  simp only [PAGE_SIZE] at *
  omega

theorem page_inj {j : Nat} (h : base + i * PAGE_SIZE = base + j * PAGE_SIZE) : i = j := by
  simp only [PAGE_SIZE] at h
  omega

theorem page_of_range {length v : Nat} (hb : PAGE_SIZE ∣ base) (hv : PAGE_SIZE ∣ v) (h1 : base ≤ v)
    (h2 : v < base + length) : ∃ i < pagesOf length, v = base + i * PAGE_SIZE := by
  obtain ⟨j, rfl⟩ := hb
  obtain ⟨k, rfl⟩ := hv
  refine ⟨k - j, ?_, ?_⟩ <;> simp only [pagesOf, PAGE_SIZE, PAGE_MASK] at * <;> omega

theorem lt_of_page {length v : Nat} (hb : PAGE_SIZE ∣ base) (hv : PAGE_SIZE ∣ v) :
    v < base + pagesOf length * PAGE_SIZE ↔ v < base + length := by
  obtain ⟨-, rfl⟩ := hb
  obtain ⟨-, rfl⟩ := hv
  simp only [pagesOf, PAGE_SIZE, PAGE_MASK]
  omega

theorem asI64_of_lt {a : Nat} (h : a < USER_END) : asI64 a = a := by
  unfold USER_END at h
  unfold asI64
  rw [BitVec.toInt_eq_toNat_of_lt (by simp; omega)]
  simp
  omega

/-! ## Mapping the pages of an area -/

/-- The rule for the loop and a property of the address spaces. -/
theorem PageSource.inv_spaces {shared : Bool} (hs : PageSource (services M) fds pml4 fl n shared mapPages)
    (P : Nat → Mem τ → Prop) (Q : Mem τ → Prop) (hP : ∀ {j m1 m2}, P j m1 → m2.spaces = m1.spaces → P j m2)
    (hstop : ∀ j < n, ∀ m1, P j m1 → Q m1)
    (hmap : ∀ j < n, ∀ m1 m2 f ok, P j m1 → m1.mapUserPage M pml4 (base + j * PAGE_SIZE) f fl = some (ok, m2) →
      if ok then P (j + 1) m2 else Q m2)
    (h0 : P 0 m) (h : mapPages base m = some (ok, m')) : if ok then P n m' else Q m' := by
  refine hs.inv base P Q ?_ ?_ ?_ ?_ h0 h
  · intro _ j hj m1 m2 m3 frame hI ha ok hb
    exact hmap j hj m2 m3 frame ok (hP hI (allocFrame_spaces ha)) hb
  · intro _ j hj m1 m2 hI ha
    exact hstop j hj m2 (hP hI (allocFrame_spaces ha))
  · intro _ j hj m1 m2 m3 fd size frames frame hI _ _ hb hshare
    exact hP (hmap j hj m1 m2 frame true hI hb) (refShare_spaces hshare)
  · intro _ j hj m1 m2 fd size frames frame hI _ _ hb
    exact hmap j hj m1 m2 frame false hI hb

/-- The loop touches only zero leaves of the area's pages, and has set them all if it succeeds. -/
theorem PageSource.leafAt
    {shared : Bool} (hs : PageSource (services M) fds pml4 fl n shared mapPages) (hM : M.Lawful)
    (hend : base + n * PAGE_SIZE ≤ USER_END) (h : mapPages base m = some (ok, m')) :
    (∀ w, (∀ i < n, w ≠ base + i * PAGE_SIZE) → m'.leafAt M pml4 w = m.leafAt M pml4 w) ∧
      (∀ w, (m.leafAt M pml4 w).isSome → m'.leafAt M pml4 w = m.leafAt M pml4 w) ∧
      (ok = true → ∀ i < n, m.leafAt M pml4 (base + i * PAGE_SIZE) = none ∧
        ∃ f, m'.leafAt M pml4 (base + i * PAGE_SIZE) = some (f, fl)) := by
  -- before page `j` only the pages below it have changed
  let I : Nat → Mem τ → Prop := fun j m1 =>
    (∀ w, (∀ i < j, w ≠ base + i * PAGE_SIZE) → m1.leafAt M pml4 w = m.leafAt M pml4 w) ∧
      ∀ i < j, m.leafAt M pml4 (base + i * PAGE_SIZE) = none ∧
        ∃ f, m1.leafAt M pml4 (base + i * PAGE_SIZE) = some (f, fl)
  have hnext : ∀ j < n, ∀ m1 m2 f, I j m1 → m1.mapUserPage M pml4 (base + j * PAGE_SIZE) f fl = some (true, m2) →
      I (j + 1) m2 := by
    intro j hj m1 m2 f hI hmap
    obtain ⟨hnone, hleaf⟩ := mapUserPage_leafAt hM (page_lt_userEnd hend hj) hmap
    have hself : m1.leafAt M pml4 (base + j * PAGE_SIZE) = m.leafAt M pml4 (base + j * PAGE_SIZE) :=
      hI.1 _ fun i hi he => ne_of_gt hi (page_inj he)
    refine ⟨fun w hw => ?_, fun i hi => ?_⟩
    · rw [hleaf, if_neg (fun hc => hw j (Nat.lt_succ_self j) hc.2)]
      exact hI.1 w fun i hi => hw i (Nat.lt_succ_of_lt hi)
    · rw [hleaf]
      rcases Nat.lt_succ_iff_lt_or_eq.mp hi with hi | rfl
      · rw [if_neg (fun hc => ne_of_lt hi (page_inj hc.2))]
        exact hI.2 i hi
      · rw [if_pos ⟨rfl, rfl⟩]
        exact ⟨hself ▸ hnone rfl, f, rfl⟩
  have hrefuse : ∀ {j m1 m2 f}, j < n → I j m1 → m1.mapUserPage M pml4 (base + j * PAGE_SIZE) f fl = some (false, m2) →
      I j m2 := by
    intro j m1 m2 f hj hI hmap
    obtain ⟨-, hleaf⟩ := mapUserPage_leafAt hM (page_lt_userEnd hend hj) hmap
    have hsame : m2.leafAt M pml4 = m1.leafAt M pml4 := funext fun w => by rw [hleaf, if_neg (by simp)]
    unfold I
    rw [hsame]
    exact hI
  have hinv := hs.inv_spaces I (fun m1 => ∃ j ≤ n, I j m1) ?_ (fun j hj m1 hI => ⟨j, hj.le, hI⟩) ?_
    ⟨fun _ _ => rfl, fun i hi => nomatch hi⟩ h
  · obtain ⟨j, hj, hI, hset⟩ : ∃ j ≤ n, I j m' := by
      cases ok with
      | true => exact ⟨n, le_refl n, hinv⟩
      | false => exact hinv
    refine ⟨fun w hw => hI w fun i hi => hw i (hi.trans_le hj), fun w hw => hI w fun i hi he => ?_, fun hok => ?_⟩
    · rw [he, (hset i hi).1] at hw
      cases hw
    · subst hok
      exact hinv.2
  · intro j m1 m2 hI hsp
    unfold I
    rw [leafAt_congr hsp]
    exact hI
  · intro j hj m1 m2 frame ok hI hmap
    cases ok with
    | true => exact hnext j hj m1 m2 frame hI hmap
    | false => exact ⟨j, hj.le, hrefuse hj hI hmap⟩

/-! ## The calls -/

variable {p p' : Proc} {r : Int} {addr length : Nat} {I : Mem τ → Prop}

theorem sweep_covers {f : Attr → Option Attr} {split} {vmaMap : VmaMap} {ranges : List (Nat × Nat)}
    (hc : Cuts f split) (hp : VmasOk p) (haddr : Aligned addr) (hpos : 0 < length)
    (h : sweep split p.vmaMap addr (pagesOf length * PAGE_SIZE) = some (vmaMap, ranges)) :
    (∀ r ∈ ranges, ∀ i < r.2, CoveredPage p addr length (r.1 + i * PAGE_SIZE)) ∧
      ∀ v, CoveredPage p addr length v → ∃ r ∈ ranges, ∃ i < r.2, v = r.1 + i * PAGE_SIZE := by
  obtain ⟨hgrid, hlen⟩ := pagesOf_len hpos
  have hal := aligned_iff.mp haddr
  obtain ⟨-, -, -, -, hpages⟩ := sweep_some hc hp.1 hp.2 hal hgrid hlen h
  have hstarts := sweep_aligned hc hp.1 hp.2 hal hgrid hlen h
  constructor
  · intro r hr i hi
    obtain ⟨hwin, hcov⟩ := (hpages.union (r.1 + i * PAGE_SIZE)).mp
      ⟨r, hr, Nat.le_add_right .., by simp only [PAGE_SIZE]; omega⟩
    have hv : PAGE_SIZE ∣ r.1 + i * PAGE_SIZE := Nat.dvd_add (hstarts r hr) (Nat.dvd_mul_left ..)
    exact ⟨hv, hwin.1, (lt_of_page hal hv).mp hwin.2, hcov⟩
  · rintro _ ⟨hv, h1, h2, hcov⟩
    exact hpages.page hstarts hv ⟨h1, (lt_of_page hal hv).mpr h2⟩ hcov

/-- What holds after a `munmap` if the unmapping of each covered page keeps it. -/
theorem sysMunmap_keeps (hp : VmasOk p) (hend : addr + length ≤ USER_END) (h0 : I m)
    (hI : ∀ v m1 m2, CoveredPage p addr length v → v < USER_END → I m1 →
      m1.unmapAndReleaseUserPage M p.pml4 v = some m2 → I m2)
    (h : sysMunmap (services M) p m addr length = some (r, p', m')) : I m' := by
  rcases sysMunmap_inv h with ⟨-, -, rfl⟩ | ⟨-, haddr, hpos, _, _, hsweep, hun, -⟩
  · exact h0
  · refine forRanges_inv I (fun r hr i hi m1 m2 => ?_) h0 hun
    have hv := (sweep_covers munmapSplit_cuts hp haddr hpos hsweep).1 r hr i hi
    exact hI _ m1 m2 hv (lt_of_lt_of_le hv.2.2.1 hend)

theorem sysMprotect_keeps (hp : VmasOk p) (hend : addr + length ≤ USER_END) (h0 : I m)
    (hI : ∀ v m1 m2, CoveredPage p addr length v → v < USER_END → I m1 →
      m1.updateUserPageFlags M p.pml4 v (protToPageFlags (BitVec.ofNat 32 prot)) = some m2 → I m2)
    (h : sysMprotect (services M) p m addr length prot = some (r, p', m')) : I m' := by
  rcases sysMprotect_inv h with ⟨-, -, rfl⟩ | ⟨-, haddr, hpos, _, _, hsweep, hupd, -⟩
  · exact h0
  · refine forRanges_inv I (fun r hr i hi m1 m2 => ?_) h0 hupd
    have hv := (sweep_covers (mprotectSplit_cuts _) hp haddr hpos hsweep).1 r hr i hi
    exact hI _ m1 m2 hv (lt_of_lt_of_le hv.2.2.1 hend)

/-- What a `munmap` does: nothing, or it takes the areas out of the window and may touch the
    leaves of the pages they covered. -/
theorem sysMunmap_pages (hM : M.Lawful) (hp : VmasOk p) (hend : addr + length ≤ USER_END)
    (h : sysMunmap (services M) p m addr length = some (r, p', m')) :
    (r < 0 ∧ p' = p ∧ m' = m) ∨
    (r = 0 ∧ Aligned addr ∧ 0 < length ∧ VmasOk p' ∧ p'.pml4 = p.pml4 ∧
      (∀ a, attrAt p'.vmaMap a =
        if addr ≤ a ∧ a < addr + pagesOf length * PAGE_SIZE then none else attrAt p.vmaMap a) ∧
      ∀ w, ¬ CoveredPage p addr length w → m'.leafAt M p.pml4 w = m.leafAt M p.pml4 w) := by
  refine (sysMunmap_inv h).imp_right ?_
  rintro ⟨hr, haddr, hpos, _, _, hsweep, -, rfl⟩
  obtain ⟨hgrid, hlen⟩ := pagesOf_len hpos
  obtain ⟨-, -, -, hattr, -⟩ := sweep_some munmapSplit_cuts hp.1 hp.2 (aligned_iff.mp haddr) hgrid hlen hsweep
  refine ⟨hr, haddr, hpos, sysMunmap_ok hp h, rfl, fun a => ?_, fun w hw => ?_⟩
  · rw [hattr a, bind_fun_none]
  · refine sysMunmap_keeps (I := fun m1 => m1.leafAt M p.pml4 w = m.leafAt M p.pml4 w) hp hend rfl
      (fun v m1 m2 hc hv he hb => ?_) h
    rw [unmapAndRelease_leafAt hM hv hb (w := w) (fun hwv => hw (hwv ▸ hc)), he]

/-- What an `mprotect` does: nothing, or it sets the flags of the leaves of the pages that
    areas cover. -/
theorem sysMprotect_pages (hM : M.Lawful) (hp : VmasOk p) (hend : addr + length ≤ USER_END)
    (h : sysMprotect (services M) p m addr length prot = some (r, p', m')) :
    (r < 0 ∧ p' = p ∧ m' = m) ∨
    (r = 0 ∧ p'.pml4 = p.pml4 ∧ (∀ a, (attrAt p'.vmaMap a).isSome = (attrAt p.vmaMap a).isSome) ∧
      (∀ w, CoveredPage p addr length w →
        m'.leafAt M p.pml4 w = (m.leafAt M p.pml4 w).map fun e => (e.1, protToPageFlags (BitVec.ofNat 32 prot))) ∧
      ∀ w, ¬ CoveredPage p addr length w → m'.leafAt M p.pml4 w = m.leafAt M p.pml4 w) := by
  refine (sysMprotect_inv h).imp_right ?_
  rintro ⟨hr, haddr, hpos, vmaMap, ranges, hsweep, hupd, rfl⟩
  obtain ⟨hgrid, hlen⟩ := pagesOf_len hpos
  obtain ⟨-, -, -, hattr, -⟩ := sweep_some (mprotectSplit_cuts _) hp.1 hp.2 (aligned_iff.mp haddr) hgrid hlen hsweep
  obtain ⟨hin, hall⟩ := sweep_covers (mprotectSplit_cuts _) hp haddr hpos hsweep
  refine ⟨hr, rfl, fun a => ?_, fun w hw => ?_, fun w hw => ?_⟩
  · rw [hattr a]
    split
    · cases attrAt p.vmaMap a <;> rfl
    · rfl
  · -- the frame stays as it is, also when the page is met again
    have hframe := sysMprotect_keeps (I := fun m1 => (m1.leafAt M p.pml4 w).map (·.1) = (m.leafAt M p.pml4 w).map (·.1))
      hp hend rfl
      (fun v m1 m2 _ hv he hb => by
        rw [updateFlags_leafAt hM hv hb]
        split
        · rw [map_map]
          exact he
        · exact he) h
    let fl := protToPageFlags (BitVec.ofNat 32 prot)
    have huser : ∀ r ∈ ranges, ∀ i < r.2, r.1 + i * PAGE_SIZE < USER_END := fun r hr i hi =>
      lt_of_lt_of_le (hin r hr i hi).2.2.1 hend
    obtain ⟨r, hr, i, hi, rfl⟩ := hall w hw
    have hflags := forRanges_each (fun v m1 => (m1.leafAt M p.pml4 v).map (·.2) = (m1.leafAt M p.pml4 v).map fun _ =>
      fl)
      (fun s hs j hj m1 m2 hb => by
        rw [updateFlags_leafAt hM (huser s hs j hj) hb, if_pos rfl, map_map, map_map]
        rfl)
      (fun s hs j hj m1 m2 v hv hb => by
        rw [updateFlags_leafAt hM (huser s hs j hj) hb]
        split
        · rw [map_map, map_map]
          rfl
        · exact hv) hupd r hr i hi
    generalize m'.leafAt M p.pml4 (r.1 + i * PAGE_SIZE) = x at hframe hflags
    generalize m.leafAt M p.pml4 (r.1 + i * PAGE_SIZE) = y at hframe
    cases x <;> cases y <;> simp_all [Prod.ext_iff, fl]
  · refine sysMprotect_keeps (I := fun m1 => m1.leafAt M p.pml4 w = m.leafAt M p.pml4 w) hp hend rfl
      (fun v m1 m2 hc hv he hb => ?_) h
    rw [updateFlags_leafAt hM hv hb, if_neg, he]
    rintro rfl
    exact hw hc

/-- The window of an `mmap` that gets past its arguments: it starts at `base`, and `p1` and
    `m1` are the process and the memory in which its pages are then mapped. -/
structure Cleared (M : Mapper τ) (p : Proc) (m : Mem τ) (addr length flags base : Nat) (p1 : Proc) (m1 : Mem τ) :
    Prop where
  pos : 0 < length
  base_pos : 0 < base
  aligned : PAGE_SIZE ∣ base
  stop : base + pagesOf length * PAGE_SIZE ≤ USER_END
  /-- MAP_FIXED unmaps the window first. -/
  before : (BitVec.ofNat 32 flags &&& MAP_FIXED ≠ 0 ∧ base = addr ∧
      sysMunmap (Mem.services M) p m addr length = some (0, p1, m1)) ∨
    (BitVec.ofNat 32 flags &&& MAP_FIXED = 0 ∧ findMmapGap p.vmaMap (pagesOf length * PAGE_SIZE) = some (some base) ∧
      p1 = p ∧ m1 = m)
  vmas : VmasOk p1
  pml4 : p1.pml4 = p.pml4
  free : ∀ x ∈ p1.vmaMap, x.2.start + x.2.len ≤ base ∨ base + pagesOf length * PAGE_SIZE ≤ x.2.start

/-- The same with the new area and how its pages are mapped. -/
structure Placed (M : Mapper τ) (p : Proc) (m : Mem τ) (fds : Nat → FdView) (addr length prot flags base : Nat)
    (p1 : Proc) (m1 : Mem τ) (vma : Vma) (mapPages : Nat → Mem τ → Option (Bool × Mem τ)) : Prop
    extends Cleared M p m addr length flags base p1 m1 where
  vma_start : vma.start = base
  vma_len : vma.len = pagesOf length * PAGE_SIZE
  source : PageSource (Mem.services M) fds p.pml4 (protToPageFlags (BitVec.ofNat 32 prot)) (pagesOf length)
    (BitVec.ofNat 32 flags &&& MAP_SHARED ≠ 0) mapPages

/-- Where an `mmap` puts its area. -/
def mmapBase (p : Proc) (addr length flags : Nat) : Option Nat :=
  if BitVec.ofNat 32 flags &&& MAP_FIXED ≠ 0 then if addr = 0 ∨ ¬ Aligned addr then none else some addr
  else (findMmapGap p.vmaMap (pagesOf length * PAGE_SIZE)).join

theorem Cleared.base_eq (h : Cleared M p m addr length flags base p1 m1) :
    mmapBase p addr length flags = some base := by
  have hal := aligned_iff.mpr h.aligned
  unfold mmapBase
  rcases h.before with ⟨hf, rfl, -⟩ | ⟨hf, hgap, -, -⟩
  · rw [if_pos hf, if_neg (not_or.mpr ⟨ne_of_gt h.base_pos, not_not.mpr hal⟩)]
  · rw [if_neg (not_not.mpr hf), hgap]
    rfl

/-- What an `mmap` does: nothing, or it places an area. It is ENOMEM only for want of a gap or
    of pages. -/
theorem sysMmap_placed {a5 r9 : Nat} (hp : VmasOk p) (hend : BitVec.ofNat 32 flags &&& MAP_FIXED ≠ 0 →
      addr + length ≤ USER_END)
    (h : sysMmap (services M) fds p m addr length prot flags a5 r9 = some (r, p', m')) :
    (r < 0 ∧ p' = p ∧ m' = m ∧ (r = -ENOMEM → mmapBase p addr length flags = none)) ∨
    ∃ base p1 m1 vma mapPages ok, Placed M p m fds addr length prot flags base p1 m1 vma mapPages ∧
      mapPages base m1 = some (ok, m') ∧
      if ok then r = base ∧ p' = { p1 with vmaMap := p1.vmaMap.insert base vma } else r = -ENOMEM ∧ p' = p1 := by
  rcases sysMmap_inv h with ⟨hr, hne, hp', hm'⟩ | ⟨hlt, hpos, vma, mapPages, hl, hprot, hs, h⟩
  · exact .inl ⟨hr, hp', hm', fun he => absurd he hne⟩
  obtain ⟨hgrid, hlen⟩ := pagesOf_len hpos
  rw [Vma.pageTableFlags, hprot] at hs
  rcases mmapPlace_inv h with ⟨hwhy, hr, hp', hm'⟩ | ⟨hf, hne, haddr, vmaMap, _, m1, ok, hsweep, hun, hmap, hres⟩ |
    ⟨hf, base, ok, hgap, hmap, hres⟩
  · refine .inl ⟨hr, hp', hm', fun he => ?_⟩
    rcases hwhy with hinval | ⟨hf, hgap⟩
    · exact absurd (hinval.symm.trans he) (by decide)
    · rw [hl] at hgap
      rw [mmapBase, if_neg (of_decide_eq_false hf), hgap]
      rfl
  · have hal := aligned_iff.mp haddr
    have hstop := pages_le_userEnd haddr (hend (of_decide_eq_true hf))
    rw [hl] at hsweep
    have hmunmap : sysMunmap (services M) p m addr length = some (0, { p with vmaMap := vmaMap }, m1) := by
      rw [sysMunmap, if_neg (not_or.mpr ⟨not_not.mpr haddr, ne_of_gt hpos⟩), alignUp_of_lt hlt]
      simp only [bind_eq_bind, bind_some, hsweep, hun]
      rfl
    obtain ⟨-, hwf, -, hattr, -⟩ := sweep_some munmapSplit_cuts hp.1 hp.2 hal hgrid hlen hsweep
    have hfree := free_of_attrAt_none hwf hlen fun a h1 h2 => by
      rw [hattr a, if_pos ⟨h1, h2⟩, bind_fun_none]
    refine .inr ⟨addr, _, m1, { vma with start := addr }, mapPages, ok, ⟨⟨hpos, Nat.pos_of_ne_zero hne, hal,
      hstop, .inl ⟨of_decide_eq_true hf, rfl, hmunmap⟩, sysMunmap_ok hp hmunmap, rfl, hfree⟩, rfl, hl, hs⟩, hmap, ?_⟩
    have hbase : asI64 addr = addr := asI64_of_lt (by omega)
    rw [hbase] at hres
    exact hres
  · obtain ⟨hfloor, hceil, hal, hfree⟩ := findMmapGap_free hp.1 (hl ▸ hgrid) hgap
    rw [hl] at hceil hfree hgap
    have hstop : base + pagesOf length * PAGE_SIZE ≤ USER_END := le_trans hceil (by decide)
    refine .inr ⟨base, p, m, { vma with start := base }, mapPages, ok, ⟨⟨hpos,
      lt_of_lt_of_le (by decide) hfloor, hal, hstop, .inr ⟨of_not_not (of_decide_eq_false hf), hgap, rfl, rfl⟩, hp, rfl,
      hfree⟩, rfl, hl, hs⟩, hmap, ?_⟩
    have hbase : asI64 base = base := asI64_of_lt (by omega)
    rw [hbase] at hres
    exact hres

theorem Placed.attrAt_insert {vma : Vma}
    (h : Placed M p m fds addr length prot flags base p1 m1 vma mapPages) (a : Nat) :
    attrAt (p1.vmaMap.insert base vma) a =
      if base ≤ a ∧ a < base + pagesOf length * PAGE_SIZE then some vma.attr else attrAt p1.vmaMap a := by
  obtain ⟨hgrid, hlen⟩ := pagesOf_len h.pos
  have := Memory.attrAt_insert (v := vma) h.vmas.1 (h.vma_start ▸ h.aligned) (h.vma_len ▸ hgrid) (h.vma_len ▸ hlen)
    (by rw [h.vma_start, h.vma_len]; exact h.free) a
  rwa [h.vma_start, h.vma_len] at this

/-! ## Areas have leaves -/

/-- Every user-half page that an area covers has a leaf. -/
def Backed (M : Mapper τ) (p : Proc) (m : Mem τ) : Prop :=
  ∀ v, PAGE_SIZE ∣ v → v < USER_END → (attrAt p.vmaMap v).isSome → (m.leafAt M p.pml4 v).isSome

variable (hM : M.Lawful) (hp : VmasOk p) (hb : Backed M p m)
include hM hp hb

theorem sysMunmap_backed (hend : addr + length ≤ USER_END)
    (h : sysMunmap (services M) p m addr length = some (r, p', m')) : Backed M p' m' := by
  rcases sysMunmap_pages hM hp hend h with ⟨-, rfl, rfl⟩ | ⟨-, haddr, -, -, hpml4, hattr, hleaf⟩
  · exact hb
  intro v hv huser hcov
  rw [hattr v] at hcov
  split at hcov
  · cases hcov
  rename_i hout
  have hnot : ¬ CoveredPage p addr length v := fun hc =>
    hout ⟨hc.2.1, (lt_of_page (aligned_iff.mp haddr) hv).mpr hc.2.2.1⟩
  rw [hpml4, hleaf v hnot]
  exact hb v hv huser hcov

variable (hend : BitVec.ofNat 32 flags &&& MAP_FIXED ≠ 0 → addr + length ≤ USER_END)
include hend

theorem Cleared.backed
    (h : Cleared M p m addr length flags base p1 m1) : Backed M p1 m1 := by
  rcases h.before with ⟨hf, -, hun⟩ | ⟨-, -, rfl, rfl⟩
  · exact sysMunmap_backed hM hp hb (hend hf) hun
  · exact hb

theorem sysMmap_backed {a5 r9 : Nat}
    (h : sysMmap (services M) fds p m addr length prot flags a5 r9 = some (r, p', m')) :
    p'.pml4 = p.pml4 ∧ Backed M p' m' := by
  rcases sysMmap_placed hp hend h with ⟨-, rfl, rfl, -⟩ | ⟨_, p1, _, vma, mapPages, ok, hpl, hmap, hres⟩
  · exact ⟨rfl, hb⟩
  have hb1 := hpl.backed hM hp hb hend
  obtain ⟨-, hkeep, hset⟩ := hpl.source.leafAt hM hpl.stop hmap
  have hold : ∀ v, PAGE_SIZE ∣ v → v < USER_END → (attrAt p1.vmaMap v).isSome → (m'.leafAt M p.pml4 v).isSome := by
    intro v hv huser hcov
    have hsome := hb1 v hv huser hcov
    rw [hpl.pml4] at hsome
    rw [hkeep v hsome]
    exact hsome
  cases ok with
  | false =>
    obtain ⟨-, rfl⟩ := hres
    refine ⟨hpl.pml4, ?_⟩
    unfold Backed
    rw [hpl.pml4]
    exact hold
  | true =>
    obtain ⟨-, rfl⟩ := hres
    refine ⟨hpl.pml4, fun v hv huser hcov => ?_⟩
    show (m'.leafAt M p1.pml4 v).isSome
    rw [hpl.pml4]
    rw [hpl.attrAt_insert] at hcov
    split at hcov
    · rename_i hin
      obtain ⟨i, hi, rfl⟩ := page_of_range hpl.aligned hv hin.1 ((lt_of_page hpl.aligned hv).mp hin.2)
      obtain ⟨-, f, hf⟩ := hset rfl i hi
      rw [hf]
      rfl
    · exact hold v hv huser hcov

omit hend

theorem sysMprotect_backed (hend : addr + length ≤ USER_END)
    (h : sysMprotect (services M) p m addr length prot = some (r, p', m')) : p'.pml4 = p.pml4 ∧ Backed M p' m' := by
  rcases sysMprotect_pages hM hp hend h with ⟨-, rfl, rfl⟩ | ⟨-, hpml4, hattr, hset, hkeep⟩
  · exact ⟨rfl, hb⟩
  refine ⟨hpml4, fun v hv huser hcov => ?_⟩
  rw [hattr v] at hcov
  have hsome := hb v hv huser hcov
  rw [hpml4]
  by_cases hc : CoveredPage p addr length v
  · rw [hset v hc, isSome_map]
    exact hsome
  · rw [hkeep v hc]
    exact hsome

omit hM hp hb

theorem call_backed {s s' : Proc × Mem τ} {e : Ev} (hM : M.Lawful) (hp : VmasOk s.1) (hb : Backed M s.1 s.2)
    (he : OnUserHalf e) (h : call (services M) s.1 s.2 e = some (r, s')) :
    VmasOk s'.1 ∧ s'.1.pml4 = s.1.pml4 ∧ Backed M s'.1 s'.2 := by
  cases e with
  | brk addr => exact he.elim
  | mmap fds addr length prot flags a5 r9 => exact ⟨sysMmap_ok hp h, sysMmap_backed hM hp hb he h⟩
  | munmap addr length =>
    refine ⟨sysMunmap_ok hp h, ?_, sysMunmap_backed hM hp hb he h⟩
    rcases sysMunmap_pages hM hp he h with ⟨-, hp', -⟩ | ⟨-, -, -, -, hpml4, -⟩
    · rw [hp']
    · exact hpml4
  | mprotect addr length prot => exact ⟨sysMprotect_ok hp h, sysMprotect_backed hM hp hb he h⟩

theorem empty_vmasOk (h : p.vmaMap = .empty) : VmasOk p := by
  refine ⟨?_, ?_⟩ <;> rw [h]
  · exact ⟨by simp, by simp, by simp, by simp, .nil⟩
  · intro x hx
    simp at hx

theorem empty_backed (h : p.vmaMap = .empty) : Backed M p m := by
  intro v _ _ hcov
  rw [h] at hcov
  cases hcov

end

end Ostoo.Memory
