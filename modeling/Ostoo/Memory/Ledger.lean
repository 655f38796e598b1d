/-
  Ostoo.Memory.Ledger — who holds a frame, and why freeing is safe.

  A frame may be held by page tables (as a PML4, as a lower table, or by leaf words) and
  by kernel objects. The ledger (`Mem.Ledger`): no frame has more holders than its count,
  free frames have none, and frames that are freed without a look at the count are not
  shared. Every operation of the memory services keeps it.
-/

import Ostoo.Memory.Services

namespace Ostoo.Memory

open Ostoo.Lib List OrdMap

namespace Mem

variable {τ : Type} (M : Mapper τ)

/-- The references one address space holds on a frame. -/
def spaceUses (f : Nat) (pml4 : Nat) (t : τ) : Nat :=
  (if pml4 = f then 1 else 0) + ((M.tables t).count f + (M.leaves t).total fun _ e => if e.1 = f then 1 else 0)

theorem spaceUses_eq (f pml4 : Nat) (t : τ) : spaceUses M f pml4 t =
    (if pml4 = f then 1 else 0) + ((M.tables t).count f + (M.leaves t).total fun _ e => if e.1 = f then 1 else 0) := rfl

/-- The references held by page tables. -/
def uses (m : Mem τ) (f : Nat) : Nat := m.spaces.total (spaceUses M f)

def count (m : Mem τ) (f : Nat) : Nat := (m.refcounts.get? f).getD 1

/-- `owners` counts the references that kernel objects hold on a frame; `listed` are the
    frames that open shared-memory objects list. -/
structure Ledger (owners : Nat → Nat) (listed : Nat → Prop) (m : Mem τ) : Prop where
  sound : m.frames.Sound
  bound : ∀ f, m.uses M f + owners f ≤ m.count f
  free : ∀ f ∈ m.frames.freeList, m.uses M f + owners f = 0 ∧ m.refcounts.get? f = none
  issued : ∀ f, m.uses M f + owners f ≠ 0 ∨ m.refcounts.get? f ≠ none → m.frames.Issued f
  counted : ∀ f c, m.refcounts.get? f = some c → 2 ≤ c
  exclusive : ∀ pml4 t, m.spaces.get? pml4 = some t → ∀ f, f = pml4 ∨ f ∈ M.tables t →
    m.refcounts.get? f = none ∧ ¬ listed f
  owned : ∀ f, listed f → owners f ≠ 0

/-- A frame that was allocated and that nobody has taken yet. -/
structure Loose (owners : Nat → Nat) (listed : Nat → Prop) (m : Mem τ) (f : Nat) : Prop where
  unused : m.uses M f + owners f = 0
  uncounted : m.refcounts.get? f = none
  unlisted : ¬ listed f
  issued : m.frames.Issued f
  not_free : f ∉ m.frames.freeList

section

variable {M} {owners owners' : Nat → Nat} {listed listed' : Nat → Prop} {m m' : Mem τ} {pml4 v f g : Nat} {t t' : τ}
  {fl : PtFlags} {ok : Bool}

variable (h : Ledger M owners listed m)
include h

theorem Ledger.unlist (hl : ∀ f, listed' f → listed f) : Ledger M owners listed' m where
  sound := h.sound
  bound := h.bound
  free := h.free
  issued := h.issued
  counted := h.counted
  exclusive pml4 t ht f hf := ⟨(h.exclusive pml4 t ht f hf).1, fun hn => (h.exclusive pml4 t ht f hf).2 (hl f hn)⟩
  owned f hf := h.owned f (hl f hf)

theorem Ledger.listed_not_free (hf : listed f) : f ∉ m.frames.freeList := by
  intro hm
  have := (h.free f hm).1
  have := h.owned f hf
  omega

/-! ## Frames handed out -/

variable {l : List Nat} {b : Frames}

theorem Ledger.took (ht : m.frames.Took l b) :
    Ledger M owners listed { m with frames := b } where
  sound := ht.sound
  bound := h.bound
  free f hf := h.free f (ht.free f hf)
  issued f hf := ht.issued f (h.issued f hf)
  counted := h.counted
  exclusive := h.exclusive
  owned := h.owned

theorem Ledger.loose (ht : m.frames.Took l b) (hf : f ∈ l) : Loose M owners listed { m with frames := b } f := by
  obtain ⟨hi, hn⟩ := ht.taken f hf
  have h0 : m.uses M f + owners f = 0 ∧ m.refcounts.get? f = none := by
    rcases ht.fresh f hf with hm | hm
    · exact h.free f hm
    by_contra hc
    refine hm (h.issued f ?_)
    by_cases hz : m.uses M f + owners f = 0
    · exact .inr fun hr => hc ⟨hz, hr⟩
    · exact .inl hz
  refine ⟨h0.1, h0.2, ?_, hi, hn⟩
  intro hl
  have := h.owned f hl
  omega

/-! ## Address spaces -/

variable (ht : m.spaces.get? pml4 = some t)
include ht

omit h in
theorem uses_insert (t' : τ) (f : Nat) :
    (m.spaces.insert pml4 t').total (spaceUses M f) + spaceUses M f pml4 t = m.uses M f + spaceUses M f pml4 t' := by
  have := total_insert (spaceUses M f) m.spaces pml4 t'
  rwa [ht] at this

omit h in
theorem uses_of_leaf (hl : (M.leaves t).get? v = some (f, fl)) : 1 ≤ m.uses M f := by
  have h1 : 1 ≤ (M.leaves t).total fun _ e => if e.1 = f then 1 else 0 := by
    have := le_total (g := fun _ (e : Entry) => if e.1 = f then 1 else 0) hl
    simpa using this
  have h2 := le_total (g := spaceUses M f) ht
  rw [spaceUses_eq] at h2
  unfold uses
  omega

/-- Some frames become tables of the space, and one more leaf may name a frame that has room
    for another holder. -/
theorem Ledger.grow {d : Nat → Nat} (hp : (M.tables t').Perm (l ++ M.tables t))
    (hd : ∀ f, (M.leaves t').total (fun _ e => if e.1 = f then 1 else 0) = (M.leaves t).total
      (fun _ e => if e.1 = f then 1 else 0) + d f)
    (hn : l.Nodup) (hl : ∀ f ∈ l, Loose M owners listed m f ∧ d f = 0)
    (hr : ∀ f, d f ≠ 0 → m.uses M f + owners f + d f ≤ m.count f ∧ m.frames.Issued f ∧ f ∉ m.frames.freeList) :
    Ledger M owners listed { m with spaces := m.spaces.insert pml4 t' } := by
  have huse : ∀ f, uses M { m with spaces := m.spaces.insert pml4 t' } f = m.uses M f + (l.count f + d f) := by
    intro f
    have h1 := uses_insert (M := M) ht t' f
    have h2 := hp.count_eq f
    have h3 := hd f
    rw [count_append] at h2
    rw [spaceUses_eq M f pml4 t, spaceUses_eq M f pml4 t'] at h1
    show (m.spaces.insert pml4 t').total (spaceUses M f) = _
    omega
  have hcount : ∀ f, l.count f ≠ 0 → f ∈ l := fun f hf => count_pos_iff.mp (Nat.pos_of_ne_zero hf)
  have hone : ∀ f, l.count f ≤ 1 := fun f => nodup_iff_count_le_one.mp hn f
  refine ⟨h.sound, ?_, ?_, ?_, h.counted, ?_, h.owned⟩
  · intro f
    rw [huse]
    show _ ≤ m.count f
    by_cases hf : l.count f = 0
    · by_cases hdf : d f = 0
      · have := h.bound f
        omega
      · have := (hr f hdf).1
        omega
    · obtain ⟨hloose, hdf⟩ := hl f (hcount f hf)
      have h1 : m.count f = 1 := by
        unfold count
        rw [hloose.uncounted]
        rfl
      have := hloose.unused
      have := hone f
      omega
  · intro f hf
    obtain ⟨_, hc⟩ := h.free f hf
    refine ⟨?_, hc⟩
    rw [huse]
    by_cases hlf : l.count f = 0
    · by_cases hdf : d f = 0
      · omega
      · exact absurd hf (hr f hdf).2.2
    · exact absurd hf (hl f (hcount f hlf)).1.not_free
  · intro f hf
    rw [huse] at hf
    by_cases hlf : l.count f = 0
    · by_cases hdf : d f = 0
      · refine h.issued f ?_
        rcases hf with hf | hf
        · exact .inl (by omega)
        · exact .inr hf
      · exact (hr f hdf).2.1
    · exact (hl f (hcount f hlf)).1.issued
  · intro p u hu f hf
    obtain ⟨rfl, rfl⟩ | ⟨-, hu⟩ := get?_insert_cases hu
    · rcases hf with hf | hf
      · exact h.exclusive p t ht f (.inl hf)
      · rcases mem_append.mp (hp.mem_iff.mp hf) with hf | hf
        · exact ⟨(hl f hf).1.uncounted, (hl f hf).1.unlisted⟩
        · exact h.exclusive p t ht f (.inr hf)
    · exact h.exclusive p u hu f hf

omit ht

/-- A frame that can take one more holder. -/
structure Room (M : Mapper τ) (owners : Nat → Nat) (m : Mem τ) (f : Nat) : Prop where
  bound : m.uses M f + owners f + 1 ≤ m.count f
  issued : m.frames.Issued f
  not_free : f ∉ m.frames.freeList

omit h in
theorem Loose.room (h : Loose M owners listed m f) : Room M owners m f := by
  refine ⟨?_, h.issued, h.not_free⟩
  unfold count
  rw [h.uncounted, h.unused]
  exact le_refl 1

theorem Ledger.map (hM : M.Lawful) (hv : v < USER_END) (hr : ok = true → Room M owners m f)
    (hm : m.mapUserPage M pml4 v f fl = some (ok, m')) : Ledger M owners listed m' := by
  obtain ⟨t, _, _, ht, hmap, rfl⟩ := mapUserPage_cases hm
  obtain ⟨_, htakes, hp⟩ := hM.mapTo_tables hv hmap
  have hleaf := hM.mapTo_leaves hv hmap
  have htook := htakes.took h.sound
  refine (h.took htook).grow (d := fun g => if ok = true ∧ f = g then 1 else 0) ht hp ?_ htook.nodup ?_ ?_
  · intro g
    cases ok with
    | false =>
      rw [hleaf]
      simp
    | true =>
      obtain ⟨hnone, hleaf⟩ := hleaf
      have := total_insert (fun _ e => if e.1 = g then 1 else 0) (M.leaves t) v (f, fl)
      rw [hnone] at this
      rw [hleaf]
      simpa using this
  · intro g hg
    refine ⟨h.loose htook hg, ?_⟩
    rw [if_neg]
    intro hc
    obtain ⟨hok, rfl⟩ := hc
    exact htook.not_mem (hr hok).issued (hr hok).not_free hg
  · intro g hg
    have hc : ok = true ∧ f = g := by
      by_contra hc
      exact hg (if_neg hc)
    obtain ⟨hok, rfl⟩ := hc
    have hroom := hr hok
    rw [if_pos ⟨hok, rfl⟩]
    exact ⟨hroom.bound, htook.issued f hroom.issued, fun hm => hroom.not_free (htook.free f hm)⟩

theorem Ledger.share (hf : listed f) (hs : m.refShare f = some m') :
    Ledger M owners listed m' ∧ Room M owners m' f := by
  obtain ⟨-, ⟨⟩⟩ := of_guard hs
  have hissued : m.frames.Issued f := by
    have := h.owned f hf
    exact h.issued f (.inl (by omega))
  have hcount : ∀ g, count { m with refcounts := m.refcounts.insert f ((m.refcounts.get? f).getD 1 + 1) } g =
      if g = f then m.count f + 1 else m.count g := by
    intro g
    unfold count
    rw [get?_insert]
    split <;> rfl
  refine ⟨⟨h.sound, ?_, ?_, ?_, ?_, ?_, h.owned⟩, ⟨?_, hissued, h.listed_not_free hf⟩⟩
  · intro g
    rw [hcount]
    have hb : m.uses M g + owners g ≤ m.count g := h.bound g
    split
    · rename_i he
      subst he
      exact Nat.le_succ_of_le hb
    · exact hb
  · intro g hg
    obtain ⟨h0, hc⟩ := h.free g hg
    refine ⟨h0, ?_⟩
    rw [get?_insert, if_neg]
    · exact hc
    · intro he
      exact h.listed_not_free hf (he ▸ hg)
  · intro g hg
    by_cases he : g = f
    · exact he ▸ hissued
    · rw [get?_insert, if_neg he] at hg
      exact h.issued g hg
  · intro g c hc
    obtain ⟨-, rfl⟩ | ⟨-, hc⟩ := get?_insert_cases hc
    · cases hg : m.refcounts.get? f with
      | none => exact le_refl 2
      | some c => exact Nat.le_succ_of_le (h.counted f c hg)
    · exact h.counted g c hc
  · intro p t ht g hg
    obtain ⟨hc, hl⟩ := h.exclusive p t ht g hg
    refine ⟨?_, hl⟩
    rw [get?_insert, if_neg]
    · exact hc
    · intro he
      exact hl (he ▸ hf)
  · rw [hcount, if_pos rfl]
    exact Nat.succ_le_succ (h.bound f)

/-- Mapping a listed frame and counting the new reference, as `mmap_shared_pages` does. -/
theorem Ledger.mapShared (hM : M.Lawful) (hv : v < USER_END) (hf : listed f) {m₁ : Mem τ}
    (hm : m.mapUserPage M pml4 v f fl = some (true, m₁)) (hs : m₁.refShare f = some m') :
    Ledger M owners listed m' := by
  obtain ⟨_, t', a, ht, hmap, rfl⟩ := mapUserPage_cases hm
  -- the mapper does not look at the counts, so the reference may be counted first
  obtain ⟨hlt, ⟨⟩⟩ := of_guard hs
  have hfirst : m.refShare f = some { m with refcounts := m.refcounts.insert f ((m.refcounts.get? f).getD 1 + 1) } := by
    exact if_pos hlt
  obtain ⟨hl, hroom⟩ := h.share hf hfirst
  have hagain : mapUserPage M { m with refcounts := m.refcounts.insert f ((m.refcounts.get? f).getD 1 + 1) }
      pml4 v f fl =
      some (true, ⟨a, m.refcounts.insert f ((m.refcounts.get? f).getD 1 + 1), m.spaces.insert pml4 t'⟩) := by
    unfold mapUserPage
    rw [ht, Option.bind_eq_bind, Option.bind_some, hmap]
    rfl
  exact hl.map hM hv (fun _ => hroom) hagain

/-! ## References dropped -/

/-- The space loses leaves: what they held is nobody's for the moment, and is counted as owned. -/
theorem Ledger.detach {d : Nat → Nat} (ht : m.spaces.get? pml4 = some t) (hp : M.tables t' = M.tables t)
    (hd : ∀ f, (M.leaves t').total (fun _ e => if e.1 = f then 1 else 0) + d f = (M.leaves t).total
      (fun _ e => if e.1 = f then 1 else 0)) :
    Ledger M (fun f => owners f + d f) listed { m with spaces := m.spaces.insert pml4 t' } := by
  have huse : ∀ f, uses M { m with spaces := m.spaces.insert pml4 t' } f + (owners f + d f) =
      m.uses M f + owners f := by
    intro f
    have h1 := uses_insert (M := M) ht t' f
    have h3 := hd f
    rw [spaceUses_eq M f pml4 t, spaceUses_eq M f pml4 t', hp] at h1
    show (m.spaces.insert pml4 t').total (spaceUses M f) + _ = _
    omega
  refine ⟨h.sound, ?_, ?_, ?_, h.counted, ?_, ?_⟩
  · intro f
    rw [huse]
    exact h.bound f
  · intro f hf
    rw [huse]
    exact h.free f hf
  · intro f hf
    rw [huse] at hf
    exact h.issued f hf
  · intro p u hu f hf
    obtain ⟨rfl, rfl⟩ | ⟨-, hu⟩ := get?_insert_cases hu
    · exact h.exclusive p t ht f (hp ▸ hf)
    · exact h.exclusive p u hu f hf
  · intro f hf
    have := h.owned f hf
    omega

theorem Ledger.deallocate (hf : owners f ≠ 0) (hc : m.refcounts.get? f = none)
    (ho : ∀ g, owners' g + (if f = g then 1 else 0) = owners g) (hl : ∀ g, listed g → owners' g ≠ 0) :
    Ledger M owners' listed (m.deallocate f) := by
  have hone : m.uses M f = 0 ∧ owners f = 1 := by
    have hb := h.bound f
    unfold count at hb
    rw [hc, Option.getD_none] at hb
    omega
  have hnot : f ∉ m.frames.freeList := by
    intro hm
    have := (h.free f hm).1
    omega
  have hsame : ∀ g, g ≠ f → owners' g = owners g := by
    intro g hg
    have := ho g
    rw [if_neg (Ne.symm hg)] at this
    exact this
  have hzero : owners' f = 0 := by
    have := ho f
    rw [if_pos rfl] at this
    omega
  refine ⟨h.sound.deallocate (h.issued f (.inl (by omega))) hnot, ?_, ?_, ?_, h.counted, h.exclusive, hl⟩
  · intro g
    have hb := h.bound g
    have := ho g
    show m.uses M g + owners' g ≤ m.count g
    omega
  · intro g hg
    rcases mem_cons.mp hg with rfl | hg
    · exact ⟨by show m.uses M g + owners' g = 0; omega, hc⟩
    · have hne : g ≠ f := fun he => hnot (he ▸ hg)
      rw [hsame g hne]
      exact h.free g hg
  · intro g hg
    refine h.issued g ?_
    rcases hg with hg | hg
    · have := ho g
      change m.uses M g + owners' g ≠ 0 at hg
      exact .inl (by omega)
    · exact .inr hg

omit h in
theorem refRelease_none (hc : m.refcounts.get? f = none) : m.refRelease f = (true, m) := by
  unfold refRelease
  rw [hc]

omit h in
theorem refRelease_some {c : Nat} (hc : m.refcounts.get? f = some c) (h2 : 2 ≤ c) :
    ∃ r, m.refRelease f = (false, { m with refcounts := r }) ∧ (∀ g, g ≠ f → r.get? g = m.refcounts.get? g) ∧
      (r.get? f).getD 1 = c - 1 ∧ ∀ c', r.get? f = some c' → 2 ≤ c' := by
  unfold refRelease
  rw [hc]
  dsimp only
  split
  · have h0 : (c - 1 == 0) = false := by
      rw [beq_eq_false_iff_ne]
      omega
    rw [h0]
    refine ⟨_, rfl, fun g hg => by rw [get?_remove, if_neg hg], ?_, ?_⟩
    · rw [get?_remove, if_pos rfl, Option.getD_none]
      omega
    · intro c' hc'
      rw [get?_remove, if_pos rfl] at hc'
      cases hc'
  · refine ⟨_, rfl, fun g hg => by rw [get?_insert, if_neg hg], ?_, ?_⟩
    · rw [get?_insert, if_pos rfl, Option.getD_some]
    · intro c' hc'
      rw [get?_insert, if_pos rfl] at hc'
      obtain rfl := Option.some.inj hc'
      omega

theorem Ledger.release (hf : owners f ≠ 0) (ho : ∀ g, owners' g + (if f = g then 1 else 0) = owners g)
    (hl : ∀ g, listed g → owners' g ≠ 0) : Ledger M owners' listed (m.releaseFrame f) := by
  unfold releaseFrame
  cases hc : m.refcounts.get? f with
  | none =>
    rw [refRelease_none hc]
    exact h.deallocate hf hc ho hl
  | some c =>
    have hbf := h.bound f
    unfold count at hbf
    rw [hc, Option.getD_some] at hbf
    -- not the last one: the count goes down with the holders
    obtain ⟨r, hr, hother, hself, hr2⟩ := refRelease_some hc (h.counted f c hc)
    have hne : ∀ g, m.refcounts.get? g = none → g ≠ f := by
      intro g hg he
      rw [he, hc] at hg
      cases hg
    rw [hr]
    refine ⟨h.sound, ?_, ?_, ?_, ?_, ?_, hl⟩
    · intro g
      have hog := ho g
      show m.uses M g + owners' g ≤ (r.get? g).getD 1
      by_cases he : g = f
      · subst he
        rw [hself]
        rw [if_pos rfl] at hog
        omega
      · rw [hother g he]
        have hb : m.uses M g + owners g ≤ (m.refcounts.get? g).getD 1 := h.bound g
        omega
    · intro g hg
      obtain ⟨_, hn⟩ := h.free g hg
      refine ⟨?_, (hother g (hne g hn)).trans hn⟩
      have := ho g
      show m.uses M g + owners' g = 0
      omega
    · intro g hg
      refine h.issued g ?_
      by_cases he : g = f
      · exact .inr (by rw [he, hc]; simp)
      rcases hg with hg | hg
      · have := ho g
        change m.uses M g + owners' g ≠ 0 at hg
        exact .inl (by omega)
      · exact .inr (hother g he ▸ hg)
    · intro g c' hg
      by_cases he : g = f
      · exact hr2 c' (he ▸ hg)
      · exact h.counted g c' (hother g he ▸ hg)
    · intro p t ht g hg
      obtain ⟨hn, hu⟩ := h.exclusive p t ht g hg
      exact ⟨(hother g (hne g hn)).trans hn, hu⟩

variable (hM : M.Lawful)
include hM

/-- A leaf was cleared: its reference is left over. -/
theorem Ledger.unmap (hv : v < USER_END) (ht : m.spaces.get? pml4 = some t)
    (hu : M.unmap t v = some (f, t')) :
    Ledger M (fun g => owners g + if f = g then 1 else 0) listed { m with spaces := m.spaces.insert pml4 t' } := by
  obtain ⟨⟨_, hg⟩, hl, hp⟩ := hM.unmap_leaf hv hu
  refine h.detach ht hp ?_
  intro g
  rw [hl]
  exact total_remove (g := fun _ (e : Entry) => if e.1 = g then 1 else 0) hg

theorem Ledger.unmapAndRelease (hv : v < USER_END)
    (hm : m.unmapAndReleaseUserPage M pml4 v = some m') : Ledger M owners listed m' := by
  obtain ⟨_, ht, ⟨-, rfl⟩ | ⟨_, _, hun, rfl⟩⟩ := unmapAndRelease_cases hm
  · exact h
  · refine (h.unmap hM hv ht hun).release ?_ (fun g => rfl) h.owned
    simp

/-- The frame of the page is not shared. -/
theorem Ledger.unmapAndFree (hv : v < USER_END)
    (hx : ∀ t f fl, m.spaces.get? pml4 = some t → (M.leaves t).get? v = some (f, fl) → m.refcounts.get? f = none)
    (hm : m.unmapAndFreeUserPage M pml4 v = some m') : Ledger M owners listed m' := by
  obtain ⟨⟨_, _⟩, hu, he⟩ := of_bind hm
  obtain ⟨t, ht, ⟨rfl, -, rfl⟩ | ⟨f, _, rfl, hun, rfl⟩⟩ := unmapUserPage_cases hu
  · cases he
    exact h
  cases he
  obtain ⟨⟨fl, hg⟩, -, -⟩ := hM.unmap_leaf hv hun
  refine (h.unmap hM hv ht hun).deallocate ?_ (hx t f fl ht hg) (fun g => rfl) h.owned
  simp

omit hM in
omit h in
theorem total_alter_frame (l : OrdMap Nat Entry) (v : Nat) (fl : PtFlags) (f : Nat) :
    (l.alter v fun e => (e.1, fl)).total (fun _ e => if e.1 = f then 1 else 0) =
      l.total (fun _ e => if e.1 = f then 1 else 0) := by
  unfold alter
  split
  · rename_i e he
    have := total_insert (fun _ (e : Entry) => if e.1 = f then 1 else 0) l v (e.1, fl)
    rw [he] at this
    simpa using this
  · rfl

theorem Ledger.updateFlags (hv : v < USER_END)
    (hm : m.updateUserPageFlags M pml4 v fl = some m') : Ledger M owners listed m' := by
  obtain ⟨t, ht, hm⟩ := of_bind hm
  cases hm
  obtain ⟨hl, hp⟩ := @Mapper.Lawful.updateFlags_leaf _ _ hM t v fl hv
  refine h.detach (d := fun _ => 0) ht hp ?_
  intro f
  rw [hl, total_alter_frame, add_zero]

/-! ## Address spaces made and torn down -/

omit hM in
omit h in
theorem Loose.no_space (h : Loose M owners listed m f) : m.spaces.get? f = none := by
  cases ht : m.spaces.get? f with
  | none => rfl
  | some t =>
    have h1 := le_total (g := spaceUses M f) ht
    have h2 := h.unused
    rw [spaceUses_eq, if_pos rfl] at h1
    unfold uses at h2
    omega

theorem Ledger.addSpace (hf : Loose M owners listed m f) :
    Ledger M owners listed { m with spaces := m.spaces.insert f M.fresh } := by
  have huse : ∀ g, uses M { m with spaces := m.spaces.insert f M.fresh } g = m.uses M g + if f = g then 1 else 0 := by
    intro g
    have := total_insert (spaceUses M g) m.spaces f M.fresh
    rw [hf.no_space, spaceUses_eq, hM.fresh_leaves, hM.fresh_tables, total_empty, count_nil] at this
    exact this
  have hother : ∀ g, f ≠ g → uses M { m with spaces := m.spaces.insert f M.fresh } g = m.uses M g := by
    intro g hg
    rw [huse, if_neg hg, add_zero]
  refine ⟨h.sound, ?_, ?_, ?_, h.counted, ?_, h.owned⟩
  · intro g
    by_cases hg : f = g
    · subst hg
      have := hf.room.bound
      rw [huse, if_pos rfl]
      show _ ≤ m.count f
      omega
    · rw [hother g hg]
      exact h.bound g
  · intro g hg
    have hne : f ≠ g := fun he => hf.not_free (he ▸ hg)
    rw [hother g hne]
    exact h.free g hg
  · intro g hg
    by_cases he : f = g
    · exact he ▸ hf.issued
    · rw [hother g he] at hg
      exact h.issued g hg
  · intro p t ht g hg
    obtain ⟨hp, rfl⟩ | ⟨-, ht⟩ := get?_insert_cases ht
    · rw [hM.fresh_tables] at hg
      obtain rfl : g = f := (hg.resolve_right not_mem_nil).trans hp
      exact ⟨hf.uncounted, hf.unlisted⟩
    · exact h.exclusive p t ht g hg

theorem Ledger.createUserPageTable (hm : m.createUserPageTable M = some (pml4, m')) :
    Ledger M owners listed m' ∧ m.spaces.get? pml4 = none ∧ m'.spaces = m.spaces.insert pml4 M.fresh ∧
      m'.refcounts = m.refcounts := by
  unfold Mem.createUserPageTable at hm
  split at hm
  · rename_i f _ ha
    cases hm
    have htook := Frames.allocate_took h.sound ha
    have hloose := h.loose htook (f := pml4) (by simp)
    exact ⟨(h.took htook).addSpace hM hloose, hloose.no_space, rfl, rfl⟩
  · cases hm

omit hM

theorem Ledger.removeSpace (ht : m.spaces.get? pml4 = some t) :
    Ledger M (fun f => owners f + spaceUses M f pml4 t) listed { m with spaces := m.spaces.remove pml4 } := by
  have huse : ∀ f, uses M { m with spaces := m.spaces.remove pml4 } f + (owners f + spaceUses M f pml4 t) =
      m.uses M f + owners f := by
    intro f
    have h1 := total_remove (g := spaceUses M f) ht
    unfold uses
    dsimp only
    omega
  refine ⟨h.sound, ?_, ?_, ?_, h.counted, ?_, ?_⟩
  · intro f
    rw [huse]
    exact h.bound f
  · intro f hf
    rw [huse]
    exact h.free f hf
  · intro f hf
    rw [huse] at hf
    exact h.issued f hf
  · intro p u hu f hf
    exact h.exclusive p u (get?_of_remove hu).2 f hf
  · intro f hf
    have := h.owned f hf
    omega

omit h

theorem releaseFrame_refcounts (hf : m.refcounts.get? f = none) : (m.releaseFrame g).refcounts.get? f = none := by
  have hr : (m.refRelease g).2.refcounts.get? f = none := by
    unfold refRelease
    split
    · rename_i c hc
      have hne : f ≠ g := by
        intro he
        rw [he, hc] at hf
        cases hf
      split
      · show (m.refcounts.remove g).get? f = none
        rw [get?_remove, if_neg hne]
        exact hf
      · show (m.refcounts.insert g (c - 1)).get? f = none
        rw [get?_insert, if_neg hne]
        exact hf
    · exact hf
  unfold releaseFrame
  split <;> exact hr

theorem freeMet_refcounts (x : Met) (hf : m.refcounts.get? f = none) : (m.freeMet x).refcounts.get? f = none := by
  cases x with
  | leaf g => exact releaseFrame_refcounts hf
  | table g => exact hf

theorem freeMet_spaces (m : Mem τ) (x : Met) : (m.freeMet x).spaces = m.spaces := by
  cases x with
  | leaf g => exact releaseFrame_spaces m g
  | table g => rfl

theorem freeAll_frame (ws : List Met) : ∀ m : Mem τ, (ws.foldl freeMet m).spaces = m.spaces ∧
    ∀ f, m.refcounts.get? f = none → (ws.foldl freeMet m).refcounts.get? f = none := by
  induction ws with
  | nil => exact fun m => ⟨rfl, fun f hf => hf⟩
  | cons x ws ih =>
    intro m
    obtain ⟨hs, hr⟩ := ih (m.freeMet x)
    exact ⟨hs.trans (freeMet_spaces m x), fun f hf => hr f (freeMet_refcounts x hf)⟩

theorem Ledger.freeAll (hl : ∀ f, listed f → owners f ≠ 0) (ws : List Met) : ∀ {m : Mem τ},
    Ledger M (fun f => owners f + (ws.map metFrame).count f) listed m →
    (∀ f, .table f ∈ ws → m.refcounts.get? f = none) → Ledger M owners listed (ws.foldl freeMet m) := by
  induction ws with
  | nil =>
    intro m h _
    exact h
  | cons x ws ih =>
    intro m h ht
    refine ih ?_ fun f hf => freeMet_refcounts x (ht f (.tail _ hf))
    have hx : owners (metFrame x) + ((x :: ws).map metFrame).count (metFrame x) ≠ 0 := by
      simp
    have ho : ∀ g, (owners g + (ws.map metFrame).count g) + (if metFrame x = g then 1 else 0) =
        owners g + ((x :: ws).map metFrame).count g := by
      intro g
      simp only [map_cons, count_cons, beq_iff_eq]
      omega
    have hlisted : ∀ g, listed g → owners g + (ws.map metFrame).count g ≠ 0 := by
      intro g hg
      have := hl g hg
      omega
    cases x with
    | leaf f => exact h.release hx ho hlisted
    | table f => exact h.deallocate hx (ht f mem_cons_self) ho hlisted

theorem count_walk (hM : M.Lawful) (t : τ) (f : Nat) : ((M.walk t).map metFrame).count f =
    (M.tables t).count f + (M.leaves t).total (fun _ e => if e.1 = f then 1 else 0) := by
  have hleaf : ∀ l : List (Nat × Entry), (l.map fun x => x.2.1).count f =
      (l.map fun x => if x.2.1 = f then 1 else 0).sum := by
    intro l
    induction l with
    | nil => rfl
    | cons x l ih =>
      simp only [map_cons, count_cons, sum_cons, beq_iff_eq, ih]
      omega
  rw [((hM.walk_perm t).map metFrame).count_eq f, map_append, map_map, map_map, count_append]
  have h1 : (M.leaves t).values.map (metFrame ∘ fun e => Met.leaf e.1) = (M.leaves t).entries.map fun x => x.2.1 := by
    rw [values, map_map]
    rfl
  have h2 : (M.tables t).map (metFrame ∘ Met.table) = M.tables t := map_id _
  rw [h1, h2, hleaf]
  exact add_comm ..

theorem Ledger.cleanup (hM : M.Lawful) (h : Ledger M owners listed m)
    (hm : m.cleanupUserAddressSpace M pml4 = some m') :
    Ledger M owners listed m' ∧ m'.spaces = m.spaces.remove pml4 := by
  obtain ⟨t, ht, hm⟩ := of_bind hm
  cases hm
  obtain ⟨hspaces, hrefs⟩ := freeAll_frame (M.walk t) { m with spaces := m.spaces.remove pml4 }
  refine ⟨?_, hspaces⟩
  have hall : Ledger M (fun f => (owners f + if pml4 = f then 1 else 0) + ((M.walk t).map metFrame).count f) listed
      { m with spaces := m.spaces.remove pml4 } := by
    have h1 := h.removeSpace ht
    have he : (fun f => owners f + spaceUses M f pml4 t) =
        fun f => (owners f + if pml4 = f then 1 else 0) + ((M.walk t).map metFrame).count f := by
      funext f
      rw [count_walk hM, spaceUses_eq, add_assoc]
    rwa [he] at h1
  have hl : ∀ f, listed f → (owners f + if pml4 = f then 1 else 0) ≠ 0 := by
    intro f hf
    have := h.owned f hf
    omega
  have hfreed := Ledger.freeAll hl (M.walk t) hall ?_
  · refine hfreed.deallocate ?_ (hrefs pml4 (h.exclusive pml4 t ht pml4 (.inl rfl)).1) (fun g => rfl) h.owned
    simp
  · intro f hf
    have hmem := (hM.walk_perm t).mem_iff.mp hf
    rcases mem_append.mp hmem with hmem | hmem
    · obtain ⟨_, -, he⟩ := mem_map.mp hmem
      cases he
    · obtain ⟨_, hg, he⟩ := mem_map.mp hmem
      cases he
      exact (h.exclusive pml4 t ht f (.inr hg)).1

theorem cleanup_ne : m.cleanupUserAddressSpace M pml4 ≠ some m := by
  intro h
  obtain ⟨t, ht, h⟩ := of_bind h
  obtain ⟨hspaces, -⟩ := freeAll_frame (M.walk t) { m with spaces := m.spaces.remove pml4 }
  have hgone : m.spaces.get? pml4 = (m.spaces.remove pml4).get? pml4 :=
    (congrArg (fun m => m.spaces.get? pml4) (Option.some.inj h)).symm.trans (congrArg (·.get? pml4) hspaces)
  rw [get?_remove, if_pos rfl, ht] at hgone
  cases hgone

/-! ## Objects -/

theorem Ledger.adopt (h : Ledger M owners listed m) (hn : l.Nodup) (hl : ∀ f ∈ l, Loose M owners listed m f) :
    Ledger M (fun f => owners f + l.count f) (fun f => listed f ∨ f ∈ l) m := by
  have hcount : ∀ f, l.count f ≠ 0 → f ∈ l := fun f hf => count_pos_iff.mp (Nat.pos_of_ne_zero hf)
  refine ⟨h.sound, ?_, ?_, ?_, h.counted, ?_, ?_⟩
  · intro f
    by_cases hf : l.count f = 0
    · have := h.bound f
      omega
    · have h1 := (hl f (hcount f hf)).room.bound
      have h2 := nodup_iff_count_le_one.mp hn f
      omega
  · intro f hf
    by_cases hc : l.count f = 0
    · obtain ⟨_, hr⟩ := h.free f hf
      exact ⟨by omega, hr⟩
    · exact absurd hf (hl f (hcount f hc)).not_free
  · intro f hf
    by_cases hc : l.count f = 0
    · refine h.issued f ?_
      rcases hf with hf | hf
      · exact .inl (by omega)
      · exact .inr hf
    · exact (hl f (hcount f hc)).issued
  · intro p t ht f hf
    obtain ⟨hr, hu⟩ := h.exclusive p t ht f hf
    refine ⟨hr, ?_⟩
    intro hc
    rcases hc with hc | hc
    · exact hu hc
    -- a table is in use
    have h1 := le_total (g := spaceUses M f) ht
    have h2 := (hl f hc).unused
    rw [spaceUses_eq] at h1
    unfold uses at h2
    rcases hf with rfl | hf
    · rw [if_pos rfl] at h1
      omega
    · have := count_pos_iff.mpr hf
      omega
  · intro f hf
    rcases hf with hf | hf
    · have := h.owned f hf
      omega
    · have := count_pos_iff.mpr hf
      omega

end

end Mem

end Ostoo.Memory
