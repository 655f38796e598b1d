/-
  Ostoo.Memory.Failing — what a memory call leaves behind when it fails for want of frames,
  or because a page cannot be mapped.

  `brk`, `mmap` and `shmem_create` work page by page and give up at the first page that
  fails, without undoing the pages before it: these stay mapped with no area over them, or
  their frames are lost. A new frame that cannot be mapped is lost too, and MAP_FIXED has by
  then removed what it was to replace. A failed call is without effect exactly when it fails
  on its very first step (`failed_call_unchanged_iff`).
-/

import Ostoo.Memory.Unmapping

namespace Ostoo.Memory

open Ostoo.Lib Option Mem Frames

section

variable {τ : Type} (M : Mapper τ)

/-! ## shmem_create -/

def SHM_CLOEXEC : BitVec 32 := 1
def EMFILE : Int := 24

/-- The loop of `SharedMemInner::new`. Frames allocated before a failure are dropped. -/
def Mem.allocFrames : Nat → Mem τ → Option (List Nat) × Mem τ
  | 0, m => (some [], m)
  | n + 1, m => match m.frames.allocate with
    | (none, a) => (none, { m with frames := a })
    | (some f, a) => match allocFrames n { m with frames := a } with
      | (some l, m) => (some (f :: l), m)
      | (none, m) => (none, m)

/-- `SharedMemInner::new` -/
def Mem.sharedMemNew (m : Mem τ) (size : Nat) : Option (Option (List Nat) × Mem τ) :=
  if size = 0 then some (none, m)
  else do
    let n ← addU64 size PAGE_SIZE
    pure (m.allocFrames ((n - 1) / PAGE_SIZE))

/-- `slot` is what the fd table answers; an object that gets no fd is dropped with its frames. -/
def Mem.sysShmemCreate (m : Mem τ) (size : Nat) (flags : BitVec 32) (slot : Option Nat) : Option (Int × Mem τ) :=
  if size = 0 then pure (-EINVAL, m)
  else if flags &&& ~~~SHM_CLOEXEC ≠ 0 then pure (-EINVAL, m)
  else do
    match ← m.sharedMemNew size with
    | (none, m) => pure (-ENOMEM, m)
    | (some frames, m) => match slot with
      | some fd => pure ((fd : Int), m)
      | none => pure (-EMFILE, frames.foldl Mem.releaseFrame m)

/-! ## No effect -/

/-- The number of tables below the PML4. -/
def Mem.tableCount (m : Mem τ) (pml4 : Nat) : Nat := ((m.spaces.get? pml4).map fun t => (M.tables t).length).getD 0

/-- Nothing has changed but tables that `map_to` created, whose frames are accounted for. -/
structure Mem.Same (pml4 : Nat) (m m' : Mem τ) : Prop where
  leaves : m'.leafAt M pml4 = m.leafAt M pml4
  others : ∀ q, q ≠ pml4 → m'.spaces.get? q = m.spaces.get? q
  refcounts : m'.refcounts = m.refcounts
  frames : m'.frames.available + m'.tableCount M pml4 = m.frames.available + m.tableCount M pml4

variable {M} {D : Descent M} {m m' : Mem τ} {pml4 v f : Nat} {fl : PtFlags} {ok : Bool}

namespace Mem

theorem Same.of_frames {a : Frames} (h : a.available = m.frames.available) : m.Same M pml4 { m with frames := a } :=
  ⟨rfl, fun _ _ => rfl, rfl, by rw [h]; rfl⟩

theorem tableCount_congr (h : m'.spaces = m.spaces) : m'.tableCount M = m.tableCount M := by
  unfold tableCount
  rw [h]

theorem mapUserPage_frames (hM : M.Lawful) (hv : v < USER_END) (h : m.mapUserPage M pml4 v f fl = some (ok, m')) :
    m'.frames.available + m'.tableCount M pml4 = m.frames.available + m.tableCount M pml4 := by
  obtain ⟨_, _, a, ht, hmap, rfl⟩ := mapUserPage_cases h
  obtain ⟨l, htakes, hp⟩ := hM.mapTo_tables hv hmap
  have hav := htakes.available
  have hlen := hp.length_eq
  rw [List.length_append] at hlen
  simp only [tableCount, get?_insert_self, ht, map_some, getD_some]
  omega

theorem mapUserPage_refused (hM : M.Lawful) (hv : v < USER_END) (h : m.mapUserPage M pml4 v f fl = some (false, m')) :
    m.Same M pml4 m' := by
  obtain ⟨-, hleaf⟩ := mapUserPage_leafAt hM hv h
  refine ⟨funext fun w => by rw [hleaf, if_neg (by simp)], ?_, ?_, mapUserPage_frames hM hv h⟩
  all_goals obtain ⟨t, t', a, -, -, rfl⟩ := mapUserPage_cases h
  · intro q hq
    exact (OrdMap.get?_insert ..).trans (if_neg hq)
  · rfl

end Mem

/-! ## The loops -/

section

variable {base n : Nat}

/-- What is known before page `j` of a loop that started in `m`: nothing has been done, or
    the first page has been mapped. -/
def FirstMapped (M : Mapper τ) (pml4 base : Nat) (m : Mem τ) (j : Nat) (m1 : Mem τ) : Prop :=
  if j = 0 then m1 = m else m.leafAt M pml4 base = none ∧ (m1.leafAt M pml4 base).isSome

namespace FirstMapped

variable {j : Nat} {m1 m2 m3 : Mem τ}

variable (h : FirstMapped M pml4 base m j m1)
include h

theorem eq (hj : j = 0) : m1 = m := by rwa [FirstMapped, if_pos hj] at h

theorem not_same (hj : j ≠ 0) (hleaf : m2.leafAt M pml4 = m1.leafAt M pml4) : ¬ m.Same M pml4 m2 := by
  intro hs
  rw [FirstMapped, if_neg hj, ← hleaf, hs.leaves] at h
  rw [h.1] at h
  cases h.2

theorem map (hM : M.Lawful) (hend : base + n * PAGE_SIZE ≤ USER_END) (hj : j < n) (hsp : m2.spaces = m1.spaces)
    (hmap : m2.mapUserPage M pml4 (base + j * PAGE_SIZE) f fl = some (true, m3)) :
    FirstMapped M pml4 base m (j + 1) m3 := by
  obtain ⟨hnone, hleaf⟩ := mapUserPage_leafAt hM (page_lt_userEnd hend hj) hmap
  rw [FirstMapped, if_neg (Nat.succ_ne_zero j), hleaf]
  rw [leafAt_congr hsp] at hnone ⊢
  by_cases h0 : j = 0
  · obtain rfl := h.eq h0
    subst h0
    rw [if_pos ⟨rfl, rfl⟩]
    exact ⟨hnone rfl, rfl⟩
  · rw [FirstMapped, if_neg h0] at h
    refine ⟨h.1, ?_⟩
    split
    · rfl
    · exact h.2

end FirstMapped

/-- The first page of an area cannot be mapped: it has a leaf or frames for its tables are
    missing, if it is shared; there is no frame for it, if it is private. -/
def AtOnce (D : Descent M) (m : Mem τ) (pml4 base : Nat) (shared : Bool) : Prop :=
  if shared then m.leafAt M pml4 base ≠ none ∨ m.frames.available < m.missingAt D pml4 base else m.frames.available = 0

/-- A loop over the pages of an area that fails has no effect exactly when it fails at once. -/
theorem PageSource.same_iff {fds : Nat → FdView} {shared : Bool} {mapPages : Nat → Mem τ → Option (Bool × Mem τ)}
    (hs : PageSource (services M) fds pml4 fl n shared mapPages) (hM : M.Lawful) (hD : D.Lawful)
    (hend : base + n * PAGE_SIZE ≤ USER_END) (h : mapPages base m = some (false, m')) :
    m.Same M pml4 m' ↔ AtOnce D m pml4 base shared := by
  refine hs.inv base (fun j m1 => FirstMapped M pml4 base m j m1 ∧ (j ≠ 0 → ¬ AtOnce D m pml4 base shared))
    (fun m' => m.Same M pml4 m' ↔ AtOnce D m pml4 base shared) ?_ ?_ ?_ ?_ ⟨rfl, fun h => absurd rfl h⟩ h
  · rintro rfl j hj m1 m2 m3 frame ⟨hI, hnot⟩ ha ok hmap
    have hav := allocate_some_available (allocFrame_available ha)
    have hsp := allocFrame_spaces ha
    -- there was a frame to begin with
    have hnot : ¬ AtOnce D m pml4 base false := by
      by_cases h0 : j = 0
      · obtain rfl := hI.eq h0
        intro hz
        have hz : m1.frames.available = 0 := hz
        omega
      · exact hnot h0
    cases ok with
    | true => exact ⟨hI.map hM hend hj hsp hmap, fun _ => hnot⟩
    | false =>
      refine iff_of_false (fun hsame => ?_) hnot
      have hrefused := mapUserPage_refused hM (page_lt_userEnd hend hj) hmap
      by_cases h0 : j = 0
      · -- the frame taken for the page is lost
        obtain rfl := hI.eq h0
        have h1 := hsame.frames
        have h2 := hrefused.frames
        rw [tableCount_congr hsp] at h2
        omega
      · exact hI.not_same h0 (hrefused.leaves.trans (by rw [leafAt_congr hsp])) hsame
  · rintro rfl j hj m1 m2 ⟨hI, hnot⟩ ha
    by_cases h0 : j = 0
    · obtain rfl := hI.eq h0
      obtain ⟨hz, hz'⟩ := allocate_none_available (allocFrame_available ha)
      obtain rfl : { m1 with frames := m1.frames.allocate.2 } = m2 := congrArg (·.2) ha
      exact iff_of_true (.of_frames (hz'.trans hz.symm)) hz
    · exact iff_of_false (hI.not_same h0 (by rw [leafAt_congr (allocFrame_spaces ha)])) (hnot h0)
  · rintro rfl j hj m1 m2 _ fd size frames frame ⟨hI, hnot⟩ - - hmap hshare
    refine ⟨?_, fun _ => ?_⟩
    · have hI2 := hI.map hM hend hj rfl hmap
      rw [FirstMapped, if_neg (Nat.succ_ne_zero j)] at hI2 ⊢
      rwa [leafAt_congr (refShare_spaces hshare)]
    · by_cases h0 : j = 0
      · obtain rfl := hI.eq h0
        subst h0
        have htakes := mapUserPage_available hD (page_lt_userEnd hend hj) hmap
        have hnone := (mapUserPage_leafAt hM (page_lt_userEnd hend hj) hmap).1 rfl
        rw [if_pos rfl] at htakes
        rw [zero_mul, add_zero] at htakes hnone
        rintro (hsome | _)
        · exact hsome hnone
        · omega
      · exact hnot h0
  · rintro rfl j hj m1 m2 fd size frames frame ⟨hI, hnot⟩ - - hmap
    have hrefused := mapUserPage_refused hM (page_lt_userEnd hend hj) hmap
    by_cases h0 : j = 0
    · obtain rfl := hI.eq h0
      subst h0
      have hwhy := mapUserPage_available hD (page_lt_userEnd hend hj) hmap
      exact iff_of_true hrefused hwhy
    · exact iff_of_false (hI.not_same h0 hrefused.leaves) (hnot h0)

theorem allocFrames_fails (h : m.allocFrames n = (none, m')) : ∃ a, m' = { m with frames := a } ∧ a.available = 0 := by
  induction n generalizing m with
  | zero => cases h
  | succ n ih =>
    unfold allocFrames at h
    split at h
    · rename_i a ha
      cases h
      exact ⟨a, rfl, (allocate_none_available ha).2⟩
    · split at h
      · cases h
      rename_i h2
      cases h
      obtain ⟨a, rfl, ha⟩ := ih h2
      exact ⟨a, rfl, ha⟩

end

/-! ## The calls -/

/-- The calls that take frames. -/
inductive Request
  | brk (addr : Nat)
  | mmap (fds : Nat → FdView) (addr length prot flags a5 r9 : Nat)
  | shmemCreate (size : Nat) (flags : BitVec 32) (slot : Option Nat)

namespace Request

def run (M : Mapper τ) (s : Proc × Mem τ) : Request → Option (Int × Proc × Mem τ)
  | brk addr => sysBrk (Mem.services M) s.1 s.2 addr
  | mmap fds addr length prot flags a5 r9 => sysMmap (Mem.services M) fds s.1 s.2 addr length prot flags a5 r9
  | shmemCreate size flags slot => (s.2.sysShmemCreate size flags slot).map fun x => (x.1, s.1, x.2)

def InUserHalf : Request → Prop
  | brk addr => pagesOf addr * PAGE_SIZE ≤ USER_END
  | mmap _ addr length _ flags _ _ => BitVec.ofNat 32 flags &&& MAP_FIXED ≠ 0 → addr + length ≤ USER_END
  | shmemCreate .. => True

/-- The call did not get its memory. `brk` says so by leaving the break where it was. -/
def Failed (s : Proc × Mem τ) (r : Int) (s' : Proc × Mem τ) : Request → Prop
  | brk addr => addr ≠ 0 ∧ s.1.brkBase ≤ addr ∧ s.1.brkCurrent < pagesOf addr * PAGE_SIZE ∧
      s'.1.brkCurrent = s.1.brkCurrent
  | mmap .. => r = -ENOMEM
  | shmemCreate .. => r = -ENOMEM

/-- The call cannot even begin: no frame is left, or the first page of a shared area cannot be
    mapped; and MAP_FIXED has nothing to replace. -/
def FailsAtOnce (D : Descent M) (s : Proc × Mem τ) : Request → Prop
  | brk _ => s.2.frames.available = 0
  | mmap _ addr length _ flags _ _ => ∀ base, mmapBase s.1 addr length flags = some base →
      (BitVec.ofNat 32 flags &&& MAP_FIXED ≠ 0 → ∀ a, addr ≤ a → a < addr + pagesOf length * PAGE_SIZE →
        attrAt s.1.vmaMap a = none) ∧
      AtOnce D s.2 s.1.pml4 base (BitVec.ofNat 32 flags &&& MAP_SHARED ≠ 0)
  | shmemCreate .. => s.2.frames.available = 0

end Request

/-- The call changed nothing but page-table frames. -/
def NoEffect (M : Mapper τ) (s s' : Proc × Mem τ) : Prop := s'.1 = s.1 ∧ s.2.Same M s.1.pml4 s'.2

variable {p p' : Proc} {r : Int} {addr length : Nat}

theorem Mem.Same.refl (m : Mem τ) : m.Same M pml4 m := ⟨rfl, fun _ _ => rfl, rfl, rfl⟩

theorem sysBrk_failed (h0 : addr ≠ 0) (hbase : p.brkBase ≤ addr) (hgrow : p.brkCurrent < pagesOf addr * PAGE_SIZE)
    (hsame : p'.brkCurrent = p.brkCurrent) (h : sysBrk (services M) p m addr = some (r, p', m')) :
    p' = p ∧ allocAndMapUserPages (services M)
      ((pagesOf addr * PAGE_SIZE - p.brkCurrent) / PAGE_SIZE) p.brkCurrent p.pml4
      USER_DATA_FLAGS m = some (false, m') := by
  unfold sysBrk at h
  rw [if_neg (by omega)] at h
  obtain ⟨_, hnew, h⟩ := of_bind h
  obtain ⟨-, rfl⟩ := alignUp_pages hnew
  rw [if_neg (by omega), if_neg (by omega)] at h
  obtain ⟨⟨ok, _⟩, hmap, h⟩ := of_bind h
  cases ok with
  | true =>
    cases h
    exact absurd hsame (ne_of_gt hgrow)
  | false =>
    cases h
    exact ⟨rfl, hmap⟩

theorem sysMunmap_of_free (hp : VmasOk p) (hpos : 0 < length) (hstop : addr + pagesOf length * PAGE_SIZE ≤ USER_END)
    (hfree : ∀ a, addr ≤ a → a < addr + pagesOf length * PAGE_SIZE → attrAt p.vmaMap a = none)
    (h : sysMunmap (services M) p m addr length = some (0, p', m')) : p' = p ∧ m' = m := by
  rcases sysMunmap_inv h with ⟨hr, -⟩ | ⟨-, -, -, vmaMap, _, hsweep, hun, rfl⟩
  · exact absurd hr (by decide)
  have hsame : sweep munmapSplit p.vmaMap addr (pagesOf length * PAGE_SIZE) = some (p.vmaMap, []) :=
    sweep_of_free hp.1 hp.2 (pagesOf_len hpos).2 (by unfold USER_END at hstop; omega) hfree
  obtain ⟨rfl, rfl⟩ := Prod.mk.inj (some.inj (hsame.symm.trans hsweep))
  cases hun
  exact ⟨rfl, rfl⟩

/-- The window is cleared without effect exactly when MAP_FIXED has nothing to replace. -/
theorem Cleared.same_iff {flags base : Nat} {p1 : Proc} {m1 : Mem τ} (hM : M.Lawful) (hp : VmasOk p)
    (hend : BitVec.ofNat 32 flags &&& MAP_FIXED ≠ 0 → addr + length ≤ USER_END)
    (h : Cleared M p m addr length flags base p1 m1) :
    ((BitVec.ofNat 32 flags &&& MAP_FIXED ≠ 0 → ∀ a, addr ≤ a → a < addr + pagesOf length * PAGE_SIZE →
      attrAt p.vmaMap a = none) ∧ p1 = p ∧ m1 = m) ∨
    (¬ (BitVec.ofNat 32 flags &&& MAP_FIXED ≠ 0 →
      ∀ a, addr ≤ a → a < addr + pagesOf length * PAGE_SIZE → attrAt p.vmaMap a = none) ∧ p1 ≠ p) := by
  rcases h.before with ⟨hf, rfl, hun⟩ | ⟨hf, -, rfl, rfl⟩
  · by_cases hfree : ∀ a, base ≤ a → a < base + pagesOf length * PAGE_SIZE → attrAt p.vmaMap a = none
    · exact .inl ⟨fun _ => hfree, sysMunmap_of_free hp h.pos h.stop hfree hun⟩
    refine .inr ⟨fun hall => hfree (hall hf), ?_⟩
    rintro rfl
    rcases sysMunmap_pages hM hp (hend hf) hun with ⟨hr, -⟩ | ⟨-, -, -, -, -, hattr, -⟩
    · exact absurd hr (by decide)
    · refine hfree fun a h1 h2 => ?_
      rw [hattr a, if_pos ⟨h1, h2⟩]
  · exact .inl ⟨fun hf' => absurd hf hf', rfl, rfl⟩

theorem sysMmap_failed {fds : Nat → FdView} {prot flags a5 r9 : Nat} (hM : M.Lawful) (hD : D.Lawful) (hp : VmasOk p)
    (hend : BitVec.ofNat 32 flags &&& MAP_FIXED ≠ 0 → addr + length ≤ USER_END)
    (h : sysMmap (services M) fds p m addr length prot flags a5 r9 = some (-ENOMEM, p', m')) :
    NoEffect M (p, m) (p', m') ↔ Request.FailsAtOnce D (p, m) (.mmap fds addr length prot flags a5 r9) := by
  rcases sysMmap_placed hp hend h with ⟨-, rfl, rfl, hwhy⟩ | ⟨base, _, _, vma, mapPages, ok, hpl, hmap, hres⟩
  · refine iff_of_true ⟨rfl, .refl m'⟩ fun base hb => ?_
    rw [hwhy rfl] at hb
    cases hb
  cases ok with
  | true =>
    have hneg : -ENOMEM = (base : Int) := hres.1
    have : (-ENOMEM : Int) < 0 := by decide
    omega
  | false =>
    obtain ⟨-, rfl⟩ := hres
    have hloop := hpl.source.same_iff hM hD hpl.stop hmap
    rcases hpl.toCleared.same_iff hM hp hend with ⟨hfree, rfl, rfl⟩ | ⟨hcov, hne⟩
    · refine ⟨fun hno b hb => ?_, fun hat => ⟨rfl, hloop.mpr (hat base hpl.base_eq).2⟩⟩
      obtain rfl := some.inj (hpl.base_eq.symm.trans hb)
      exact ⟨hfree, hloop.mp hno.2⟩
    · exact iff_of_false (fun hno => hne hno.1) fun hat => hcov (hat base hpl.base_eq).1

theorem sysShmemCreate_failed {size : Nat} {flags : BitVec 32} {slot : Option Nat}
    (h : m.sysShmemCreate size flags slot = some (-ENOMEM, m')) : m.Same M pml4 m' ↔ m.frames.available = 0 := by
  unfold sysShmemCreate at h
  split at h
  · cases h
  split at h
  · cases h
  rename_i hsize _
  obtain ⟨⟨o, _⟩, hnew, h⟩ := of_bind h
  cases o with
  | some frames =>
    cases slot with
    | none => cases h
    | some fd =>
      have hneg : (fd : Int) = -ENOMEM := congrArg Prod.fst (some.inj h)
      have : (-ENOMEM : Int) < 0 := by decide
      omega
  | none =>
    cases h
    rw [sharedMemNew, if_neg hsize] at hnew
    obtain ⟨_, -, hnew⟩ := of_bind hnew
    obtain ⟨a, rfl, ha⟩ := allocFrames_fails (some.inj hnew)
    refine ⟨fun hs => ?_, fun hz => .of_frames (ha.trans hz.symm)⟩
    have := hs.frames
    simp only [ha] at this
    have htc : tableCount M { m with frames := a } pml4 = m.tableCount M pml4 := rfl
    omega

/-- A call that fails for want of memory leaves page tables, areas, break, reference counts
    and free frames as they were exactly when it fails at once. -/
theorem failed_call_unchanged_iff {s s' : Proc × Mem τ} {e : Request} (hM : M.Lawful) (hD : D.Lawful) (hp : VmasOk s.1)
    (he : e.InUserHalf) (h : e.run M s = some (r, s')) (hf : e.Failed s r s') :
    NoEffect M s s' ↔ e.FailsAtOnce D s := by
  cases e with
  | brk addr =>
    obtain ⟨h0, hbase, hgrow, hsame⟩ := hf
    obtain ⟨hp', hmap⟩ := sysBrk_failed h0 hbase hgrow hsame h
    have hsource : PageSource (services M) (fun _ => .absent) s.1.pml4 USER_DATA_FLAGS
      ((pagesOf addr * PAGE_SIZE - s.1.brkCurrent) / PAGE_SIZE) false _ := .alloc none
    have hend : s.1.brkCurrent + (pagesOf addr * PAGE_SIZE - s.1.brkCurrent) / PAGE_SIZE * PAGE_SIZE ≤ USER_END := by
      have hle := Nat.div_mul_le_self (pagesOf addr * PAGE_SIZE - s.1.brkCurrent) PAGE_SIZE
      have hu : pagesOf addr * PAGE_SIZE ≤ USER_END := he
      omega
    exact (and_iff_right hp').trans (hsource.same_iff hM hD hend hmap)
  | mmap fds addr length prot flags a5 r9 =>
    obtain rfl := hf
    exact sysMmap_failed hM hD hp he h
  | shmemCreate size flags slot =>
    obtain ⟨⟨r1, _⟩, hcreate, hres⟩ := of_map h
    cases hres
    obtain rfl : r1 = -ENOMEM := hf
    exact (and_iff_right rfl).trans (sysShmemCreate_failed hcreate)

end

/-! ## Two pages at 0x400000 -/

namespace Failing

/-- A process with nothing mapped, when `next` of nine frames are in use; the first is its PML4. -/
def started (next : Nat) : Proc × Mem Tree :=
  (⟨0x1000, 0, 0, .empty⟩, ⟨⟨[0x1000, 0x2000, 0x3000, 0x4000, 0x5000, 0x6000, 0x7000, 0x8000, 0x9000], next, []⟩,
    .empty, OrdMap.empty.insert 0x1000 Tree.fresh⟩)

/-- Two anonymous private pages, readable and writable. -/
def mmapPages : Request := .mmap (fun _ => .absent) 0x400000 0x2000 3 0x32 0 0

end Failing

open Failing in
/-- With no frame left the call fails and nothing has changed. -/
theorem failed_call_unchanged_at_once : ∃ s', mmapPages.run Tree.mapper (started 9) = some (-ENOMEM, s') ∧
    NoEffect Tree.mapper (started 9) s' := by
  obtain ⟨⟨_, s'⟩, hcall, hr⟩ : ∃ x, mmapPages.run Tree.mapper (started 9) = some x ∧ x.1 = -ENOMEM := by decide
  cases hr
  have hend : mmapPages.InUserHalf := fun _ => by decide
  refine ⟨s', hcall, (failed_call_unchanged_iff Tree.mapper_lawful Tree.descent_lawful
    (empty_vmasOk rfl) hend hcall rfl).mpr fun base _ => ⟨fun _ a _ _ => rfl, ?_⟩⟩
  show (started 9).2.frames.available = 0
  rfl

open Failing in
/-- With four frames left they go to the first page and its tables. The call fails, but the
    page stays mapped with no area over it, its frame is lost, and once frames are freed again the
    same call still fails. -/
theorem failed_mmap_keeps_a_page : ∃ s', mmapPages.run Tree.mapper (started 5) = some (-ENOMEM, s') ∧
    ¬ NoEffect Tree.mapper (started 5) s' ∧
    s'.2.leafAt Tree.mapper s'.1.pml4 0x400000 = some (0x6000, ⟨true, true, true, true⟩) ∧
      attrAt s'.1.vmaMap 0x400000 = none ∧
    (mmapPages.run Tree.mapper (s'.1, [0x2000, 0x3000, 0x4000, 0x5000].foldl deallocate s'.2)).map (·.1) =
      some (-ENOMEM) := by
  obtain ⟨⟨_, s'⟩, hcall, hr, hrest⟩ : ∃ x, mmapPages.run Tree.mapper (started 5) = some x ∧ x.1 = -ENOMEM ∧
      x.2.2.leafAt Tree.mapper x.2.1.pml4 0x400000 = some (0x6000, ⟨true, true, true, true⟩) ∧
      attrAt x.2.1.vmaMap 0x400000 = none ∧
      (mmapPages.run Tree.mapper (x.2.1, [0x2000, 0x3000, 0x4000, 0x5000].foldl deallocate x.2.2)).map (·.1) =
        some (-ENOMEM) := by decide
  cases hr
  refine ⟨s', hcall, fun hno => ?_, hrest⟩
  have hleaf := hrest.1
  rw [congrArg Proc.pml4 hno.1, hno.2.leaves] at hleaf
  exact absurd hleaf (by decide)

end Ostoo.Memory
