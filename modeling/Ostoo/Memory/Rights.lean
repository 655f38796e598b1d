/-
  Ostoo.Memory.Rights — what user code may do with a page: the flags of its leaf and of
  the three entries above it, all four of which must allow an access.

  `map_to` gives a missing table's entry the PRESENT, WRITABLE and USER_ACCESSIBLE bits of
  the leaf it is created for, and adds those bits to entries that exist (`Parents.Lawful`
  is what is assumed of it), so a page has its rights right after `mmap`. `mprotect` goes
  through `update_flags`, which writes the leaf alone: a page becomes writable only if the
  entries above it already were. They are not when the region was first mapped read-only.

  Proved: a call that sets `prot` gives its pages exactly the rights asked for, except
  exactly an `mprotect` for writing below an entry that forbids it (`effective_rights`).
  `FlagTree` is a mapper with the assumed properties.
-/

import Ostoo.Memory.Pages

namespace Ostoo.Memory

open Ostoo.Lib Mem List Option OrdMap

/-! ## Rights -/

structure Rights where
  read : Bool
  write : Bool
  exec : Bool
  deriving DecidableEq, Repr

/-- What `prot` asks for. -/
def rightsOf (prot : BitVec 32) : Rights := ⟨prot ≠ PROT_NONE, prot &&& PROT_WRITE ≠ 0, prot &&& PROT_EXEC ≠ 0⟩

/-- The conjunction over the entries of all levels. -/
def effective (entries : List PtFlags) : Rights where
  read := entries.all fun x => x.present && x.user
  write := entries.all fun x => x.present && x.user && x.writable
  exec := entries.all fun x => x.present && x.user && !x.noExecute

namespace PtFlags

/-- An entry above a page that forbids nothing but perhaps writing. -/
structure Open (x : PtFlags) : Prop where
  present : x.present = true
  user : x.user = true
  exec : x.noExecute = false

/-- `y` allows what `x` allows. -/
structure Le (x y : PtFlags) : Prop where
  present : x.present = true → y.present = true
  writable : x.writable = true → y.writable = true
  user : x.user = true → y.user = true
  exec : x.noExecute = false → y.noExecute = false

theorem Open.mono {x y : PtFlags} (h : Open x) (hle : Le x y) : Open y :=
  ⟨hle.present h.present, hle.user h.user, hle.exec h.exec⟩

end PtFlags

/-- Below open entries the leaf decides, if they allow writing where it does. -/
theorem effective_eq {prot : BitVec 32} {parents : List PtFlags} (ho : ∀ x ∈ parents, x.Open)
    (hw : prot &&& PROT_WRITE ≠ 0 → ∀ x ∈ parents, x.writable = true) :
    effective (protToPageFlags prot :: parents) = rightsOf prot := by
  have hread : (parents.all fun x => x.present && x.user) = true :=
    all_eq_true.mpr fun x hx => by simp [(ho x hx).present, (ho x hx).user]
  have hexec : (parents.all fun x => x.present && x.user && !x.noExecute) = true :=
    all_eq_true.mpr fun x hx => by simp [(ho x hx).present, (ho x hx).user, (ho x hx).exec]
  by_cases hnone : prot = PROT_NONE
  · subst hnone
    simp only [effective, all_cons, protToPageFlags, if_true, Bool.false_and]
    decide
  simp only [effective, all_cons, hread, hexec, protToPageFlags, rightsOf, if_neg hnone, Bool.and_true, Bool.true_and,
    Rights.mk.injEq]
  refine ⟨(decide_eq_true hnone).symm, ?_, ?_⟩
  · by_cases hwr : prot &&& PROT_WRITE ≠ 0
    · have hall : (parents.all fun x => x.present && x.user && x.writable) = true :=
        all_eq_true.mpr fun x hx => by simp [(ho x hx).present, (ho x hx).user, hw hwr x hx]
      rw [hall, Bool.and_true]
    · simp only [hwr, decide_false, Bool.false_and]
  · simp

/-! ## The entries above a page -/

/-- The flags of the entries in the PML4, the PDPT and the PD (levels 0, 1 and 2) that lead
    to a page. -/
structure Parents {τ : Type} (M : Mapper τ) where
  parent : τ → (level : Fin 3) → (vaddr : Nat) → PtFlags

structure Parents.Lawful {τ : Type} {M : Mapper τ} (P : Parents M) : Prop where
  /-- Bits are only ever added, also when it fails on the way down. -/
  mapTo_adds : ∀ {t t' : τ} {a a' : Frames} {v f : Nat} {fl : PtFlags} {ok : Bool}, v < USER_END →
    M.mapTo t a v f fl = some (ok, t', a') → ∀ level w, (P.parent t level w).Le (P.parent t' level w)
  /-- It gets to the leaf through entries that are present, and has given them the leaf's bits. -/
  mapTo_path : ∀ {t t' : τ} {a a' : Frames} {v f : Nat} {fl : PtFlags}, v < USER_END → fl.user = true →
    M.mapTo t a v f fl = some (true, t', a') → ∀ level,
      (P.parent t' level v).Open ∧ (fl.writable = true → (P.parent t' level v).writable = true)
  unmap_path : ∀ {t t' : τ} {v f : Nat}, v < USER_END → M.unmap t v = some (f, t') → P.parent t' = P.parent t
  updateFlags_path : ∀ {t : τ} {v : Nat} {fl : PtFlags}, v < USER_END → P.parent (M.updateFlags t v fl) = P.parent t

section

variable {τ : Type} {M : Mapper τ} (P : Parents M) {t : τ}

def parents (t : τ) (v : Nat) : List PtFlags := [P.parent t 0 v, P.parent t 1 v, P.parent t 2 v]

theorem forall_parents {Q : PtFlags → Prop} {v : Nat} (h : ∀ level, Q (P.parent t level v)) :
    ∀ x ∈ parents P t v, Q x := by
  intro x hx
  simp only [parents, mem_cons, not_mem_nil, or_false] at hx
  rcases hx with rfl | rfl | rfl <;> exact h _

/-- The rights on a page; none where no leaf is. -/
def rightsAt (m : Mem τ) (pml4 v : Nat) : Option Rights := do
  let t ← m.spaces.get? pml4
  let e ← (M.leaves t).get? v
  pure (effective (e.2 :: parents P t v))

/-- The entries above every page that has a leaf are open. -/
def PathsOpen (pml4 : Nat) (m : Mem τ) : Prop :=
  ∀ t, m.spaces.get? pml4 = some t → ∀ v e, v < USER_END → (M.leaves t).get? v = some e →
    ∀ level, (P.parent t level v).Open

/-- The page has these flags, and the entries above it do not take anything away. -/
def PageSet (pml4 : Nat) (fl : PtFlags) (v : Nat) (m : Mem τ) : Prop :=
  ∃ t f, m.spaces.get? pml4 = some t ∧ (M.leaves t).get? v = some (f, fl) ∧
    ∀ level, (P.parent t level v).Open ∧ (fl.writable = true → (P.parent t level v).writable = true)

theorem PageSet.rightsAt {pml4 v : Nat} {m : Mem τ} {prot : BitVec 32} (h : PageSet P pml4 (protToPageFlags prot) v m) :
    rightsAt P m pml4 v = some (rightsOf prot) := by
  obtain ⟨t, _, ht, hl, hpath⟩ := h
  have heff : effective (protToPageFlags prot :: parents P t v) = rightsOf prot :=
    effective_eq (forall_parents P fun level => (hpath level).1) fun hw =>
      have hne : prot ≠ PROT_NONE := by rintro rfl; exact hw rfl
      forall_parents P fun level => (hpath level).2 (by simpa [protToPageFlags, hne] using hw)
  simp only [Memory.rightsAt, ht, hl, Option.bind_eq_bind, Option.bind_some, Option.pure_def, heff]

variable {P} {m m' : Mem τ} {pml4 v f : Nat} {fl : PtFlags} {ok : Bool}

/-! ## The services -/

theorem PathsOpen.of_spaces (h : PathsOpen P pml4 m) (hs : m'.spaces = m.spaces) : PathsOpen P pml4 m' := by
  unfold PathsOpen
  rw [hs]
  exact h

theorem PageSet.of_spaces (h : PageSet P pml4 fl v m) (hs : m'.spaces = m.spaces) : PageSet P pml4 fl v m' := by
  unfold PageSet
  rw [hs]
  exact h

variable (hM : M.Lawful)
include hM

variable (hP : P.Lawful)
include hP

variable (hv : v < USER_END) {fds : Nat → FdView}
include hv

theorem mapUserPage_pathsOpen (hu : fl.user = true)
    (ho : PathsOpen P pml4 m) (h : m.mapUserPage M pml4 v f fl = some (ok, m')) : PathsOpen P pml4 m' := by
  obtain ⟨t, t', _, ht, hmap, rfl⟩ := mapUserPage_cases h
  intro u hu' w e hw he level
  rw [get?_insert_self] at hu'
  cases hu'
  have hleaf := hM.mapTo_leaves hv hmap
  have hold : ∀ e, (M.leaves t).get? w = some e → (P.parent t' level w).Open := fun e he =>
    (ho t ht w e hw he level).mono (hP.mapTo_adds hv hmap level w)
  cases ok with
  | false =>
    exact hold e (hleaf ▸ he)
  | true =>
    rw [hleaf.2, get?_insert] at he
    split at he
    · rename_i hwv
      subst hwv
      exact (hP.mapTo_path hv hu hmap level).1
    · exact hold e he

theorem mapUserPage_pageSet (hu : fl.user = true) (h : m.mapUserPage M pml4 v f fl = some (true, m')) :
    PageSet P pml4 fl v m' := by
  obtain ⟨_, t', _, -, hmap, rfl⟩ := mapUserPage_cases h
  have hleaf := hM.mapTo_leaves hv hmap
  refine ⟨t', f, get?_insert_self .., ?_, hP.mapTo_path hv hu hmap⟩
  rw [hleaf.2, get?_insert, if_pos rfl]

theorem mapUserPage_keeps_pageSet {w g : Nat} {fl' : PtFlags}
    (hs : PageSet P pml4 fl w m) (h : m.mapUserPage M pml4 v g fl' = some (ok, m')) : PageSet P pml4 fl w m' := by
  obtain ⟨_, t', _, ht, hmap, rfl⟩ := mapUserPage_cases h
  obtain ⟨_, f, ht0, hl, hpath⟩ := hs
  cases ht.symm.trans ht0
  have hleaf := hM.mapTo_leaves hv hmap
  refine ⟨t', f, get?_insert_self .., ?_, fun level => ?_⟩
  · cases ok with
    | false =>
      rw [hleaf, hl]
    | true =>
      rw [hleaf.2, get?_insert, if_neg, hl]
      rintro rfl
      rw [hl] at hleaf
      cases hleaf.1
  · have hle := hP.mapTo_adds hv hmap level w
    exact ⟨(hpath level).1.mono hle, fun hw => hle.writable ((hpath level).2 hw)⟩

theorem unmapAndRelease_pathsOpen (ho : PathsOpen P pml4 m) (h : m.unmapAndReleaseUserPage M pml4 v = some m') :
    PathsOpen P pml4 m' := by
  obtain ⟨t, ht, ⟨-, rfl⟩ | ⟨_, t', hun, rfl⟩⟩ := unmapAndRelease_cases h
  · exact ho
  refine PathsOpen.of_spaces (m := { m with spaces := m.spaces.insert pml4 t' }) ?_ (releaseFrame_spaces _ _)
  intro u hu w e hw he level
  rw [get?_insert_self] at hu
  cases hu
  obtain ⟨-, hleaf, -⟩ := hM.unmap_leaf hv hun
  rw [hP.unmap_path hv hun]
  exact ho t ht w e hw (get?_of_remove (hleaf ▸ he)).2 level

theorem updateFlags_pathsOpen (ho : PathsOpen P pml4 m) (h : m.updateUserPageFlags M pml4 v fl = some m') :
    PathsOpen P pml4 m' := by
  obtain ⟨t, ht, rfl⟩ := updateFlags_cases h
  intro u hu w e hw he level
  rw [get?_insert_self] at hu
  cases hu
  rw [(hM.updateFlags_leaf hv).1, get?_alter] at he
  rw [hP.updateFlags_path hv]
  split at he
  · obtain ⟨e0, he0, -⟩ := of_map he
    exact ho t ht w e0 hw he0 level
  · exact ho t ht w e hw he level

omit hv

/-! ## The pages of a new area -/

omit hP in
omit hM in
theorem protToPageFlags_user (prot : BitVec 32) : (protToPageFlags prot).user = true := by
  unfold protToPageFlags
  split <;> rfl

theorem PageSource.sets {base n : Nat} {mapPages : Nat → Mem τ → Option (Bool × Mem τ)}
    {shared : Bool} (hs : PageSource (services M) fds pml4 fl n shared mapPages) (hu : fl.user = true)
    (hend : base + n * PAGE_SIZE ≤ USER_END) (ho : PathsOpen P pml4 m) (h : mapPages base m = some (ok, m')) :
    PathsOpen P pml4 m' ∧ (ok = true → ∀ i < n, PageSet P pml4 fl (base + i * PAGE_SIZE) m') := by
  -- mapping page `j` sets it and keeps those before
  have hnext : ∀ j < n, ∀ m m' frame, (PathsOpen P pml4 m ∧ ∀ i < j, PageSet P pml4 fl (base + i * PAGE_SIZE) m) →
      m.mapUserPage M pml4 (base + j * PAGE_SIZE) frame fl = some (true, m') →
      PathsOpen P pml4 m' ∧ ∀ i < j + 1, PageSet P pml4 fl (base + i * PAGE_SIZE) m' := by
    intro j hj m m' frame hI hmap
    have hv := page_lt_userEnd hend hj
    refine ⟨mapUserPage_pathsOpen hM hP hv hu hI.1 hmap, fun i hi => ?_⟩
    rcases Nat.lt_succ_iff_lt_or_eq.mp hi with hi | rfl
    · exact mapUserPage_keeps_pageSet hM hP hv (hI.2 i hi) hmap
    · exact mapUserPage_pageSet hM hP hv hu hmap
  have hinv := hs.inv_spaces (fun j m => PathsOpen P pml4 m ∧ ∀ i < j, PageSet P pml4 fl (base + i * PAGE_SIZE) m)
    (PathsOpen P pml4) ?_ (fun _ _ _ hI => hI.1) ?_ ⟨ho, fun i hi => nomatch hi⟩ h
  · cases ok with
    | true => exact ⟨hinv.1, fun _ => hinv.2⟩
    | false => exact ⟨hinv, fun he => nomatch he⟩
  · intro j m m' hI hsp
    exact ⟨hI.1.of_spaces hsp, fun i hi => (hI.2 i hi).of_spaces hsp⟩
  · intro j hj m m' frame ok hI hmap
    cases ok with
    | true => exact hnext j hj m m' frame hI hmap
    | false => exact mapUserPage_pathsOpen hM hP (page_lt_userEnd hend hj) hu hI.1 hmap

/-! ## Runs -/

/-- Processes without areas whose pages, if they have any, are below open entries. -/
def rightsMachine (P : Parents M) : Machine (Proc × Mem τ) Ev where
  start := fun s => s.1.vmaMap = .empty ∧ PathsOpen P s.1.pml4 s.2
  step := fun s e => (call (Mem.services M) s.1 s.2 e).map (·.2)

/-- An `mprotect` for writing finds the entries above its pages writable. -/
def ParentsWritable (P : Parents M) (s : Proc × Mem τ) : Ev → Prop
  | .mprotect addr length prot => BitVec.ofNat 32 prot &&& PROT_WRITE ≠ 0 → ∀ v, CoveredPage s.1 addr length v →
      ∀ t, s.2.spaces.get? s.1.pml4 = some t → ∀ level, (P.parent t level v).writable = true
  | _ => True

/-- After a call that sets `prot`, the pages it was for have exactly the rights asked for. -/
def SetsProt (P : Parents M) (s : Proc × Mem τ) (e : Ev) (r : Int) (s' : Proc × Mem τ) : Prop :=
  match e with
  | .mmap _ _ length prot _ _ _ => 0 ≤ r → ∀ v, PAGE_SIZE ∣ v → r.toNat ≤ v → v < r.toNat + length →
      rightsAt P s'.2 s'.1.pml4 v = some (rightsOf (BitVec.ofNat 32 prot))
  | .mprotect addr length prot => 0 ≤ r → ∀ v, CoveredPage s.1 addr length v →
      rightsAt P s'.2 s'.1.pml4 v = some (rightsOf (BitVec.ofNat 32 prot))
  | _ => True

structure RightsInv (P : Parents M) (s : Proc × Mem τ) : Prop where
  vmas : VmasOk s.1
  backed : Backed M s.1 s.2
  paths : PathsOpen P s.1.pml4 s.2

variable {p p' : Proc} {r : Int} {addr length prot : Nat}

theorem sysMunmap_pathsOpen (hp : VmasOk p) (ho : PathsOpen P p.pml4 m) (hend : addr + length ≤ USER_END)
    (h : sysMunmap (services M) p m addr length = some (r, p', m')) : PathsOpen P p.pml4 m' := by
  exact sysMunmap_keeps hp hend ho (fun v m1 m2 _ hv ho hb => unmapAndRelease_pathsOpen hM hP hv ho hb) h

theorem sysMmap_sets {flags a5 r9 : Nat} (hi : RightsInv P (p, m))
    (hend : OnUserHalf (.mmap fds addr length prot flags a5 r9))
    (h : sysMmap (services M) fds p m addr length prot flags a5 r9 = some (r, p', m')) :
    PathsOpen P p.pml4 m' ∧ SetsProt P (p, m) (.mmap fds addr length prot flags a5 r9) r (p', m') := by
  have hpml4 := (sysMmap_backed hM hi.vmas hi.backed hend h).1
  rcases sysMmap_placed hi.vmas hend h with ⟨hr, rfl, rfl, -⟩ | ⟨_, _, m1, vma, mapPages, ok, hpl, hmap, hres⟩
  · exact ⟨hi.paths, fun h0 => absurd h0 (Int.not_le.mpr hr)⟩
  have ho1 : PathsOpen P p.pml4 m1 := by
    rcases hpl.before with ⟨hf, -, hun⟩ | ⟨-, -, -, rfl⟩
    · exact sysMunmap_pathsOpen hM hP hi.vmas hi.paths (hend hf) hun
    · exact hi.paths
  obtain ⟨hopen, hset⟩ := hpl.source.sets hM hP (protToPageFlags_user _) hpl.stop ho1 hmap
  refine ⟨hopen, fun h0 v hv h1 h2 => ?_⟩
  cases ok with
  | false =>
    rw [hres.1] at h0
    exact absurd h0 (by decide)
  | true =>
    obtain ⟨rfl, -⟩ := hres
    obtain ⟨i, hi, rfl⟩ := page_of_range hpl.aligned hv h1 h2
    show rightsAt P m' p'.pml4 _ = _
    rw [hpml4]
    exact (hset rfl i hi).rightsAt

theorem sysMprotect_parents (hp : VmasOk p) (ho : PathsOpen P p.pml4 m)
    (hend : addr + length ≤ USER_END) (h : sysMprotect (services M) p m addr length prot = some (r, p', m')) :
    PathsOpen P p.pml4 m' ∧
      ∀ t, m.spaces.get? p.pml4 = some t → ∃ t', m'.spaces.get? p.pml4 = some t' ∧ P.parent t' = P.parent t := by
  refine ⟨sysMprotect_keeps hp hend ho (fun v m1 m2 _ hv ho hb => updateFlags_pathsOpen hM hP hv ho hb) h,
    fun t ht => ?_⟩
  refine sysMprotect_keeps (I := fun m1 => ∃ t', m1.spaces.get? p.pml4 = some t' ∧ P.parent t' = P.parent t) hp hend
    ⟨t, ht, rfl⟩ (fun v m1 m2 _ hv hs hb => ?_) h
  obtain ⟨_, ht1, rfl⟩ := updateFlags_cases hb
  obtain ⟨_, ht2, hpar⟩ := hs
  cases ht1.symm.trans ht2
  exact ⟨_, get?_insert_self .., (hP.updateFlags_path hv).trans hpar⟩

omit hP in
omit hM in
theorem rightsAt_eq_some {rights : Rights} : rightsAt P m pml4 v = some rights ↔
    ∃ t e, m.spaces.get? pml4 = some t ∧ (M.leaves t).get? v = some e ∧ effective (e.2 :: parents P t v) = rights := by
  simp only [rightsAt, Option.bind_eq_bind, Option.bind_eq_some_iff, Option.pure_def, Option.some.injEq,
    exists_and_left]

omit hP in
omit hM in
theorem writable_of_effective {x : PtFlags} (h : (effective (x :: parents P t v)).write = true) (level : Fin 3) :
    (P.parent t level v).writable = true := by
  simp only [effective, parents, all_cons, all_nil, Bool.and_eq_true] at h
  match level with
  | 0 => exact h.2.1.2
  | 1 => exact h.2.2.1.2
  | 2 => exact h.2.2.2.1.2

/-- `mprotect` gives exactly the rights asked for exactly when the entries above allow it. -/
theorem sysMprotect_sets (hi : RightsInv P (p, m)) (hend : addr + length ≤ USER_END)
    (h : sysMprotect (services M) p m addr length prot = some (r, p', m')) :
    SetsProt P (p, m) (.mprotect addr length prot) r (p', m') ↔
      (0 ≤ r → ParentsWritable P (p, m) (.mprotect addr length prot)) := by
  obtain ⟨hopen, hparents⟩ := sysMprotect_parents hM hP hi.vmas hi.paths hend h
  rcases sysMprotect_pages hM hi.vmas hend h with ⟨hr, -⟩ | ⟨-, hpml4, -, hset, -⟩
  · exact iff_of_true (fun h0 => absurd h0 (Int.not_le.mpr hr)) fun h0 => absurd h0 (Int.not_le.mpr hr)
  refine forall_congr' fun _ => ⟨fun hall hwr v hv t ht level => ?_, fun hw v hv => ?_⟩
  · obtain ⟨t', ht', hpar⟩ := hparents t ht
    obtain ⟨_, e, ht1, -, heff⟩ := rightsAt_eq_some.mp (hall v hv)
    rw [show (p', m').1.pml4 = p.pml4 from hpml4] at ht1
    cases ht'.symm.trans ht1
    have hwrite : (effective (e.2 :: parents P t' v)).write = true := by
      rw [heff]
      exact decide_eq_true hwr
    rw [← hpar]
    exact writable_of_effective hwrite level
  · have huser : v < USER_END := lt_of_lt_of_le hv.2.2.1 hend
    obtain ⟨e, he⟩ := isSome_iff_exists.mp (hi.backed v hv.1 huser hv.2.2.2)
    obtain ⟨t, ht, -⟩ := of_bind he
    obtain ⟨t', ht', hpar⟩ := hparents t ht
    have he' : (M.leaves t').get? v = some (e.1, protToPageFlags (BitVec.ofNat 32 prot)) := by
      rw [← leafAt_eq ht' v, hset v hv]
      exact congrArg _ he
    refine rightsAt_eq_some.mpr ⟨t', _, hpml4 ▸ ht', he', ?_⟩
    refine effective_eq (forall_parents P fun level => hopen t' ht' v _ huser he' level) fun hwr =>
      forall_parents P fun level => ?_
    rw [hpar]
    exact hw hwr v hv t ht level

theorem call_rightsInv {s s' : Proc × Mem τ} {e : Ev} (hi : RightsInv P s)
    (hg : OnUserHalf e) (h : call (services M) s.1 s.2 e = some (r, s')) : RightsInv P s' := by
  obtain ⟨hvmas, hpml4, hbacked⟩ := call_backed hM hi.vmas hi.backed hg h
  refine ⟨hvmas, hbacked, ?_⟩
  rw [hpml4]
  cases e with
  | brk addr => exact hg.elim
  | mmap fds addr length prot flags a5 r9 => exact (sysMmap_sets hM hP hi hg h).1
  | munmap addr length => exact sysMunmap_pathsOpen hM hP hi.vmas hi.paths hg h
  | mprotect addr length prot => exact (sysMprotect_parents hM hP hi.vmas hi.paths hg h).1

omit hP

omit hM

/-- In every state reached by calls on user-half ranges, a call that sets `prot` leaves its
    pages with exactly the rights asked for, except exactly an `mprotect` for writing of a
    page below an entry that forbids it. -/
theorem effective_rights (hM : M.Lawful) (hP : P.Lawful) {s s' : Proc × Mem τ} {e : Ev}
    (hs : (rightsMachine P).Reach (fun _ e => OnUserHalf e) s) (he : OnUserHalf e)
    (h : call (services M) s.1 s.2 e = some (r, s')) : SetsProt P s e r s' ↔ (0 ≤ r → ParentsWritable P s e) := by
  have hi : RightsInv P s := by
    refine Machine.Reach.inv (I := RightsInv P) ?_ (fun s e s' hi hg hs => ?_) hs
    · rintro _ ⟨hempty, hopen⟩
      exact ⟨empty_vmasOk hempty, empty_backed hempty, hopen⟩
    · obtain ⟨⟨_, _⟩, hc, rfl⟩ := of_map hs
      exact call_rightsInv hM hP hi hg hc
  cases e with
  | brk addr => exact he.elim
  | mmap fds addr length prot flags a5 r9 => exact iff_of_true (sysMmap_sets hM hP hi he h).2 fun _ => trivial
  | munmap addr length => exact iff_of_true trivial fun _ => trivial
  | mprotect addr length prot => exact sysMprotect_sets hM hP hi he h

end

/-! ## A mapper with flags at every level -/

/-- `entry.flags() | insert_flags`, where the flags to insert are the leaf's PRESENT, WRITABLE
    and USER_ACCESSIBLE. -/
def PtFlags.grant (x leaf : PtFlags) : PtFlags :=
  ⟨x.present || leaf.present, x.writable || leaf.writable, x.user || leaf.user, x.noExecute⟩

/-- Page tables with the flags of the entries that lead to each table; the flags of an entry
    that is zero are all clear. -/
structure FlagTree where
  tree : Tree
  flags : Fin 3 → Nat → PtFlags
  present : ∀ level k f, (k, f) ∈ tree.1.level level → (flags level k).present = true
  exec : ∀ level k, (flags level k).noExecute = false

namespace FlagTree

/-- The flags after a `map_to` that left the tables `t`: those of the entries it went through
    have the leaf's bits too. -/
def granted (flags : Fin 3 → Nat → PtFlags) (t : Tables) (v : Nat) (fl : PtFlags) (level : Fin 3) (k : Nat) : PtFlags :=
  if k = Tables.key v level ∧ ((t.level level).get? k).isSome then (flags level k).grant fl else flags level k

theorem granted_le (flags : Fin 3 → Nat → PtFlags) (t : Tables) (v : Nat) (fl : PtFlags) (level : Fin 3) (k : Nat) :
    (flags level k).Le (granted flags t v fl level k) := by
  unfold granted
  split
  · exact ⟨fun h => by simp [PtFlags.grant, h], fun h => by simp [PtFlags.grant, h],
      fun h => by simp [PtFlags.grant, h], id⟩
  · exact ⟨id, id, id, id⟩

theorem mapTo_present {t : FlagTree} {t' : Tree} {a a' : Frames} {v f : Nat} {fl : PtFlags} {ok : Bool}
    (h : t.tree.mapTo a v f fl = some (ok, t', a')) (level : Fin 3) (k g : Nat) (hk : (k, g) ∈ t'.1.level level) :
    (granted t.flags t'.1 v fl level k).present = true := by
  rcases (Tables.mapTo_level (Tree.mapTo_eq_some h) level).2.2 _ hk with hold | ⟨hkey, hpresent⟩
  · exact (granted_le ..).present (t.present level k g hold)
  · rw [granted, if_pos ⟨hkey, by rw [get?_eq_some.mpr hk]; rfl⟩]
    simp [PtFlags.grant, hpresent]

def mapTo (t : FlagTree) (a : Frames) (v f : Nat) (fl : PtFlags) : Option (Bool × FlagTree × Frames) :=
  match h : t.tree.mapTo a v f fl with
  | some (ok, t', a') => some (ok, ⟨t', granted t.flags t'.1 v fl, mapTo_present h, fun level k =>
      (granted_le ..).exec (t.exec level k)⟩, a')
  | none => none

theorem unmap_level {t t' : Tree} {v f : Nat} (h : t.unmap v = some (f, t')) : t'.1.level = t.1.level := by
  rw [(Tree.unmap_eq_some h).2]
  rfl

def unmap (t : FlagTree) (v : Nat) : Option (Nat × FlagTree) :=
  match h : t.tree.unmap v with
  | some (f, t') => some (f, ⟨t', t.flags, fun level k g hk =>
      t.present level k g (unmap_level h ▸ hk), t.exec⟩)
  | none => none

def updateFlags (t : FlagTree) (v : Nat) (fl : PtFlags) : FlagTree :=
  ⟨t.tree.updateFlags v fl, t.flags, t.present, t.exec⟩

def fresh : FlagTree :=
  ⟨Tree.fresh, fun _ _ => ⟨false, false, false, false⟩, fun level k f h => by
    match level with
    | 0 | 1 | 2 => exact absurd h (OrdMap.not_mem_empty _), fun _ _ => rfl⟩

def mapper : Mapper FlagTree where
  fresh := fresh
  leaves t := t.tree.1.leaves
  tables t := t.tree.1.frames
  mapTo := mapTo
  unmap := unmap
  updateFlags := updateFlags
  walk t := t.tree.1.walk

def parents : Parents mapper where
  parent t level v := t.flags level (Tables.key v level)

theorem mapTo_eq_some {t t' : FlagTree} {a a' : Frames} {v f : Nat} {fl : PtFlags} {ok : Bool}
    (h : t.mapTo a v f fl = some (ok, t', a')) :
    t.tree.mapTo a v f fl = some (ok, t'.tree, a') ∧ t'.flags = granted t.flags t'.tree.1 v fl := by
  unfold mapTo at h
  split at h
  · rename_i h1
    cases h
    exact ⟨h1, rfl⟩
  · cases h

theorem unmap_eq_some {t t' : FlagTree} {v f : Nat} (h : t.unmap v = some (f, t')) :
    t.tree.unmap v = some (f, t'.tree) ∧ t'.flags = t.flags := by
  unfold unmap at h
  split at h
  · rename_i h1
    cases h
    exact ⟨h1, rfl⟩
  · cases h

theorem mapper_lawful : mapper.Lawful where
  fresh_leaves := rfl
  fresh_tables := rfl
  mapTo_tables hv h := Tree.mapper_lawful.mapTo_tables hv (mapTo_eq_some h).1
  mapTo_leaves hv h := Tree.mapper_lawful.mapTo_leaves hv (mapTo_eq_some h).1
  unmap_leaf hv h := Tree.mapper_lawful.unmap_leaf hv (unmap_eq_some h).1
  updateFlags_leaf _ := ⟨rfl, rfl⟩
  walk_perm t := Tree.mapper_lawful.walk_perm t.tree

theorem parents_lawful : parents.Lawful where
  mapTo_adds := by
    intro t t' a a' v f fl ok _ h level w
    obtain ⟨-, hflags⟩ := mapTo_eq_some h
    show (t.flags level _).Le (t'.flags level _)
    rw [hflags]
    exact granted_le ..
  mapTo_path := by
    intro t t' a a' v f fl _ hu h level
    obtain ⟨htree, hflags⟩ := mapTo_eq_some h
    obtain ⟨g, hg⟩ := (Tables.mapTo_level (Tree.mapTo_eq_some htree) level).1 rfl
    have hgrant : t'.flags level (Tables.key v level) = (t.flags level (Tables.key v level)).grant fl := by
      rw [hflags, granted, if_pos ⟨rfl, by rw [get?_eq_some.mpr hg]; rfl⟩]
    show (t'.flags level _).Open ∧ (_ → (t'.flags level _).writable = true)
    refine ⟨⟨t'.present level _ g hg, ?_, t'.exec level _⟩, fun hw => ?_⟩
    · rw [hgrant]
      simp [PtFlags.grant, hu]
    · rw [hgrant]
      simp [PtFlags.grant, hw]
  unmap_path := by
    intro t t' v f _ h
    obtain ⟨-, hflags⟩ := unmap_eq_some h
    show (fun level w => t'.flags level _) = fun level w => t.flags level _
    rw [hflags]
  updateFlags_path := by
    intro t v fl _
    rfl

/-- A process with an address space of its own and nothing mapped. -/
def blank : Proc × Mem FlagTree :=
  (⟨0x1000, 0, 0, .empty⟩, ⟨⟨[0x2000, 0x3000, 0x4000, 0x5000, 0x6000], 0, []⟩, .empty,
    OrdMap.empty.insert 0x1000 fresh⟩)

theorem blank_start : (rightsMachine parents).start blank := by
  refine ⟨rfl, fun t ht v e _ he => ?_⟩
  obtain rfl : fresh = t := some.inj ht
  cases he

/-- One anonymous private page at 0x400000. -/
def mmapPage (prot : Nat) : Ev := .mmap (fun _ => .absent) 0x400000 0x1000 prot 0x32 0 0

theorem mmapPage_onUserHalf (prot : Nat) : OnUserHalf (mmapPage prot) := fun _ => by decide

end FlagTree

/-- A page mapped readable and writable is both. -/
theorem effective_rights_of_a_page : ∃ s', call (services FlagTree.mapper) FlagTree.blank.1 FlagTree.blank.2
    (FlagTree.mmapPage 3) = some (0x400000, s') ∧
      SetsProt FlagTree.parents FlagTree.blank (FlagTree.mmapPage 3) 0x400000 s' := by
  obtain ⟨⟨_, s'⟩, hx, hr⟩ : ∃ x, call (services FlagTree.mapper) FlagTree.blank.1 FlagTree.blank.2
      (FlagTree.mmapPage 3) = some x ∧ x.1 = 0x400000 := by decide
  cases hr
  exact ⟨s', hx, (effective_rights FlagTree.mapper_lawful FlagTree.parents_lawful (.start FlagTree.blank_start)
    (FlagTree.mmapPage_onUserHalf 3) hx).mpr fun _ => trivial⟩

/-- A page mapped read-only in a region of its own, then made writable: the `mprotect`
    answers 0, and the page is not writable. -/
theorem mprotect_leaves_parents_read_only : ∃ s s',
    (rightsMachine FlagTree.parents).Reach (fun _ e => OnUserHalf e) s ∧
      call (services FlagTree.mapper) s.1 s.2 (.mprotect 0x400000 0x1000 3) = some (0, s') ∧
      (attrAt s'.1.vmaMap 0x400000).map (·.prot) = some 3 ∧
      rightsAt FlagTree.parents s'.2 s'.1.pml4 0x400000 = some ⟨true, false, false⟩ := by
  obtain ⟨s, hs, ⟨_, s'⟩, hcall, hr, hrights⟩ :
      ∃ s, (rightsMachine FlagTree.parents).step FlagTree.blank (FlagTree.mmapPage 1) = some s ∧
      ∃ x, call (services FlagTree.mapper) s.1 s.2 (.mprotect 0x400000 0x1000 3) = some x ∧ x.1 = 0 ∧
        (attrAt x.2.1.vmaMap 0x400000).map (·.prot) = some 3 ∧
        rightsAt FlagTree.parents x.2.2 x.2.1.pml4 0x400000 = some ⟨true, false, false⟩ := by decide
  cases hr
  exact ⟨s, s', .step _ (.start FlagTree.blank_start) (FlagTree.mmapPage_onUserHalf 1) hs, hcall, hrights⟩

end Ostoo.Memory
