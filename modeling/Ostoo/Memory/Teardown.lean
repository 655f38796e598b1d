/-
  Ostoo.Memory.Teardown — `cleanup_user_address_space` on the page tables as they lie in
  memory (`memory/mod.rs`).

  The four nested loops read a table's entries one by one and free what hangs below an
  entry before they read the next. A freed frame's first word becomes the link of the free
  list, so the walk destroys the tables it walks over. It still meets what the tables said
  before it began (`runs_cleanup`), because it reads no frame that it has freed: a table is
  freed after its last entry was read, no two entries lead to one table, and no leaf frame
  is a table.

  Proved of every tree that `create_user_page_table` and any calls on user-half pages built
  (`Built`), however its words lie in memory (`Holds`): `each_frame_freed_once`.
-/

import Mathlib.Data.List.Perm.Basic
import Ostoo.Lib.Machine
import Ostoo.Memory.Ledger

namespace Ostoo.Memory

open Ostoo.Lib List Mem OrdMap

/-- Physical memory as the words of each frame. -/
abbrev Words := Nat → Nat → BitVec 64

/-- `PageTableEntry::addr` -/
def entryAddr (w : BitVec 64) : Nat := (w &&& 0x000ffffffffff000#64).toNat

/-- `flags().contains(HUGE_PAGE)` -/
def isHuge (w : BitVec 64) : Bool := w.getLsbD 7

/-- `MemoryServices` with the memory it manages, and what it was asked for. -/
structure Phys (τ : Type) where
  mem : Mem τ
  words : Words
  /-- The frames given to `deallocate_frame`. -/
  freed : List Nat
  /-- The frames given to `ref_release`. -/
  released : List Nat

namespace Phys

variable {τ : Type}

/-- The frame goes to the front of the free list, whose links are in the frames' first words. -/
def deallocateFrame (p : Phys τ) (f : Nat) : Phys τ where
  mem := p.mem.deallocate f
  words g i := if g = f ∧ i = 0 then BitVec.ofNat 64 (p.mem.frames.freeList.headD 0) else p.words g i
  freed := p.freed ++ [f]
  released := p.released

def refRelease (p : Phys τ) (f : Nat) : Bool × Phys τ :=
  let (last, mem) := p.mem.refRelease f
  (last, { p with mem := mem, released := p.released ++ [f] })

/-- The body of the innermost loop. -/
def releaseLeaf (p : Phys τ) (f : Nat) : Phys τ :=
  let (last, p) := p.refRelease f
  if last then p.deallocateFrame f else p

/-- What is done with a frame that the walk meets. -/
def free (p : Phys τ) : Met → Phys τ
  | .leaf f => p.releaseLeaf f
  | .table f => p.deallocateFrame f

end Phys

/-- A walk under way, with the table entries it has read. -/
structure Walk (τ : Type) where
  phys : Phys τ
  reads : List (Nat × Nat)

namespace Walk

variable {τ : Type}

def deallocateFrame (s : Walk τ) (f : Nat) : Walk τ := { s with phys := s.phys.deallocateFrame f }

def releaseLeaf (s : Walk τ) (f : Nat) : Walk τ := { s with phys := s.phys.releaseLeaf f }

/-- `for idx in 0..n` over the entries of the table `t`: each is read when its turn comes. -/
def forEntries (n t : Nat) (body : BitVec 64 → Walk τ → Walk τ) (s : Walk τ) : Walk τ :=
  (List.range n).foldl (fun s i => body (s.phys.words t i) { s with reads := s.reads ++ [(t, i)] }) s

theorem forEntries_succ (n t : Nat) (body : BitVec 64 → Walk τ → Walk τ) (s : Walk τ) :
    forEntries (n + 1) t body s = body ((forEntries n t body s).phys.words t n)
      { forEntries n t body s with reads := (forEntries n t body s).reads ++ [(t, n)] } := by
  rw [forEntries, List.range_succ, List.foldl_append]
  rfl

def ptLoop (pt : Nat) : Walk τ → Walk τ :=
  forEntries 512 pt fun p1e s => if p1e = 0 then s else s.releaseLeaf (entryAddr p1e)

def pdLoop (pd : Nat) : Walk τ → Walk τ :=
  forEntries 512 pd fun p2e s =>
    if p2e = 0 then s else if isHuge p2e then s else
    let pt := entryAddr p2e
    (ptLoop pt s).deallocateFrame pt

def pdptLoop (pdpt : Nat) : Walk τ → Walk τ :=
  forEntries 512 pdpt fun p3e s =>
    if p3e = 0 then s else if isHuge p3e then s else
    let pd := entryAddr p3e
    (pdLoop pd s).deallocateFrame pd

/-- The user half is entries 0 to 255; there is no check for a huge page at this level. -/
def cleanupUserAddressSpace (s : Walk τ) (pml4 : Nat) : Walk τ :=
  let s := forEntries 256 pml4 (fun p4e s =>
    if p4e = 0 then s else
    let pdpt := entryAddr p4e
    (pdptLoop pdpt s).deallocateFrame pdpt) s
  s.deallocateFrame pml4

end Walk

/-! ## What the tables say

  The frames below an entry, children first, as the memory has them when nothing is freed. -/

namespace Met

def leafFrame? : Met → Option Nat
  | .leaf f => some f
  | .table _ => none

def tableFrame? : Met → Option Nat
  | .leaf _ => none
  | .table f => some f

def leaves (l : List Met) : List Nat := l.filterMap leafFrame?

def tables (l : List Met) : List Nat := l.filterMap tableFrame?

variable {l l' : List Met} {f : Nat}

theorem mem_tables : f ∈ tables l ↔ .table f ∈ l := by
  refine mem_filterMap.trans ⟨?_, fun h => ⟨_, h, rfl⟩⟩
  rintro ⟨_ | _, hx, ⟨⟩⟩
  exact hx

theorem mem_leaves : f ∈ leaves l ↔ .leaf f ∈ l := by
  refine mem_filterMap.trans ⟨?_, fun h => ⟨_, h, rfl⟩⟩
  rintro ⟨_ | _, hx, ⟨⟩⟩
  exact hx

/-- Each table is met once, and is not the frame of a leaf. -/
structure Separate (l : List Met) : Prop where
  nodup : (tables l).Nodup
  apart : ∀ f, .leaf f ∈ l → .table f ∉ l

theorem Separate.sublist (h : Separate l) (hs : l'.Sublist l) : Separate l' where
  nodup := h.nodup.sublist (hs.filterMap _)
  apart f hl ht := h.apart f (hs.subset hl) (hs.subset ht)

theorem Separate.later (h : Separate (l ++ l')) {x : Met} (hx : x ∈ l) (hf : .table f ∈ l') : metFrame x ≠ f := by
  rintro rfl
  cases x with
  | leaf g => exact h.apart g (mem_append_left _ hx) (mem_append_right _ hf)
  | table g =>
    have hn := h.nodup
    rw [tables, filterMap_append] at hn
    exact (nodup_append.mp hn).2.2 g (mem_tables.mpr hx) g (mem_tables.mpr hf) rfl

end Met

section Plans

variable (words : Words)

/-- What the entries 0 to `n` of the table `t` lead to. -/
def entriesPlan (n t : Nat) (plan : BitVec 64 → List Met) : List Met := (List.range n).flatMap fun i => plan (words t i)

def leafPlan (w : BitVec 64) : List Met := if w = 0 then [] else [.leaf (entryAddr w)]

def ptPlan (w : BitVec 64) : List Met :=
  if w = 0 then [] else if isHuge w then [] else entriesPlan words 512 (entryAddr w) leafPlan ++ [.table (entryAddr w)]

def pdPlan (w : BitVec 64) : List Met :=
  if w = 0 then [] else if isHuge w then [] else
  entriesPlan words 512 (entryAddr w) (ptPlan words) ++ [.table (entryAddr w)]

def pdptPlan (w : BitVec 64) : List Met :=
  if w = 0 then [] else entriesPlan words 512 (entryAddr w) (pdPlan words) ++ [.table (entryAddr w)]

def userPlan (pml4 : Nat) : List Met := entriesPlan words 256 pml4 (pdptPlan words) ++ [.table pml4]

theorem entriesPlan_succ (n t : Nat) (plan : BitVec 64 → List Met) :
    entriesPlan words (n + 1) t plan = entriesPlan words n t plan ++ plan (words t n) := by
  simp [entriesPlan, range_succ, flatMap_append]

variable {words}

variable {plan : BitVec 64 → List Met}

theorem plan_sublist {n t i : Nat} (hi : i < n) : (plan (words t i)).Sublist (entriesPlan words n t plan) :=
  sublist_flatten_of_mem (mem_map.mpr ⟨i, mem_range.mpr hi, rfl⟩)

end Plans

/-! ## The walk meets what the tables said -/

section Runs

variable {τ : Type}

variable {g : Nat} {w : BitVec 64}

/-- What is written is the first word of the frame met, which is freed then. -/
theorem Phys.free_words (p : Phys τ) (x : Met) :
    (p.free x).words g = p.words g ∨ metFrame x = g ∧ g ∈ (p.free x).freed := by
  have hdealloc : ∀ (p : Phys τ) f, (p.deallocateFrame f).words g = p.words g ∨ f = g ∧
      g ∈ (p.deallocateFrame f).freed := by
    intro p f
    by_cases he : f = g
    · exact .inr ⟨he, he ▸ mem_append_right _ (mem_singleton_self _)⟩
    · exact .inl (funext fun i => if_neg fun h => he h.1.symm)
  cases x with
  | table f => exact hdealloc p f
  | leaf f =>
    unfold free releaseLeaf refRelease
    dsimp only
    split
    · exact hdealloc { p with mem := _, released := _ } f
    · exact .inl rfl

theorem Phys.freeAll_words (l : List Met) : ∀ p : Phys τ, (∀ x ∈ l, metFrame x ≠ g) →
    (l.foldl free p).words g = p.words g := by
  induction l with
  | nil => exact fun _ _ => rfl
  | cons x l ih =>
    intro p h
    rw [foldl_cons, ih _ fun y hy => h y (.tail _ hy), (p.free_words x).resolve_right fun hw => h x mem_cons_self hw.1]

/-- Where the tables of `l` are still as in `words`, the code frees what `l` lists, in its
    order, and reads only entries that `ok` allows. -/
def Runs (words : Words) (ok : Nat × Nat → Prop) (code : Walk τ → Walk τ) (l : List Met) : Prop :=
  ∀ s : Walk τ, (∀ g, .table g ∈ l → s.phys.words g = words g) →
    (code s).phys = l.foldl Phys.free s.phys ∧ ∀ x ∈ (code s).reads, x ∈ s.reads ∨ ok x

variable {words : Words} {ok : Nat × Nat → Prop} {body : BitVec 64 → Walk τ → Walk τ}

theorem Runs.skip : Runs words ok (id : Walk τ → Walk τ) [] := fun _ _ => ⟨rfl, fun _ hx => .inl hx⟩

theorem Runs.leaf (f : Nat) : Runs words ok (fun s : Walk τ => s.releaseLeaf f) [.leaf f] :=
  fun _ _ => ⟨rfl, fun _ hx => .inl hx⟩

theorem Runs.loop {t : Nat} {n : Nat}
    (hbody : ∀ i < n, Runs words ok (body (words t i)) (plan (words t i))) (hok : ∀ i < n, ok (t, i))
    (hsep : Met.Separate (entriesPlan words n t plan)) (ht : ∀ x ∈ entriesPlan words n t plan, metFrame x ≠ t)
    {s : Walk τ} (hst : s.phys.words t = words t)
    (hs : ∀ g, .table g ∈ entriesPlan words n t plan → s.phys.words g = words g) :
    (Walk.forEntries n t body s).phys = (entriesPlan words n t plan).foldl Phys.free s.phys ∧
      ∀ x ∈ (Walk.forEntries n t body s).reads, x ∈ s.reads ∨ ok x := by
  induction n with
  | zero => exact ⟨rfl, fun x hx => .inl hx⟩
  | succ n ih =>
    rw [entriesPlan_succ] at hsep ht hs ⊢
    obtain ⟨hphys, hreads⟩ := ih (fun i hi => hbody i (by omega)) (fun i hi => hok i (by omega))
      (hsep.sublist (sublist_append_left ..)) (fun x hx => ht x (mem_append_left _ hx))
      (fun g hg => hs g (mem_append_left _ hg))
    have hstep := Walk.forEntries_succ n t body s
    -- the table itself is as it was, and so is everything below the entry read now
    have hentry : (Walk.forEntries n t body s).phys.words t n = words t n := by
      rw [hphys, Phys.freeAll_words _ _ fun x hx => ht x (mem_append_left _ hx), hst]
    have hbelow : ∀ g, .table g ∈ plan (words t n) → (Walk.forEntries n t body s).phys.words g = words g := by
      intro g hg
      rw [hphys, Phys.freeAll_words _ _ fun x hx => hsep.later hx hg]
      exact hs g (mem_append_right _ hg)
    rw [hentry] at hstep
    obtain ⟨hphys', hreads'⟩ := hbody n (by omega)
      { Walk.forEntries n t body s with reads := (Walk.forEntries n t body s).reads ++ [(t, n)] } hbelow
    rw [hstep]
    refine ⟨?_, ?_⟩
    · rw [hphys', foldl_append, ← hphys]
    · intro x hx
      rcases hreads' x hx with hx | hx
      · rcases mem_append.mp hx with hx | hx
        · exact hreads x hx
        · rw [mem_singleton.mp hx]
          exact .inr (hok n (by omega))
      · exact .inr hx

theorem Runs.table {t : Nat} {n : Nat}
    (hsep : Met.Separate (entriesPlan words n t plan ++ [.table t])) (hok : ∀ i < n, ok (t, i))
    (hbody : ∀ i < n, (plan (words t i)).Sublist (entriesPlan words n t plan ++ [.table t]) →
      Runs words ok (body (words t i)) (plan (words t i))) :
    Runs words ok (fun s => (Walk.forEntries n t body s).deallocateFrame t)
      (entriesPlan words n t plan ++ [.table t]) := by
  intro s hs
  have hsep' := hsep.sublist (sublist_append_left ..)
  have ht : ∀ x ∈ entriesPlan words n t plan, metFrame x ≠ t :=
    fun x hx => hsep.later hx (mem_singleton_self _)
  obtain ⟨hphys, hreads⟩ := Runs.loop
    (fun i hi => hbody i hi ((plan_sublist hi).trans (sublist_append_left ..))) hok hsep' ht
    (hs t (mem_append_right _ (mem_singleton_self _))) fun g hg => hs g (mem_append_left _ hg)
  refine ⟨?_, hreads⟩
  rw [foldl_append, ← hphys]
  rfl

/-! Level by level, inside a walk over `L`. -/

variable {L : List Met} (hL : Met.Separate L) (hok : ∀ t i, .table t ∈ L → i < 512 → ok (t, i))

include hL hok

theorem runs_pt (h : (ptPlan words w).Sublist L) : Runs words ok (fun s : Walk τ =>
    if w = 0 then s else if isHuge w then s else
    let pt := entryAddr w
    (Walk.ptLoop pt s).deallocateFrame pt) (ptPlan words w) := by
  unfold ptPlan at h ⊢
  split
  · exact Runs.skip
  split
  · exact Runs.skip
  rename_i h0 hh
  rw [if_neg h0, if_neg hh] at h
  refine Runs.table (hL.sublist h) (fun i hi => hok _ i (h.subset (by simp)) hi) fun i _ _ => ?_
  unfold leafPlan
  split
  · exact Runs.skip
  · exact Runs.leaf _

theorem runs_pd (h : (pdPlan words w).Sublist L) : Runs words ok (fun s : Walk τ =>
    if w = 0 then s else if isHuge w then s else
    let pd := entryAddr w
    (Walk.pdLoop pd s).deallocateFrame pd) (pdPlan words w) := by
  unfold pdPlan at h ⊢
  split
  · exact Runs.skip
  split
  · exact Runs.skip
  rename_i h0 hh
  rw [if_neg h0, if_neg hh] at h
  exact Runs.table (hL.sublist h) (fun i hi => hok _ i (h.subset (by simp)) hi)
    fun i _ hs => runs_pt hL hok (hs.trans h)

theorem runs_pdpt (h : (pdptPlan words w).Sublist L) : Runs words ok (fun s : Walk τ =>
    if w = 0 then s else
    let pdpt := entryAddr w
    (Walk.pdptLoop pdpt s).deallocateFrame pdpt) (pdptPlan words w) := by
  unfold pdptPlan at h ⊢
  split
  · exact Runs.skip
  rename_i h0
  rw [if_neg h0] at h
  exact Runs.table (hL.sublist h) (fun i hi => hok _ i (h.subset (by simp)) hi)
    fun i _ hs => runs_pd hL hok (hs.trans h)

end Runs

/-- The entries a walk over the user half may read. -/
def UserEntry (words : Words) (pml4 : Nat) (x : Nat × Nat) : Prop :=
  (x.1 = pml4 ∧ x.2 < 256) ∨ (.table x.1 ∈ userPlan words pml4 ∧ x.1 ≠ pml4 ∧ x.2 < 512)

variable {pml4 : Nat} {m : Mem τ}

theorem runs_cleanup {τ : Type} {words : Words} (h : Met.Separate (userPlan words pml4)) :
    Runs words (UserEntry words pml4) (fun s : Walk τ => s.cleanupUserAddressSpace pml4) (userPlan words pml4) := by
  have hL := h.sublist (sublist_append_left ..)
  refine Runs.table h (fun i hi => .inl ⟨rfl, hi⟩) fun i hi _ => runs_pdpt hL (fun t i ht hi => ?_) (plan_sublist hi)
  have hne : t ≠ pml4 := h.later ht (mem_singleton_self _)
  exact .inr ⟨mem_append_left _ ht, hne, hi⟩

/-! ## The tree in memory -/

section Reading

variable (words : Words)

/-- The entries of `t` that are not zero, by index and the frame they name. -/
def eachEntry {α : Type} (n t : Nat) (below : Nat → Nat → List α) : List α :=
  (List.range n).flatMap fun i => if words t i = 0 then [] else below i (entryAddr (words t i))

/-- The PDPTs, PDs and PTs of the user half. -/
def userTables (pml4 : Nat) : List Nat :=
  eachEntry words 256 pml4 fun _ pdpt => pdpt ::
    eachEntry words 512 pdpt fun _ pd => pd ::
      eachEntry words 512 pd fun _ pt => [pt]

/-- The leaf words of the user half that are not zero, with the page they map. -/
def userLeaves (pml4 : Nat) : List (Nat × BitVec 64) :=
  eachEntry words 256 pml4 fun i4 pdpt =>
    eachEntry words 512 pdpt fun i3 pd =>
      eachEntry words 512 pd fun i2 pt =>
        eachEntry words 512 pt fun i1 _ => [((((i4 * 512 + i3) * 512 + i2) * 512 + i1) * PAGE_SIZE, words pt i1)]

/-- No entry of the table is a huge page. -/
def TablesOnly (t : Nat) : Prop := ∀ i < 512, words t i ≠ 0 → isHuge (words t i) = false

/-- The entries of the PDPTs and of the PDs lead to tables. -/
def NoHuge (pml4 : Nat) : Prop :=
  ∀ i4 < 256, words pml4 i4 ≠ 0 → TablesOnly words (entryAddr (words pml4 i4)) ∧
    ∀ i3 < 512, words (entryAddr (words pml4 i4)) i3 ≠ 0 →
      TablesOnly words (entryAddr (words (entryAddr (words pml4 i4)) i3))

variable {words}

theorem filterMap_entriesPlan {α : Type} (φ : Met → Option Nat) (g : α → Nat) {n t : Nat}
    {below : Nat → Nat → List α} (h0 : plan 0 = [])
    (h : ∀ i < n, words t i ≠ 0 → ((plan (words t i)).filterMap φ).Perm ((below i (entryAddr (words t i))).map g)) :
    ((entriesPlan words n t plan).filterMap φ).Perm ((eachEntry words n t below).map g) := by
  rw [entriesPlan, eachEntry, filterMap_flatMap, map_flatMap]
  refine Perm.flatMap_left _ fun i hi => ?_
  split
  · rename_i hw
    rw [hw, h0]
    exact .nil
  · rename_i hw
    exact h i (mem_range.mp hi) hw

theorem tables_userPlan (h : NoHuge words pml4) :
    (Met.tables (userPlan words pml4)).Perm (pml4 :: userTables words pml4) := by
  -- a table comes after what is below it in the walk, and before it in the reading
  have hlast : ∀ (l : List Met) (f : Nat) {l' : List Nat}, (Met.tables l).Perm (l'.map id) →
      (Met.tables (l ++ [.table f])).Perm ((f :: l').map id) := by
    intro l f l' hl
    rw [Met.tables, filterMap_append]
    exact (perm_append_singleton f _).trans (hl.cons f)
  have hleaf : ∀ pt, Met.tables (entriesPlan words 512 pt leafPlan) = [] := by
    intro pt
    refine filterMap_eq_nil_iff.mpr fun x hx => ?_
    obtain ⟨_, -, hx⟩ := mem_flatMap.mp hx
    unfold leafPlan at hx
    split at hx
    · cases hx
    · cases mem_singleton.mp hx
      rfl
  have htop : (Met.tables (userPlan words pml4)).Perm ((pml4 :: userTables words pml4).map id) := by
    refine hlast _ _ ?_
    refine filterMap_entriesPlan _ id rfl fun i4 h4 hw4 => ?_
    rw [pdptPlan, if_neg hw4, ← Met.tables]
    refine hlast _ _ ?_
    refine filterMap_entriesPlan _ id rfl fun i3 h3 hw3 => ?_
    obtain ⟨hpdpt, hpd⟩ := h i4 h4 hw4
    rw [pdPlan, if_neg hw3, hpdpt i3 h3 hw3, if_neg Bool.false_ne_true, ← Met.tables]
    refine hlast _ _ ?_
    refine filterMap_entriesPlan _ id rfl fun i2 h2 hw2 => ?_
    rw [ptPlan, if_neg hw2, hpd i3 h3 hw3 i2 h2 hw2, if_neg Bool.false_ne_true, ← Met.tables]
    refine hlast _ _ ?_
    rw [hleaf]
    exact .nil
  rwa [map_id] at htop

theorem leaves_userPlan (h : NoHuge words pml4) :
    (Met.leaves (userPlan words pml4)).Perm ((userLeaves words pml4).map fun x => entryAddr x.2) := by
  have hlast : ∀ (l : List Met) (f : Nat), Met.leaves (l ++ [.table f]) = Met.leaves l := by
    intro l f
    rw [Met.leaves, filterMap_append]
    exact append_nil _
  rw [userPlan, hlast]
  refine filterMap_entriesPlan _ _ rfl fun i4 h4 hw4 => ?_
  rw [pdptPlan, if_neg hw4, ← Met.leaves, hlast]
  refine filterMap_entriesPlan _ _ rfl fun i3 h3 hw3 => ?_
  obtain ⟨hpdpt, hpd⟩ := h i4 h4 hw4
  rw [pdPlan, if_neg hw3, hpdpt i3 h3 hw3, if_neg Bool.false_ne_true, ← Met.leaves, hlast]
  refine filterMap_entriesPlan _ _ rfl fun i2 h2 hw2 => ?_
  rw [ptPlan, if_neg hw2, hpd i3 h3 hw3 i2 h2 hw2, if_neg Bool.false_ne_true, ← Met.leaves, hlast]
  refine filterMap_entriesPlan _ _ rfl fun i1 _ hw1 => ?_
  rw [leafPlan, if_neg hw1]
  exact .refl _

end Reading

/-! ## What is freed -/

namespace Mem

variable {τ : Type}

/-- A count is stored only while it is 2 or more. -/
def Counted (m : Mem τ) : Prop := ∀ f c, m.refcounts.get? f = some c → 2 ≤ c

theorem Counted.count_pos (h : m.Counted) (f : Nat) : 0 < m.count f := by
  unfold count
  cases hc : m.refcounts.get? f with
  | none => exact Nat.zero_lt_one
  | some c => exact Nat.lt_of_lt_of_le Nat.zero_lt_two (h f c hc)

end Mem

namespace Phys

variable {τ : Type} {p : Phys τ} {f g : Nat}

theorem releaseLeaf_last (hc : p.mem.refcounts.get? f = none) :
    p.releaseLeaf f = deallocateFrame { p with released := p.released ++ [f] } f := by
  unfold releaseLeaf refRelease
  rw [refRelease_none hc]
  rfl

theorem releaseLeaf_shared {c : Nat} (hc : p.mem.refcounts.get? f = some c) (h2 : 2 ≤ c) :
    ∃ r, p.releaseLeaf f = { p with mem := { p.mem with refcounts := r }, released := p.released ++ [f] } ∧
      (∀ g, g ≠ f → r.get? g = p.mem.refcounts.get? g) ∧ (r.get? f).getD 1 = c - 1 ∧
      ∀ c', r.get? f = some c' → 2 ≤ c' := by
  obtain ⟨r, hr, hrest⟩ := refRelease_some hc h2
  refine ⟨r, ?_, hrest⟩
  unfold releaseLeaf refRelease
  rw [hr]
  rfl

theorem free_other (hp : p.mem.Counted) {x : Met} (h : metFrame x ≠ f) :
    (p.free x).freed.count f = p.freed.count f ∧ (p.free x).mem.refcounts.get? f = p.mem.refcounts.get? f := by
  have hcount : (p.freed ++ [metFrame x]).count f = p.freed.count f := by
    rw [count_append, count_singleton, if_neg (by simpa using h), add_zero]
  cases x with
  | table g => exact ⟨hcount, rfl⟩
  | leaf g =>
    show (p.releaseLeaf g).freed.count f = _ ∧ (p.releaseLeaf g).mem.refcounts.get? f = _
    cases hc : p.mem.refcounts.get? g with
    | none =>
      rw [releaseLeaf_last hc]
      exact ⟨hcount, rfl⟩
    | some c =>
      obtain ⟨_, hr, hother, -⟩ := releaseLeaf_shared hc (hp g c hc)
      rw [hr]
      exact ⟨rfl, hother f (Ne.symm h)⟩

theorem free_counted (hp : p.mem.Counted) (x : Met) : (p.free x).mem.Counted := by
  cases x with
  | table g => exact hp
  | leaf g =>
    show (p.releaseLeaf g).mem.Counted
    cases hc : p.mem.refcounts.get? g with
    | none =>
      rw [releaseLeaf_last hc]
      exact hp
    | some c =>
      obtain ⟨_, hr, hother, -, h2⟩ := releaseLeaf_shared hc (hp g c hc)
      rw [hr]
      intro f c' hf
      by_cases he : f = g
      · exact h2 c' (he ▸ hf)
      · exact hp f c' ((hother f he).symm.trans hf)

/-- One reference is given back: the last one frees the frame, another only counts. -/
theorem releaseLeaf_self (hp : p.mem.Counted) (f : Nat) :
    (p.mem.count f = 1 ∧ (p.releaseLeaf f).mem.count f = 1 ∧ (p.releaseLeaf f).freed.count f = p.freed.count f + 1) ∨
    (2 ≤ p.mem.count f ∧ (p.releaseLeaf f).mem.count f = p.mem.count f - 1 ∧
      (p.releaseLeaf f).freed.count f = p.freed.count f) := by
  cases hc : p.mem.refcounts.get? f with
  | none =>
    have h1 : p.mem.count f = 1 := by rw [Mem.count, hc, Option.getD_none]
    rw [releaseLeaf_last hc]
    refine .inl ⟨h1, h1, ?_⟩
    show (p.freed ++ [f]).count f = _
    rw [count_append, count_singleton_self]
  | some c =>
    have h1 : p.mem.count f = c := by rw [Mem.count, hc, Option.getD_some]
    obtain ⟨_, hr, -, hcr, -⟩ := releaseLeaf_shared hc (hp f c hc)
    rw [hr, h1]
    exact .inr ⟨hp f c hc, hcr, rfl⟩

/-- A frame is freed as often as it is met as a table, and by every release of a leaf that
    finds no other reference. -/
theorem freeAll_count (l : List Met) : ∀ {p : Phys τ}, p.mem.Counted → (l.foldl free p).freed.count f =
    p.freed.count f + (Met.tables l).count f + ((Met.leaves l).count f + 1 - p.mem.count f) := by
  induction l with
  | nil =>
    intro p hp
    have hpos := hp.count_pos f
    show p.freed.count f = p.freed.count f + 0 + (0 + 1 - p.mem.count f)
    omega
  | cons x l ih =>
    intro p hp
    rw [foldl_cons, ih (free_counted hp x)]
    by_cases hx : metFrame x = f
    · cases x with
      | table g =>
        obtain rfl : g = f := hx
        show (p.freed ++ [g]).count g + _ + (_ + 1 - p.mem.count g) =
          _ + (g :: Met.tables l).count g + ((Met.leaves l).count g + 1 - _)
        rw [count_append, count_singleton_self, count_cons_self]
        omega
      | leaf g =>
        obtain rfl : g = f := hx
        show (p.releaseLeaf g).freed.count g + _ + ((Met.leaves l).count g + 1 - (p.releaseLeaf g).mem.count g) =
          _ + (Met.tables l).count g + ((g :: Met.leaves l).count g + 1 - _)
        rw [count_cons_self]
        rcases releaseLeaf_self hp g with ⟨_, _, hfreed⟩ | ⟨h2, hcount, hfreed⟩ <;> omega
    · obtain ⟨hfreed, hrefs⟩ := free_other hp hx
      have hcons : (Met.tables (x :: l)).count f = (Met.tables l).count f ∧
          (Met.leaves (x :: l)).count f = (Met.leaves l).count f := by
        cases x with
        | table g => exact ⟨count_cons_of_ne hx .., rfl⟩
        | leaf g => exact ⟨rfl, count_cons_of_ne hx ..⟩
      rw [hcons.1, hcons.2, hfreed, Mem.count, hrefs, Mem.count]

theorem free_logs (p : Phys τ) (x : Met) : ∃ d, (p.free x).freed = p.freed ++ d ∧
    (p.free x).mem.frames.freeList = d.reverse ++ p.mem.frames.freeList ∧
    (p.free x).released = p.released ++ Met.leaves [x] ∧ (p.free x).mem = p.mem.freeMet x := by
  cases x with
  | table g => exact ⟨[g], rfl, rfl, (append_nil _).symm, rfl⟩
  | leaf g =>
    have hm : (p.mem.refRelease g).2.frames = p.mem.frames := by
      unfold Mem.refRelease
      split
      · split <;> rfl
      · rfl
    show ∃ d, (p.releaseLeaf g).freed = _ ∧ (p.releaseLeaf g).mem.frames.freeList = _ ∧
      (p.releaseLeaf g).released = _ ∧ (p.releaseLeaf g).mem = p.mem.releaseFrame g
    unfold releaseLeaf refRelease releaseFrame
    dsimp only
    split
    · exact ⟨[g], rfl, by rw [← hm]; rfl, rfl, rfl⟩
    · exact ⟨[], (append_nil _).symm, by rw [← hm]; rfl, rfl, rfl⟩

/-- What is freed goes to the front of the free list, and every leaf met is released. -/
theorem freeAll_logs (l : List Met) : ∀ p : Phys τ, ∃ d, (l.foldl free p).freed = p.freed ++ d ∧
    (l.foldl free p).mem.frames.freeList = d.reverse ++ p.mem.frames.freeList ∧
    (l.foldl free p).released = p.released ++ Met.leaves l ∧ (l.foldl free p).mem = l.foldl freeMet p.mem := by
  induction l with
  | nil => exact fun p => ⟨[], (append_nil _).symm, rfl, (append_nil _).symm, rfl⟩
  | cons x l ih =>
    intro p
    obtain ⟨d, hd, hf, hr, hm⟩ := p.free_logs x
    obtain ⟨d', hd', hf', hr', hm'⟩ := ih (p.free x)
    refine ⟨d ++ d', ?_, ?_, ?_, ?_⟩
    · rw [foldl_cons, hd', hd, append_assoc]
    · rw [foldl_cons, hf', hf, reverse_append, append_assoc]
    · rw [foldl_cons, hr', hr, append_assoc, Met.leaves, Met.leaves, ← filterMap_append]
      rfl
    · rw [foldl_cons, hm', hm, foldl_cons]

theorem freeAll_words_of_not_freed (l : List Met) : ∀ {p : Phys τ}, g ∉ (l.foldl free p).freed →
    (l.foldl free p).words g = p.words g := by
  induction l with
  | nil => exact fun _ => rfl
  | cons x l ih =>
    intro p h
    rw [foldl_cons] at h ⊢
    rw [ih h]
    obtain ⟨_, hd', -⟩ := freeAll_logs l (p.free x)
    exact (p.free_words x).resolve_right fun hw => h (hd' ▸ mem_append_left _ hw.2)

end Phys

/-! ## Building a tree -/

section

variable {τ : Type} (M : Mapper τ) {words : Words}

/-- The words of the tree `t` as they lie in memory: its tables, and no leaf that it does not have. -/
structure Holds (words : Words) (pml4 : Nat) (t : τ) : Prop where
  tables : (userTables words pml4).Perm (M.tables t)
  leaves : ∀ x ∈ userLeaves words pml4, ∃ fl, (M.leaves t).get? x.1 = some (entryAddr x.2, fl)
  noHuge : NoHuge words pml4

structure Built (τ : Type) where
  mem : Mem τ
  pml4 : Nat

/-- A call on the tree, or whatever the rest of the kernel does to the memory meanwhile. -/
inductive BuildEv (τ : Type)
  | mapUserPage (vaddr frame : Nat) (flags : PtFlags)
  | unmapUserPage (vaddr : Nat)
  | updateUserPageFlags (vaddr : Nat) (flags : PtFlags)
  | others (mem : Mem τ)

namespace Built

def step (s : Built τ) : BuildEv τ → Option (Built τ)
  | .mapUserPage v f fl => (s.mem.mapUserPage M s.pml4 v f fl).map fun r => { s with mem := r.2 }
  | .unmapUserPage v => (s.mem.unmapUserPage M s.pml4 v).map fun r => { s with mem := r.2 }
  | .updateUserPageFlags v fl => (s.mem.updateUserPageFlags M s.pml4 v fl).map fun m => { s with mem := m }
  | .others m => some { s with mem := m }

def machine : Machine (Built τ) (BuildEv τ) where
  start s := ∃ m : Mem τ, m.frames.Sound ∧ m.Counted ∧ m.createUserPageTable M = some (s.pml4, s.mem)
  step := step M

/-- The frames of the tree `t`. -/
def InTree (pml4 : Nat) (t : τ) (f : Nat) : Prop :=
  f = pml4 ∨ f ∈ M.tables t ∨ ∃ v fl, (M.leaves t).get? v = some (f, fl)

/-- Pages are of the user half. A frame that is mapped is in use, and not as a table of this
    tree. The others leave the tree alone and do not free its frames. -/
def Orderly (s : Built τ) : BuildEv τ → Prop
  | .mapUserPage v f _ => v < USER_END ∧ s.mem.frames.Out f ∧ f ≠ s.pml4 ∧
      ∀ t, s.mem.spaces.get? s.pml4 = some t → f ∉ M.tables t
  | .unmapUserPage v => v < USER_END
  | .updateUserPageFlags v _ => v < USER_END
  | .others m => m.frames.Sound ∧ m.Counted ∧ m.spaces.get? s.pml4 = s.mem.spaces.get? s.pml4 ∧
      ∀ t, s.mem.spaces.get? s.pml4 = some t → ∀ f, InTree M s.pml4 t f → m.frames.Out f

structure Inv (s : Built τ) : Prop where
  sound : s.mem.frames.Sound
  counted : s.mem.Counted
  tree : ∃ t, s.mem.spaces.get? s.pml4 = some t ∧ (s.pml4 :: M.tables t).Nodup ∧
    (∀ v f fl, (M.leaves t).get? v = some (f, fl) → f ∉ s.pml4 :: M.tables t) ∧
    ∀ f, InTree M s.pml4 t f → s.mem.frames.Out f

variable {M}

variable {s s' : Built τ}

theorem start_inv (hM : M.Lawful) (h : (machine M).start s) : Inv M s := by
  obtain ⟨_, pml4⟩ := s
  obtain ⟨m, hs, hc, h⟩ := h
  unfold createUserPageTable at h
  dsimp only at h
  split at h
  · rename_i ha
    cases h
    have ht := Frames.allocate_took hs ha
    have hleaf : ∀ v e, (M.leaves M.fresh).get? v ≠ some e := by
      intro v e he
      rw [hM.fresh_leaves] at he
      cases he
    refine ⟨ht.sound, hc, M.fresh, get?_insert_self m pml4 M.fresh, ?_, ?_, ?_⟩
    · rw [hM.fresh_tables]
      exact nodup_singleton pml4
    · intro v g fl hg
      exact absurd hg (hleaf v _)
    · rintro g (rfl | hg | ⟨v, fl, hg⟩)
      · obtain ⟨hi, hf⟩ := ht.taken g (mem_singleton_self g)
        exact ⟨hf, fun _ => hi⟩
      · rw [hM.fresh_tables] at hg
        cases hg
      · exact absurd hg (hleaf v _)
  · cases h

theorem Inv.map (hM : M.Lawful) {v f : Nat} {fl : PtFlags} (h : Inv M s)
    (hg : Orderly M s (.mapUserPage v f fl)) (hs : s.step M (.mapUserPage v f fl) = some s') : Inv M s' := by
  obtain ⟨⟨_, _⟩, hm, rfl⟩ := of_map hs
  obtain ⟨t, t', a, ht, hmap, rfl⟩ := mapUserPage_cases hm
  obtain ⟨hv, hout, hne, hnt⟩ := hg
  obtain ⟨u, hu, hn, hapart, hin⟩ := h.tree
  obtain rfl : t = u := Option.some.inj (ht.symm.trans hu)
  obtain ⟨l, htakes, hperm⟩ := hM.mapTo_tables hv hmap
  have htook := htakes.took h.sound
  have hleaves : ∀ w g fg, (M.leaves t').get? w = some (g, fg) → g = f ∨ ∃ fg, (M.leaves t).get? w = some (g, fg) := by
    intro w g fg hw
    have hl := hM.mapTo_leaves hv hmap
    split at hl
    · rw [hl.2, get?_insert] at hw
      split at hw
      · cases hw
        exact .inl rfl
      · exact .inr ⟨fg, hw⟩
    · exact .inr ⟨fg, hl ▸ hw⟩
  -- what the tree or the caller had is not among the new tables
  have hnew : ∀ g, s.mem.frames.Out g → g ∉ l := fun g hg hm => htakes.not_out h.sound hm hg
  refine ⟨htook.sound, h.counted, t', get?_insert_self s.mem s.pml4 t', ?_, ?_, ?_⟩
  · refine ((hperm.cons s.pml4).nodup_iff).mpr ?_
    obtain ⟨hp, hn⟩ := nodup_cons.mp hn
    refine nodup_cons.mpr ⟨?_, nodup_append.mpr ⟨htook.nodup, hn, ?_⟩⟩
    · intro hm
      rcases mem_append.mp hm with hm | hm
      · exact hnew _ (hin _ (.inl rfl)) hm
      · exact hp hm
    · rintro x hx y hy rfl
      exact hnew x (hin x (.inr (.inl hy))) hx
  · intro w g fg hw hm
    have hcase : g ∉ l ∧ g ∉ s.pml4 :: M.tables t := by
      rcases hleaves w g fg hw with rfl | ⟨fg, hw⟩
      · refine ⟨hnew g hout, fun hm => ?_⟩
        rcases mem_cons.mp hm with he | hm
        · exact hne he
        · exact hnt t ht hm
      · exact ⟨hnew g (hin g (.inr (.inr ⟨w, fg, hw⟩))), hapart w g fg hw⟩
    rcases mem_cons.mp hm with he | hm
    · exact hcase.2 (mem_cons.mpr (.inl he))
    · rcases mem_append.mp (hperm.mem_iff.mp hm) with hm | hm
      · exact hcase.1 hm
      · exact hcase.2 (.tail _ hm)
  · rintro g (rfl | hg | ⟨w, fg, hg⟩)
    · exact htakes.out h.sound (.inr (hin _ (.inl rfl)))
    · rcases mem_append.mp (hperm.mem_iff.mp hg) with hg | hg
      · exact htakes.out h.sound (.inl hg)
      · exact htakes.out h.sound (.inr (hin g (.inr (.inl hg))))
    · rcases hleaves w g fg hg with rfl | ⟨fg, hg⟩
      · exact htakes.out h.sound (.inr hout)
      · exact htakes.out h.sound (.inr (hin g (.inr (.inr ⟨w, fg, hg⟩))))

theorem Inv.sameFrames {t t' : τ} (h : Inv M s) (ht : s.mem.spaces.get? s.pml4 = some t)
    (htables : M.tables t' = M.tables t)
    (hleaves : ∀ v f fl, (M.leaves t').get? v = some (f, fl) → ∃ fl, (M.leaves t).get? v = some (f, fl)) :
    Inv M { s with mem := { s.mem with spaces := s.mem.spaces.insert s.pml4 t' } } := by
  obtain ⟨u, hu, hn, hapart, hin⟩ := h.tree
  obtain rfl : t = u := Option.some.inj (ht.symm.trans hu)
  refine ⟨h.sound, h.counted, t', get?_insert_self s.mem s.pml4 t', ?_, ?_, ?_⟩
  · rw [htables]
    exact hn
  · intro v f fl hv
    obtain ⟨fl, hv⟩ := hleaves v f fl hv
    rw [htables]
    exact hapart v f fl hv
  · rintro f (hf | hf | ⟨v, fl, hf⟩)
    · exact hin f (.inl hf)
    · exact hin f (.inr (.inl (htables ▸ hf)))
    · obtain ⟨fl, hf⟩ := hleaves v f fl hf
      exact hin f (.inr (.inr ⟨v, fl, hf⟩))

theorem Inv.step (hM : M.Lawful) {e : BuildEv τ} (h : Inv M s) (hg : Orderly M s e)
    (hs : s.step M e = some s') : Inv M s' := by
  cases e with
  | mapUserPage v f fl => exact h.map hM hg hs
  | unmapUserPage v =>
    obtain ⟨⟨_, m'⟩, hm, rfl⟩ := of_map hs
    obtain ⟨t, ht, ⟨-, -, rfl⟩ | ⟨_, t', -, hu, rfl⟩⟩ := unmapUserPage_cases hm
    · exact h
    · obtain ⟨-, hl, htab⟩ := hM.unmap_leaf hg hu
      refine h.sameFrames ht htab fun w g fl hw => ?_
      exact ⟨fl, (get?_of_remove (hl ▸ hw)).2⟩
  | updateUserPageFlags v fl =>
    obtain ⟨m', hm, rfl⟩ := of_map hs
    obtain ⟨t, ht, rfl⟩ := updateFlags_cases hm
    obtain ⟨hl, htab⟩ : M.leaves (M.updateFlags t v fl) = (M.leaves t).alter v (fun e => (e.1, fl)) ∧
        M.tables (M.updateFlags t v fl) = M.tables t := hM.updateFlags_leaf hg
    refine h.sameFrames ht htab fun w g fg hw => ?_
    rw [hl, get?_alter] at hw
    split at hw
    · obtain ⟨e, he, hw⟩ := of_map hw
      cases hw
      exact ⟨e.2, he⟩
    · exact ⟨fg, hw⟩
  | others m =>
    cases hs
    obtain ⟨hsound, hcounted, hspace, hout⟩ := hg
    obtain ⟨t, ht, hn, hapart, -⟩ := h.tree
    exact ⟨hsound, hcounted, t, hspace.trans ht, hn, hapart, hout t ht⟩

theorem reach_inv (hM : M.Lawful) (h : (machine M).Reach (Orderly M) s) : Inv M s :=
  h.inv (fun _ h0 => start_inv hM h0) fun _ _ _ hi hg hs => hi.step hM hg hs

theorem Inv.separate (h : Inv M s) {t : τ} (ht : s.mem.spaces.get? s.pml4 = some t)
    (hw : Holds M words s.pml4 t) : Met.Separate (userPlan words s.pml4) := by
  obtain ⟨u, hu, hn, hapart, -⟩ := h.tree
  obtain rfl : t = u := Option.some.inj (ht.symm.trans hu)
  have htables : (Met.tables (userPlan words s.pml4)).Perm (s.pml4 :: M.tables t) :=
    (tables_userPlan hw.noHuge).trans (hw.tables.cons _)
  refine ⟨htables.nodup_iff.mpr hn, fun f hl hf => ?_⟩
  obtain ⟨x, hx, rfl⟩ := mem_map.mp ((leaves_userPlan hw.noHuge).mem_iff.mp (Met.mem_leaves.mpr hl))
  obtain ⟨_, hfl⟩ := hw.leaves x hx
  exact hapart _ _ _ hfl (htables.mem_iff.mp (Met.mem_tables.mpr hf))

end Built

variable {M}

/-- The walk frees what `Mem.cleanupUserAddressSpace` does, where the mapper's walk is the
    one the tables in memory make. -/
theorem cleanup_refines {m : Mem τ} {pml4 : Nat} {t : τ} {words : Words} (ht : m.spaces.get? pml4 = some t)
    (hsep : Met.Separate (userPlan words pml4)) (hwalk : M.walk t ++ [.table pml4] = userPlan words pml4) :
    ∃ m', m.cleanupUserAddressSpace M pml4 = some m' ∧
      (Walk.cleanupUserAddressSpace ⟨⟨{ m with spaces := m.spaces.remove pml4 }, words, [], []⟩, []⟩ pml4).phys.mem =
        m' := by
  refine ⟨_, Option.bind_eq_some_iff.mpr ⟨t, ht, rfl⟩, ?_⟩
  obtain ⟨hrun, -⟩ := runs_cleanup hsep ⟨⟨{ m with spaces := m.spaces.remove pml4 }, words, [], []⟩, []⟩ fun _ _ => rfl
  obtain ⟨-, -, -, -, hmem⟩ := Phys.freeAll_logs (userPlan words pml4)
    ⟨{ m with spaces := m.spaces.remove pml4 }, words, [], []⟩
  rw [hrun, hmem, ← hwalk, foldl_append]
  rfl

/-- How often a leaf of the user half names the frame. -/
def leafCount (words : Words) (pml4 f : Nat) : Nat := ((userLeaves words pml4).map fun x => entryAddr x.2).count f

/-- What a walk that ended in `s` has done to the tables `words` and the services `m`. -/
structure TornDown (words : Words) (pml4 : Nat) (m : Mem τ) (s : Walk τ) : Prop where
  tables : ∀ f ∈ pml4 :: userTables words pml4, s.phys.freed.count f = 1
  freeList : s.phys.mem.frames.freeList = s.phys.freed.reverse ++ m.frames.freeList
  released : s.phys.released.Perm ((userLeaves words pml4).map fun x => entryAddr x.2)
  /-- A leaf's release frees the frame if it finds no other reference. -/
  frees : ∀ f ∉ pml4 :: userTables words pml4, s.phys.freed.count f = leafCount words pml4 f + 1 - m.count f
  /-- A frame with no fewer references than leaves of the tree is freed, once, if the leaves have them all. -/
  last : ∀ f ∉ pml4 :: userTables words pml4, leafCount words pml4 f ≤ m.count f →
    s.phys.freed.count f = if leafCount words pml4 f = m.count f then 1 else 0
  reads : ∀ x ∈ s.reads, (x.1 = pml4 ∧ x.2 < 256) ∨ x.1 ∈ userTables words pml4
  /-- What is neither a table nor a leaf of the user half is not read, written or freed. -/
  untouched : ∀ f ∉ pml4 :: userTables words pml4, (∀ x ∈ userLeaves words pml4, entryAddr x.2 ≠ f) →
    f ∉ s.phys.freed ∧ s.phys.words f = words f ∧ ∀ i, (f, i) ∉ s.reads

theorem Met.Separate.tornDown (hsep : Met.Separate (userPlan words pml4)) (hh : NoHuge words pml4) (hc : m.Counted) :
    TornDown words pml4 m (Walk.cleanupUserAddressSpace ⟨⟨m, words, [], []⟩, []⟩ pml4) := by
  obtain ⟨hrun, hreads⟩ := runs_cleanup hsep ⟨⟨m, words, [], []⟩, []⟩ fun _ _ => rfl
  have htables := tables_userPlan hh
  have hleaves := leaves_userPlan hh
  have hmem : ∀ f, .table f ∈ userPlan words pml4 ↔ f ∈ pml4 :: userTables words pml4 :=
    fun f => Met.mem_tables.symm.trans htables.mem_iff
  have hreads' : ∀ x ∈ (Walk.cleanupUserAddressSpace (τ := τ) ⟨⟨m, words, [], []⟩, []⟩ pml4).reads,
      (x.1 = pml4 ∧ x.2 < 256) ∨ x.1 ∈ userTables words pml4 := by
    intro x hx
    rcases (hreads x hx).resolve_left not_mem_nil with hx | ⟨hx, hne, -⟩
    · exact .inl hx
    · exact .inr ((mem_cons.mp ((hmem x.1).mp hx)).resolve_left hne)
  have hfrees : ∀ f ∉ pml4 :: userTables words pml4,
      ((userPlan words pml4).foldl Phys.free ⟨m, words, [], []⟩).freed.count f =
          leafCount words pml4 f + 1 - m.count f := by
    intro f hf
    rw [leafCount, ← hleaves.count_eq, Phys.freeAll_count (p := ⟨m, words, [], []⟩) _ hc, htables.count_eq,
      count_eq_zero.mpr hf]
    exact zero_add _
  obtain ⟨_, hfreed, hfree, hreleased, -⟩ := Phys.freeAll_logs (userPlan words pml4) (⟨m, words, [], []⟩ : Phys τ)
  refine ⟨?_, ?_, ?_, ?_, ?_, hreads', ?_⟩
  · intro f hf
    have hleaf : .leaf f ∉ userPlan words pml4 := fun hl => hsep.apart f hl ((hmem f).mpr hf)
    have hone := count_eq_one_of_mem hsep.nodup (Met.mem_tables.mpr ((hmem f).mpr hf))
    have hpos := hc.count_pos f
    rw [hrun, Phys.freeAll_count (p := ⟨m, words, [], []⟩) _ hc, hone, count_eq_zero.mpr fun h =>
      hleaf (Met.mem_leaves.mp h), count_nil]
    show 0 + 1 + (0 + 1 - m.count f) = 1
    omega
  · rw [hrun, hfree, hfreed]
    rfl
  · rw [hrun, hreleased]
    exact hleaves
  · intro f hf
    rw [hrun]
    exact hfrees f hf
  · intro f hf hle
    rw [hrun, hfrees f hf]
    split <;> omega
  · intro f hf hl
    have h0 : leafCount words pml4 f = 0 := by
      refine count_eq_zero.mpr fun hm => ?_
      obtain ⟨x, hx, he⟩ := mem_map.mp hm
      exact hl x hx he
    have hpos := hc.count_pos f
    have hnf : f ∉ ((userPlan words pml4).foldl Phys.free ⟨m, words, [], []⟩).freed := by
      refine count_eq_zero.mp ?_
      rw [hfrees f hf]
      omega
    refine ⟨hrun ▸ hnf, ?_, ?_⟩
    · rw [hrun, Phys.freeAll_words_of_not_freed _ hnf]
    · intro i hi
      rcases hreads' _ hi with h | h
      · exact hf (mem_cons.mpr (.inl h.1))
      · exact hf (.tail _ h)

/-- Tear-down frees the tables of the user half once each, gives back one reference for each
    leaf and touches nothing else, whatever calls built the tree. -/
theorem each_frame_freed_once (hM : M.Lawful) {s : Built τ} (hs : (Built.machine M).Reach (Built.Orderly M) s) {t : τ}
    (ht : s.mem.spaces.get? s.pml4 = some t) {words : Words} (hw : Holds M words s.pml4 t) :
    TornDown words s.pml4 s.mem (Walk.cleanupUserAddressSpace ⟨⟨s.mem, words, [], []⟩, []⟩ s.pml4) :=
  have hi := Built.reach_inv hM hs
  (hi.separate ht hw).tornDown hw.noHuge hi.counted

end

/-! A tree with two leaves on one shared frame. -/

/-- Two frames are in use already, the second of them three times. -/
def servicesInUse : Mem Tree where
  frames := ⟨(List.range 8).map fun i => (i + 1) * 0x1000, 2, []⟩
  refcounts := .insert .empty 0x2000 3
  spaces := .empty

def userPage : PtFlags := ⟨true, true, true, false⟩

def fourPages : List (BuildEv Tree) :=
  [.mapUserPage 0x400000 0x1000 userPage, .mapUserPage 0x401000 0x2000 userPage, .mapUserPage 0x402000 0x2000 userPage,
    .mapUserPage 0x403000 0xb8000 userPage, .unmapUserPage 0x403000, .updateUserPageFlags 0x401000
      ⟨false, false, false, false⟩]

/-- The leaf at `0x401000` has lost its flags; entries 256 and 511 of the PML4 are the kernel's. -/
def fourPagesWords (f i : Nat) : BitVec 64 :=
  if f = 0x3000 then if i = 0 then 0x4007 else if i = 256 then 0x9003 else if i = 511 then 0x3003 else 0
  else if f = 0x4000 then if i = 0 then 0x5007 else 0
  else if f = 0x5000 then if i = 2 then 0x6007 else 0
  else if f = 0x6000 then if i = 0 then 0x1007 else if i = 1 then 0x2000 else if i = 2 then 0x2007 else 0
  else 0

/-- `Orderly` without the others. -/
def orderlyCall (s : Built Tree) : BuildEv Tree → Bool
  | .mapUserPage v f _ => decide (v < USER_END) && decide (f ∉ s.mem.frames.freeList) &&
      decide (f ∈ s.mem.frames.usable → f ∈ s.mem.frames.usable.take s.mem.frames.next) && decide (f ≠ s.pml4) &&
      (s.mem.spaces.get? s.pml4).all fun t => decide (f ∉ Tree.mapper.tables t)
  | .unmapUserPage v => decide (v < USER_END)
  | .updateUserPageFlags v _ => decide (v < USER_END)
  | .others _ => false

theorem orderly_of_call {s : Built Tree} {e : BuildEv Tree} (h : orderlyCall s e = true) :
    Built.Orderly Tree.mapper s e := by
  cases e with
  | mapUserPage v f fl =>
    simp only [orderlyCall, Bool.and_eq_true, decide_eq_true_eq] at h
    obtain ⟨⟨⟨⟨hv, hf⟩, hi⟩, hne⟩, ht⟩ := h
    refine ⟨hv, ⟨hf, hi⟩, hne, fun t he => ?_⟩
    rw [he] at ht
    exact of_decide_eq_true ht
  | unmapUserPage v | updateUserPageFlags v fl =>
    have hv : v < USER_END := of_decide_eq_true h
    exact hv
  | others m => cases h

theorem fourPages_noHuge (f i : Nat) : isHuge (fourPagesWords f i) = false := by
  unfold fourPagesWords
  split_ifs <;> rfl

/-- The words hold the tree. -/
def built (words : Words) (s : Built Tree) : Bool :=
  (s.mem.spaces.get? s.pml4).any fun t =>
    (userTables words s.pml4).isPerm (Tree.mapper.tables t) && (userLeaves words s.pml4).all fun x =>
      ((Tree.mapper.leaves t).get? x.1).any fun e => e.1 == entryAddr x.2

theorem holds_of_built {words : Words} {s : Built Tree} (hhuge : ∀ f i, isHuge (words f i) = false)
    (h : built words s = true) : ∃ t, s.mem.spaces.get? s.pml4 = some t ∧ Holds Tree.mapper words s.pml4 t := by
  obtain ⟨t, ht, h⟩ := (Option.any_eq_true _ _).mp h
  obtain ⟨htables, hleaves⟩ := (Bool.and_eq_true _ _).mp h
  refine ⟨t, ht, isPerm_iff.mp htables, fun x hx => ?_, fun _ _ _ =>
    ⟨fun _ _ _ => hhuge _ _, fun _ _ _ _ _ _ => hhuge _ _⟩⟩
  obtain ⟨e, he, heq⟩ := (Option.any_eq_true _ _).mp (all_eq_true.mp hleaves x hx)
  exact ⟨e.2, he.trans (congrArg some (Prod.ext (beq_iff_eq.mp heq) rfl))⟩

theorem started_inUse {r : Nat × Mem Tree} (hr : servicesInUse.createUserPageTable Tree.mapper = some r) :
    (Built.machine Tree.mapper).start ⟨r.2, r.1⟩ := by
  refine ⟨servicesInUse, ⟨by decide, .nil, nofun⟩, ?_, hr⟩
  intro f c hc
  rw [servicesInUse, get?_insert] at hc
  obtain ⟨-, ⟨⟩⟩ := of_guard hc
  decide

theorem each_frame_freed_once_four_pages : ∃ s, (Built.machine Tree.mapper).Reach (Built.Orderly Tree.mapper) s ∧
    built fourPagesWords s = true ∧ TornDown fourPagesWords s.pml4 s.mem
      (Walk.cleanupUserAddressSpace ⟨⟨s.mem, fourPagesWords, [], []⟩, []⟩ s.pml4) := by
  obtain ⟨r, hr, s, hrun, hb⟩ : ∃ r, servicesInUse.createUserPageTable Tree.mapper = some r ∧
      ∃ s, (Built.machine Tree.mapper).checkedRun orderlyCall ⟨r.2, r.1⟩ fourPages = some s ∧
          built fourPagesWords s = true := by
    decide +kernel
  have hs := (Machine.reach_checkedRun (.start (started_inUse hr)) hrun).mono fun _ _ => orderly_of_call
  obtain ⟨_, ht, hw⟩ := holds_of_built fourPages_noHuge hb
  exact ⟨s, hs, hb, each_frame_freed_once Tree.mapper_lawful hs ht hw⟩

/-- One page, whose frame is the PML4. -/
def ownTableWords (f i : Nat) : BitVec 64 :=
  if f = 0x3000 ∧ i = 0 then 0x4007 else if f = 0x4000 ∧ i = 0 then 0x5007 else if f = 0x5000 ∧ i = 2 then 0x6007
  else if f = 0x6000 ∧ i = 0 then 0x3007 else 0

theorem forEntries_first {τ : Type} {t n : Nat} (body : BitVec 64 → Walk τ → Walk τ) {s : Walk τ} {p : Phys τ}
    (h0 : ∀ s, body 0 s = s)
    (hfirst : (body (s.phys.words t 0) { s with reads := s.reads ++ [(t, 0)] }).phys = p)
    (hrest : ∀ i < n, p.words t (i + 1) = 0) : (Walk.forEntries (n + 1) t body s).phys = p := by
  induction n with
  | zero => exact hfirst
  | succ n ih =>
    have hp := ih fun i hi => hrest i (by omega)
    rw [Walk.forEntries_succ, hp, hrest n (by omega), h0]
    exact hp

/-- The PML4 itself is mapped at a page, and tear-down frees it twice. -/
theorem a_mapped_table_is_freed_twice : ∃ s t, (Built.machine Tree.mapper).Reachable s ∧
      s.mem.spaces.get? s.pml4 = some t ∧
    Holds Tree.mapper ownTableWords s.pml4 t ∧
    (Walk.cleanupUserAddressSpace ⟨⟨s.mem, ownTableWords, [], []⟩, []⟩ s.pml4).phys.freed.count s.pml4 = 2 := by
  have hplan : pdptPlan ownTableWords (ownTableWords 0x3000 0) = [.leaf 0x3000, .table 0x6000, .table 0x5000,
    .table 0x4000] := by decide +kernel
  obtain ⟨r, hr, s, hrun, hb, hpml4, hwords, htwice⟩ : ∃ r, servicesInUse.createUserPageTable Tree.mapper = some r ∧
      ∃ s, (Built.machine Tree.mapper).run ⟨r.2, r.1⟩ [.mapUserPage 0x400000 r.1 userPage] = some s ∧
        built ownTableWords s = true ∧ s.pml4 = 0x3000 ∧
        let p := (pdptPlan ownTableWords (ownTableWords 0x3000 0)).foldl Phys.free ⟨s.mem, ownTableWords, [], []⟩
        (∀ i < 255, p.words 0x3000 (i + 1) = 0) ∧ (p.freed ++ [0x3000]).count 0x3000 = 2 := by
    decide +kernel
  obtain ⟨t, ht, hw⟩ := holds_of_built (fun f i => by unfold ownTableWords; split_ifs <;> rfl) hb
  refine ⟨s, t, Machine.reachable_of_run _ _ (started_inUse hr) hrun, ht, hw, ?_⟩
  rw [hpml4, Walk.cleanupUserAddressSpace]
  -- the only entry of the PML4 that is not zero frees its frame, and only the first word is lost
  have hfirst := (@runs_pdpt Tree _ _ (fun _ => True) (pdptPlan ownTableWords (ownTableWords 0x3000 0))
    (by rw [hplan]; exact ⟨by decide, by simp⟩)
    (fun _ _ _ _ => trivial) (.refl _) ⟨⟨s.mem, ownTableWords, [], []⟩, [(0x3000, 0)]⟩ fun _ _ => rfl).1
  generalize (pdptPlan ownTableWords (ownTableWords 0x3000 0)).foldl _ _ = p at hfirst hwords htwice
  have hclean := forEntries_first (n := 255) (t := 0x3000) (s := ⟨⟨s.mem, ownTableWords, [], []⟩, []⟩)
      (fun p4e s => if p4e = 0 then s else
    let pdpt := entryAddr p4e
    (Walk.pdptLoop pdpt s).deallocateFrame pdpt) (fun _ => if_pos rfl) hfirst hwords
  show ((Walk.forEntries 256 _ _ _).phys.freed ++ [0x3000]).count _ = 2
  rw [hclean]
  exact htwice

theorem cleanup_refines_four_pages : ∃ m m' : Mem Tree, m.cleanupUserAddressSpace Tree.mapper 0x3000 = some m' ∧
    (Walk.cleanupUserAddressSpace ⟨⟨{ m with spaces := m.spaces.remove 0x3000 }, fourPagesWords, [], []⟩,
      []⟩ 0x3000).phys.mem = m' := by
  have hplan : userPlan fourPagesWords 0x3000 = [.leaf 0x1000, .leaf 0x2000, .leaf 0x2000, .table 0x6000, .table 0x5000,
    .table 0x4000, .table 0x3000] := by decide +kernel
  obtain ⟨r, -, s, -, t, ht, hw⟩ : ∃ r, servicesInUse.createUserPageTable Tree.mapper = some r ∧
      ∃ s, (Built.machine Tree.mapper).run ⟨r.2, r.1⟩ fourPages = some s ∧ ∃ t, s.mem.spaces.get? 0x3000 = some t ∧
        Tree.mapper.walk t ++ [.table 0x3000] = userPlan fourPagesWords 0x3000 := by
    decide +kernel
  exact ⟨s.mem, cleanup_refines ht (hplan ▸ ⟨by decide, by simp⟩) hw⟩

end Ostoo.Memory
