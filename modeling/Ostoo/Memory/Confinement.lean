/-
  Ostoo.Memory.Confinement — which requests can make the kernel map pages outside the
  user half (PML4 entries 0 to 255).

  Nothing on the way from `mmap` with MAP_FIXED, from `brk` or from an ELF segment to
  `map_user_page` compares an address with the end of the user half. `VirtAddr::new`
  panics on addresses that are not canonical, and the kernel half is canonical. So the
  calls are confined for some arguments only, and `mappings_confined` says which: for all
  others there is a memory in which a page is mapped or the kernel panics where it should
  have refused.
-/

import Ostoo.Memory.Loader

namespace Ostoo.Memory

open Ostoo.Lib Elf Ostoo.Memory.Tree Option OrdMap Mem Frames

/-! ## The property -/

section

variable {μ : Type}

/-- The services, with the addresses at which they were asked to map a page. -/
def recording (ops : MemOps μ) : MemOps (μ × List Nat) where
  allocFrame s := ((ops.allocFrame s.1).1, (ops.allocFrame s.1).2, s.2)
  mapUserPage s pml4 vaddr frame flags :=
    (ops.mapUserPage s.1 pml4 vaddr frame flags).map fun r => (r.1, r.2, s.2 ++ [vaddr])
  refShare s frame := (ops.refShare s.1 frame).map fun mem => (mem, s.2)
  unmapAndReleaseUserPage s pml4 vaddr := (ops.unmapAndReleaseUserPage s.1 pml4 vaddr).map fun mem => (mem, s.2)
  unmapAndFreeUserPage s pml4 vaddr := (ops.unmapAndFreeUserPage s.1 pml4 vaddr).map fun mem => (mem, s.2)
  updateUserPageFlags s pml4 vaddr flags :=
    (ops.updateUserPageFlags s.1 pml4 vaddr flags).map fun mem => (mem, s.2)

def recordingLoads (ops : LoadOps μ) : LoadOps (μ × List Nat) where
  toMemOps := recording ops.toMemOps
  createUserPageTable s := (ops.createUserPageTable s.1).map fun r => (r.1, r.2, s.2)
  allocDmaPages s pages := (ops.allocDmaPages s.1 pages).map fun r => (r.1, r.2, s.2)

end

def InUserHalf (log : List Nat) : Prop := ∀ v ∈ log, p4Index v < 256

def IsErrno (r : Int) : Prop := -4095 ≤ r ∧ r < 0

structure MmapArgs where
  addr : Nat
  length : Nat
  prot : Nat
  flags : Nat
  a5 : Nat
  r9 : Nat

namespace MmapArgs

section

variable (a : MmapArgs)

def has (flag : BitVec 32) : Bool := BitVec.ofNat 32 a.flags &&& flag ≠ 0

/-- The request needs an address that is not in the user half. -/
def Outside : Prop :=
  USER_END < if a.has MAP_FIXED then a.addr + a.length else a.length

/-- The range of a shared mapping is in the object behind its fd. -/
def InObject (fds : Nat → FdView) : Prop :=
  ∃ size frames, fds a.a5 = .shmem size frames ∧ a.r9 / PAGE_SIZE + pagesOf a.length ≤ pagesOf size ∧
    a.r9 / PAGE_SIZE + pagesOf a.length ≤ frames.length

/-- Refused before a place is looked for. -/
def BadArgs (fds : Nat → FdView) : Prop :=
  a.length = 0 ∨ a.has MAP_SHARED = a.has MAP_PRIVATE ∨ (a.has MAP_SHARED ∧ a.has MAP_ANONYMOUS) ∨
    (a.has MAP_SHARED ∧ (¬ Aligned a.r9 ∨ ¬ a.InObject fds)) ∨
    (¬ a.has MAP_SHARED ∧ ¬ a.has MAP_ANONYMOUS ∧ (¬ Aligned a.r9 ∨ ¬ ∃ len, fds (fdI32 a.a5) = .file (some len)))

/-- The end of the range of a shared mapping is computed, without a check. -/
def Sums (fds : Nat → FdView) : Prop :=
  a.length ≠ 0 ∧ a.has MAP_SHARED ∧ ¬ a.has MAP_PRIVATE ∧ ¬ a.has MAP_ANONYMOUS ∧ Aligned a.r9 ∧
    ∃ size frames, fds a.a5 = .shmem size frames

end

/-- The arguments for which `mmap` is confined. -/
structure Confinable (a : MmapArgs) (fds : Nat → FdView) : Prop where
  length : a.length + PAGE_MASK < 2 ^ 64
  fixed : a.has MAP_FIXED → a.BadArgs fds ∨ a.addr = 0 ∨ ¬ Aligned a.addr ∨ a.addr + a.length ≤ USER_END
  sum : a.Outside → a.Sums fds → a.r9 + pagesOf a.length * PAGE_SIZE < 2 ^ 64

end MmapArgs

section

variable {τ : Type} (M : Mapper τ)

def recordedMmap (fds : Nat → FdView) (p : Proc) (m : Mem τ) (a : MmapArgs) :
    Option (Int × Proc × Mem τ × List Nat) :=
  sysMmap (recording (Mem.services M)) fds p (m, []) a.addr a.length a.prot a.flags a.a5 a.r9

/-- Pages are asked for in the user half only, and a request that needs others is refused
    with an error, the process and the memory as they were. -/
def MmapConfined (fds : Nat → FdView) (p : Proc) (m : Mem τ) (a : MmapArgs) : Prop :=
  (∀ r p' m' log, recordedMmap M fds p m a = some (r, p', m', log) → InUserHalf log) ∧
    (a.Outside → ∃ r log, IsErrno r ∧ recordedMmap M fds p m a = some (r, p, m, log))

def recordedBrk (p : Proc) (m : Mem τ) (addr : Nat) : Option (Int × Proc × Mem τ × List Nat) :=
  sysBrk (recording (Mem.services M)) p (m, []) addr

/-- `brk` refuses by returning the break as it is. -/
def BrkConfined (p : Proc) (m : Mem τ) (addr : Nat) : Prop :=
  (∀ r p' m' log, recordedBrk M p m addr = some (r, p', m', log) → InUserHalf log) ∧
    (USER_END < addr → ∃ log, recordedBrk M p m addr = some (asI64 p.brkCurrent, p, m, log))

def BrkConfinable (base current addr : Nat) : Prop :=
  addr = 0 ∨ addr < base ∨ addr ≤ USER_END ∨ (addr + PAGE_MASK < 2 ^ 64 ∧ pagesOf addr * PAGE_SIZE = current)

def recordedLoad (m : Mem τ) (imageLen : Nat) (info : ElfInfo) :
    Option (Except String (Nat × Nat × Mem τ × List Nat)) :=
  loadElfAddressSpace (recordingLoads (Mem.loader M)) imageLen info (m, [])

/-- The segment has no page, or they end in the user half. -/
def SegmentInHalf (seg : LoadSegment) : Prop :=
  seg.vaddr / PAGE_SIZE = pagesOf (seg.vaddr + seg.memsz) ∨ pagesOf (seg.vaddr + seg.memsz) * PAGE_SIZE ≤ USER_END

def LoadConfined (m : Mem τ) (imageLen : Nat) (info : ElfInfo) : Prop :=
  (∀ pml4 stack m' log, recordedLoad M m imageLen info = some (.ok (pml4, stack, m', log)) → InUserHalf log) ∧
    ((∃ seg ∈ info.segments, ¬ SegmentInHalf seg) → ∃ e, recordedLoad M m imageLen info = some (.error e))

end

/-! ## What the loops ask for -/

theorem p4Index_lt {v : Nat} (h : v < USER_END) : p4Index v < 256 := by
  unfold p4Index
  unfold USER_END at h
  omega

section

variable {μ : Type} {ops : MemOps μ} {s s' : μ × List Nat} {pml4 base n : Nat} {flags : PtFlags} {ok : Bool}

/-- The list grew by addresses of the window at most. -/
def Within (lo hi : Nat) (s s' : μ × List Nat) : Prop := ∀ v ∈ s'.2, v ∈ s.2 ∨ (lo ≤ v ∧ v < hi)

variable {hi lo : Nat}

theorem within_of_log (h : s'.2 = s.2) : Within lo hi s s' := by
  intro v hv
  exact .inl (h ▸ hv)

theorem Within.trans {s'' : μ × List Nat} (h : Within lo hi s s') (h' : Within lo hi s' s'') : Within lo hi s s'' := by
  intro v hv
  rcases h' v hv with hv | hv
  · exact h v hv
  · exact .inr hv

theorem Within.inUserHalf (h : Within lo hi s s') (h0 : s.2 = []) (hhi : hi ≤ USER_END) : InUserHalf s'.2 := by
  intro v hv
  rcases h v hv with hv | ⟨-, hlt⟩
  · rw [h0] at hv
    cases hv
  · exact p4Index_lt (hlt.trans_le hhi)

theorem recording_map_within {v frame : Nat} (hv : lo ≤ v ∧ v < hi)
    (h : (recording ops).mapUserPage s pml4 v frame flags = some (ok, s')) : Within lo hi s s' := by
  intro w hw
  obtain ⟨_, -, hr⟩ := of_map h
  cases hr
  rcases List.mem_append.mp hw with hw | hw
  · exact .inl hw
  · obtain rfl := List.mem_singleton.mp hw
    exact .inr hv

theorem Within.alloc {t t' : μ × List Nat} {o : Option Nat} (h : Within lo hi s t)
    (ha : (recording ops).allocFrame t = (o, t')) :
    Within lo hi s t' := h.trans (within_of_log (congrArg (·.2.2) ha).symm)

theorem PageSource.within {mapPages : Nat → μ × List Nat → Option (Bool × μ × List Nat)} {fds : Nat → FdView}
    {shared : Bool}
    (hm : PageSource (recording ops) fds pml4 flags n shared mapPages) (h : mapPages base s = some (ok, s')) :
    Within base (base + n * PAGE_SIZE) s s' := by
  have hmap : ∀ j < n, ∀ t t' frame ok, Within base (base + n * PAGE_SIZE) s t →
      (recording ops).mapUserPage t pml4 (base + j * PAGE_SIZE) frame flags = some (ok, t') →
      Within base (base + n * PAGE_SIZE) s t' := by
    intro j hj t t' frame ok ht hmap
    refine ht.trans (recording_map_within ?_ hmap)
    simp only [PAGE_SIZE]
    omega
  have hinv := hm.inv base (fun _ => Within base (base + n * PAGE_SIZE) s) (Within base (base + n * PAGE_SIZE) s)
    (fun _ j hj t t1 t' frame ht ha ok h1 => ?_) (fun _ j hj t t' ht ha => ht.alloc ha)
    (fun _ j hj t t1 t' fd size frames frame ht _ _ h1 h2 => ?_)
    (fun _ j hj t t' fd size frames frame ht _ _ h1 => hmap j hj t t' frame _ ht h1) (within_of_log rfl) h
  · cases ok <;> exact hinv
  · cases ok <;> exact hmap j hj t1 t' frame _ (ht.alloc ha) h1
  · obtain ⟨-, -, rfl⟩ := of_map h2
    exact (hmap j hj t t1 frame _ ht h1).trans (within_of_log rfl)

theorem forRanges_log {ranges : List (Nat × Nat)} {unmap : μ × List Nat → Nat → Option (μ × List Nat)}
    (hu : ∀ t v t', unmap t v = some t' → t'.2 = t.2) (h : forRanges unmap ranges s = some s') : s'.2 = s.2 :=
  forRanges_inv (fun t => t.2 = s.2) (fun _ _ _ _ t t' ht hb => (hu t _ t' hb).trans ht) rfl h

end

/-! ## mmap -/

/-- The sizes of shared objects, rounded to pages, are 64-bit numbers: they have frames. -/
def SizesFit (fds : Nat → FdView) : Prop := ∀ n size frames, fds n = .shmem size frames → size + PAGE_MASK < 2 ^ 64

theorem isErrno_neg {e : Int} (h : 0 < e) (h' : e ≤ 4095) : IsErrno (-e) := ⟨by omega, by omega⟩

section

variable {μ : Type}

/-- The range check of a shared mapping, when the end of the range is a 64-bit number. -/
theorem sharedFits_eq {offset pages size : Nat} (ho : Aligned offset) (hs : size + PAGE_MASK < 2 ^ 64)
    (h : offset + pages * PAGE_SIZE < 2 ^ 64) :
    sharedFits offset (pages * PAGE_SIZE) size =
      some (decide (offset / PAGE_SIZE + pages ≤ pagesOf size)) := by
  obtain ⟨_, rfl⟩ := aligned_iff.mp ho
  unfold sharedFits
  rw [addU64_of_lt h, alignUp_of_lt hs]
  simp only [bind_eq_bind, bind_some, pure_def, pagesOf, PAGE_SIZE, PAGE_MASK]
  split
  · exact congrArg some (decide_eq_decide.mpr (by omega))
  · exact congrArg some (decide_eq_true (by omega)).symm

variable {fds : Nat → FdView} {a : MmapArgs}

/-- What the shared branch checks once the sum is made is that the range lies in the object. -/
theorem MmapArgs.outside_iff {size : Nat} {frames : List Nat} (hfd : fds a.a5 = .shmem size frames) :
    (!decide (a.r9 / PAGE_SIZE + pagesOf a.length ≤ pagesOf size) ||
      decide (a.r9 / PAGE_SIZE + pagesOf a.length > frames.length)) = true ↔ ¬ a.InObject fds := by
  simp only [Bool.or_eq_true, Bool.not_eq_true', decide_eq_false_iff_not, decide_eq_true_eq]
  constructor
  · rintro _ ⟨_, frames', hfd', h1, h2⟩
    cases hfd.symm.trans hfd'
    omega
  · intro hin
    by_contra hc
    exact hin ⟨size, frames, hfd, by omega, by omega⟩

theorem MmapArgs.not_badArgs_shared (h0 : a.length ≠ 0)
    (hsp : a.has MAP_SHARED ≠ a.has MAP_PRIVATE) (hsh : a.has MAP_SHARED = true) (han : ¬ a.has MAP_ANONYMOUS = true)
    (hr9 : Aligned a.r9) (hin : a.InObject fds) : ¬ a.BadArgs fds := by
  rintro (h | h | h | h | h)
  · exact h0 h
  · exact hsp h
  · exact han h.2
  · exact h.2.elim (fun h => h hr9) fun h => h hin
  · exact h.1 hsh

theorem MmapArgs.not_badArgs_private (h0 : a.length ≠ 0)
    (hsp : a.has MAP_SHARED ≠ a.has MAP_PRIVATE) (hsh : ¬ a.has MAP_SHARED = true)
    (h : a.has MAP_ANONYMOUS = true ∨ Aligned a.r9 ∧ ∃ len, fds (fdI32 a.a5) = .file (some len)) : ¬ a.BadArgs fds := by
  rintro (hb | hb | hb | hb | ⟨-, han, hb⟩)
  · exact h0 hb
  · exact hsp hb
  · exact hsh hb.1
  · exact hsh hb.1
  · obtain ⟨hr9, hfile⟩ := h.resolve_left han
    exact hb.elim (fun hb => hb hr9) fun hb => hb hfile

theorem sysMmap_overflow (hlen : a.length + PAGE_MASK < 2 ^ 64) (hs : a.Sums fds)
    (hover : ¬ a.r9 + pagesOf a.length * PAGE_SIZE < 2 ^ 64) (ops : MemOps μ) (p : Proc) (mem : μ) :
    sysMmap ops fds p mem a.addr a.length a.prot a.flags a.a5 a.r9 = none := by
  obtain ⟨_, hsh, hpriv, han, hr9, size, _, hfd⟩ := hs
  have hhas : ∀ flag, decide (BitVec.ofNat 32 a.flags &&& flag ≠ 0) = a.has flag := fun _ => rfl
  have hne : pagesOf a.length * PAGE_SIZE ≠ 0 := by
    simp only [pagesOf, PAGE_SIZE, PAGE_MASK]
    omega
  have hfits : sharedFits a.r9 (pagesOf a.length * PAGE_SIZE) size = none := by
    rw [sharedFits, addU64, if_neg hover]
    rfl
  unfold sysMmap
  rw [alignUp_of_lt hlen, bind_eq_bind, bind_some]
  simp only [hhas]
  rw [if_neg hne, if_neg (by rw [hsh]; exact fun h => hpriv h.symm), if_neg (by simp [han]), if_pos hsh,
    if_neg (not_not.mpr hr9), hfd]
  simp only [hfits, bind_eq_bind, bind_none]

/-- A call ends with an error for its arguments, or panics on the sum of a shared mapping,
    or goes on to place an area. -/
theorem sysMmap_cases (hfit : SizesFit fds) (hlen : a.length + PAGE_MASK < 2 ^ 64) (ops : MemOps μ)
    (p : Proc) (mem : μ) :
    (a.BadArgs fds ∧ ∃ r, IsErrno r ∧ sysMmap ops fds p mem a.addr a.length a.prot a.flags a.a5 a.r9 =
      some (r, p, mem)) ∨
    (a.Sums fds ∧ ¬ a.r9 + pagesOf a.length * PAGE_SIZE < 2 ^ 64 ∧
      sysMmap ops fds p mem a.addr a.length a.prot a.flags a.a5 a.r9 = none) ∨
    (¬ a.BadArgs fds ∧ ∃ vma shared mapPages, vma.len = pagesOf a.length * PAGE_SIZE ∧
      PageSource ops fds p.pml4 vma.pageTableFlags (pagesOf a.length) shared mapPages ∧
      sysMmap ops fds p mem a.addr a.length a.prot a.flags a.a5 a.r9 =
        mmapPlace ops p mem a.addr (a.has MAP_FIXED) vma mapPages) := by
  have hinval : IsErrno (-EINVAL) := isErrno_neg (by decide) (by decide)
  have hnodev : IsErrno (-ENODEV) := isErrno_neg (by decide) (by decide)
  have hbadf : IsErrno (-EBADF) := isErrno_neg (by decide) (by decide)
  have hpages : pagesOf a.length * PAGE_SIZE / PAGE_SIZE = pagesOf a.length := Nat.mul_div_cancel _ (by decide)
  have hhas : ∀ flag, decide (BitVec.ofNat 32 a.flags &&& flag ≠ 0) = a.has flag := fun _ => rfl
  unfold sysMmap
  rw [alignUp_of_lt hlen, bind_eq_bind, bind_some]
  simp only [hpages, hhas]
  by_cases h0 : a.length = 0
  · have hz : pagesOf a.length * PAGE_SIZE = 0 := by rw [h0]; rfl
    rw [if_pos hz]
    exact .inl ⟨.inl h0, _, hinval, rfl⟩
  have hne : pagesOf a.length * PAGE_SIZE ≠ 0 := by
    simp only [pagesOf, PAGE_SIZE, PAGE_MASK]
    omega
  rw [if_neg hne]
  by_cases hsp : a.has MAP_SHARED = a.has MAP_PRIVATE
  · rw [if_pos hsp]
    exact .inl ⟨.inr (.inl hsp), _, hinval, rfl⟩
  rw [if_neg hsp]
  by_cases hsh : a.has MAP_SHARED = true
  · by_cases han : a.has MAP_ANONYMOUS = true
    · rw [if_pos (by rw [hsh, han]; rfl)]
      exact .inl ⟨.inr (.inr (.inl ⟨hsh, han⟩)), _, hinval, rfl⟩
    rw [if_neg (by simp [han]), if_pos hsh]
    by_cases hr9 : Aligned a.r9
    swap
    · rw [if_pos hr9]
      exact .inl ⟨.inr (.inr (.inr (.inl ⟨hsh, .inl hr9⟩))), _, hinval, rfl⟩
    rw [if_neg (not_not.mpr hr9)]
    have hnot : ¬ a.InObject fds → a.BadArgs fds := fun h => .inr (.inr (.inr (.inl ⟨hsh, .inr h⟩)))
    split
    · rename_i size frames hfd
      by_cases hsum : a.r9 + pagesOf a.length * PAGE_SIZE < 2 ^ 64
      · rw [sharedFits_eq hr9 (hfit _ _ _ hfd) hsum, bind_eq_bind, bind_some]
        by_cases hin : a.InObject fds
        · rw [if_neg fun hc => (MmapArgs.outside_iff hfd).mp hc hin]
          have hgood := MmapArgs.not_badArgs_shared h0 hsp hsh han hr9 hin
          obtain ⟨_, _, hfd', -, _⟩ := hin
          cases hfd.symm.trans hfd'
          have hl : ((frames.drop (a.r9 / PAGE_SIZE)).take (pagesOf a.length)).length = pagesOf a.length := by
            rw [List.length_take, List.length_drop]
            omega
          exact .inr (.inr ⟨hgood, _, _, _, rfl, .shared _ _ _ _ hfd hl, rfl⟩)
        · rw [if_pos ((MmapArgs.outside_iff hfd).mpr hin)]
          exact .inl ⟨hnot hin, _, hinval, rfl⟩
      · refine .inr (.inl ⟨⟨h0, hsh, ?_, han, hr9, size, frames, hfd⟩, hsum, ?_⟩)
        · rintro hpriv
          exact hsp (hsh.trans hpriv.symm)
        · rw [sharedFits, addU64, if_neg hsum]
          rfl
    · rename_i hfd
      refine .inl ⟨hnot ?_, _, hnodev, rfl⟩
      rintro ⟨size, frames, h, -⟩
      exact hfd size frames h
  rw [if_neg (by simp [hsh]), if_neg hsh]
  by_cases han : a.has MAP_ANONYMOUS = true
  · rw [if_pos han]
    have hgood : ¬ a.BadArgs fds := MmapArgs.not_badArgs_private h0 hsp hsh (.inl han)
    exact .inr (.inr ⟨hgood, _, _, _, rfl, .alloc none, rfl⟩)
  rw [if_neg han]
  have hbad : (¬ Aligned a.r9 ∨ ¬ ∃ len, fds (fdI32 a.a5) = .file (some len)) → a.BadArgs fds :=
    fun h => .inr (.inr (.inr (.inr ⟨hsh, han, h⟩)))
  by_cases hr9 : Aligned a.r9
  swap
  · rw [if_pos hr9]
    exact .inl ⟨hbad (.inl hr9), _, hinval, rfl⟩
  rw [if_neg (not_not.mpr hr9)]
  split
  · rename_i len hfd
    have hgood := MmapArgs.not_badArgs_private h0 hsp hsh (.inr ⟨hr9, len, hfd⟩)
    exact .inr (.inr ⟨hgood, _, _, _, rfl, .alloc (some a.r9), rfl⟩)
  · rename_i hfd
    refine .inl ⟨hbad (.inr ?_), _, hnodev, rfl⟩
    rintro ⟨len, h⟩
    cases hfd.symm.trans h
  · rename_i hfile _
    refine .inl ⟨hbad (.inr ?_), _, hbadf, rfl⟩
    rintro ⟨len, h⟩
    exact hfile len h

/-- A placement asks for the pages of its window: the one at `addr`, or one of the gap finder's. -/
theorem mmapPlace_inUserHalf {ops : MemOps μ} {p p' : Proc} {s s' : μ × List Nat} {addr n : Nat} {fixed shared : Bool}
    {vma : Vma} {flags : PtFlags} {mapPages : Nat → μ × List Nat → Option (Bool × μ × List Nat)} {r : Int}
    (hp : VmasOk p) (hs : s.2 = []) (hl : vma.len = n * PAGE_SIZE)
    (hm : PageSource (recording ops) fds p.pml4 flags n shared mapPages)
    (hfixed : fixed → addr = 0 ∨ ¬ Aligned addr ∨ addr + n * PAGE_SIZE ≤ USER_END)
    (h : mmapPlace (recording ops) p s addr fixed vma mapPages = some (r, p', s')) : InUserHalf s'.2 := by
  rcases mmapPlace_inv h with ⟨-, -, -, rfl⟩ | ⟨hf, h0, hal, -, _, s1, _, -, h1, h2, -⟩ | ⟨-, base, ok, hgap, h1, -⟩
  · rw [hs]
    exact fun v hv => nomatch hv
  · have hlog : s1.2 = s.2 := by
      refine forRanges_log (fun t v t' hb => ?_) h1
      obtain ⟨m, -, rfl⟩ := of_map hb
      rfl
    have hend : addr + n * PAGE_SIZE ≤ USER_END := ((hfixed hf).resolve_left h0).resolve_left (not_not.mpr hal)
    exact (hm.within h2).inUserHalf (hlog.trans hs) hend
  · obtain ⟨-, hceil, -⟩ := findMmapGap_free hp.1 (hl ▸ dvd_mul_left _ _) hgap
    rw [hl] at hceil
    exact (hm.within h1).inUserHalf hs (le_trans hceil (by decide))

theorem findMmapGap_too_long {m : VmaMap} {len : Nat} (h : USER_END < len) : findMmapGap m len = some none := by
  have : len > MMAP_CEILING - MMAP_FLOOR := lt_trans (by decide) h
  rw [findMmapGap, findGapTopdown, if_pos (.inr (.inr this))]
  rfl

end

theorem mmapConfined_of_confinable {τ : Type} {M : Mapper τ} {fds : Nat → FdView} {a : MmapArgs} {p : Proc} {m : Mem τ}
    (hfit : SizesFit fds) (ha : a.Confinable fds) (hp : VmasOk p) : MmapConfined M fds p m a := by
  unfold MmapConfined recordedMmap
  rcases sysMmap_cases hfit ha.length (recording (services M)) p (m, []) with
    ⟨-, r, hr, h⟩ | ⟨hsums, hover, h⟩ | ⟨hargs, vma, shared, mapPages, hl, hm, h⟩
  · rw [h]
    refine ⟨?_, fun _ => ⟨r, [], hr, rfl⟩⟩
    intro r' p' m' log he
    cases he
    exact fun v hv => nomatch hv
  · rw [h]
    exact ⟨fun _ _ _ _ he => (nomatch he), fun hout => absurd (ha.sum hout hsums) hover⟩
  · rw [h]
    refine ⟨fun r p' m' log he => mmapPlace_inUserHalf hp rfl hl hm (fun hf => ?_) he, fun hout => ?_⟩
    · rcases ha.fixed hf with hb | h0 | hal | hend
      · exact absurd hb hargs
      · exact .inl h0
      · exact .inr (.inl hal)
      · by_cases hal : Aligned a.addr
        · exact .inr (.inr (pages_le_userEnd hal hend))
        · exact .inr (.inl hal)
    · unfold MmapArgs.Outside at hout
      unfold mmapPlace
      by_cases hf : a.has MAP_FIXED = true
      · rw [if_pos hf] at hout ⊢
        have hrefused : a.addr = 0 ∨ ¬ Aligned a.addr := by
          rcases ha.fixed hf with hb | h0 | hal | hend
          · exact absurd hb hargs
          · exact .inl h0
          · exact .inr hal
          · exact absurd hend (not_le.mpr hout)
        rw [if_pos hrefused]
        exact ⟨-EINVAL, [], isErrno_neg (by decide) (by decide), rfl⟩
      · rw [if_neg hf] at hout ⊢
        have hlen : USER_END < vma.len := by
          rw [hl]
          refine lt_of_lt_of_le hout ?_
          simp only [pagesOf, PAGE_SIZE, PAGE_MASK]
          omega
        rw [findMmapGap_too_long hlen]
        exact ⟨-ENOMEM, [], isErrno_neg (by decide) (by decide), rfl⟩

/-! ## A memory that can be mapped anywhere -/

/-- One address space without a page, and frames for a page and its tables. -/
def blankMem (pml4 : Nat) : Mem Tree where
  frames := ⟨[0x2000, 0x3000, 0x4000, 0x5000], 0, []⟩
  refcounts := .empty
  spaces := OrdMap.empty.insert pml4 Tree.fresh

def HasLeaf (m : Mem Tree) (pml4 v : Nat) : Prop := ∃ t e, m.spaces.get? pml4 = some t ∧ t.1.leaves.get? v = some e

theorem blankMem_no_leaf {pml4 v : Nat} : ¬ HasLeaf (blankMem pml4) pml4 v := by
  rintro ⟨_, _, ht, he⟩
  rw [blankMem, get?_insert, if_pos rfl] at ht
  cases ht
  cases he

section

variable {m m' : Mem Tree} {pml4 v f : Nat} {flags : PtFlags} {ok : Bool}

theorem mapUserPage_hasLeaf (h : m.mapUserPage mapper pml4 v f flags = some (ok, m')) :
    (ok → HasLeaf m' pml4 v) ∧ ∀ w, HasLeaf m pml4 w → HasLeaf m' pml4 w := by
  obtain ⟨_, ht, h⟩ := of_bind h
  obtain ⟨⟨_, t', a⟩, hmap, h⟩ := of_bind h
  cases h
  have hl := Tables.mapTo_leaves (mapTo_eq_some hmap)
  have hget : (m.spaces.insert pml4 t').get? pml4 = some t' := by rw [get?_insert, if_pos rfl]
  refine ⟨fun hok => ?_, ?_⟩
  · rw [if_pos hok] at hl
    exact ⟨t', (f, flags), hget, by rw [hl.2, get?_insert, if_pos rfl]⟩
  · rintro w ⟨t1, e, ht1, he⟩
    cases ht.symm.trans ht1
    by_cases hok : ok = true
    · rw [if_pos hok] at hl
      refine ⟨t', e, hget, ?_⟩
      rw [hl.2, get?_insert, if_neg, he]
      intro hw
      rw [← hw, he] at hl
      cases hl.1
    · rw [if_neg hok] at hl
      exact ⟨t', e, hget, by rw [hl, he]⟩

theorem refShare_hasLeaf (h : m.refShare f = some m') (hv : HasLeaf m pml4 v) : HasLeaf m' pml4 v := by
  obtain ⟨-, ⟨⟩⟩ := of_guard h
  exact hv

variable {base n : Nat} {s s' : Mem Tree × List Nat}

theorem blankMem_maps (hn : n ≤ 1)
    (h : mapUserPage mapper { blankMem pml4 with frames := ⟨[0x2000, 0x3000, 0x4000, 0x5000], n, []⟩ } pml4 v f
      flags = some (ok, m')) : ok = true := by
  obtain ⟨t, ht, h⟩ := of_bind h
  obtain ⟨⟨_, _, _⟩, hmap, h⟩ := of_bind h
  cases h
  have hfresh : t = fresh := by
    rw [blankMem, get?_insert, if_pos rfl] at ht
    exact (some.inj ht).symm
  subst hfresh
  have hmap := mapTo_eq_some hmap
  cases hpres : flags.present with
  | false =>
    rcases Nat.le_one_iff_eq_zero_or_eq_one.mp hn with rfl | rfl <;>
      simp [Tables.mapTo, Tables.createNextTable, fresh, allocate, allocateSequential, hpres] at hmap
  | true =>
    rcases Nat.le_one_iff_eq_zero_or_eq_one.mp hn with rfl | rfl <;>
      simp [Tables.mapTo, Tables.createNextTable, Tables.setLeaf, fresh, allocate, allocateSequential,
        hpres] at hmap <;> exact hmap.1

abbrev recorded : MemOps (Mem Tree × List Nat) := recording (Mem.services Tree.mapper)

theorem recorded_map_hasLeaf (h : recorded.mapUserPage s pml4 v f flags = some (ok, s')) :
    (ok → HasLeaf s'.1 pml4 v) ∧ ∀ w, HasLeaf s.1 pml4 w → HasLeaf s'.1 pml4 w := by
  obtain ⟨⟨_, _⟩, h1, hr⟩ := of_map h
  cases hr
  exact mapUserPage_hasLeaf h1

theorem recorded_map_blank (hn : n ≤ 1) {log : List Nat}
    (h : recorded.mapUserPage ({ blankMem pml4 with frames := ⟨[0x2000, 0x3000, 0x4000, 0x5000], n, []⟩ }, log) pml4
      (base + 0 * PAGE_SIZE) f flags = some (ok, s')) :
    HasLeaf s'.1 pml4 base := by
  obtain ⟨⟨_, _⟩, h1, hr⟩ := of_map h
  cases hr
  exact (mapUserPage_hasLeaf h1).1 (blankMem_maps hn h1)

variable {mapPages : Nat → Mem Tree × List Nat → Option (Bool × Mem Tree × List Nat)}

theorem PageSource.hasLeaf {fds : Nat → FdView}
    {shared : Bool} (hm : PageSource recorded fds pml4 flags n shared mapPages) (hn : 0 < n)
    (h : mapPages base (blankMem pml4, []) = some (ok, s')) : HasLeaf s'.1 pml4 base := by
  have halloc : recorded.allocFrame (blankMem pml4, []) =
      (some 0x2000, { blankMem pml4 with frames := ⟨[0x2000, 0x3000, 0x4000, 0x5000], 1, []⟩ }, []) := rfl
  have hkeep : ∀ {t t' o}, HasLeaf t.1 pml4 base → recorded.allocFrame t = (o, t') → HasLeaf t'.1 pml4 base := by
    intro t t' o ht ha
    rw [← congrArg (·.2.1) ha]
    exact ht
  -- before the first page nothing has happened; after it the page has a leaf
  have hinv := hm.inv base (fun i t => i = 0 ∧ t = (blankMem pml4, []) ∨ HasLeaf t.1 pml4 base)
    (fun t => HasLeaf t.1 pml4 base)
    ?_ ?_ ?_ ?_ (.inl ⟨rfl, rfl⟩) h
  · cases ok with
    | false => exact hinv
    | true => exact hinv.resolve_left fun h0 => absurd h0.1 (ne_of_gt hn)
  · intro _ j _ t t1 t' frame ht ha ok hmap
    have hleaf : HasLeaf t'.1 pml4 base := by
      rcases ht with ⟨rfl, rfl⟩ | ht
      · cases halloc.symm.trans ha
        exact recorded_map_blank (le_refl 1) hmap
      · exact (recorded_map_hasLeaf hmap).2 base (hkeep ht ha)
    cases ok
    · exact hleaf
    · exact .inr hleaf
  · rintro _ j _ t t' (⟨rfl, rfl⟩ | ht) ha
    · cases halloc.symm.trans ha
    · exact hkeep ht ha
  · intro _ j _ t t1 t' fd size frames frame ht _ _ hmap hshare
    obtain ⟨_, h2, rfl⟩ := of_map hshare
    refine .inr (refShare_hasLeaf h2 ?_)
    rcases ht with ⟨rfl, rfl⟩ | ht
    · exact recorded_map_blank (Nat.zero_le 1) hmap
    · exact (recorded_map_hasLeaf hmap).2 base ht
  · rintro _ _ _ t t' fd size frames frame (⟨rfl, rfl⟩ | ht) _ _ hmap
    · exact recorded_map_blank (Nat.zero_le 1) hmap
    · exact (recorded_map_hasLeaf hmap).2 base ht

end

/-- A process without areas, on the blank memory. -/
def blankProc (brkBase brkCurrent : Nat) : Proc := ⟨0x1000, brkBase, brkCurrent, .empty⟩

theorem blankProc_vmasOk (base current : Nat) : VmasOk (blankProc base current) := by
  refine ⟨⟨by simp [blankProc], by simp [blankProc], by simp [blankProc], by simp [blankProc], .nil⟩, ?_⟩
  intro x hx
  simp [blankProc] at hx

variable {addr imageLen : Nat} {info : ElfInfo}

/-- Placing an area at a fixed address of the blank memory maps its first page, if it returns. -/
theorem mmapPlace_blank {vma : Vma} {flags : PtFlags} {n : Nat} {r : Int} {p' : Proc} {s' : Mem Tree × List Nat}
    {fds : Nat → FdView} {shared : Bool}
    (hm : PageSource recorded fds 0x1000 flags n shared mapPages) (hn : 0 < n) (haddr : addr ≠ 0) (hal : Aligned addr)
    (h : mmapPlace recorded (blankProc 0 0) (blankMem 0x1000, []) addr true vma mapPages = some (r, p', s')) :
    HasLeaf s'.1 0x1000 addr := by
  unfold mmapPlace at h
  rw [if_pos rfl, if_neg (by simp [haddr, hal])] at h
  obtain ⟨⟨_, ranges⟩, hsweep, h⟩ := of_bind h
  obtain ⟨_, h1, h⟩ := of_bind h
  obtain ⟨⟨ok, s2⟩, h2, h⟩ := of_bind h
  have hranges : ranges = [] := by
    obtain ⟨stop, -, hsweep⟩ := of_bind hsweep
    cases hsweep
    rfl
  rw [hranges] at h1
  have hleaf := hm.hasLeaf hn (some.inj h1 ▸ h2)
  simp only at h
  split at h <;> cases h <;> exact hleaf

theorem confinable_of_mmapConfined {fds : Nat → FdView} {a : MmapArgs} (hfit : SizesFit fds)
    (h : MmapConfined mapper fds (blankProc 0 0) (blankMem 0x1000) a) : a.Confinable fds := by
  have hlen : a.length + PAGE_MASK < 2 ^ 64 := by
    by_contra hc
    have hout : a.Outside := by
      unfold MmapArgs.Outside
      simp only [PAGE_MASK, USER_END] at *
      split <;> omega
    obtain ⟨r, log, -, hr⟩ := h.2 hout
    unfold recordedMmap sysMmap at hr
    rw [alignUp_of_le (Nat.le_of_not_lt hc)] at hr
    cases hr
  refine ⟨hlen, fun hf => ?_, fun hout hsums => ?_⟩
  · by_contra hc
    simp only [not_or, not_not, not_le] at hc
    obtain ⟨hargs, haddr, hal, _⟩ := hc
    have hout : a.Outside := by
      unfold MmapArgs.Outside
      rwa [if_pos hf]
    obtain ⟨r, log, -, hr⟩ := h.2 hout
    unfold recordedMmap at hr
    rcases sysMmap_cases hfit hlen recorded (blankProc 0 0) (blankMem 0x1000, []) with
      ⟨hb, -⟩ | ⟨-, -, hnone⟩ | ⟨-, vma, shared, mapPages, -, hm, hplace⟩
    · exact hargs hb
    · rw [hnone] at hr
      cases hr
    rw [hplace, hf] at hr
    have hn : 0 < pagesOf a.length := by
      have : a.length ≠ 0 := fun h0 => hargs (.inl h0)
      simp only [pagesOf, PAGE_SIZE, PAGE_MASK]
      omega
    exact blankMem_no_leaf (mmapPlace_blank hm hn haddr hal hr)
  · by_contra hc
    obtain ⟨_, _, -, hr⟩ := h.2 hout
    unfold recordedMmap at hr
    rw [sysMmap_overflow hlen hsums hc] at hr
    cases hr

/-! ## brk -/

theorem brkConfined_of_confinable {τ : Type} {M : Mapper τ} {p : Proc} {m : Mem τ}
    (h : BrkConfinable p.brkBase p.brkCurrent addr) : BrkConfined M p m addr := by
  have hnone : InUserHalf [] := fun v hv => nomatch hv
  refine ⟨fun r p' m' log he => ?_, fun hout => ?_⟩
  · rcases sysBrk_inv he with ⟨-, -, he⟩ | ⟨-, hun, -⟩ | ⟨hearly, hlt, _, hmap, -⟩
    · cases he
      exact hnone
    · have hlog : log = [] := by
        refine forRanges_log (s := (m, [])) (fun t v t' hb => ?_) hun
        obtain ⟨-, -, rfl⟩ := of_map hb
        rfl
      rw [hlog]
      exact hnone
    · have hend : p.brkCurrent + (pagesOf addr * PAGE_SIZE - p.brkCurrent) / PAGE_SIZE * PAGE_SIZE ≤ USER_END := by
        rcases h with h | h | h | ⟨-, h⟩
        · exact absurd (.inl h) hearly
        · exact absurd (.inr h) hearly
        · simp only [pagesOf, PAGE_SIZE, PAGE_MASK, USER_END] at *
          omega
        · exact absurd h (ne_of_gt hlt)
      exact ((PageSource.grow _ _ _ _).within hmap).inUserHalf rfl hend
  · unfold recordedBrk sysBrk
    split
    · exact ⟨[], rfl⟩
    rename_i hearly
    rcases h with h | h | h | ⟨hlt, hcur⟩
    · exact absurd (.inl h) hearly
    · exact absurd (.inr h) hearly
    · exact absurd h (not_le.mpr hout)
    · rw [alignUp_of_lt hlt, hcur, bind_eq_bind, bind_some, if_neg (lt_irrefl _), if_pos rfl]
      exact ⟨[], rfl⟩

theorem confinable_of_brkConfined {base current : Nat}
    (h : BrkConfined mapper (blankProc base current) (blankMem 0x1000) addr) : BrkConfinable base current addr := by
  by_cases hout : addr ≤ USER_END
  · exact .inr (.inr (.inl hout))
  obtain ⟨_, hr⟩ := h.2 (not_le.mp hout)
  rcases sysBrk_inv hr with ⟨hsame, -⟩ | ⟨hlt, -, hp⟩ | ⟨-, hlt, ok, hmap, hp⟩
  · exact hsame.imp_right (Or.imp_right .inr)
  · exact absurd (congrArg Proc.brkCurrent hp) (ne_of_gt hlt)
  cases ok with
  | true => exact absurd (congrArg Proc.brkCurrent hp) (ne_of_lt hlt)
  | false =>
    -- the loop failed on some page, so there was one, and the first was mapped
    have hn : 0 < (pagesOf addr * PAGE_SIZE - current) / PAGE_SIZE := by
      refine Nat.pos_of_ne_zero fun h0 => ?_
      have h1 : forPages _ ((pagesOf addr * PAGE_SIZE - current) / PAGE_SIZE) 0 _ = _ := hmap
      rw [h0] at h1
      cases h1
    exact absurd ((PageSource.grow _ _ _ _).hasLeaf hn hmap) blankMem_no_leaf

/-! ## The loader -/

section

variable {μ : Type} {s s' : μ × List Nat} {pml4 : Nat}

theorem mapSegments_within {ops : MemOps μ} {segments : List LoadSegment}
    (hv : ∀ seg ∈ segments, seg.vaddr < 2 ^ 64) (hs : ∀ seg ∈ segments, SegmentInHalf seg)
    (h : mapSegments (recording ops) pml4 imageLen segments s = some s') : Within 0 USER_END s s' := by
  refine mapSegments_inv (Within 0 USER_END s) ?_ (within_of_log rfl) h
  intro seg hseg pageStart n hp i hi t t1 t' frame ht ha hmap
  have hlow : pageStart + i * PAGE_SIZE < USER_END := by
    have hin := hs seg hseg
    obtain ⟨rfl, rfl⟩ := segmentPages_eq_some (hv seg hseg) hp
    unfold SegmentInHalf at hin
    simp only [PAGE_SIZE] at *
    omega
  exact (ht.alloc ha).trans (recording_map_within ⟨Nat.zero_le _, hlow⟩ hmap)

theorem mapStack_within {ops : LoadOps μ} {stack : Nat}
    (h : mapStack (recordingLoads ops) pml4 s = some (stack, s')) : Within 0 USER_END s s' := by
  refine mapStack_inv (fun _ => Within 0 USER_END s)
    (fun i hi t t' ht hmap => ht.trans (recording_map_within ⟨Nat.zero_le _, ?_⟩ hmap)) (fun s1 h1 => ?_) h
  · simp only [ELF_STACK_VIRT, ELF_STACK_PAGES, PAGE_SIZE, USER_END] at *
    omega
  · obtain ⟨_, -, hr⟩ := of_map h1
    exact within_of_log (congrArg (·.2.2) hr).symm

end

theorem loadConfined_of_segments {τ : Type} {M : Mapper τ} {m : Mem τ}
    (hv : ∀ seg ∈ info.segments, seg.vaddr < 2 ^ 64) (hs : ∀ seg ∈ info.segments, SegmentInHalf seg) :
    LoadConfined M m imageLen info := by
  refine ⟨?_, ?_⟩
  · intro pml4 stack m' log h
    obtain ⟨⟨_, s1⟩, h1, h⟩ := of_bind h
    obtain ⟨_, h2, h⟩ := of_bind h
    obtain ⟨⟨stack', s3⟩, h3, h⟩ := of_bind h
    cases h
    obtain ⟨r, -, hr⟩ := of_map h1
    have hs1 : s1.2 = [] := (congrArg (·.2.2) hr).symm
    exact ((mapSegments_within hv hs h2).trans (mapStack_within h3)).inUserHalf hs1 le_rfl
  · rintro ⟨seg, hseg, hout⟩
    exact absurd (hs seg hseg) hout

/-- The loader has no way to refuse: it loads, or panics. -/
theorem loadElfAddressSpace_ne_error {μ : Type} {ops : LoadOps μ} {mem : μ} {e : String} :
    loadElfAddressSpace ops imageLen info mem ≠ some (.error e) := by
  intro h
  obtain ⟨⟨_, _⟩, -, h⟩ := of_bind h
  obtain ⟨s2, -, h⟩ := of_bind h
  obtain ⟨⟨stack, s3⟩, -, h⟩ := of_bind h
  cases h

/-! ## The arguments for which mappings are confined -/

/-- Exactly for these arguments of `mmap` and `brk`, and for these segments of an accepted
    image, is every page the kernel asks for in the user half and every request for another
    one refused without effect, in every memory and process. -/
theorem mappings_confined (fds : Nat → FdView) (a : MmapArgs) (base current addr : Nat) (data : List UInt8)
    (info : ElfInfo) : (SizesFit fds →
      ((∀ (τ : Type) (M : Mapper τ) (m : Mem τ) (p : Proc), M.Lawful → VmasOk p → MmapConfined M fds p m a) ↔
        a.Confinable fds)) ∧
    ((∀ (τ : Type) (M : Mapper τ) (m : Mem τ) (p : Proc), M.Lawful → p.brkBase = base → p.brkCurrent = current →
        BrkConfined M p m addr) ↔ BrkConfinable base current addr) ∧
    (parse data = some (.ok info) →
      ((∀ (τ : Type) (M : Mapper τ) (m : Mem τ), M.Lawful → LoadConfined M m data.length info) ↔
        ∀ seg ∈ info.segments, SegmentInHalf seg)) := by
  refine ⟨fun hfit => ⟨fun h => ?_, fun h τ M m p _ hp => mmapConfined_of_confinable hfit h hp⟩,
    ⟨fun h => ?_, fun h τ M m p _ hb hc => ?_⟩, fun hparse => ⟨fun h seg hseg => ?_, fun h τ M m _ => ?_⟩⟩
  · exact confinable_of_mmapConfined hfit (h Tree mapper _ _ mapper_lawful (blankProc_vmasOk 0 0))
  · exact confinable_of_brkConfined (h Tree mapper _ (blankProc base current) mapper_lawful rfl rfl)
  · subst hb hc
    exact brkConfined_of_confinable h
  · by_contra hout
    obtain ⟨_, he⟩ := (h Tree mapper (blankMem 0x1000) mapper_lawful).2 ⟨seg, hseg, hout⟩
    exact loadElfAddressSpace_ne_error he
  · exact loadConfined_of_segments (fun seg hseg => (parse_segment hparse seg hseg).vaddr) h

/-- A header and one PT_LOAD of a page at 0x400000. -/
def tinyImage : List UInt8 :=
  [0x7F, 0x45, 0x4C, 0x46, 2, 1, 1, 0, 0, 0, 0, 0, 0, 0, 0, 0, 2, 0, 62, 0, 1, 0, 0, 0] ++
  [0x78, 0, 0x40, 0, 0, 0, 0, 0, 64, 0, 0, 0, 0, 0, 0, 0, 0, 0, 0, 0, 0, 0, 0, 0, 0, 0, 0, 0, 64, 0, 56, 0, 1, 0, 0, 0,
    0, 0, 0, 0] ++
  [1, 0, 0, 0, 5, 0, 0, 0, 0, 0, 0, 0, 0, 0, 0, 0, 0, 0, 0x40, 0, 0, 0, 0, 0, 0, 0, 0x40, 0, 0, 0, 0, 0] ++
  [120, 0, 0, 0, 0, 0, 0, 0, 0, 0x10, 0, 0, 0, 0, 0, 0, 0, 0x10, 0, 0, 0, 0, 0, 0]

def tinyInfo : ElfInfo := ⟨0x400078, [⟨0x400000, 0, 120, 0x1000, 5⟩], 0x400040, 1, 56⟩

theorem mappings_confined_low :
    MmapConfined Tree.mapper (fun _ => .absent) (blankProc 0 0) (blankMem 0x1000) ⟨0x10000, 0x2000, 3, 0x32, 0, 0⟩ ∧
      BrkConfined Tree.mapper (blankProc 0x500000 0x500000) (blankMem 0x1000) 0x501000 ∧
      LoadConfined Tree.mapper (blankMem 0x1000) tinyImage.length tinyInfo := by
  obtain ⟨hmmap, hbrk, hload⟩ := mappings_confined (fun _ => .absent) ⟨0x10000, 0x2000, 3, 0x32, 0, 0⟩ 0x500000
    0x500000 0x501000
    tinyImage tinyInfo
  refine ⟨(hmmap (by intro _ _ _ h; cases h)).mpr ⟨by decide, fun _ => ?_, fun _ hs => ?_⟩ Tree
      mapper _ _ mapper_lawful (blankProc_vmasOk 0 0),
    hbrk.mpr (by unfold BrkConfinable; decide) Tree mapper _ _ mapper_lawful rfl rfl,
    (hload (by decide)).mpr (fun seg hseg => ?_) Tree mapper _ mapper_lawful⟩
  · exact .inr (.inr (.inr (by decide)))
  · obtain ⟨-, -, -, -, -, _, _, h⟩ := hs
    cases h
  · obtain rfl := List.mem_singleton.mp hseg
    unfold SegmentInHalf
    decide

/-- A private anonymous MAP_FIXED in the kernel half succeeds. -/
theorem mmap_fixed_in_kernel_half :
    (recordedMmap Tree.mapper (fun _ => .absent) (blankProc 0 0) (blankMem 0x1000)
        ⟨0xFFFF_9000_0000_0000, 0x1000, 3, 0x32, 0, 0⟩).map (fun x => (x.1, x.2.2.2)) =
      some (asI64 0xFFFF_9000_0000_0000, [0xFFFF_9000_0000_0000]) ∧
    p4Index 0xFFFF_9000_0000_0000 = 288 := by
  decide

end Ostoo.Memory
