/-
  Ostoo.Memory.Syscalls — brk, mmap, munmap and mprotect (`syscalls/mem.rs`) of one
  process, over any memory services.

  The page tables, frames and reference counts are behind `MemOps`, the operations of
  `MemoryServices` these calls use; what a call does to the process's own record is the
  same whatever they answer. `none` is a panic. File contents are not modelled: a file
  only says how long it is. The calls of kernel threads (pid 0) return at once and are
  left out.

  Proved: in every run of the four calls the area map stays well formed with 64-bit ends
  (`reachable_vmasOk`).
-/

import Ostoo.Lib.Machine
import Ostoo.Memory.Gap

namespace Ostoo.Memory

open Ostoo.Lib List Option

def EBADF : Int := 9
def ENOMEM : Int := 12
def ENODEV : Int := 19
def EINVAL : Int := 22

/-- `as i64`. -/
def asI64 (a : Nat) : Int := (BitVec.ofNat 64 a).toInt

/-! ## The memory services -/

/-- `MemoryServices` as the syscalls see it: frames and tables are numbers, `none` a panic. -/
structure MemOps (μ : Type) where
  /-- `alloc_dma_pages(1)` -/
  allocFrame : μ → Option Nat × μ
  /-- `map_user_page`: whether it succeeded. -/
  mapUserPage : μ → (pml4 vaddr frame : Nat) → PtFlags → Option (Bool × μ)
  refShare : μ → (frame : Nat) → Option μ
  unmapAndReleaseUserPage : μ → (pml4 vaddr : Nat) → Option μ
  unmapAndFreeUserPage : μ → (pml4 vaddr : Nat) → Option μ
  updateUserPageFlags : μ → (pml4 vaddr : Nat) → PtFlags → Option μ

section

variable {μ : Type}

/-- A `for` over `n` pages from page `i` on that stops at the first failure. -/
def forPages (body : Nat → μ → Option (Bool × μ)) : Nat → Nat → μ → Option (Bool × μ)
  | 0, _, mem => some (true, mem)
  | n + 1, i, mem => do
    let (ok, mem) ← body i mem
    if ok then forPages body n (i + 1) mem else pure (false, mem)

/-- Allocate a frame and map it at page `i` of `base`; `fill` is what is computed for its contents. -/
def allocAndMapPage (ops : MemOps μ) (pml4 base : Nat) (flags : PtFlags) (fill : Nat → Option Unit) (i : Nat)
    (mem : μ) : Option (Bool × μ) := do
  let vaddr ← addU64 base (i * PAGE_SIZE)
  match ops.allocFrame mem with
  | (none, mem) => pure (false, mem)
  | (some frame, mem) =>
    fill i
    let virt ← virtAddrNew vaddr
    ops.mapUserPage mem pml4 virt frame flags

/-- `alloc_and_map_user_pages` -/
def allocAndMapUserPages (ops : MemOps μ) (count base pml4 : Nat) (flags : PtFlags) (mem : μ) : Option (Bool × μ) :=
  forPages (allocAndMapPage ops pml4 base flags fun _ => some ()) count 0 mem

/-- `unmap` at every page of the ranges. -/
def forRanges (unmap : μ → Nat → Option μ) : List (Nat × Nat) → μ → Option μ
  | [], mem => some mem
  | (base, count) :: ranges, mem => do
    let (_, mem) ← forPages (fun i mem => do
      let vaddr ← addU64 base (i * PAGE_SIZE)
      let virt ← virtAddrNew vaddr
      let mem ← unmap mem virt
      pure (true, mem)) count 0 mem
    forRanges unmap ranges mem

variable {addr length n prot : Nat} {ok : Bool} {unmap : μ → Nat → Option μ} {ranges : List (Nat × Nat)}
  {body : Nat → μ → Option (Bool × μ)}

/-- The rule for the loop: `P` before each page, `Q` where it stops early. -/
theorem forPages_inv {mem mem' : μ} (P : Nat → μ → Prop)
    (Q : μ → Prop) (hok : ∀ j mem mem', j < n → P j mem → body j mem = some (true, mem') → P (j + 1) mem')
    (hfail : ∀ j mem mem', j < n → P j mem → body j mem = some (false, mem') → Q mem') (h0 : P 0 mem)
    (h : forPages body n 0 mem = some (ok, mem')) : if ok then P n mem' else Q mem' := by
  have hmain : ∀ k i mem, i + k = n → P i mem → forPages body k i mem = some (ok, mem') →
      if ok then P n mem' else Q mem' := by
    intro k
    induction k with
    | zero =>
      intro i mem hi hP h
      cases h
      exact (show i = n from hi) ▸ hP
    | succ k ih =>
      intro i mem hi hP h
      obtain ⟨⟨ok1, mem1⟩, h1, h⟩ := of_bind h
      cases ok1 with
      | true => exact ih (i + 1) mem1 (by omega) (hok i mem mem1 (by omega) hP h1) h
      | false =>
        cases h
        exact hfail i mem mem' (by omega) hP h1
  exact hmain n 0 mem (zero_add n) h0 h

theorem forPages_total {mem : μ} (P : Nat → μ → Prop)
    (hstep : ∀ j mem, j < n → P j mem → ∃ mem', body j mem = some (true, mem') ∧ P (j + 1) mem') (h0 : P 0 mem) :
    ∃ mem', forPages body n 0 mem = some (true, mem') ∧ P n mem' := by
  have hmain : ∀ k i mem, i + k = n → P i mem → ∃ mem', forPages body k i mem = some (true, mem') ∧ P n mem' := by
    intro k
    induction k with
    | zero =>
      intro i mem hi hP
      exact ⟨mem, rfl, (show i = n from hi) ▸ hP⟩
    | succ k ih =>
      intro i mem hi hP
      obtain ⟨mem1, h1, hP1⟩ := hstep i mem (by omega) hP
      obtain ⟨mem', h', hP'⟩ := ih (i + 1) mem1 (by omega) hP1
      refine ⟨mem', ?_, hP'⟩
      rw [forPages, h1]
      exact h'
  exact hmain n 0 mem (zero_add n) h0

theorem forRanges_total {mem : μ} (I : μ → Prop) (hlow : ∀ r ∈ ranges, ∀ i < r.2, r.1 + i * PAGE_SIZE < 2 ^ 47)
    (hstep : ∀ r ∈ ranges, ∀ i < r.2, ∀ mem, I mem → ∃ mem', unmap mem (r.1 + i * PAGE_SIZE) = some mem' ∧ I mem')
    (h0 : I mem) : ∃ mem', forRanges unmap ranges mem = some mem' ∧ I mem' := by
  induction ranges generalizing mem with
  | nil => exact ⟨mem, rfl, h0⟩
  | cons r rest ih =>
    have hpage : ∀ j mem, j < r.2 → I mem → ∃ mem', (do
        let vaddr ← addU64 r.1 (j * PAGE_SIZE)
        let virt ← virtAddrNew vaddr
        let mem ← unmap mem virt
        pure (true, mem) : Option (Bool × μ)) = some (true, mem') ∧ I mem' := by
      intro j mem hj hI
      have hlt := hlow r mem_cons_self j hj
      obtain ⟨mem', hu, hI'⟩ := hstep r mem_cons_self j hj mem hI
      refine ⟨mem', ?_, hI'⟩
      rw [addU64_of_lt (by omega), bind_eq_bind, bind_some, virtAddrNew, if_pos (.inl hlt), bind_some,
        hu]
      rfl
    obtain ⟨_, h1, hI1⟩ := forPages_total (fun _ => I) hpage h0
    obtain ⟨mem', h', hI'⟩ := ih (fun r hr => hlow r (mem_cons_of_mem _ hr))
      (fun r hr => hstep r (mem_cons_of_mem _ hr)) hI1
    refine ⟨mem', ?_, hI'⟩
    rw [forRanges, h1]
    exact h'

theorem rangePage_eq_some {mem mem' : μ} {base i : Nat} (h : (do
    let vaddr ← addU64 base (i * PAGE_SIZE)
    let virt ← virtAddrNew vaddr
    let mem ← unmap mem virt
    pure (true, mem) : Option (Bool × μ)) = some (ok, mem')) : ok = true ∧
      unmap mem (base + i * PAGE_SIZE) = some mem' := by
  obtain ⟨_, hv, h⟩ := of_bind h
  obtain ⟨_, hvirt, h⟩ := of_bind h
  obtain ⟨_, h1, h⟩ := of_bind h
  cases h
  obtain ⟨-, rfl⟩ := addU64_eq_some.mp hv
  obtain ⟨-, rfl⟩ := virtAddrNew_eq_some.mp hvirt
  exact ⟨rfl, h1⟩

theorem forRanges_inv {mem mem' : μ} (I : μ → Prop)
    (hstep : ∀ r ∈ ranges, ∀ i < r.2, ∀ mem mem', I mem → unmap mem (r.1 + i * PAGE_SIZE) = some mem' → I mem')
    (h0 : I mem) (h : forRanges unmap ranges mem = some mem') : I mem' := by
  induction ranges generalizing mem with
  | nil =>
    cases h
    exact h0
  | cons r rest ih =>
    obtain ⟨⟨ok, _⟩, h1, h⟩ := of_bind h
    refine ih (fun r hr => hstep r (.tail _ hr)) ?_ h
    have hpage := hstep r mem_cons_self
    have hi := forPages_inv (fun _ => I) I (fun j m m' hj hI hb => hpage j hj m m' hI (rangePage_eq_some hb).2)
      (fun j m m' hj hI hb => hpage j hj m m' hI (rangePage_eq_some hb).2) h0 h1
    cases ok <;> exact hi

/-- What one unmapping brings about at its own page, and no other destroys, holds at every
    page of the ranges after the loop. -/
theorem forRanges_each {mem mem' : μ} (Q : Nat → μ → Prop)
    (hset : ∀ r ∈ ranges, ∀ i < r.2, ∀ mem mem', unmap mem (r.1 + i * PAGE_SIZE) = some mem' →
      Q (r.1 + i * PAGE_SIZE) mem')
    (hkeep : ∀ r ∈ ranges, ∀ i < r.2, ∀ mem mem' w, Q w mem → unmap mem (r.1 + i * PAGE_SIZE) = some mem' → Q w mem')
    (h : forRanges unmap ranges mem = some mem') : ∀ r ∈ ranges, ∀ i < r.2, Q (r.1 + i * PAGE_SIZE) mem' := by
  induction ranges generalizing mem with
  | nil => exact fun r hr => nomatch hr
  | cons r rest ih =>
    obtain ⟨⟨ok, _⟩, h1, htail⟩ := of_bind h
    have hfirst := forPages_inv (fun j mem => ∀ i < j, Q (r.1 + i * PAGE_SIZE) mem) (fun _ => False)
      (fun j m m' hj hQ hb i hi => ?_) (fun j m m' _ _ hb => nomatch (rangePage_eq_some hb).1)
        (fun i hi => nomatch hi) h1
    · cases ok with
      | false => exact hfirst.elim
      | true =>
        have hrest := ih (fun r hr => hset r (.tail _ hr)) (fun r hr => hkeep r (.tail _ hr)) htail
        intro r' hr' i hi
        rcases mem_cons.mp hr' with rfl | hr'
        · exact forRanges_inv (Q (r'.1 + i * PAGE_SIZE))
            (fun s hs j hj m m' hQ hb => hkeep s (.tail _ hs) j hj m m' _ hQ hb) (hfirst i hi) htail
        · exact hrest r' hr' i hi
    · have hb := (rangePage_eq_some hb).2
      rcases Nat.lt_succ_iff_lt_or_eq.mp hi with hi | rfl
      · exact hkeep r mem_cons_self j hj m m' _ (hQ i hi) hb
      · exact hset r mem_cons_self i hj m m' hb

/-! ## The process -/

structure Proc where
  pml4 : Nat
  brkBase : Nat
  brkCurrent : Nat
  vmaMap : VmaMap

/-- What `get_fd` finds under a number, as far as `mmap` asks. -/
inductive FdView
  | absent
  | shmem (size : Nat) (frames : List Nat)
  /-- A file, with the length of its buffered content if it has one. -/
  | file (content : Option Nat)
  | other

/-! ## brk -/

/-- `USER_DATA_FLAGS` -/
def USER_DATA_FLAGS : PtFlags := ⟨true, true, true, true⟩

def sysBrk (ops : MemOps μ) (p : Proc) (mem : μ) (addr : Nat) : Option (Int × Proc × μ) :=
  if addr = 0 ∨ addr < p.brkBase then pure (asI64 p.brkCurrent, p, mem)
  else do
    let newBrk ← alignUp addr
    if newBrk < p.brkCurrent then
      let mem ← forRanges (fun mem virt => ops.unmapAndFreeUserPage mem p.pml4 virt)
        [(newBrk, (p.brkCurrent - newBrk) / PAGE_SIZE)] mem
      pure (asI64 newBrk, { p with brkCurrent := newBrk }, mem)
    else if newBrk = p.brkCurrent then pure (asI64 newBrk, p, mem)
    else
      let (ok, mem) ← allocAndMapUserPages ops ((newBrk - p.brkCurrent) / PAGE_SIZE) p.brkCurrent p.pml4
        USER_DATA_FLAGS mem
      if ok then pure (asI64 newBrk, { p with brkCurrent := newBrk }, mem) else pure (asI64 p.brkCurrent, p, mem)

/-! ## mmap -/

/-- The placing of a new area, which `sys_mmap` and `mmap_shared_inner` do alike: at
    `addr` after an implicit munmap, or in the highest gap. `mapPages` maps its pages;
    `vma.start` is filled in here. -/
def mmapPlace (ops : MemOps μ) (p : Proc) (mem : μ) (addr : Nat) (fixed : Bool) (vma : Vma)
    (mapPages : Nat → μ → Option (Bool × μ)) : Option (Int × Proc × μ) :=
  if fixed then
    if addr = 0 ∨ ¬ Aligned addr then pure (-EINVAL, p, mem)
    else do
      let (vmaMap, pagesToFree) ← munmapVmas p.vmaMap addr vma.len
      let p := { p with vmaMap := vmaMap }
      let mem ← forRanges (fun mem virt => ops.unmapAndReleaseUserPage mem p.pml4 virt) pagesToFree mem
      let (ok, mem) ← mapPages addr mem
      if ok then
        pure (asI64 addr, { p with vmaMap := p.vmaMap.insert addr { vma with start := addr } }, mem)
      else pure (-ENOMEM, p, mem)
  else do
    match ← findMmapGap p.vmaMap vma.len with
    | none => pure (-ENOMEM, p, mem)
    | some base =>
      let (ok, mem) ← mapPages base mem
      if ok then
        pure (asI64 base, { p with vmaMap := p.vmaMap.insert base { vma with start := base } }, mem)
      else pure (-ENOMEM, p, mem)

/-- `mmap_shared_pages` -/
def mmapSharedPages (ops : MemOps μ) (frames : List Nat) (base pml4 : Nat) (flags : PtFlags) (mem : μ) :
    Option (Bool × μ) :=
  forPages (fun i mem => do
    let frame ← frames[i]?
    let vaddr ← addU64 base (i * PAGE_SIZE)
    let virt ← virtAddrNew vaddr
    match ← ops.mapUserPage mem pml4 virt frame flags with
    | (false, mem) => pure (false, mem)
    | (true, mem) =>
      let mem ← ops.refShare mem frame
      pure (true, mem)) frames.length 0 mem

/-- `mmap_alloc_pages`: `file` is the offset into the file that backs the area, if one does. -/
def mmapAllocPages (ops : MemOps μ) (numPages base pml4 : Nat) (flags : PtFlags) (file : Option Nat) (mem : μ) :
    Option (Bool × μ) :=
  match file with
  | none => allocAndMapUserPages ops numPages base pml4 flags mem
  | some offset =>
    forPages (allocAndMapPage ops pml4 base flags fun i => (addU64 offset (i * PAGE_SIZE)).map fun _ => ())
      numPages 0 mem

/-- `a as i32 as usize` -/
def fdI32 (a : Nat) : Nat := ((BitVec.ofNat 32 a).signExtend 64).toNat

/-- The `MAP_SHARED` branch of `sys_mmap`: the range must lie in the object. -/
def sharedFits (offset alignedLen size : Nat) : Option Bool := do
  let stop ← addU64 offset alignedLen
  if stop > size then
    let pageAlignedSize ← alignUp size
    pure (stop ≤ pageAlignedSize)
  else pure true

def sysMmap (ops : MemOps μ) (fds : Nat → FdView) (p : Proc) (mem : μ) (addr length prot flags a5 r9 : Nat) :
    Option (Int × Proc × μ) := do
  let alignedLen ← alignUp length
  let numPages := alignedLen / PAGE_SIZE
  let flags32 := BitVec.ofNat 32 flags
  let prot32 := BitVec.ofNat 32 prot
  let anonymous : Bool := flags32 &&& MAP_ANONYMOUS ≠ 0
  let fixed : Bool := flags32 &&& MAP_FIXED ≠ 0
  let shared : Bool := flags32 &&& MAP_SHARED ≠ 0
  let priv : Bool := flags32 &&& MAP_PRIVATE ≠ 0
  if alignedLen = 0 then pure (-EINVAL, p, mem)
  else if shared = priv then pure (-EINVAL, p, mem)
  else if shared && anonymous then pure (-EINVAL, p, mem)
  else if shared then
    if ¬ Aligned r9 then pure (-EINVAL, p, mem)
    else match fds a5 with
      | .shmem size frames => do
        let fits ← sharedFits r9 alignedLen size
        let firstPage := r9 / PAGE_SIZE
        if !fits || firstPage + numPages > frames.length then pure (-EINVAL, p, mem)
        else
          let vma : Vma := ⟨0, alignedLen, prot32, flags32, some a5, r9⟩
          mmapPlace ops p mem addr fixed vma fun base mem =>
            mmapSharedPages ops ((frames.drop firstPage).take numPages) base p.pml4 vma.pageTableFlags mem
      | _ => pure (-ENODEV, p, mem)
  else if anonymous then
    let vma : Vma := ⟨0, alignedLen, prot32, flags32, none, 0⟩
    mmapPlace ops p mem addr fixed vma fun base mem =>
      mmapAllocPages ops numPages base p.pml4 vma.pageTableFlags none mem
  else if ¬ Aligned r9 then pure (-EINVAL, p, mem)
  else match fds (fdI32 a5) with
    | .file (some _) =>
      let vma : Vma := ⟨0, alignedLen, prot32, flags32, some (fdI32 a5), r9⟩
      mmapPlace ops p mem addr fixed vma fun base mem =>
        mmapAllocPages ops numPages base p.pml4 vma.pageTableFlags (some r9) mem
    | .file none => pure (-ENODEV, p, mem)
    | _ => pure (-EBADF, p, mem)

/-! ## munmap and mprotect -/

def sysMunmap (ops : MemOps μ) (p : Proc) (mem : μ) (addr length : Nat) : Option (Int × Proc × μ) :=
  if ¬ Aligned addr ∨ length = 0 then pure (-EINVAL, p, mem)
  else do
    let alignedLen ← alignUp length
    let (vmaMap, pagesToFree) ← munmapVmas p.vmaMap addr alignedLen
    let mem ← forRanges (fun mem virt => ops.unmapAndReleaseUserPage mem p.pml4 virt) pagesToFree mem
    pure (0, { p with vmaMap := vmaMap }, mem)

def sysMprotect (ops : MemOps μ) (p : Proc) (mem : μ) (addr length prot : Nat) : Option (Int × Proc × μ) :=
  if ¬ Aligned addr ∨ length = 0 then pure (-EINVAL, p, mem)
  else do
    let alignedLen ← alignUp length
    let prot32 := BitVec.ofNat 32 prot
    let (vmaMap, pagesToUpdate) ← mprotectVmas p.vmaMap addr alignedLen prot32
    let flags := protToPageFlags prot32
    let mem ← forRanges (fun mem virt => ops.updateUserPageFlags mem p.pml4 virt flags) pagesToUpdate mem
    pure (0, { p with vmaMap := vmaMap }, mem)

/-! ## Runs of the four calls -/

inductive Ev
  | brk (addr : Nat)
  | mmap (fds : Nat → FdView) (addr length prot flags a5 r9 : Nat)
  | munmap (addr length : Nat)
  | mprotect (addr length prot : Nat)

def call (ops : MemOps μ) (p : Proc) (mem : μ) : Ev → Option (Int × Proc × μ)
  | .brk addr => sysBrk ops p mem addr
  | .mmap fds addr length prot flags a5 r9 => sysMmap ops fds p mem addr length prot flags a5 r9
  | .munmap addr length => sysMunmap ops p mem addr length
  | .mprotect addr length prot => sysMprotect ops p mem addr length prot

/-- One process making the calls in any order, from no areas at all. -/
def vmaMachine (ops : MemOps μ) : Machine (Proc × μ) Ev where
  start := fun s => s.1.vmaMap = .empty
  step := fun s e => (call ops s.1 s.2 e).map (·.2)

def VmasOk (p : Proc) : Prop := WellFormed p.vmaMap ∧ EndsFit p.vmaMap

variable {ops : MemOps μ} {p p' : Proc} {mem mem' : μ} {r : Int} {fds : Nat → FdView}
  {mapPages : Nat → μ → Option (Bool × μ)} {flags : PtFlags} {fixed : Bool} {vma : Vma}

/-- What `brk` can do: nothing, shrink, or try to grow. -/
theorem sysBrk_inv (h : sysBrk ops p mem addr = some (r, p', mem')) :
    ((addr = 0 ∨ addr < p.brkBase ∨ addr + PAGE_MASK < 2 ^ 64 ∧ pagesOf addr * PAGE_SIZE = p.brkCurrent) ∧ p' = p ∧
      mem' = mem) ∨
    (pagesOf addr * PAGE_SIZE < p.brkCurrent ∧
      forRanges (fun mem virt => ops.unmapAndFreeUserPage mem p.pml4 virt)
        [(pagesOf addr * PAGE_SIZE, (p.brkCurrent - pagesOf addr * PAGE_SIZE) / PAGE_SIZE)] mem = some mem' ∧
      p' = { p with brkCurrent := pagesOf addr * PAGE_SIZE }) ∨
    (¬ (addr = 0 ∨ addr < p.brkBase) ∧ p.brkCurrent < pagesOf addr * PAGE_SIZE ∧ ∃ ok,
      allocAndMapUserPages ops ((pagesOf addr * PAGE_SIZE - p.brkCurrent) / PAGE_SIZE) p.brkCurrent p.pml4
        USER_DATA_FLAGS mem = some (ok, mem') ∧
      p' = if ok then { p with brkCurrent := pagesOf addr * PAGE_SIZE } else p) := by
  unfold sysBrk at h
  split at h
  · rename_i hearly
    cases h
    exact .inl ⟨hearly.imp_right .inl, rfl, rfl⟩
  rename_i hearly
  obtain ⟨_, hnew, h⟩ := of_bind h
  obtain ⟨hlt, rfl⟩ := alignUp_pages hnew
  split at h
  · rename_i hless
    obtain ⟨mem1, h1, h⟩ := of_bind h
    cases h
    exact .inr (.inl ⟨hless, h1, rfl⟩)
  split at h
  · rename_i heq
    cases h
    exact .inl ⟨.inr (.inr ⟨hlt, heq⟩), rfl, rfl⟩
  · obtain ⟨⟨ok, _⟩, h1, h⟩ := of_bind h
    refine .inr (.inr ⟨hearly, by omega, ok, ?_⟩)
    cases ok <;> cases h <;> exact ⟨h1, rfl⟩

theorem sysBrk_ok (hp : VmasOk p) (h : sysBrk ops p mem addr = some (r, p', mem')) : VmasOk p' := by
  rcases sysBrk_inv h with ⟨-, rfl, -⟩ | ⟨-, -, rfl⟩ | ⟨-, -, ok, -, rfl⟩
  · exact hp
  · exact hp
  · cases ok <;> exact hp

/-- How `sys_mmap` maps the pages of an area of `n` pages: frame by frame of the object behind
    an fd, if the area is shared, or by new frames. -/
inductive PageSource (ops : MemOps μ) (fds : Nat → FdView) (pml4 : Nat) (flags : PtFlags) (n : Nat) :
    Bool → (Nat → μ → Option (Bool × μ)) → Prop
  | shared (fd size first : Nat) (frames : List Nat) (hfd : fds fd = .shmem size frames)
      (h : ((frames.drop first).take n).length = n) :
      PageSource ops fds pml4 flags n true fun base mem =>
        mmapSharedPages ops ((frames.drop first).take n) base pml4 flags mem
  | alloc (file : Option Nat) :
      PageSource ops fds pml4 flags n false fun base mem => mmapAllocPages ops n base pml4 flags file mem

theorem PageSource.grow (ops : MemOps μ) (pml4 : Nat) (flags : PtFlags) (n : Nat) :
    PageSource ops (fun _ => .absent) pml4 flags n
    false (fun base mem => allocAndMapUserPages ops n base pml4 flags mem) := .alloc none

theorem allocAndMapPage_inv {base pml4 i : Nat} {fill : Nat → Option Unit}
    (h : allocAndMapPage ops pml4 base flags fill i mem = some (ok, mem')) :
    (ok = false ∧ ops.allocFrame mem = (none, mem')) ∨
      ∃ frame mem1, ops.allocFrame mem = (some frame, mem1) ∧
        ops.mapUserPage mem1 pml4 (base + i * PAGE_SIZE) frame flags = some (ok, mem') := by
  obtain ⟨_, hv, h⟩ := of_bind h
  obtain ⟨-, rfl⟩ := addU64_eq_some.mp hv
  split at h
  · rename_i mem1 ha
    cases h
    exact .inl ⟨rfl, ha⟩
  · rename_i frame mem1 ha
    obtain ⟨_, -, h⟩ := of_bind h
    obtain ⟨_, hvirt, h⟩ := of_bind h
    obtain ⟨-, rfl⟩ := virtAddrNew_eq_some.mp hvirt
    exact .inr ⟨frame, mem1, ha, h⟩

/-- The rule for the loop that maps an area's pages: `P` before each page, `Q` where it
    stops. A page is a new frame, mapped, or a frame of an object, mapped and then counted. -/
theorem PageSource.inv {pml4 : Nat}
    {shared : Bool} (hs : PageSource ops fds pml4 flags n shared mapPages) (base : Nat) (P : Nat → μ → Prop)
    (Q : μ → Prop)
    (halloc : shared = false → ∀ j < n, ∀ mem mem1 mem' frame, P j mem → ops.allocFrame mem = (some frame, mem1) →
      ∀ ok, ops.mapUserPage mem1 pml4 (base + j * PAGE_SIZE) frame flags = some (ok, mem') →
        if ok then P (j + 1) mem' else Q mem')
    (hnone : shared = false → ∀ j < n, ∀ mem mem', P j mem → ops.allocFrame mem = (none, mem') → Q mem')
    (hshare : shared = true → ∀ j < n, ∀ mem mem1 mem' fd size frames frame, P j mem → fds fd = .shmem size frames →
      frame ∈ frames → ops.mapUserPage mem pml4 (base + j * PAGE_SIZE) frame flags = some (true, mem1) →
        ops.refShare mem1 frame = some mem' → P (j + 1) mem')
    (hrefused : shared = true → ∀ j < n, ∀ mem mem' fd size frames frame, P j mem → fds fd = .shmem size frames →
      frame ∈ frames → ops.mapUserPage mem pml4 (base + j * PAGE_SIZE) frame flags = some (false, mem') → Q mem')
    (h0 : P 0 mem) (h : mapPages base mem = some (ok, mem')) : if ok then P n mem' else Q mem' := by
  have hprivate : ∀ fill, shared = false → forPages (allocAndMapPage ops pml4 base flags fill) n 0 mem =
      some (ok, mem') → if ok then P n mem' else Q mem' := by
    intro fill hkind h
    refine forPages_inv P Q (fun j m m' hj hP hb => ?_) (fun j m m' hj hP hb => ?_) h0 h
    all_goals rcases allocAndMapPage_inv hb with ⟨hok, ha⟩ | ⟨frame, m1, ha, hmap⟩
    · cases hok
    · exact halloc hkind j hj m m1 m' frame hP ha true hmap
    · exact hnone hkind j hj m m' hP ha
    · exact halloc hkind j hj m m1 m' frame hP ha false hmap
  cases hs with
  | alloc file => cases file <;> exact hprivate _ rfl h
  | shared fd size first frames hfd hl =>
    have hloop : if ok then P ((frames.drop first).take n).length mem' else Q mem' := by
      refine forPages_inv P Q (fun j m m' hj hP hb => ?_) (fun j m m' hj hP hb => ?_) h0 h
      all_goals
        obtain ⟨frame, hframe, hb⟩ := of_bind hb
        obtain ⟨_, hv, hb⟩ := of_bind hb
        obtain ⟨_, hvirt, hb⟩ := of_bind hb
        obtain ⟨⟨ok1, m1⟩, h1, hb⟩ := of_bind hb
        obtain ⟨-, rfl⟩ := addU64_eq_some.mp hv
        obtain ⟨-, rfl⟩ := virtAddrNew_eq_some.mp hvirt
        have hmem : frame ∈ frames := mem_of_mem_drop (mem_of_mem_take (mem_of_getElem? hframe))
        rw [hl] at hj
        cases ok1
      · cases hb
      · obtain ⟨m2, h2, hb⟩ := of_bind hb
        cases hb
        exact hshare rfl j hj m m1 m' fd size frames frame hP hfd hmem h1 h2
      · cases hb
        exact hrefused rfl j hj m m' fd size frames frame hP hfd hmem h1
      · obtain ⟨_, -, hb⟩ := of_bind hb
        cases hb
    rwa [hl] at hloop

/-- What a placement can do: refuse, or map the pages at `addr` after the implicit munmap,
    or map them in a gap. -/
theorem mmapPlace_inv (h : mmapPlace ops p mem addr fixed vma mapPages = some (r, p', mem')) :
    ((r = -EINVAL ∨ (fixed = false ∧ findMmapGap p.vmaMap vma.len = some none)) ∧ r < 0 ∧ p' = p ∧ mem' = mem) ∨
    (fixed = true ∧ addr ≠ 0 ∧ Aligned addr ∧
      ∃ vmaMap ranges mem1 ok, munmapVmas p.vmaMap addr vma.len = some (vmaMap, ranges) ∧
      forRanges (fun mem virt => ops.unmapAndReleaseUserPage mem p.pml4 virt) ranges mem = some mem1 ∧
      mapPages addr mem1 = some (ok, mem') ∧
      if ok then r = asI64 addr ∧ p' = { p with vmaMap := vmaMap.insert addr { vma with start := addr } }
      else r = -ENOMEM ∧ p' = { p with vmaMap := vmaMap }) ∨
    (fixed = false ∧ ∃ base ok, findMmapGap p.vmaMap vma.len = some (some base) ∧ mapPages base mem = some (ok, mem') ∧
      if ok then r = asI64 base ∧ p' = { p with vmaMap := p.vmaMap.insert base { vma with start := base } }
      else r = -ENOMEM ∧ p' = p) := by
  unfold mmapPlace at h
  split at h
  · rename_i hf
    split at h
    · cases h
      exact .inl ⟨.inl rfl, by decide, rfl, rfl⟩
    rename_i haddr
    obtain ⟨h0, hal⟩ := not_or.mp haddr
    obtain ⟨⟨vmaMap, ranges⟩, hsweep, h⟩ := of_bind h
    obtain ⟨mem1, h1, h⟩ := of_bind h
    obtain ⟨⟨ok, _⟩, h2, h⟩ := of_bind h
    refine .inr (.inl ⟨hf, h0, not_not.mp hal, vmaMap, ranges, mem1, ok, hsweep, h1, ?_⟩)
    cases ok <;> cases h <;> exact ⟨h2, rfl, rfl⟩
  · rename_i hf
    obtain ⟨gap, hgap, h⟩ := of_bind h
    cases gap with
    | none =>
      cases h
      exact .inl ⟨.inr ⟨Bool.not_eq_true _ ▸ hf, hgap⟩, by decide, rfl, rfl⟩
    | some base =>
      obtain ⟨⟨ok, _⟩, h1, h⟩ := of_bind h
      refine .inr (.inr ⟨Bool.not_eq_true _ ▸ hf, base, ok, hgap, ?_⟩)
      cases ok <;> cases h <;> exact ⟨h1, rfl, rfl⟩

theorem sysMmap_inv {flags a5 r9 : Nat} (h : sysMmap ops fds p mem addr length prot flags a5 r9 = some (r, p', mem')) :
    (r < 0 ∧ r ≠ -ENOMEM ∧ p' = p ∧ mem' = mem) ∨
    (length + PAGE_MASK < 2 ^ 64 ∧ 0 < length ∧ ∃ vma mapPages, vma.len = pagesOf length * PAGE_SIZE ∧
      vma.prot = BitVec.ofNat 32 prot ∧
      PageSource ops fds p.pml4 vma.pageTableFlags (pagesOf length)
        (BitVec.ofNat 32 flags &&& MAP_SHARED ≠ 0) mapPages ∧
      mmapPlace ops p mem addr (BitVec.ofNat 32 flags &&& MAP_FIXED ≠ 0) vma mapPages = some (r, p', mem')) := by
  unfold sysMmap at h
  obtain ⟨_, hlen, h⟩ := of_bind h
  obtain ⟨hlt, rfl⟩ := alignUp_pages hlen
  have hpages : pagesOf length * PAGE_SIZE / PAGE_SIZE = pagesOf length := Nat.mul_div_cancel _ (by decide)
  simp only [hpages] at h
  split at h
  · cases h
    exact .inl ⟨by decide, by decide, rfl, rfl⟩
  rename_i hne
  have hpos : 0 < length := by
    refine Nat.pos_of_ne_zero fun h0 => hne ?_
    rw [h0]
    rfl
  split at h
  · cases h
    exact .inl ⟨by decide, by decide, rfl, rfl⟩
  split at h
  · cases h
    exact .inl ⟨by decide, by decide, rfl, rfl⟩
  split at h
  · -- shared
    rename_i hshared
    simp only [hshared]
    split at h
    · cases h
      exact .inl ⟨by decide, by decide, rfl, rfl⟩
    split at h
    · rename_i size frames hfd
      obtain ⟨_, -, h⟩ := of_bind h
      split at h
      · cases h
        exact .inl ⟨by decide, by decide, rfl, rfl⟩
      rename_i hfits
      have hl : ((frames.drop (r9 / PAGE_SIZE)).take (pagesOf length)).length = pagesOf length := by
        simp only [Bool.or_eq_true, decide_eq_true_eq, not_or, not_lt] at hfits
        rw [length_take, length_drop]
        omega
      exact .inr ⟨hlt, hpos, _, _, rfl, rfl, .shared a5 size (r9 / PAGE_SIZE) frames hfd hl, h⟩
    · cases h
      exact .inl ⟨by decide, by decide, rfl, rfl⟩
  rename_i hshared
  simp only [hshared]
  split at h
  · exact .inr ⟨hlt, hpos, _, _, rfl, rfl, .alloc none, h⟩
  split at h
  · cases h
    exact .inl ⟨by decide, by decide, rfl, rfl⟩
  split at h
  · exact .inr ⟨hlt, hpos, _, _, rfl, rfl, .alloc (some r9), h⟩
  all_goals
    cases h
    exact .inl ⟨by decide, by decide, rfl, rfl⟩

theorem sysMunmap_inv (h : sysMunmap ops p mem addr length = some (r, p', mem')) :
    (r < 0 ∧ p' = p ∧ mem' = mem) ∨
    (r = 0 ∧ Aligned addr ∧ 0 < length ∧ ∃ vmaMap ranges,
      munmapVmas p.vmaMap addr (pagesOf length * PAGE_SIZE) = some (vmaMap, ranges) ∧
      forRanges (fun mem virt => ops.unmapAndReleaseUserPage mem p.pml4 virt) ranges mem = some mem' ∧
      p' = { p with vmaMap := vmaMap }) := by
  unfold sysMunmap at h
  split at h
  · cases h
    exact .inl ⟨by decide, rfl, rfl⟩
  rename_i hargs
  obtain ⟨hal, hne⟩ := not_or.mp hargs
  obtain ⟨_, hlen, h⟩ := of_bind h
  obtain ⟨-, rfl⟩ := alignUp_pages hlen
  obtain ⟨⟨vmaMap, ranges⟩, hsweep, h⟩ := of_bind h
  obtain ⟨_, h1, h⟩ := of_bind h
  cases h
  exact .inr ⟨rfl, not_not.mp hal, Nat.pos_of_ne_zero hne, vmaMap, ranges, hsweep, h1, rfl⟩

theorem sysMprotect_inv (h : sysMprotect ops p mem addr length prot = some (r, p', mem')) :
    (r < 0 ∧ p' = p ∧ mem' = mem) ∨
    (r = 0 ∧ Aligned addr ∧ 0 < length ∧ ∃ vmaMap ranges,
      mprotectVmas p.vmaMap addr (pagesOf length * PAGE_SIZE) (BitVec.ofNat 32 prot) = some (vmaMap, ranges) ∧
      forRanges (fun mem virt => ops.updateUserPageFlags mem p.pml4 virt (protToPageFlags (BitVec.ofNat 32 prot)))
        ranges mem = some mem' ∧
      p' = { p with vmaMap := vmaMap }) := by
  unfold sysMprotect at h
  split at h
  · cases h
    exact .inl ⟨by decide, rfl, rfl⟩
  rename_i hargs
  obtain ⟨hal, hne⟩ := not_or.mp hargs
  obtain ⟨_, hlen, h⟩ := of_bind h
  obtain ⟨-, rfl⟩ := alignUp_pages hlen
  obtain ⟨⟨vmaMap, ranges⟩, hsweep, h⟩ := of_bind h
  obtain ⟨_, h1, h⟩ := of_bind h
  cases h
  exact .inr ⟨rfl, not_not.mp hal, Nat.pos_of_ne_zero hne, vmaMap, ranges, hsweep, h1, rfl⟩

theorem pagesOf_len (h : 0 < length) :
    PAGE_SIZE ∣ pagesOf length * PAGE_SIZE ∧ 0 < pagesOf length * PAGE_SIZE := by
  refine ⟨dvd_mul_left _ _, ?_⟩
  simp only [pagesOf, PAGE_SIZE, PAGE_MASK]
  omega

theorem mmapPlace_ok (hp : VmasOk p) (hl : PAGE_SIZE ∣ vma.len) (hpos : 0 < vma.len)
    (h : mmapPlace ops p mem addr fixed vma mapPages = some (r, p', mem')) : VmasOk p' := by
  rcases mmapPlace_inv h with ⟨-, -, rfl, -⟩ | ⟨-, -, haddr, vmaMap, _, -, ok, hsweep, -, -, hres⟩ |
    ⟨-, base, ok, hgap, -, hres⟩
  · exact hp
  · have hal : PAGE_SIZE ∣ addr := aligned_iff.mp haddr
    obtain ⟨hlt, hwf, hends, hattr, -⟩ := sweep_some munmapSplit_cuts hp.1 hp.2 hal hl hpos hsweep
    cases ok with
    | true =>
      obtain ⟨-, rfl⟩ := hres
      have hnone : ∀ a, addr ≤ a → a < addr + vma.len → attrAt vmaMap a = none := by
        intro a h1 h2
        rw [hattr a, if_pos ⟨h1, h2⟩, bind_fun_none]
      exact ⟨insert_wellFormed (v := { vma with start := addr }) hwf hal hl hpos
        (free_of_attrAt_none hwf hpos hnone), insert_endsFit (v := { vma with start := addr }) hends hlt⟩
    | false =>
      obtain ⟨-, rfl⟩ := hres
      exact ⟨hwf, hends⟩
  · obtain ⟨-, hceil, hal, hfree⟩ := findMmapGap_free hp.1 hl hgap
    cases ok with
    | true =>
      obtain ⟨-, rfl⟩ := hres
      have hlt : base + vma.len < 2 ^ 64 := lt_of_le_of_lt hceil (by simp only [MMAP_CEILING]; omega)
      exact ⟨insert_wellFormed (v := { vma with start := base }) hp.1 hal hl hpos hfree,
        insert_endsFit (v := { vma with start := base }) hp.2 hlt⟩
    | false =>
      obtain ⟨-, rfl⟩ := hres
      exact hp

theorem sysMmap_ok {flags a5 r9 : Nat} (hp : VmasOk p)
    (h : sysMmap ops fds p mem addr length prot flags a5 r9 = some (r, p', mem')) : VmasOk p' := by
  rcases sysMmap_inv h with ⟨-, -, rfl, -⟩ | ⟨-, hpos, _, _, hl, -, -, h⟩
  · exact hp
  · obtain ⟨hgrid, hlen⟩ := pagesOf_len hpos
    exact mmapPlace_ok hp (hl ▸ hgrid) (hl ▸ hlen) h

theorem sysMunmap_ok (hp : VmasOk p) (h : sysMunmap ops p mem addr length = some (r, p', mem')) :
    VmasOk p' := by
  rcases sysMunmap_inv h with ⟨-, rfl, -⟩ | ⟨-, hal, hpos, _, _, hsweep, -, rfl⟩
  · exact hp
  · obtain ⟨hgrid, hlen⟩ := pagesOf_len hpos
    obtain ⟨-, hwf, hends, -⟩ := sweep_some munmapSplit_cuts hp.1 hp.2 (aligned_iff.mp hal) hgrid hlen hsweep
    exact ⟨hwf, hends⟩

theorem sysMprotect_ok (hp : VmasOk p) (h : sysMprotect ops p mem addr length prot = some (r, p', mem')) :
    VmasOk p' := by
  rcases sysMprotect_inv h with ⟨-, rfl, -⟩ | ⟨-, hal, hpos, _, _, hsweep, -, rfl⟩
  · exact hp
  · obtain ⟨hgrid, hlen⟩ := pagesOf_len hpos
    obtain ⟨-, hwf, hends, -⟩ := sweep_some (mprotectSplit_cuts _) hp.1 hp.2 (aligned_iff.mp hal) hgrid hlen hsweep
    exact ⟨hwf, hends⟩

theorem reachable_vmasOk {s : Proc × μ} (h : (vmaMachine ops).Reachable s) : VmasOk s.1 := by
  refine Machine.Reachable.inv (I := fun s => VmasOk s.1) (fun s hs => ?_) (fun s e s' hs he => ?_) h
  · have hempty : s.1.vmaMap = .empty := hs
    refine ⟨?_, ?_⟩ <;> rw [hempty]
    · exact ⟨by simp, by simp, by simp, by simp, .nil⟩
    · intro x hx
      simp at hx
  · obtain ⟨⟨_, _⟩, hc, rfl⟩ := of_map he
    cases e with
    | brk addr => exact sysBrk_ok hs hc
    | mmap fds addr length prot flags a5 r9 => exact sysMmap_ok hs hc
    | munmap addr length => exact sysMunmap_ok hs hc
    | mprotect addr length prot => exact sysMprotect_ok hs hc

end

/-! ## The area map as a function of the address -/

/-- On a well-formed map with 64-bit ends, `munmap_vmas` takes exactly the window's
    addresses out, `mprotect_vmas` sets `prot` on exactly its covered ones, both hand back
    the covered part in pages and leave a well-formed map; so the map is well formed in
    every state the calls reach. -/
theorem vma_map_algebra :
    (∀ (m : VmaMap) (start len : Nat), WellFormed m → EndsFit m → PAGE_SIZE ∣ start → PAGE_SIZE ∣ len → 0 < len →
      start + len < 2 ^ 64 →
      (∃ m' ranges, munmapVmas m start len = some (m', ranges) ∧ WellFormed m' ∧ EndsFit m' ∧
        (∀ a, attrAt m' a = if start ≤ a ∧ a < start + len then none else attrAt m a) ∧
        ExactPages m start len ranges) ∧
      (∀ prot, ∃ m' ranges, mprotectVmas m start len prot = some (m', ranges) ∧ WellFormed m' ∧ EndsFit m' ∧
        (∀ a, attrAt m' a =
          if start ≤ a ∧ a < start + len then (attrAt m a).map (Attr.setProt prot) else attrAt m a) ∧
        ExactPages m start len ranges)) ∧
    (∀ (μ : Type) (ops : MemOps μ) (s : Proc × μ), (vmaMachine ops).Reachable s →
      WellFormed s.1.vmaMap ∧ EndsFit s.1.vmaMap) := by
  refine ⟨fun m start len hm he hs hl hpos hlt => ⟨?_, fun prot => ?_⟩, fun μ ops s h => reachable_vmasOk h⟩
  · obtain ⟨m', ranges, h, hwf, hends, hattr, hpages⟩ := sweep_spec munmapSplit_cuts hm he hs hl hpos hlt
    refine ⟨m', ranges, h, hwf, hends, fun a => ?_, hpages⟩
    rw [hattr a, bind_fun_none]
  · obtain ⟨m', ranges, h, hwf, hends, hattr, hpages⟩ := sweep_spec (mprotectSplit_cuts prot) hm he hs hl hpos hlt
    refine ⟨m', ranges, h, hwf, hends, fun a => ?_, hpages⟩
    rw [hattr a, map_eq_bind]
    rfl

theorem vma_map_algebra_one_area :
    ∃ m' ranges, munmapVmas (oneArea 0x10000 0x4000) 0x11000 0x1000 = some (m', ranges) ∧
      attrAt m' 0x11000 = none ∧ attrAt m' 0x12000 = attrAt (oneArea 0x10000 0x4000) 0x12000 := by
  have hwf : WellFormed (oneArea 0x10000 0x4000) := oneArea_wellFormed (by decide) (by decide) (by decide)
  have hends : EndsFit (oneArea 0x10000 0x4000) := oneArea_all (P := fun s l => s + l < 2 ^ 64) (by decide)
  obtain ⟨m', ranges, h, -, -, hattr, -⟩ :=
    (vma_map_algebra.1 _ 0x11000 0x1000 hwf hends (by decide) (by decide) (by decide) (by decide)).1
  exact ⟨m', ranges, h, hattr 0x11000, hattr 0x12000⟩

/-- An area that ends at 2^64 is well formed, but its end is no 64-bit number: the
    overlap test of `munmap_vmas` overflows on it. -/
theorem munmap_overflows_at_the_top :
    WellFormed (oneArea (2 ^ 64 - 0x2000) 0x2000) ∧ PAGE_SIZE ∣ 2 ^ 64 - 0x2000 ∧ PAGE_SIZE ∣ 0x1000 ∧
      (2 ^ 64 - 0x2000) + 0x1000 < 2 ^ 64 ∧
      munmapVmas (oneArea (2 ^ 64 - 0x2000) 0x2000) (2 ^ 64 - 0x2000) 0x1000 = none :=
  ⟨oneArea_wellFormed (by decide) (by decide) (by decide), by decide, by decide, by decide, by decide⟩

/-! ## File positions -/

/-- `offset + (addr - start)` of the area that covers the address. -/
def filePosition (m : VmaMap) (a : Nat) : Option Nat :=
  ((segs m).find? fun s => s.Covers a).map fun s => s.val.offset + (a - s.start)

/-- The addresses still covered have the positions they had. -/
def KeepsPositions (m m' : VmaMap) : Prop := ∀ a, (filePosition m' a).isSome → filePosition m' a = filePosition m a

theorem filePosition_eq {m : VmaMap} (hm : WellFormed m) {s : Seg Attr} {a : Nat} (hs : s ∈ segs m) (hc : s.Covers a) :
    filePosition m a = some (s.val.offset + (a - s.start)) := by
  rw [filePosition, hm.apart.find?_covers hs hc]
  rfl

/-- `mprotect_vmas` on whole pages, or `munmap_vmas` where there is no `prot`. -/
structure VmaCall where
  start : Nat
  len : Nat
  prot : Option (BitVec 32)
  start_aligned : PAGE_SIZE ∣ start
  len_aligned : PAGE_SIZE ∣ len
  len_pos : 0 < len

namespace VmaCall

variable (m : VmaMap) (c : VmaCall)

def apply : Option VmaMap :=
  match c.prot with
  | none => (munmapVmas m c.start c.len).map (·.1)
  | some prot => (mprotectVmas m c.start c.len prot).map (·.1)

/-- No part that is left of an area begins later than the area did. -/
def KeepsStarts : Prop := ∀ x ∈ m, x.2.seg.Meets c.start (c.start + c.len) →
  x.2.start + x.2.len ≤ c.start + c.len ∧ (c.prot.isSome → c.start ≤ x.2.start)

def changed (x : Attr) : Option Attr := c.prot.map x.setProt

theorem apply_eq : ∃ split, Cuts c.changed split ∧ c.apply m = (sweep split m c.start c.len).map (·.1) := by
  rcases c with ⟨-, -, _ | prot, _, _, _⟩
  · exact ⟨_, munmapSplit_cuts, rfl⟩
  · exact ⟨_, mprotectSplit_cuts prot, rfl⟩

variable {m c}

/-- A part is a clone of its area, `offset` included, so it has the area's positions
    only where it begins as the area did. -/
theorem apply_positions {m' : VmaMap} (hm : WellFormed m) (he : EndsFit m) (h : c.apply m = some m') :
    WellFormed m' ∧ EndsFit m' ∧ (KeepsPositions m m' ↔ c.KeepsStarts m) := by
  obtain ⟨_, hc, heq⟩ := apply_eq m c
  obtain ⟨⟨m', _⟩, hsw, rfl⟩ := of_map (heq ▸ h)
  obtain ⟨hlt, hm', he', -⟩ := sweep_some hc hm he c.start_aligned c.len_aligned c.len_pos hsw
  have hw : c.start < c.start + c.len := Nat.lt_add_of_pos_right c.len_pos
  have hmem : ∀ s, s ∈ segs m' ↔ s ∈ (segs m).flatMap (Seg.cut c.start (c.start + c.len) c.changed) := by
    rw [sweep_eq hm he hlt] at hsw
    cases hsw
    exact mem_segs_of_mem fun x => mem_swept hc hm hw
  -- the position of an address in a part, after the call and before it
  have hpart : ∀ {x p a}, x ∈ m → p ∈ x.2.seg.cut c.start (c.start + c.len) c.changed → p.Covers a →
      filePosition m' a = some (x.2.offset + (a - p.start)) ∧
        filePosition m a = some (x.2.offset + (a - x.2.start)) ∧ x.2.start ≤ p.start := by
    intro x p a hx hp hca
    have hxs := mem_segs.mpr ⟨x, hx, rfl⟩
    have hin := (Seg.cut_within (hm.len_pos x hx) hp).1
    have hoff : p.val.offset = x.2.offset := by
      rcases Seg.mem_cut.mp hp with ⟨-, rfl⟩ | ⟨y, hy, -, rfl⟩ | ⟨-, rfl⟩
      · rfl
      · obtain ⟨prot, -, rfl⟩ := of_map hy
        rfl
      · rfl
    refine ⟨?_, filePosition_eq hm hxs ⟨hin.1.trans hca.1, hca.2.trans_le hin.2⟩, hin.1⟩
    rw [filePosition_eq hm' ((hmem p).mpr (mem_flatMap.mpr ⟨_, hxs, hp⟩)) hca, hoff]
  have hiff : (∀ x ∈ m, ∀ p ∈ x.2.seg.cut c.start (c.start + c.len) c.changed, p.start = x.2.start) ↔
      c.KeepsStarts m := by
    refine forall₂_congr fun x hx => (Seg.cut_start_iff (hm.len_pos x hx) hw).trans ?_
    rw [changed, isSome_map]
    rfl
  refine ⟨hm', he', Iff.trans ⟨fun hk x hx p hp => ?_, fun hst a ha => ?_⟩ hiff⟩
  · have hlen := (Seg.cut_within (hm.len_pos x hx) hp).2
    obtain ⟨h1, h2, h3⟩ := hpart hx hp ⟨Nat.le_refl p.start, Nat.lt_add_of_pos_right hlen⟩
    have := hk p.start (by rw [h1]; rfl)
    rw [h1, h2, some.injEq] at this
    omega
  · obtain ⟨p, hp, -⟩ := of_map (get_mem ha)
    obtain ⟨s, hs, hps⟩ := mem_flatMap.mp ((hmem p).mp (mem_of_find?_eq_some hp))
    obtain ⟨x, hx, rfl⟩ := mem_segs.mp hs
    obtain ⟨h1, h2, -⟩ := hpart hx hps (by simpa using find?_some hp)
    rw [h1, h2, hst x hx p hps]

end VmaCall

def vmaCalls (m : VmaMap) : Machine VmaMap VmaCall := ⟨(· = m), fun m c => c.apply m⟩

/-- A call keeps the file positions exactly if no part of an area begins later than the
    area did, and so does every sequence of such calls. -/
theorem file_positions_kept {m : VmaMap} (hm : WellFormed m) (he : EndsFit m) :
    (∀ (c : VmaCall) m', c.apply m = some m' → (KeepsPositions m m' ↔ c.KeepsStarts m)) ∧
      ∀ m', (vmaCalls m).Reach (fun m c => c.KeepsStarts m) m' → KeepsPositions m m' := by
  refine ⟨fun c m' h => (VmaCall.apply_positions hm he h).2.2, fun m' h => ?_⟩
  refine (h.inv (I := fun m' => WellFormed m' ∧ EndsFit m' ∧ KeepsPositions m m') ?_ ?_).2.2
  · rintro _ rfl
    exact ⟨hm, he, fun _ _ => rfl⟩
  · intro m₁ c m₂ ⟨hm₁, he₁, hk⟩ hg hs
    obtain ⟨hm₂, he₂, hiff⟩ := VmaCall.apply_positions hm₁ he₁ hs
    refine ⟨hm₂, he₂, fun a ha => ?_⟩
    have h21 := hiff.mpr hg a ha
    exact h21.trans (hk a (h21 ▸ ha))

/-- `munmap` of one page. -/
def unmapPage (n : Nat) : VmaCall := ⟨n * PAGE_SIZE, PAGE_SIZE, none, Nat.dvd_mul_left .., Nat.dvd_refl _, by decide⟩

/-- Without the last page of an area, the others keep their positions. -/
theorem file_positions_kept_last_page : ∃ m', (unmapPage 0x13).apply (oneArea 0x10000 0x4000) = some m' ∧
    KeepsPositions (oneArea 0x10000 0x4000) m' := by
  refine ⟨_, rfl, ((file_positions_kept (oneArea_wellFormed (by decide) (by decide) (by decide))
    (oneArea_all (P := fun s l => s + l < 2 ^ 64) (by decide))).1 (unmapPage 0x13) _ rfl).mpr fun x hx _ => ⟨?_, nofun⟩⟩
  exact oneArea_all (P := fun s l => s + l ≤ 0x13000 + 0x1000) (by decide) x hx

/-- A file's first two pages: with the first unmapped, the second stands for the file's beginning. -/
theorem munmap_moves_file_positions :
    let m := OrdMap.empty.insert 0x10000 ⟨0x10000, 0x2000, 3, MAP_PRIVATE, some 3, 0⟩
    ∃ m', (unmapPage 0x10).apply m = some m' ∧
      filePosition m 0x11000 = some 0x1000 ∧ filePosition m' 0x11000 = some 0 :=
  ⟨_, rfl, by decide, by decide⟩

end Ostoo.Memory
