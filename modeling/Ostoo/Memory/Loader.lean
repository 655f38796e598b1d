/-
  Ostoo.Memory.Loader — a new address space for an ELF image (`elf_loader.rs`).

  The loader never returns an error: whatever goes wrong on the way is an `expect` or an
  overflow, so a panic (`none`). What is copied into the frames is not modelled, only
  where in the image it is read.
-/

import Ostoo.Memory.Elf
import Ostoo.Memory.Services

namespace Ostoo.Memory

open Elf
open Option (bind_eq_some_iff)

def ELF_STACK_PAGES : Nat := 8

def ELF_STACK_VIRT : Nat := 0x0000_7FFF_F000_0000

/-- What the loader needs besides. -/
structure LoadOps (μ : Type) extends MemOps μ where
  createUserPageTable : μ → Option (Nat × μ)
  /-- `alloc_dma_pages` of several pages: the first of them. -/
  allocDmaPages : μ → (pages : Nat) → Option (Option Nat × μ)

section

variable {μ : Type}

/-- The first page of a segment, and the number of its pages. -/
def segmentPages (seg : LoadSegment) : Option (Nat × Nat) := do
  let pageStart := andNotMask seg.vaddr
  let stop ← addU64 seg.vaddr seg.memsz
  let pageEnd ← alignUp stop
  pure (pageStart, (pageEnd - pageStart) / PAGE_SIZE)

/-- The part of the image that is copied into the page at `pageVaddr`: its start and
    length. Slicing panics when it is out of bounds. -/
def pageSource (imageLen : Nat) (seg : LoadSegment) (pageVaddr : Nat) : Option (Nat × Nat) := do
  let copyStartInPage := if pageVaddr < seg.vaddr then seg.vaddr - pageVaddr else 0
  let segOffsetForPage := if pageVaddr ≥ seg.vaddr then pageVaddr - seg.vaddr else 0
  if segOffsetForPage < seg.filesz then
    let avail := seg.filesz - segOffsetForPage
    let room := PAGE_SIZE - copyStartInPage
    let count := min avail room
    let start ← addU64 seg.offset segOffsetForPage
    if start ≤ imageLen ∧ count ≤ imageLen - start then pure (start, count) else none
  else pure (0, 0)

def segmentFlags (seg : LoadSegment) : PtFlags where
  present := true
  writable := seg.flags &&& PF_W ≠ 0
  user := true
  noExecute := seg.flags &&& PF_X = 0

/-- `map_user_page(..).expect(..)` -/
def expectMapped : Option (Bool × μ) → Option (Bool × μ)
  | some (true, mem) => some (true, mem)
  | _ => none

def mapSegmentPage (ops : MemOps μ) (pml4 imageLen : Nat) (seg : LoadSegment) (pageStart i : Nat) (mem : μ) :
    Option (Bool × μ) := do
  let pageVaddr ← addU64 pageStart (i * PAGE_SIZE)
  match ops.allocFrame mem with
  | (none, _) => none
  | (some frame, mem) =>
    let _ ← pageSource imageLen seg pageVaddr
    let virt ← virtAddrNew pageVaddr
    expectMapped (ops.mapUserPage mem pml4 virt frame (segmentFlags seg))

def mapSegments (ops : MemOps μ) (pml4 imageLen : Nat) : List LoadSegment → μ → Option μ
  | [], mem => some mem
  | seg :: rest, mem => do
    let (pageStart, numPages) ← segmentPages seg
    let (_, mem) ← forPages (mapSegmentPage ops pml4 imageLen seg pageStart) numPages 0 mem
    mapSegments ops pml4 imageLen rest mem

def mapStack (ops : LoadOps μ) (pml4 : Nat) (mem : μ) : Option (Nat × μ) := do
  match ← ops.allocDmaPages mem ELF_STACK_PAGES with
  | (none, _) => none
  | (some stackPhys, mem) =>
    let (_, mem) ← forPages (fun i mem => do
      let virt ← virtAddrNew (ELF_STACK_VIRT + i * PAGE_SIZE)
      expectMapped (ops.mapUserPage mem pml4 virt (stackPhys + i * PAGE_SIZE) USER_DATA_FLAGS))
      ELF_STACK_PAGES 0 mem
    pure (stackPhys, mem)

/-- The new PML4 and the stack's first frame. -/
def loadElfAddressSpace (ops : LoadOps μ) (imageLen : Nat) (info : ElfInfo) (mem : μ) :
    Option (Except String (Nat × Nat × μ)) := do
  let (pml4, mem) ← ops.createUserPageTable mem
  let mem ← mapSegments ops.toMemOps pml4 imageLen info.segments mem
  let (stackPhys, mem) ← mapStack ops pml4 mem
  pure (.ok (pml4, stackPhys, mem))

/-- The end of the highest segment; each end is a checked sum. -/
def highestEnd : List LoadSegment → Option Nat
  | [] => some 0
  | seg :: rest => do
    let stop ← addU64 seg.vaddr seg.memsz
    let m ← highestEnd rest
    pure (max stop m)

def computeBrkBase (info : ElfInfo) : Option Nat := do
  let maxEnd ← highestEnd info.segments
  alignUp maxEnd

/-! ## Rules for the loops -/

variable {ops : MemOps μ} {pml4 imageLen pageStart : Nat} {mem mem' : μ} {ok : Bool} {seg : LoadSegment}

theorem expectMapped_eq_some {r : Option (Bool × μ)} (h : expectMapped r = some (ok, mem)) :
    r = some (true, mem) ∧ ok = true := by
  unfold expectMapped at h
  split at h
  · cases h
    exact ⟨rfl, rfl⟩
  · cases h

theorem segmentPages_eq_some {n : Nat} (hv : seg.vaddr < 2 ^ 64) (h : segmentPages seg = some (pageStart, n)) :
    pageStart = seg.vaddr / PAGE_SIZE * PAGE_SIZE ∧ n = pagesOf (seg.vaddr + seg.memsz) - seg.vaddr / PAGE_SIZE := by
  obtain ⟨_, hstop, h⟩ := bind_eq_some_iff.mp h
  obtain ⟨_, hend, h⟩ := bind_eq_some_iff.mp h
  obtain ⟨-, rfl⟩ := addU64_eq_some.mp hstop
  obtain ⟨-, rfl⟩ := alignUp_pages hend
  rw [andNotMask_eq hv] at h
  cases h
  refine ⟨rfl, ?_⟩
  rw [← Nat.sub_mul, Nat.mul_div_cancel _ (by decide)]

theorem mapSegmentPage_inv {i : Nat} (h : mapSegmentPage ops pml4 imageLen seg pageStart i mem = some (ok, mem')) :
    ∃ frame mem1, ops.allocFrame mem = (some frame, mem1) ∧
      ops.mapUserPage mem1 pml4 (pageStart + i * PAGE_SIZE) frame (segmentFlags seg) = some (true, mem') := by
  obtain ⟨_, hv, h⟩ := bind_eq_some_iff.mp h
  obtain ⟨-, rfl⟩ := addU64_eq_some.mp hv
  split at h
  · cases h
  rename_i frame mem1 ha
  obtain ⟨_, -, h⟩ := bind_eq_some_iff.mp h
  obtain ⟨_, hvirt, h⟩ := bind_eq_some_iff.mp h
  obtain ⟨-, rfl⟩ := virtAddrNew_eq_some.mp hvirt
  exact ⟨frame, mem1, ha, (expectMapped_eq_some h).1⟩

theorem mapSegments_inv {segments : List LoadSegment} (I : μ → Prop)
    (hpage : ∀ seg ∈ segments, ∀ pageStart n, segmentPages seg = some (pageStart, n) →
      ∀ i < n, ∀ mem mem1 mem' frame, I mem → ops.allocFrame mem = (some frame, mem1) →
      ops.mapUserPage mem1 pml4 (pageStart + i * PAGE_SIZE) frame (segmentFlags seg) = some (true, mem') → I mem')
    (h0 : I mem) (h : mapSegments ops pml4 imageLen segments mem = some mem') : I mem' := by
  induction segments generalizing mem with
  | nil =>
    cases h
    exact h0
  | cons seg rest ih =>
    obtain ⟨⟨pageStart, n⟩, hp, h⟩ := bind_eq_some_iff.mp h
    obtain ⟨⟨ok, _⟩, h1, h⟩ := bind_eq_some_iff.mp h
    refine ih (fun seg hm => hpage seg (.tail _ hm)) ?_ h
    have hbody : ∀ (ok : Bool) j mem mem', j < n → I mem →
        mapSegmentPage ops pml4 imageLen seg pageStart j mem = some (ok, mem') → I mem' := by
      intro ok j m m' hj hI hb
      obtain ⟨frame, m1, ha, hmap⟩ := mapSegmentPage_inv hb
      exact hpage seg (List.mem_cons_self ..) pageStart n hp j hj m m1 m' frame hI ha hmap
    have hloop := forPages_inv (fun _ => I) I (hbody true) (hbody false) h0 h1
    cases ok <;> exact hloop

/-- The stack: a run of frames is taken, and its pages are mapped one after the other. -/
theorem mapStack_inv {lops : LoadOps μ} {stack : Nat} (P : Nat → μ → Prop)
    (hmap : ∀ j < ELF_STACK_PAGES, ∀ mem mem', P j mem → lops.mapUserPage mem pml4 (ELF_STACK_VIRT + j * PAGE_SIZE)
      (stack + j * PAGE_SIZE) USER_DATA_FLAGS = some (true, mem') → P (j + 1) mem')
    (h0 : ∀ mem1, lops.allocDmaPages mem ELF_STACK_PAGES = some (some stack, mem1) → P 0 mem1)
    (h : mapStack lops pml4 mem = some (stack, mem')) : P ELF_STACK_PAGES mem' := by
  obtain ⟨⟨base, mem1⟩, h1, h⟩ := bind_eq_some_iff.mp h
  cases base with
  | none => cases h
  | some stackPhys =>
    obtain ⟨⟨ok, _⟩, h2, h⟩ := bind_eq_some_iff.mp h
    cases h
    have hbody : ∀ (ok : Bool) j mem mem', j < ELF_STACK_PAGES → P j mem → (do
        let virt ← virtAddrNew (ELF_STACK_VIRT + j * PAGE_SIZE)
        expectMapped (lops.mapUserPage mem pml4 virt (stack + j * PAGE_SIZE) USER_DATA_FLAGS)) = some (ok, mem') →
        ok = true ∧ P (j + 1) mem' := by
      intro ok j m m' hj hP hb
      obtain ⟨_, hvirt, hb⟩ := bind_eq_some_iff.mp hb
      obtain ⟨-, rfl⟩ := virtAddrNew_eq_some.mp hvirt
      obtain ⟨hb, hok⟩ := expectMapped_eq_some hb
      exact ⟨hok, hmap j hj m m' hP hb⟩
    have hloop := forPages_inv P (fun _ => False) (fun j m m' hj hP hb => (hbody true j m m' hj hP hb).2)
      (fun j m m' hj hP hb => absurd (hbody false j m m' hj hP hb).1 Bool.false_ne_true) (h0 mem1 h1) h2
    cases ok with
    | true => exact hloop
    | false => exact hloop.elim

end

/-! ## Over the memory services -/

/-- The loop of `alloc_dma_pages` for more than one page: frames come from the boot memory
    map in order, and it asserts that they are contiguous. -/
def Frames.allocateRun : Nat → Nat → Option Nat → Frames → Option (Option Nat × Frames)
  | 0, _, base, a => some (base, a)
  | n + 1, i, base, a =>
    match a.allocateSequential with
    | (none, a) => some (none, a)
    | (some f, a) =>
      match base with
      | none => allocateRun n (i + 1) (some f) a
      | some b => if f = b + i * PAGE_SIZE then allocateRun n (i + 1) base a else none

namespace Mem

variable {τ : Type}

def allocDmaPages (m : Mem τ) (pages : Nat) : Option (Option Nat × Mem τ) :=
  (m.frames.allocateRun pages 0 none).map fun (base, a) => (base, { m with frames := a })

def loader (M : Mapper τ) : LoadOps (Mem τ) where
  toMemOps := services M
  createUserPageTable m := m.createUserPageTable M
  allocDmaPages := allocDmaPages

end Mem

end Ostoo.Memory
