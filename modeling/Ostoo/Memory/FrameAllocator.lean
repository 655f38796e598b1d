/-
  Ostoo.Memory.FrameAllocator — `BootInfoFrameAllocator` with its memory (`frame_allocator.rs`).

  The freed frames are a list whose links are in the first eight bytes of the frames
  themselves. It is written to and read from through the mapping of physical memory, in
  which everybody else writes as well. The frames not yet handed out are those of the boot
  memory map's usable regions from a cursor on.

  Beside the allocator it is recorded which frames are live, and which were freed and not
  handed out again. As long as only live frames are freed and nobody writes to the links
  (`Disciplined`), the list in memory is the list of the freed frames and the allocator
  refines `Frames` (`allocateFrame_refines`, `deallocateFrame_refines`).
-/

import Mathlib.Data.List.Perm.Subperm
import Mathlib.Tactic.Tauto
import Ostoo.Lib.Linked
import Ostoo.Lib.Machine
import Ostoo.Lib.Traced
import Ostoo.Memory.Frames
import Ostoo.Memory.Page

namespace Ostoo.Memory

open Ostoo.Lib Ostoo.Lib.Traced List Option Frames

/-- All that is not usable is one kind here. -/
inductive MemoryRegionType
  | usable | other
  deriving DecidableEq

structure MemoryRegion where
  startAddr : Nat
  endAddr : Nat
  regionType : MemoryRegionType

/-- `(start..end).step_by(4096)` -/
def MemoryRegion.addresses (r : MemoryRegion) : List Nat :=
  (List.range (pagesOf (r.endAddr - r.startAddr))).map fun i => r.startAddr + i * PAGE_SIZE

def usableAddresses (memoryMap : List MemoryRegion) : List Nat :=
  (memoryMap.filter (·.regionType = .usable)).flatMap MemoryRegion.addresses

/-- `PhysAddr::new` panics from here on. -/
def PHYS_END : Nat := 2 ^ 52

/-- `PhysFrame::containing_address` -/
def containingFrame (addr : Nat) : Nat := addr / PAGE_SIZE * PAGE_SIZE

structure BootInfoFrameAllocator where
  memoryMap : List MemoryRegion
  next : Nat
  /-- 0 when the list is empty. -/
  freeHead : Nat
  physMemOffset : Nat

namespace BootInfoFrameAllocator

def init (memoryMap : List MemoryRegion) : BootInfoFrameAllocator := ⟨memoryMap, 0, 0, 0⟩

variable (a : BootInfoFrameAllocator)

/-- `usable_frames().nth(n)`: the frames before it are made and dropped. -/
def nthUsable (n : Nat) : Option (Option Nat) :=
  if ((usableAddresses a.memoryMap).take (n + 1)).all (· < PHYS_END) then
    some ((usableAddresses a.memoryMap)[n]?.map containingFrame)
  else none

def deallocateFrame (m : Bytes) (frame : Nat) : Option (BootInfoFrameAllocator × Bytes) :=
  if a.physMemOffset = 0 then none
  else do
    let virt ← addU64 a.physMemOffset frame
    pure ({ a with freeHead := frame }, storeBytes m virt (wordBytes (BitVec.ofNat 64 a.freeHead)))

/-- The loop of `free_list_len`; `none` when it panics or is not done after `fuel` rounds. -/
def countFree (a : BootInfoFrameAllocator) (m : Bytes) : Nat → Nat → Nat → Option Nat
  | 0, _, _ => none
  | fuel + 1, count, addr =>
    if addr ≠ 0 then do
      let count ← addU64 count 1
      let virt ← addU64 a.physMemOffset addr
      countFree a m fuel count (wordAt m virt).toNat
    else some count

def freeListLen (m : Bytes) (fuel : Nat) : Option Nat := a.countFree m fuel 0 a.freeHead

def allocateFrameSequential : Option (Option Nat × BootInfoFrameAllocator) := do
  let frame ← a.nthUsable a.next
  let next ← addU64 a.next 1
  pure (frame, { a with next := next })

def allocateFrame (m : Bytes) : Option (Option Nat × BootInfoFrameAllocator) :=
  if a.freeHead ≠ 0 then do
    let virt ← addU64 a.physMemOffset a.freeHead
    if a.freeHead < PHYS_END then
      pure (some (containingFrame a.freeHead), { a with freeHead := (wordAt m virt).toNat })
    else none
  else a.allocateFrameSequential

end BootInfoFrameAllocator

/-! ## Runs -/

/-- The allocator, the memory, and what was done with the frames. -/
structure Allocation where
  alloc : BootInfoFrameAllocator
  mem : Bytes
  /-- Handed out and not freed. -/
  live : List Nat
  /-- Freed and not handed out again. -/
  freed : List Nat

inductive FrameEv
  | allocate
  | allocateSequential
  | deallocate (frame : Nat)
  /-- Anybody else writes to memory. -/
  | write (addr : Nat) (bytes : List UInt8)

namespace Allocation

def handOut (s : Allocation) (r : Option Nat × BootInfoFrameAllocator) : Allocation :=
  match r.1 with
  | some f => { s with alloc := r.2, live := f :: s.live, freed := s.freed.erase f }
  | none => { s with alloc := r.2 }

def step (s : Allocation) : FrameEv → Option Allocation
  | .allocate => (s.alloc.allocateFrame s.mem).map s.handOut
  | .allocateSequential => s.alloc.allocateFrameSequential.map s.handOut
  | .deallocate f => (s.alloc.deallocateFrame s.mem f).map fun r => ⟨r.1, r.2, s.live.erase f, f :: s.freed⟩
  | .write addr bytes => some { s with mem := storeBytes s.mem addr bytes }

/-- Physical memory is found from `offset` on, which is set before the first frame is freed. -/
def machine (memoryMap : List MemoryRegion) (offset : Nat) : Machine Allocation FrameEv where
  start := fun s => ∃ mem, s = ⟨{ BootInfoFrameAllocator.init memoryMap with physMemOffset := offset }, mem, [], []⟩
  step := step

/-- Where a free frame keeps its link. -/
def linkAddr (s : Allocation) (f : Nat) : Nat := s.alloc.physMemOffset + f

/-- Only live frames are freed, and the links are left alone. -/
def Disciplined (s : Allocation) : FrameEv → Prop
  | .deallocate f => f ∈ s.live
  | .write addr bytes => ∀ f ∈ s.freed, addr + bytes.length ≤ s.linkAddr f ∨ s.linkAddr f + 8 ≤ addr
  | _ => True

instance (s : Allocation) (e : FrameEv) : Decidable (s.Disciplined e) := by
  cases e <;> unfold Disciplined <;> infer_instance

end Allocation

/-- Frame-aligned usable regions that do not meet, without frame 0. -/
structure ValidMap (memoryMap : List MemoryRegion) : Prop where
  aligned : ∀ r ∈ memoryMap, r.regionType = .usable → PAGE_SIZE ∣ r.startAddr ∧ PAGE_SIZE ∣ r.endAddr
  disjoint : (memoryMap.filter (·.regionType = .usable)).Pairwise fun r r' =>
    ∀ addr, r.startAddr ≤ addr → addr < r.endAddr → ¬ (r'.startAddr ≤ addr ∧ addr < r'.endAddr)
  nonzero : ∀ r ∈ memoryMap, r.regionType = .usable → ¬ (r.startAddr = 0 ∧ 0 < r.endAddr)

/-! ## The frames of the map -/

section

variable {memoryMap : List MemoryRegion} {r : MemoryRegion} {addr : Nat}

theorem MemoryRegion.mem_addresses (h : addr ∈ r.addresses) :
    ∃ i, addr = r.startAddr + i * PAGE_SIZE ∧ r.startAddr ≤ addr ∧ addr < r.endAddr := by
  obtain ⟨i, hi, rfl⟩ := mem_map.mp h
  have hi := mem_range.mp hi
  refine ⟨i, rfl, Nat.le_add_right _ _, ?_⟩
  simp only [pagesOf, PAGE_SIZE, PAGE_MASK] at *
  omega

theorem MemoryRegion.addresses_nodup : r.addresses.Nodup := by
  refine Nodup.map ?_ nodup_range
  intro i j hij
  simp only [PAGE_SIZE] at hij
  omega

theorem mem_usableAddresses : addr ∈ usableAddresses memoryMap ↔ ∃ r ∈ memoryMap, r.regionType = .usable ∧
      addr ∈ r.addresses := by
  simp [usableAddresses, and_assoc]

theorem ValidMap.usable_nodup (h : ValidMap memoryMap) : (usableAddresses memoryMap).Nodup := by
  refine nodup_flatMap.mpr ⟨fun _ _ => MemoryRegion.addresses_nodup, ?_⟩
  refine h.disjoint.imp ?_
  intro r r' hdis addr hr hr'
  obtain ⟨-, -, hlo, hhi⟩ := MemoryRegion.mem_addresses hr
  obtain ⟨-, -, hlo', hhi'⟩ := MemoryRegion.mem_addresses hr'
  exact hdis addr hlo hhi ⟨hlo', hhi'⟩

theorem ValidMap.usable_frame (h : ValidMap memoryMap) (haddr : addr ∈ usableAddresses memoryMap) :
    PAGE_SIZE ∣ addr ∧ addr ≠ 0 := by
  obtain ⟨r, hr, hu, haddr⟩ := mem_usableAddresses.mp haddr
  obtain ⟨_, rfl, -, _⟩ := MemoryRegion.mem_addresses haddr
  refine ⟨Nat.dvd_add (h.aligned r hr hu).1 (Nat.dvd_mul_left _ _), ?_⟩
  intro h0
  exact h.nonzero r hr hu ⟨by omega, by omega⟩

theorem containingFrame_of_dvd (h : PAGE_SIZE ∣ addr) : containingFrame addr = addr := Nat.div_mul_cancel h

end

/-! ## The list in memory -/

namespace Allocation

variable {memoryMap : List MemoryRegion} {offset : Nat} {s s' : Allocation} {a' : BootInfoFrameAllocator}
  {o : Option Nat} {f : Nat}

/-- The link of a free frame. -/
def link (s : Allocation) (f : Nat) : Nat := (wordAt s.mem (s.linkAddr f)).toNat

/-- What the allocator stands for. -/
def frames (s : Allocation) : Frames := ⟨usableAddresses s.alloc.memoryMap, s.alloc.next, s.freed⟩

structure Inv (memoryMap : List MemoryRegion) (offset : Nat) (s : Allocation) : Prop where
  map : s.alloc.memoryMap = memoryMap
  offset : s.alloc.physMemOffset = offset
  sound : s.frames.Sound
  /-- The list in memory is that of the freed frames. -/
  linked : Linked s.link 0 s.alloc.freeHead s.freed
  live : ∀ f, f ∈ s.live ↔ s.frames.Issued f ∧ f ∉ s.freed
  nodup : s.live.Nodup
  /-- Frames were checked when they were handed out, and their addresses when they were freed. -/
  issued : ∀ f, s.frames.Issued f → f < PHYS_END
  freed : ∀ f ∈ s.freed, s.linkAddr f < 2 ^ 64

variable (hi : Inv memoryMap offset s)
include hi

theorem Inv.issued_frame (hmap : ValidMap memoryMap) (hf : s.frames.Issued f) : PAGE_SIZE ∣ f ∧ f ≠ 0 := by
  refine hmap.usable_frame ?_
  rw [← hi.map]
  exact mem_of_mem_take hf

theorem Inv.apart (hmap : ValidMap memoryMap) {g : Nat} (hf : s.frames.Issued f) (hg : s.frames.Issued g)
    (hne : g ≠ f) : s.linkAddr g + 8 ≤ s.linkAddr f ∨ s.linkAddr f + 8 ≤ s.linkAddr g := by
  obtain ⟨⟨_, rfl⟩, -⟩ := hi.issued_frame hmap hf
  obtain ⟨⟨_, rfl⟩, -⟩ := hi.issued_frame hmap hg
  simp only [linkAddr, PAGE_SIZE] at *
  omega

omit hi in
theorem nthUsable_eq {a : BootInfoFrameAllocator} {n : Nat} (hmap : ValidMap a.memoryMap) (h : a.nthUsable n = some o) :
    o = (usableAddresses a.memoryMap)[n]? ∧ ∀ f ∈ (usableAddresses a.memoryMap).take (n + 1), f < PHYS_END := by
  obtain ⟨hall, ⟨⟩⟩ := of_guard h
  refine ⟨?_, fun f hf => of_decide_eq_true (all_eq_true.mp hall f hf)⟩
  cases hn : (usableAddresses a.memoryMap)[n]? with
  | none => rfl
  | some f => exact congrArg some (containingFrame_of_dvd (hmap.usable_frame (mem_of_getElem? hn)).1)

/-! ## The operations refine those of `Frames` -/

theorem allocateSequential_refines (hmap : ValidMap memoryMap) (h : s.alloc.allocateFrameSequential = some (o, a')) :
    s.frames.allocateSequential = (o, { s.frames with next := s.alloc.next + 1 }) ∧
      a' = { s.alloc with next := s.alloc.next + 1 } ∧
      ∀ f ∈ (usableAddresses s.alloc.memoryMap).take (s.alloc.next + 1), f < PHYS_END := by
  obtain ⟨_, hframe, h⟩ := of_bind h
  obtain ⟨_, hnext, h⟩ := of_bind h
  cases h
  obtain ⟨ho, hsmall⟩ := nthUsable_eq (hi.map ▸ hmap) hframe
  obtain ⟨-, rfl⟩ := addU64_eq_some.mp hnext
  exact ⟨by rw [ho]; rfl, rfl, hsmall⟩

theorem allocateFrame_refines (hmap : ValidMap memoryMap) (h : s.alloc.allocateFrame s.mem = some (o, a')) :
    s.frames.allocate = (o, (s.handOut (o, a')).frames) := by
  unfold BootInfoFrameAllocator.allocateFrame at h
  split at h
  · rename_i hne
    obtain ⟨_, hfreed, -⟩ := hi.linked.pop hne
    obtain ⟨_, -, h⟩ := of_bind h
    obtain ⟨-, ⟨⟩⟩ := of_guard h
    have hissued : s.frames.Issued s.alloc.freeHead := by
      refine hi.sound.issued _ ?_
      show s.alloc.freeHead ∈ s.freed
      rw [hfreed]
      exact mem_cons_self
    rw [containingFrame_of_dvd (hi.issued_frame hmap hissued).1]
    simp only [allocate, frames, hfreed, handOut, erase_cons_head]
  · rename_i hhead
    have hnil : s.freed = [] := by
      have := hi.linked
      rw [of_not_not hhead] at this
      exact this.eq_nil
    obtain ⟨hseq, rfl, -⟩ := allocateSequential_refines hi hmap h
    have hempty : s.frames.freeList = [] := hnil
    rw [allocate, hempty, hseq]
    cases o with
    | none => rfl
    | some f => simp [handOut, frames, hnil]

omit hi in
theorem deallocateFrame_refines {m' : Bytes} (h : s.alloc.deallocateFrame s.mem f = some (a', m')) :
    frames ⟨a', m', s.live.erase f, f :: s.freed⟩ = s.frames.deallocate f ∧ s.linkAddr f < 2 ^ 64 ∧
      a' = { s.alloc with freeHead := f } ∧
        m' = storeBytes s.mem (s.linkAddr f) (wordBytes (BitVec.ofNat 64 s.alloc.freeHead)) := by
  obtain ⟨-, h⟩ := of_unless h
  obtain ⟨_, hvirt, h⟩ := of_bind h
  obtain ⟨hlt, rfl⟩ := addU64_eq_some.mp hvirt
  cases h
  exact ⟨rfl, hlt, rfl, rfl⟩

/-! ## Every step -/

omit hi in
theorem handOut_alloc (s : Allocation) (r : Option Nat × BootInfoFrameAllocator) :
    (s.handOut r).alloc = r.2 ∧ (s.handOut r).mem = s.mem := by
  unfold handOut
  split <;> exact ⟨rfl, rfl⟩

theorem Inv.handOut (hmap : a'.memoryMap = s.alloc.memoryMap) (hoff : a'.physMemOffset = s.alloc.physMemOffset)
    (htook : s.frames.Took o.toList (s.handOut (o, a')).frames)
    (hlinked : Linked s.link 0 a'.freeHead (s.handOut (o, a')).freed)
    (hissued : ∀ g, (s.handOut (o, a')).frames.Issued g → g < PHYS_END ∧ (s.frames.Issued g ∨ o = some g)) :
    Inv memoryMap offset (s.handOut (o, a')) := by
  obtain ⟨ha, hm⟩ := s.handOut_alloc (o, a')
  have haddr : (s.handOut (o, a')).linkAddr = s.linkAddr := by
    unfold linkAddr
    rw [ha, hoff]
  have hlink : (s.handOut (o, a')).link = s.link := by
    unfold link
    rw [haddr, hm]
  refine ⟨?_, ?_, htook.sound, ?_, ?_, ?_, fun g hg => (hissued g hg).1, ?_⟩
  · rw [ha, hmap, hi.map]
  · rw [ha, hoff, hi.offset]
  · rw [hlink, ha]
    exact hlinked
  · intro g
    cases o with
    | none =>
      refine (hi.live g).trans (and_congr_left fun _ => ⟨htook.issued g, fun hg => ?_⟩)
      exact (hissued g hg).2.resolve_right (by simp)
    | some f =>
      show g ∈ f :: s.live ↔ _
      constructor
      · intro hg
        rcases mem_cons.mp hg with rfl | hg
        · exact htook.taken g (by simp)
        · obtain ⟨hg, hnot⟩ := (hi.live g).mp hg
          exact ⟨htook.issued g hg, fun hm => hnot (htook.free g hm)⟩
      · rintro ⟨hg, hnot⟩
        by_cases he : g = f
        · exact he ▸ mem_cons_self
        · refine mem_cons_of_mem _ ((hi.live g).mpr ⟨?_, ?_⟩)
          · exact (hissued g hg).2.resolve_right fun h => he (some.inj h).symm
          · exact fun hm => hnot ((mem_erase_of_ne he).mpr hm)
  · cases o with
    | none => exact hi.nodup
    | some f =>
      refine nodup_cons.mpr ⟨fun hf => ?_, hi.nodup⟩
      obtain ⟨hf, hnot⟩ := (hi.live f).mp hf
      exact htook.not_mem hf hnot (by simp)
  · rw [haddr]
    exact fun g hg => hi.freed g (htook.free g hg)

theorem allocateSequential_inv (hmap : ValidMap memoryMap) (h : s.alloc.allocateFrameSequential = some (o, a')) :
    s.frames.Took o.toList (s.handOut (o, a')).frames ∧ Inv memoryMap offset (s.handOut (o, a')) := by
  obtain ⟨hseq, rfl, hsmall⟩ := allocateSequential_refines hi hmap h
  have htook := allocateSequential_took hi.sound hseq
  -- The new frame was never handed out, so it is not on the list.
  have hfreed : (s.handOut (o, { s.alloc with next := s.alloc.next + 1 })).freed = s.freed := by
    cases o with
    | none => rfl
    | some f =>
      refine erase_of_not_mem fun hf => ?_
      exact (htook.taken f (by simp)).2 hf
  have hframes : (s.handOut (o, { s.alloc with next := s.alloc.next + 1 })).frames =
      { s.frames with next := s.alloc.next + 1 } := by
    rw [frames, hfreed, (s.handOut_alloc _).1]
    rfl
  rw [← hframes] at htook
  refine ⟨htook, hi.handOut rfl rfl htook ?_ ?_⟩
  · rw [hfreed]
    exact hi.linked
  · intro g hg
    rw [hframes] at hg
    refine ⟨hsmall g hg, ?_⟩
    have hnext : o = s.frames.usable[s.frames.next]? := (congrArg Prod.fst hseq).symm
    cases o with
    | none => exact .inl ((issued_succ_none hnext.symm).mp hg)
    | some f => exact ((issued_succ hnext.symm).mp hg).imp_right fun he => by rw [he]

theorem allocateFrame_inv (hmap : ValidMap memoryMap) (h : s.alloc.allocateFrame s.mem = some (o, a')) :
    s.frames.Took o.toList (s.handOut (o, a')).frames ∧ Inv memoryMap offset (s.handOut (o, a')) := by
  have htook := allocate_took hi.sound (allocateFrame_refines hi hmap h)
  refine ⟨htook, ?_⟩
  unfold BootInfoFrameAllocator.allocateFrame at h
  split at h
  · rename_i hne
    obtain ⟨_, hfreed, hrest⟩ := hi.linked.pop hne
    obtain ⟨_, hvirt, h⟩ := of_bind h
    obtain ⟨-, rfl⟩ := addU64_eq_some.mp hvirt
    obtain ⟨-, ⟨⟩⟩ := of_guard h
    have hissued : s.frames.Issued s.alloc.freeHead := by
      refine hi.sound.issued _ ?_
      show s.alloc.freeHead ∈ s.freed
      rw [hfreed]
      exact mem_cons_self
    have hframe := containingFrame_of_dvd (hi.issued_frame hmap hissued).1
    refine hi.handOut rfl rfl htook ?_ fun g hg => ⟨hi.issued g hg, .inl hg⟩
    show Linked s.link 0 (s.link s.alloc.freeHead) (s.freed.erase (containingFrame s.alloc.freeHead))
    rw [hframe, hfreed, erase_cons_head]
    exact hrest
  · exact (allocateSequential_inv hi hmap h).2

theorem deallocate_inv {m' : Bytes} (hmap : ValidMap memoryMap) (hf : f ∈ s.live)
    (h : s.alloc.deallocateFrame s.mem f = some (a', m')) :
    Inv memoryMap offset ⟨a', m', s.live.erase f, f :: s.freed⟩ := by
  obtain ⟨hframes, hlt, rfl, rfl⟩ := deallocateFrame_refines h
  obtain ⟨hissued, hnot⟩ := (hi.live f).mp hf
  have hhead : s.alloc.freeHead < 2 ^ 64 := by
    by_cases h0 : s.alloc.freeHead = 0
    · omega
    obtain ⟨_, hfreed, -⟩ := hi.linked.pop h0
    have := hi.issued s.alloc.freeHead (hi.sound.issued _ (show _ ∈ s.freed by rw [hfreed]; exact mem_cons_self))
    simp only [PHYS_END] at this
    omega
  refine ⟨hi.map, hi.offset, ?_, ?_, ?_, hi.nodup.erase f, hi.issued, ?_⟩
  · rw [hframes]
    exact hi.sound.deallocate hissued hnot
  · refine hi.linked.push (hi.issued_frame hmap hissued).2 ?_ ?_
    · show (wordAt (storeBytes s.mem (s.linkAddr f) _) (s.linkAddr f)).toNat = _
      rw [wordAt_wordBytes, BitVec.toNat_ofNat, Nat.mod_eq_of_lt hhead]
    · intro g hg
      have hne : g ≠ f := fun he => hnot (he ▸ hg)
      show (wordAt (storeBytes s.mem (s.linkAddr f) _) (s.linkAddr g)).toNat = (wordAt s.mem (s.linkAddr g)).toNat
      rw [wordAt_storeBytes]
      exact hi.apart hmap hissued (hi.sound.issued g hg) hne
  · intro g
    show g ∈ s.live.erase f ↔ s.frames.Issued g ∧ g ∉ f :: s.freed
    rw [hi.nodup.mem_erase_iff, hi.live g, mem_cons, not_or]
    exact ⟨fun ⟨hne, hg, hm⟩ => ⟨hg, hne, hm⟩, fun ⟨hg, hne, hm⟩ => ⟨hne, hg, hm⟩⟩
  · intro g hg
    rcases mem_cons.mp hg with rfl | hg
    · exact hlt
    · exact hi.freed g hg

theorem write_inv {addr : Nat} {bytes : List UInt8}
    (hd : ∀ f ∈ s.freed, addr + bytes.length ≤ s.linkAddr f ∨ s.linkAddr f + 8 ≤ addr) :
    Inv memoryMap offset { s with mem := storeBytes s.mem addr bytes } := by
  refine ⟨hi.map, hi.offset, hi.sound, hi.linked.congr ?_, hi.live, hi.nodup, hi.issued, hi.freed⟩
  intro f hf
  show (wordAt (storeBytes s.mem addr bytes) (s.linkAddr f)).toNat = (wordAt s.mem (s.linkAddr f)).toNat
  rw [wordAt_storeBytes (hd f hf).symm]

theorem step_inv {e : FrameEv} (hmap : ValidMap memoryMap) (hd : s.Disciplined e) (h : s.step e = some s') :
    Inv memoryMap offset s' := by
  cases e with
  | allocate =>
    obtain ⟨⟨o, a'⟩, ha, rfl⟩ := of_map h
    exact (allocateFrame_inv hi hmap ha).2
  | allocateSequential =>
    obtain ⟨⟨_, a'⟩, ha, rfl⟩ := of_map h
    exact (allocateSequential_inv hi hmap ha).2
  | deallocate f =>
    obtain ⟨⟨_, _⟩, ha, rfl⟩ := of_map h
    exact deallocate_inv hi hmap hd ha
  | write addr bytes =>
    cases h
    exact write_inv hi hd

omit hi in
theorem start_inv (hmap : ValidMap memoryMap) (h : (machine memoryMap offset).start s) : Inv memoryMap offset s := by
  obtain ⟨-, rfl⟩ := h
  have hnone : ∀ g, ¬ Frames.Issued ⟨usableAddresses memoryMap, 0, []⟩ g := by
    intro g hg
    simp [Frames.Issued] at hg
  refine ⟨rfl, rfl, ⟨hmap.usable_nodup, .nil, nofun⟩, rfl, fun g => ?_, .nil, fun g hg => absurd hg (hnone g),
    nofun⟩
  exact iff_of_false not_mem_nil fun hg => hnone g hg.1

omit hi in
theorem reach_inv (hmap : ValidMap memoryMap) (h : (machine memoryMap offset).Reach Disciplined s) :
    Inv memoryMap offset s :=
  Machine.Reach.inv (I := Inv memoryMap offset) (fun _ => start_inv hmap)
    (fun _ _ _ hi hd hs => step_inv hi hmap hd hs) h

/-! ## Counting -/

omit hi in
theorem countFree_eq {l : List Nat} : ∀ {head count fuel : Nat}, Linked s.link 0 head l →
      (∀ f ∈ l, s.linkAddr f < 2 ^ 64) →
    count + l.length < 2 ^ 64 → l.length < fuel →
      s.alloc.countFree s.mem fuel count head = some (count + l.length) := by
  induction l with
  | nil =>
    intro head count fuel hl _ _ hfuel
    obtain ⟨fuel, rfl⟩ := Nat.exists_eq_succ_of_ne_zero (Nat.ne_of_gt hfuel)
    have hhead : head = 0 := hl
    rw [BootInfoFrameAllocator.countFree, if_neg (not_not.mpr hhead)]
    rfl
  | cons a l ih =>
    intro head count fuel hl haddr hcount hfuel
    obtain ⟨rfl, hne, hl⟩ := hl
    obtain ⟨_, rfl⟩ := Nat.exists_eq_succ_of_ne_zero (Nat.ne_of_gt (Nat.zero_lt_of_lt hfuel))
    rw [length_cons] at *
    have hone : addU64 count 1 = some (count + 1) := addU64_eq_some.mpr ⟨by omega, rfl⟩
    have hvirt : addU64 s.alloc.physMemOffset head = some (s.linkAddr head) :=
      addU64_eq_some.mpr ⟨haddr head mem_cons_self, rfl⟩
    rw [BootInfoFrameAllocator.countFree, if_pos hne, hone, bind_eq_bind, bind_some, hvirt, bind_some]
    rw [show count + (l.length + 1) = count + 1 + l.length by omega]
    exact ih hl (fun f hf => haddr f (.tail _ hf)) (by omega) (Nat.lt_of_succ_lt_succ hfuel)

theorem Inv.freed_length : s.freed.length ≤ PHYS_END := by
  have hsub : s.freed ⊆ range PHYS_END := fun f hf => mem_range.mpr (hi.issued f (hi.sound.issued f hf))
  have hnodup : s.freed.Nodup := hi.sound.free
  have := (subperm_of_subset hnodup hsub).length_le
  rwa [length_range] at this

theorem Inv.freeListLen {fuel : Nat} (hfuel : s.freed.length < fuel) :
    s.alloc.freeListLen s.mem fuel = some s.freed.length := by
  have hlen := hi.freed_length
  simp only [PHYS_END] at hlen
  rw [BootInfoFrameAllocator.freeListLen, countFree_eq hi.linked hi.freed (by omega) hfuel, zero_add]

/-- The frame is on the list that starts at `free_head`. -/
def OnFreeList (s : Allocation) (f : Nat) : Prop := ∃ l, Linked s.link 0 s.alloc.freeHead l ∧ f ∈ l

theorem Inv.onFreeList_iff : s.OnFreeList f ↔ f ∈ s.freed := by
  constructor
  · rintro ⟨_, hl, hf⟩
    rwa [hl.unique hi.linked] at hf
  · exact fun hf => ⟨s.freed, hi.linked, hf⟩

/-- The cursor has not reached the frame yet. -/
def NotIssued (s : Allocation) (f : Nat) : Prop := f ∉ (usableAddresses s.alloc.memoryMap).take s.alloc.next

def ExactlyOne (p q r : Prop) : Prop := (p ∧ ¬ q ∧ ¬ r) ∨ (¬ p ∧ q ∧ ¬ r) ∨ (¬ p ∧ ¬ q ∧ r)

theorem Inv.exactlyOne (f : Nat) : ExactlyOne (f ∈ s.live) (s.OnFreeList f) (s.NotIssued f) := by
  have hissued : s.NotIssued f ↔ ¬ s.frames.Issued f := Iff.rfl
  rw [hi.onFreeList_iff, hi.live, hissued]
  by_cases hf : f ∈ s.freed
  · have := hi.sound.issued f hf
    tauto
  · tauto

omit hi

/-- Frames that are handed out are nobody's; each frame of the map is live, on the free list or
    not issued yet, and one of these only; `free_list_len` ends, and counts the freed frames. -/
theorem frame_allocator_sound (hmap : ValidMap memoryMap) (h : (machine memoryMap offset).Reach Disciplined s) :
    (∀ f a', (s.alloc.allocateFrame s.mem = some (some f, a') ∨ s.alloc.allocateFrameSequential = some (some f, a')) →
      f ∉ s.live ∧ f ∈ usableAddresses memoryMap) ∧
    (∀ f ∈ usableAddresses memoryMap, ExactlyOne (f ∈ s.live) (s.OnFreeList f) (s.NotIssued f)) ∧
    ∀ fuel, s.freed.length < fuel → s.alloc.freeListLen s.mem fuel = some s.freed.length := by
  have hi := reach_inv hmap h
  refine ⟨?_, fun f _ => hi.exactlyOne f, fun _ => hi.freeListLen⟩
  intro f a' ha
  obtain ⟨htook, hi'⟩ : s.frames.Took [f] (s.handOut (some f, a')).frames ∧
      Inv memoryMap offset (s.handOut (some f, a')) := by
    rcases ha with ha | ha
    · exact allocateFrame_inv hi hmap ha
    · exact allocateSequential_inv hi hmap ha
  refine ⟨fun hf => ?_, ?_⟩
  · obtain ⟨hissued, hnot⟩ := (hi.live f).mp hf
    exact htook.not_mem hissued hnot (by simp)
  · have hmem := mem_of_mem_take (htook.taken f (by simp)).1
    rwa [frames, hi'.map] at hmem

/-- Two usable regions, of two frames and of one, and one that is not. -/
def threeFrames : List MemoryRegion := [⟨0x1000, 0x3000, .usable⟩, ⟨0x3000, 0x8000, .other⟩, ⟨0x8000, 0x9000, .usable⟩]

theorem threeFrames_valid : ValidMap threeFrames where
  aligned := by decide
  disjoint := by
    refine pairwise_cons.mpr ⟨?_, pairwise_singleton _ _⟩
    intro r hr addr hlo hhi
    cases mem_singleton.mp hr
    simp only at *
    omega
  nonzero := by decide

/-- Two frames are handed out and freed, the first one is given out again, written to, and the
    cursor goes past the end of the map. -/
theorem frame_allocator_sound_three_frames : ∃ s, (machine threeFrames 0x10000).Reach Disciplined s ∧
      s.live = [0x8000, 0x1000] ∧
    s.freed = [0x2000] ∧ ExactlyOne (0x2000 ∈ s.live) (s.OnFreeList 0x2000) (s.NotIssued 0x2000) ∧
      s.alloc.freeListLen s.mem 2 = some 1 ∧
    ∀ f a', s.alloc.allocateFrame s.mem = some (some f, a') → f ∉ s.live := by
  obtain ⟨s, h, hlive, hfreed⟩ : ∃ s, (machine threeFrames 0x10000).Reach Disciplined s ∧ s.live = [0x8000, 0x1000] ∧
      s.freed = [0x2000] :=
    Machine.exists_reach ⟨{ BootInfoFrameAllocator.init threeFrames with physMemOffset := 0x10000 }, fun _ => 0, [], []⟩
      [.allocate, .allocate, .deallocate 0x2000, .deallocate 0x1000, .allocate, .write 0x11000 [1, 2, 3],
        .allocateSequential, .allocateSequential] ⟨_, rfl⟩ (by decide)
  obtain ⟨hnew, hone, hlen⟩ := frame_allocator_sound threeFrames_valid h
  have hlen := hlen 2 (by rw [hfreed]; decide)
  rw [hfreed] at hlen
  exact ⟨s, h, hlive, hfreed, hone 0x2000 (by decide), hlen, fun f a' ha => (hnew f a' (.inl ha)).1⟩

/-- No frame gets lost: `allocate_frame` fails exactly when every usable frame is live. -/
theorem allocation_fails_iff (hmap : ValidMap memoryMap) (h : (machine memoryMap offset).Reach Disciplined s)
    (ha : s.alloc.allocateFrame s.mem = some (o, a')) : o = none ↔ ∀ f ∈ usableAddresses memoryMap, f ∈ s.live := by
  have hi := reach_inv hmap h
  obtain ⟨htook, hi'⟩ := allocateFrame_inv hi hmap ha
  cases o with
  | none =>
    have h0 : s.freed.length + _ = 0 := (allocate_none_available (allocateFrame_refines hi hmap ha)).1
    have hnil := length_eq_zero_iff.mp (Nat.eq_zero_of_add_eq_zero_right h0)
    refine iff_of_true rfl fun f hf => (hi.live f).mpr ⟨?_, hnil ▸ not_mem_nil⟩
    rw [Issued, take_of_length_le (by omega), frames, hi.map]
    exact hf
  | some f =>
    refine iff_of_false nofun fun hall => ?_
    have hmem := mem_of_mem_take (htook.taken f (by simp)).1
    rw [frames, hi'.map] at hmem
    obtain ⟨hissued, hnot⟩ := (hi.live f).mp (hall f hmem)
    exact htook.not_mem hissued hnot (by simp)

theorem allocation_fails_three_frames_live :
    ∃ (s : Allocation) (a' : _), s.alloc.allocateFrame s.mem = some (none, a') ∧
    ∀ f ∈ usableAddresses threeFrames, f ∈ s.live := by
  obtain ⟨s, h, ⟨_, a'⟩, ha, rfl⟩ : ∃ s, (machine threeFrames 0).Reach Disciplined s ∧
      ∃ r, s.alloc.allocateFrame s.mem = some r ∧ r.1 = none :=
    Machine.exists_reach ⟨.init threeFrames, fun _ => 0, [], []⟩ [.allocate, .allocate, .allocate] ⟨_, rfl⟩ (by decide)
  exact ⟨s, a', ha, (allocation_fails_iff threeFrames_valid h ha).mp rfl⟩

end Allocation

end Ostoo.Memory
