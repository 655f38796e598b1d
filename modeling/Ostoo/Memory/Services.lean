/-
  Ostoo.Memory.Services — `MemoryServices`: frames, their reference counts, and the page
  tables of every address space (`memory/mod.rs`), over any mapper.

  The code keeps a reference count per frame, which is not stored while it is 1, and frees
  tables and `brk` pages without a look at it. An operation on a PML4 that is not there is
  `none`, as a panic is: the code would go through freed memory.
-/

import Ostoo.Memory.Mapper
import Ostoo.Memory.Syscalls

namespace Ostoo.Memory

open Ostoo.Lib

/-- The state behind `with_memory`. An address space is named by its PML4's frame. -/
structure Mem (τ : Type) where
  frames : Frames
  /-- Counts of 2 and more; a frame that is not listed has count 1. -/
  refcounts : OrdMap Nat Nat
  spaces : OrdMap Nat τ

namespace Mem

variable {τ : Type}

/-- The count is a `u16`: `none` when it overflows. -/
def refShare (m : Mem τ) (f : Nat) : Option (Mem τ) :=
  let count := (m.refcounts.get? f).getD 1
  if count + 1 < 2 ^ 16 then some { m with refcounts := m.refcounts.insert f (count + 1) } else none

/-- Whether the caller should free the frame. -/
def refRelease (m : Mem τ) (f : Nat) : Bool × Mem τ :=
  match m.refcounts.get? f with
  | some count =>
    if count - 1 ≤ 1 then (count - 1 == 0, { m with refcounts := m.refcounts.remove f })
    else (false, { m with refcounts := m.refcounts.insert f (count - 1) })
  | none => (true, m)

def deallocate (m : Mem τ) (f : Nat) : Mem τ := { m with frames := m.frames.deallocate f }

/-- `release_shared_frame` -/
def releaseFrame (m : Mem τ) (f : Nat) : Mem τ :=
  if (m.refRelease f).1 then (m.refRelease f).2.deallocate f else (m.refRelease f).2

variable (M : Mapper τ)

/-- `create_user_page_table` panics when no frame is left. -/
def createUserPageTable (m : Mem τ) : Option (Nat × Mem τ) :=
  match m.frames.allocate with
  | (some f, a) => some (f, { m with frames := a, spaces := m.spaces.insert f M.fresh })
  | (none, _) => none

def mapUserPage (m : Mem τ) (pml4 vaddr frame : Nat) (flags : PtFlags) : Option (Bool × Mem τ) := do
  let t ← m.spaces.get? pml4
  let (ok, t', a) ← M.mapTo t m.frames vaddr frame flags
  pure (ok, { m with frames := a, spaces := m.spaces.insert pml4 t' })

/-- `unmap_user_page` -/
def unmapUserPage (m : Mem τ) (pml4 vaddr : Nat) : Option (Option Nat × Mem τ) := do
  let t ← m.spaces.get? pml4
  match M.unmap t vaddr with
  | some (f, t') => pure (some f, { m with spaces := m.spaces.insert pml4 t' })
  | none => pure (none, m)

def unmapAndFreeUserPage (m : Mem τ) (pml4 vaddr : Nat) : Option (Mem τ) := do
  match ← m.unmapUserPage M pml4 vaddr with
  | (some f, m) => pure (m.deallocate f)
  | (none, m) => pure m

def unmapAndReleaseUserPage (m : Mem τ) (pml4 vaddr : Nat) : Option (Mem τ) := do
  match ← m.unmapUserPage M pml4 vaddr with
  | (some f, m) => pure (m.releaseFrame f)
  | (none, m) => pure m

def updateUserPageFlags (m : Mem τ) (pml4 vaddr : Nat) (flags : PtFlags) : Option (Mem τ) := do
  let t ← m.spaces.get? pml4
  pure { m with spaces := m.spaces.insert pml4 (M.updateFlags t vaddr flags) }

def metFrame : Met → Nat
  | .leaf f | .table f => f

/-- The walk's leaves are released, its tables freed. -/
def freeMet (m : Mem τ) : Met → Mem τ
  | .leaf f => m.releaseFrame f
  | .table f => m.deallocate f

def cleanupUserAddressSpace (m : Mem τ) (pml4 : Nat) : Option (Mem τ) := do
  let t ← m.spaces.get? pml4
  pure (((M.walk t).foldl freeMet { m with spaces := m.spaces.remove pml4 }).deallocate pml4)

/-- The operations the syscalls use. -/
def services : MemOps (Mem τ) where
  allocFrame m := let (f, a) := m.frames.allocate; (f, { m with frames := a })
  mapUserPage m := m.mapUserPage M
  refShare := refShare
  unmapAndReleaseUserPage m := m.unmapAndReleaseUserPage M
  unmapAndFreeUserPage m := m.unmapAndFreeUserPage M
  updateUserPageFlags m := m.updateUserPageFlags M

/-! ## What the services can do -/

section

variable {M} {m m' : Mem τ} {pml4 v f : Nat} {fl : PtFlags} {ok : Bool}

theorem mapUserPage_cases (h : m.mapUserPage M pml4 v f fl = some (ok, m')) :
    ∃ t t' a, m.spaces.get? pml4 = some t ∧ M.mapTo t m.frames v f fl = some (ok, t', a) ∧
      m' = { m with frames := a, spaces := m.spaces.insert pml4 t' } := by
  obtain ⟨t, ht, h⟩ := of_bind h
  obtain ⟨⟨_, t', a⟩, hm, h⟩ := of_bind h
  cases h
  exact ⟨t, t', a, ht, hm, rfl⟩

theorem unmapUserPage_cases {o : Option Nat} (h : m.unmapUserPage M pml4 v = some (o, m')) :
    ∃ t, m.spaces.get? pml4 = some t ∧ ((o = none ∧ M.unmap t v = none ∧ m' = m) ∨
      ∃ f t', o = some f ∧ M.unmap t v = some (f, t') ∧ m' = { m with spaces := m.spaces.insert pml4 t' }) := by
  obtain ⟨t, ht, h⟩ := of_bind h
  refine ⟨t, ht, ?_⟩
  split at h
  · rename_i f t' hu
    cases h
    exact .inr ⟨f, t', rfl, hu, rfl⟩
  · rename_i hu
    cases h
    exact .inl ⟨rfl, hu, rfl⟩

theorem unmapAndRelease_cases (h : m.unmapAndReleaseUserPage M pml4 v = some m') :
    ∃ t, m.spaces.get? pml4 = some t ∧ ((M.unmap t v = none ∧ m' = m) ∨
      ∃ f t', M.unmap t v = some (f, t') ∧ m' = releaseFrame { m with spaces := m.spaces.insert pml4 t' } f) := by
  obtain ⟨⟨_, _⟩, h1, hrel⟩ := of_bind h
  obtain ⟨t, ht, ⟨rfl, hu, rfl⟩ | ⟨f, t', rfl, hu, rfl⟩⟩ := unmapUserPage_cases h1 <;> cases hrel
  · exact ⟨t, ht, .inl ⟨hu, rfl⟩⟩
  · exact ⟨t, ht, .inr ⟨f, t', hu, rfl⟩⟩

theorem updateFlags_cases (h : m.updateUserPageFlags M pml4 v fl = some m') :
    ∃ t, m.spaces.get? pml4 = some t ∧ m' = { m with spaces := m.spaces.insert pml4 (M.updateFlags t v fl) } := by
  obtain ⟨t, ht, h⟩ := of_bind h
  cases h
  exact ⟨t, ht, rfl⟩

theorem releaseFrame_spaces (m : Mem τ) (f : Nat) : (m.releaseFrame f).spaces = m.spaces := by
  have hr : (m.refRelease f).2.spaces = m.spaces := by
    unfold refRelease
    split
    · split <;> rfl
    · rfl
  unfold releaseFrame
  split <;> exact hr

theorem refShare_cases (h : m.refShare f = some m') :
    m' = { m with refcounts := m.refcounts.insert f ((m.refcounts.get? f).getD 1 + 1) } := by
  obtain ⟨-, ⟨⟩⟩ := of_guard h
  rfl

@[simp] theorem get?_insert_self (m : Mem τ) (pml4 : Nat) (t : τ) : (m.spaces.insert pml4 t).get? pml4 = some t := by
  rw [OrdMap.get?_insert, if_pos rfl]

end

end Mem

end Ostoo.Memory
