/-
  Ostoo.Proc.Death — the two ways a user process dies, and what each leaves behind.

  `terminate_process` (exit, and signals that terminate) gives the display back, releases a
  vfork parent, closes the fds, frees the address space, marks the process and wakes the
  parent's `wait4`. `kill_user_process` (a fault in ring 3 that no handler takes) only does
  the last two. What a death should leave behind is `Buried`: `terminate_process` always
  does that, a fault only for a process that has none of the rest (`both_deaths_bury`).
-/

import Ostoo.Fd.Table
import Ostoo.Memory.Ledger
import Ostoo.Proc.Lifecycle

namespace Ostoo.Proc

open Ostoo.Lib Ostoo.Task Ostoo.Fd Kernel Option OrdMap

variable {ω τ : Type}

/-- The fields of a process that its death deals with, beside those of its entry. -/
structure Belongings (ω : Type) where
  fdTable : FdTable ω
  pml4Phys : Nat
  pml4Shared : Bool
  vmaMap : Memory.VmaMap

structure World (ω τ : Type) where
  kern : Kernel
  belongings : OrdMap Nat (Belongings ω)
  mem : Memory.Mem τ
  /-- The objects whose `close` was called, in order. -/
  closed : List ω
  /-- `DISPLAY_OWNER_PID` -/
  displayOwner : Nat
  /-- `DISPLAY_SUPPRESSED` -/
  displaySuppressed : Bool

namespace World

section

variable (w : World ω τ)

def unsuppressDisplay : World ω τ := { w with displaySuppressed := false, displayOwner := 0 }

/-- The display goes back to the kernel if the process has it. -/
def giveBackDisplay (pid : Nat) : World ω τ := if w.displayOwner = pid then w.unsuppressDisplay else w

/-- `close_all_fds`: each slot is emptied, then its object closed. -/
def closeSlots : FdTable ω → List ω → FdTable ω × List ω
  | [], closed => ([], closed)
  | none :: slots, closed =>
    let r := closeSlots slots closed
    (none :: r.1, r.2)
  | some e :: slots, closed =>
    let r := closeSlots slots (closed ++ [e.object])
    (none :: r.1, r.2)

def closeAllFds (pid : Nat) : World ω τ :=
  match w.belongings.get? pid with
  | some b =>
    let r := closeSlots b.fdTable w.closed
    { w with belongings := w.belongings.insert pid { b with fdTable := r.1 }, closed := r.2 }
  | none => w

variable (M : Memory.Mapper τ)

def freeAddressSpace (pid : Nat) : Option (World ω τ) :=
  match w.belongings.get? pid with
  | some b =>
    let w := { w with belongings := w.belongings.insert pid { b with vmaMap := .empty } }
    if !b.pml4Shared && b.pml4Phys ≠ 0 then (w.mem.cleanupUserAddressSpace M b.pml4Phys).map fun mem => { w with mem }
    else some w
  | none => some w

def releaseVforkParent (w : World ω τ) (pid : Nat) : World ω τ := { w with kern := w.kern.releaseVforkParent pid }

/-- The process is marked, its parent told and woken, and the rest of the quantum given to it. -/
def announce (pid : Nat) (code : Int) : World ω τ :=
  let r := w.kern.killUserProcess pid code
  { w with kern := match r.2 with
      | some i => { r.1 with sched := r.1.sched.setDonateTarget i }
      | none => r.1 }

/-- `terminate_process` as far as its `yield_now`. -/
def terminateProcess (pid : Nat) (code : Int) : Option (World ω τ) :=
  ((((w.giveBackDisplay pid).releaseVforkParent pid).closeAllFds pid).freeAddressSpace M pid).map (·.announce pid code)

end

/-- `kill_user_process` -/
def killUserProcess (w : World ω τ) (pid : Nat) (code : Int) : World ω τ :=
  if pid = KERNEL then w else { w with kern := (w.kern.killUserProcess pid code).1 }

end World

/-! ## What a death should leave behind -/

/-- Thread `i` is Blocked. -/
def Kernel.Blocked (k : Kernel) (i : Nat) : Prop := ∃ t, k.sched.threads[i]? = some t ∧ t.state = .blocked

def Kernel.parentOf (k : Kernel) (pid : Nat) : Option Nat := (k.table.get? pid).map (·.parentPid)

def Kernel.waitThreadOf (k : Kernel) (pid : Nat) : Option Nat := (k.table.get? pid).bind (·.waitThread)

/-- The thread of the parent that waits in `wait4`. -/
def Kernel.waiter (k : Kernel) (pid : Nat) : Option Nat := (k.parentOf pid).bind k.waitThreadOf

/-- `w'` is what is left of `w` once the process is dead, with its exit code. -/
structure Buried (M : Memory.Mapper τ) (w : World ω τ) (pid : Nat) (code : Int) (w' : World ω τ) : Prop where
  fds : ∀ b, w.belongings.get? pid = some b → w'.closed = w.closed ++ b.fdTable.objects ∧
    ∃ b', w'.belongings.get? pid = some b' ∧ b'.fdTable.objects = []
  space : ∀ b, w.belongings.get? pid = some b →
    if b.pml4Shared = true ∨ b.pml4Phys = 0 then w'.mem = w.mem
    else w.mem.cleanupUserAddressSpace M b.pml4Phys = some w'.mem
  vforkParent : ∀ p i, w.kern.table.get? pid = some p → p.vforkParentThread = some i → ¬ w'.kern.Blocked i
  display : w'.displayOwner ≠ pid ∧ (w.displayOwner = pid → w'.displaySuppressed = false)
  zombie : ∃ p, w'.kern.table.get? pid = some p ∧ p.state = .zombie ∧ p.exitCode = some code
  waiter : ∀ i, w.kern.waiter pid = some i → ¬ w'.kern.Blocked i

/-! ## Threads and entries -/

namespace Kernel

variable {k k' : Kernel} {pid i j : Nat} {code : Int} {p : Process}

theorem blocked_of_unblock (h : (k.unblock i).Blocked j) : k.Blocked j ∧ j ≠ i := by
  obtain ⟨t, ht, hb⟩ := h
  simp only [unblock, Scheduler.unblock] at ht
  split at ht
  · rename_i hu
    split at ht
    · rw [show ({ k.sched.setState i .ready with readyQueue := k.sched.readyQueue ++ [i] } : Scheduler Ctx).threads =
        (k.sched.setState i .ready).threads from rfl, Scheduler.getElem?_setState] at ht
      obtain ⟨v, hv, rfl⟩ := of_map ht
      by_cases hij : i = j
      · simp [hij] at hb
      · simp only [hij, if_false] at hb
        exact ⟨⟨v, hv, hb⟩, Ne.symm hij⟩
    · rename_i hst
      refine ⟨⟨t, ht, hb⟩, ?_⟩
      intro hji
      rw [hji] at ht
      cases hu.symm.trans ht
      exact hst hb
  · rename_i hnone
    refine ⟨⟨t, ht, hb⟩, ?_⟩
    intro hji
    rw [hji] at ht
    rw [ht] at hnone
    cases hnone

/-- Waking a thread that may not be there. -/
def unblock? (k : Kernel) (o : Option Nat) : Kernel :=
  match o with
  | some i => k.unblock i
  | none => k

theorem blocked_of_unblock? {o : Option Nat} (h : (k.unblock? o).Blocked j) : k.Blocked j ∧ o ≠ some j := by
  cases o with
  | none => exact ⟨h, by simp⟩
  | some i =>
    obtain ⟨hb, hne⟩ := blocked_of_unblock h
    exact ⟨hb, fun e => hne (some.inj e).symm⟩

theorem blocked_unblock? {o : Option Nat} (h : k.Blocked j) (hne : o ≠ some j) : (k.unblock? o).Blocked j := by
  cases o with
  | none => exact h
  | some i =>
    obtain ⟨t, ht, hb⟩ := h
    refine ⟨t, ?_, hb⟩
    have hij : i ≠ j := fun e => hne (congrArg some e)
    simp only [unblock?, unblock, Scheduler.unblock]
    split
    · split
      · show (k.sched.setState i .ready).threads[j]? = some t
        rw [Scheduler.getElem?_setState, ht]
        simp [hij]
      · exact ht
    · exact ht

/-- Blocked threads are the scheduler's affair. -/
theorem blocked_congr (h : k'.sched = k.sched) : k'.Blocked j ↔ k.Blocked j := by
  unfold Blocked
  rw [h]

theorem releaseVforkParent_eq (hp : k.table.get? pid = some p) :
    k.releaseVforkParent pid =
      (k.withProcess pid ({ · with vforkParentThread := none })).unblock? p.vforkParentThread := by
  unfold releaseVforkParent unblock?
  cases hv : p.vforkParentThread <;> simp only [hp, hv]

theorem get?_withProcess (f : Process → Process) (n : Nat) :
    (k.withProcess pid f).table.get? n = if n = pid then (k.table.get? n).map f else k.table.get? n := get?_alter ..

variable {f : Process → Process} {q : Nat}

/-- Entries change, but not in whom they wait for. -/
theorem waitThreadOf_withProcess (hf : ∀ p, (f p).waitThread = p.waitThread) :
    (k.withProcess q f).waitThreadOf pid = k.waitThreadOf pid := by
  unfold waitThreadOf
  rw [get?_withProcess]
  split
  · cases k.table.get? pid with
    | none => rfl
    | some p => exact hf p
  · rfl

theorem parentOf_withProcess (hf : ∀ p, (f p).parentPid = p.parentPid) :
    (k.withProcess q f).parentOf pid = k.parentOf pid := by
  unfold parentOf
  rw [get?_withProcess]
  split
  · cases k.table.get? pid with
    | none => rfl
    | some p => exact congrArg some (hf p)
  · rfl

theorem wakeWaitThread_eq (k : Kernel) (parent : Nat) :
    k.wakeWaitThread parent = ((k.withProcess parent ({ · with waitThread := none })).unblock? (k.waitThreadOf parent),
      k.waitThreadOf parent) := by
  unfold wakeWaitThread waitThreadOf
  cases hp : k.table.get? parent with
  | none =>
    have hsame : k.withProcess parent ({ · with waitThread := none }) = k := by
      unfold withProcess alter
      rw [hp]
    rw [hsame]
    rfl
  | some pp =>
    dsimp only [bind_some]
    cases pp.waitThread <;> rfl

/-- What a change to an entry must keep, so that the process stays the zombie it is. -/
theorem zombie_withProcess (hf : ∀ p, (f p).state = p.state ∧ (f p).exitCode = p.exitCode)
    (h : ∃ p, k.table.get? pid = some p ∧ p.state = .zombie ∧ p.exitCode = some code) :
    ∃ p, (k.withProcess q f).table.get? pid = some p ∧ p.state = .zombie ∧ p.exitCode = some code := by
  obtain ⟨p, hp, hz, hc⟩ := h
  rw [get?_withProcess, hp]
  split
  · exact ⟨f p, rfl, (hf p).1.trans hz, (hf p).2.trans hc⟩
  · exact ⟨p, rfl, hz, hc⟩

theorem unblock?_table (k : Kernel) (o : Option Nat) : (k.unblock? o).table = k.table := by
  cases o <;> rfl

theorem unblock?_sched (o : Option Nat) (h : k'.sched = k.sched) : (k'.unblock? o).sched = (k.unblock? o).sched := by
  cases o with
  | none => exact h
  | some i =>
    show k'.sched.unblock i = k.sched.unblock i
    rw [h]

theorem queueSigchld_rest (k : Kernel) (parent pid : Nat) :
    (k.queueSigchld parent).sched = k.sched ∧ (k.queueSigchld parent).waitThreadOf pid = k.waitThreadOf pid := by
  unfold queueSigchld
  split
  · exact ⟨rfl, rfl⟩
  · refine ⟨rfl, waitThreadOf_withProcess ?_⟩
    exact fun _ => rfl

theorem killUserProcess_spec (hp : k.table.get? pid = some p) (code : Int) :
    (k.killUserProcess pid code).1.sched = (k.unblock? (k.waiter pid)).sched ∧
    (k.killUserProcess pid code).2 = k.waiter pid ∧
      ∃ p', (k.killUserProcess pid code).1.table.get? pid = some p' ∧ p'.state = .zombie ∧ p'.exitCode = some code := by
  have hparent : k.waiter pid = k.waitThreadOf p.parentPid := by
    unfold waiter parentOf
    rw [hp]
    rfl
  obtain ⟨hsched, hwait⟩ := queueSigchld_rest (k.markZombie pid code) p.parentPid p.parentPid
  have hmark : (k.markZombie pid code).waitThreadOf p.parentPid = k.waitThreadOf p.parentPid := by
    refine waitThreadOf_withProcess ?_
    exact fun _ => rfl
  rw [hmark, ← hparent] at hwait
  have hkill : k.killUserProcess pid code =
      ((k.markZombie pid code).queueSigchld p.parentPid).wakeWaitThread p.parentPid := by
    unfold killUserProcess
    rw [hp]
    rfl
  rw [hkill, wakeWaitThread_eq, hwait]
  refine ⟨unblock?_sched _ ?_, rfl, ?_⟩
  · exact hsched
  rw [unblock?_table]
  refine zombie_withProcess ?_ ?_
  · exact fun _ => ⟨rfl, rfl⟩
  have hmarked : ∃ p', (k.markZombie pid code).table.get? pid = some p' ∧ p'.state = .zombie ∧
      p'.exitCode = some code := by
    refine ⟨{ p with state := .zombie, exitCode := some code }, ?_, rfl, rfl⟩
    unfold markZombie
    rw [get?_withProcess, if_pos rfl, hp]
    rfl
  unfold queueSigchld
  split
  · exact hmarked
  · refine zombie_withProcess ?_ hmarked
    exact fun _ => ⟨rfl, rfl⟩

/-- The release of the vfork parent: it is woken, and the process waits for the same as before. -/
theorem releaseVforkParent_spec (hp : k.table.get? pid = some p) :
    (k.releaseVforkParent pid).sched = (k.unblock? p.vforkParentThread).sched ∧
    (k.releaseVforkParent pid).waiter pid = k.waiter pid ∧
      ∃ p', (k.releaseVforkParent pid).table.get? pid = some p' := by
  rw [releaseVforkParent_eq hp]
  refine ⟨unblock?_sched _ ?_, ?_, ?_⟩
  · rfl
  · unfold waiter
    have hpar : ((k.withProcess pid ({ · with vforkParentThread := none })).unblock? p.vforkParentThread).parentOf pid =
        k.parentOf pid := by
      unfold parentOf
      rw [unblock?_table]
      refine parentOf_withProcess ?_
      exact fun _ => rfl
    rw [hpar]
    congr 1
    funext n
    unfold waitThreadOf
    rw [unblock?_table]
    refine waitThreadOf_withProcess ?_
    exact fun _ => rfl
  · rw [unblock?_table, get?_withProcess, if_pos rfl, hp]
    exact ⟨_, rfl⟩

end Kernel

/-! ## Each way -/

namespace World

variable {M : Memory.Mapper τ} {w w' : World ω τ} {pid : Nat} {code : Int} {p : Process} {b : Belongings ω}

theorem closeSlots_eq (slots : FdTable ω) :
    ∀ closed, closeSlots slots closed = (slots.dropAll, closed ++ slots.objects) := by
  induction slots with
  | nil =>
    intro closed
    simp [closeSlots, FdTable.dropAll]
  | cons slot slots ih =>
    intro closed
    cases slot with
    | none | some e => simp [closeSlots, ih, FdTable.dropAll]

theorem objects_dropAll (t : FdTable ω) : t.dropAll.objects = [] := by
  induction t with
  | nil => rfl
  | cons slot t ih => exact ih

variable (hb : w.belongings.get? pid = some b)
include hb

theorem closeAllFds_eq : w.closeAllFds pid =
    { w with
      belongings := w.belongings.insert pid { b with fdTable := b.fdTable.dropAll }
      closed := w.closed ++ b.fdTable.objects } := by
  unfold closeAllFds
  rw [hb]
  simp only [closeSlots_eq]

theorem freeAddressSpace_eq (h : w.freeAddressSpace M pid = some w') :
    w' = { w with belongings := w.belongings.insert pid { b with vmaMap := .empty }, mem := w'.mem } ∧
      if b.pml4Shared = true ∨ b.pml4Phys = 0 then w'.mem = w.mem
      else w.mem.cleanupUserAddressSpace M b.pml4Phys = some w'.mem := by
  unfold freeAddressSpace at h
  rw [hb] at h
  dsimp only at h
  split at h
  · rename_i hown
    obtain ⟨hshared, hpml4⟩ : b.pml4Shared = false ∧ b.pml4Phys ≠ 0 := by simpa using hown
    obtain ⟨_, hmem, rfl⟩ := of_map h
    exact ⟨rfl, by simpa [hshared, hpml4] using hmem⟩
  · rename_i hown
    cases h
    refine ⟨rfl, ?_⟩
    rw [if_pos]
    by_contra hc
    exact hown (by simpa using hc)

/-- The address space can be torn down: it is there, unless another process owns it. -/
def HasSpace (w : World ω τ) (b : Belongings ω) : Prop :=
  b.pml4Shared = true ∨ b.pml4Phys = 0 ∨ (w.mem.spaces.get? b.pml4Phys).isSome = true

theorem freeAddressSpace_isSome (hs : w.HasSpace b) :
    ∃ w', w.freeAddressSpace M pid = some w' := by
  unfold freeAddressSpace
  rw [hb]
  dsimp only
  split
  · rename_i hown
    obtain ⟨hshared, hpml4⟩ : b.pml4Shared = false ∧ b.pml4Phys ≠ 0 := by simpa using hown
    obtain ⟨_, ht⟩ := isSome_iff_exists.mp ((hs.resolve_left (by simp [hshared])).resolve_left hpml4)
    exact ⟨_, by simp only [Memory.Mem.cleanupUserAddressSpace, ht]; rfl⟩
  · exact ⟨_, rfl⟩

omit hb

theorem giveBackDisplay_rest (w : World ω τ) (pid : Nat) : (w.giveBackDisplay pid).kern = w.kern ∧
    (w.giveBackDisplay pid).belongings = w.belongings ∧ (w.giveBackDisplay pid).mem = w.mem ∧
    (w.giveBackDisplay pid).closed = w.closed := by
  unfold giveBackDisplay
  split <;> exact ⟨rfl, rfl, rfl, rfl⟩

theorem giveBackDisplay_display (hpid : pid ≠ KERNEL) : (w.giveBackDisplay pid).displayOwner ≠ pid ∧
    (w.displayOwner = pid → (w.giveBackDisplay pid).displaySuppressed = false) := by
  unfold giveBackDisplay
  split
  · exact ⟨Ne.symm hpid, fun _ => rfl⟩
  · rename_i hne
    exact ⟨hne, fun he => absurd he hne⟩

variable (hp : w.kern.table.get? pid = some p)
include hp

theorem announce_kern (code : Int) :
    (∀ j, (w.announce pid code).kern.Blocked j ↔ (w.kern.unblock? (w.kern.waiter pid)).Blocked j) ∧
      ∃ p', (w.announce pid code).kern.table.get? pid = some p' ∧ p'.state = .zombie ∧ p'.exitCode = some code := by
  obtain ⟨hsched, -, hz⟩ := killUserProcess_spec hp code
  unfold announce
  dsimp only
  split
  · refine ⟨fun j => ?_, hz⟩
    rw [← blocked_congr (j := j) hsched]
    rfl
  · exact ⟨fun j => blocked_congr hsched, hz⟩

theorem terminateProcess_buries (hb : w.belongings.get? pid = some b) (hs : w.HasSpace b)
    (hpid : pid ≠ KERNEL) (code : Int) : ∃ w', w.terminateProcess M pid code = some w' ∧ Buried M w pid code w' := by
  obtain ⟨hkern, hbel, hmem, hclosed⟩ := giveBackDisplay_rest w pid
  obtain ⟨howner, hsup⟩ := giveBackDisplay_display (w := w) hpid
  obtain ⟨hrel, hwait, p', hp'⟩ := releaseVforkParent_spec (hkern ▸ hp)
  have hb₀ : ((w.giveBackDisplay pid).releaseVforkParent pid).belongings.get? pid = some b := hbel ▸ hb
  have hclose := closeAllFds_eq hb₀
  obtain ⟨w₁, hw₁⟩ : ∃ w₁, w₁ = ((w.giveBackDisplay pid).releaseVforkParent pid).closeAllFds pid := ⟨_, rfl⟩
  have hb₁ : w₁.belongings.get? pid = some { b with fdTable := b.fdTable.dropAll } := by
    rw [hw₁, hclose]
    show (insert _ pid _).get? pid = _
    rw [get?_insert, if_pos rfl]
  have hmem₁ : w₁.mem = w.mem := by
    rw [hw₁, hclose]
    exact hmem
  obtain ⟨w₂, hw₂⟩ := freeAddressSpace_isSome (M := M) hb₁ (by
    unfold HasSpace
    rw [hmem₁]
    exact hs)
  obtain ⟨hrest, hspace⟩ := freeAddressSpace_eq hb₁ hw₂
  have hkern₂ : w₂.kern = w.kern.releaseVforkParent pid := by
    rw [hrest, hw₁, hclose, ← hkern]
    rfl
  obtain ⟨hblocked, hzombie⟩ := announce_kern (w := w₂) (p := p') (by rw [hkern₂, ← hkern]; exact hp') code
  refine ⟨w₂.announce pid code, ?_, ?_⟩
  · unfold terminateProcess
    rw [← hw₁, hw₂]
    rfl
  rw [hkern] at hrel hwait
  have hwait₂ : w₂.kern.waiter pid = w.kern.waiter pid := by rw [hkern₂, hwait]
  refine ⟨?_, ?_, ?_, ?_, hzombie, ?_⟩
  · intro b' hb'
    cases hb.symm.trans hb'
    refine ⟨?_, { b with fdTable := b.fdTable.dropAll, vmaMap := .empty }, ?_, objects_dropAll _⟩
    · show w₂.closed = _
      rw [hrest, hw₁, hclose, ← hclosed]
      rfl
    · show w₂.belongings.get? pid = _
      rw [hrest]
      show (insert _ pid _).get? pid = _
      rw [get?_insert, if_pos rfl]
  · intro b' hb'
    cases hb.symm.trans hb'
    rw [hmem₁] at hspace
    exact hspace
  · intro q i hq hi hbl
    cases hp.symm.trans hq
    have hbl := (blocked_of_unblock? ((hblocked i).mp hbl)).1
    rw [hkern₂, blocked_congr hrel] at hbl
    exact (blocked_of_unblock? hbl).2 hi
  · have hdisplay : w₂.displayOwner = (w.giveBackDisplay pid).displayOwner ∧
        w₂.displaySuppressed = (w.giveBackDisplay pid).displaySuppressed := by
      rw [hrest, hw₁, hclose]
      exact ⟨rfl, rfl⟩
    show w₂.displayOwner ≠ pid ∧ (w.displayOwner = pid → w₂.displaySuppressed = false)
    rw [hdisplay.1, hdisplay.2]
    exact ⟨howner, hsup⟩
  · intro i hi hbl
    exact (blocked_of_unblock? ((hblocked i).mp hbl)).2 (hwait₂.trans hi)

/-- What a fault leaves undone. -/
theorem killUserProcess_buries_iff (hb : w.belongings.get? pid = some b) (hpid : pid ≠ KERNEL)
    (code : Int) : Buried M w pid code (w.killUserProcess pid code) ↔
      b.fdTable.objects = [] ∧ (b.pml4Shared = true ∨ b.pml4Phys = 0) ∧
      (∀ i, p.vforkParentThread = some i → w.kern.Blocked i → w.kern.waiter pid = some i) ∧ w.displayOwner ≠ pid := by
  obtain ⟨hsched, -, hzombie⟩ := killUserProcess_spec hp code
  have hblocked : ∀ j, (w.killUserProcess pid code).kern.Blocked j ↔
      (w.kern.unblock? (w.kern.waiter pid)).Blocked j := by
    intro j
    unfold killUserProcess
    rw [if_neg hpid]
    exact blocked_congr hsched
  have hrest : (w.killUserProcess pid code).belongings = w.belongings ∧ (w.killUserProcess pid code).mem = w.mem ∧
      (w.killUserProcess pid code).closed = w.closed ∧ (w.killUserProcess pid code).displayOwner = w.displayOwner := by
    unfold killUserProcess
    rw [if_neg hpid]
    exact ⟨rfl, rfl, rfl, rfl⟩
  obtain ⟨hbel, hmem, hclosed, howner⟩ := hrest
  constructor
  · intro h
    refine ⟨?_, ?_, ?_, howner ▸ h.display.1⟩
    · have hnone := (h.fds b hb).1
      rw [hclosed] at hnone
      simpa using hnone
    · have hspace := h.space b hb
      by_contra hown
      rw [if_neg hown, hmem] at hspace
      exact Memory.Mem.cleanup_ne hspace
    · intro i hi hbl
      by_contra hne
      exact h.vforkParent p i hp hi ((hblocked i).mpr (blocked_unblock? hbl hne))
  · intro h
    obtain ⟨hfds, hspace, hvfork, hdisplay⟩ := h
    refine ⟨?_, ?_, ?_, ⟨howner ▸ hdisplay, fun he => absurd he hdisplay⟩, ?_, ?_⟩
    · intro b' hb'
      cases hb.symm.trans hb'
      exact ⟨by simp [hclosed, hfds], b, hbel ▸ hb, hfds⟩
    · intro b' hb'
      cases hb.symm.trans hb'
      rw [if_pos hspace]
      exact hmem
    · intro q i hq hi hbl
      cases hp.symm.trans hq
      obtain ⟨hbl, hne⟩ := blocked_of_unblock? ((hblocked i).mp hbl)
      exact hne (hvfork i hi hbl)
    · unfold killUserProcess
      rw [if_neg hpid]
      exact hzombie
    · intro i hi hbl
      exact (blocked_of_unblock? ((hblocked i).mp hbl)).2 hi

end World

/-- For every state of a process: `terminate_process` buries it. A fault buries it exactly if it
    has no open fd, no address space of its own, no display, and no vfork parent that sleeps
    (but for one whose thread is also found in `wait_thread`). -/
theorem both_deaths_bury (M : Memory.Mapper τ) (w : World ω τ) (pid : Nat) (code : Int) (p : Process) (b : Belongings ω)
    (hp : w.kern.table.get? pid = some p) (hb : w.belongings.get? pid = some b) (hs : w.HasSpace b)
    (hpid : pid ≠ KERNEL) : (∃ w', w.terminateProcess M pid code = some w' ∧ Buried M w pid code w') ∧
    (Buried M w pid code (w.killUserProcess pid code) ↔
      b.fdTable.objects = [] ∧ (b.pml4Shared = true ∨ b.pml4Phys = 0) ∧
      (∀ i, p.vforkParentThread = some i → w.kern.Blocked i → w.kern.waiter pid = some i) ∧ w.displayOwner ≠ pid) :=
  ⟨World.terminateProcess_buries hp hb hs hpid code, World.killUserProcess_buries_iff hp hb hpid code⟩

/-- Process 1 has cloned process 2 and sleeps on thread 2; process 2 runs. -/
def vforked : List Ev :=
  [Ev.newProcess 0, .insert, .spawnUserThread, .recordThread] ++ List.replicate 10 Ev.tick ++ [Ev.clone] ++
    List.replicate 10 Ev.tick

/-- A table with one process, whose fd 0 is the object 7. -/
def oneFd (pid pml4 : Nat) (shared : Bool) : OrdMap Nat (Belongings Nat) :=
  OrdMap.empty.insert pid ⟨[some ⟨7, false⟩], pml4, shared, .empty⟩

/-- Process 2 in the address space of its parent, with the display. -/
def childWorld (k : Kernel) : World Nat Memory.Tree :=
  ⟨k, oneFd 2 0x1000 true, ⟨⟨[], 0, []⟩, .empty, .empty⟩, [], 2, true⟩

/-- Process 1 in an address space of its own. -/
def ownWorld (k : Kernel) : World Nat Memory.Tree :=
  ⟨k, oneFd 1 0x1000 false, ⟨⟨[], 0, []⟩, .empty, OrdMap.empty.insert 0x1000 Memory.Tree.mapper.fresh⟩, [], 0, false⟩

theorem both_deaths_bury_vfork_child : ∃ k w', machine.Reachable k ∧
    (childWorld k).terminateProcess Memory.Tree.mapper 2 0 = some w' ∧ w'.closed = [7] ∧ w'.displayOwner ≠ 2 ∧
      ¬ w'.kern.Blocked 2 := by
  obtain ⟨k, hk, p, hp, hv⟩ : ∃ k, machine.Reachable k ∧ ∃ p, k.table.get? 2 = some p ∧ p.vforkParentThread = some 2 :=
    Machine.exists_reachable boot vforked rfl (by decide)
  obtain ⟨w', hw', hbur⟩ := (both_deaths_bury Memory.Tree.mapper (childWorld k) 2 0 p _ hp rfl (.inl rfl) (by decide)).1
  exact ⟨k, w', hk, hw', (hbur.fds _ rfl).1, hbur.display.1, hbur.vforkParent p 2 hp hv⟩

/-- Process 2 faults with an open fd and the display: its parent sleeps on, nothing is closed,
    and the display stays with the dead process. When process 1 faults, its address space stays. -/
theorem a_fault_leaves_its_belongings : ∃ k, machine.Reachable k ∧ (k.table.get? 1).isSome = true ∧
      (k.table.get? 2).isSome = true ∧
    ¬ Buried Memory.Tree.mapper (childWorld k) 2 (-11) ((childWorld k).killUserProcess 2 (-11)) ∧
    ((childWorld k).killUserProcess 2 (-11)).kern.Blocked 2 ∧ ((childWorld k).killUserProcess 2 (-11)).closed = [] ∧
    ((childWorld k).killUserProcess 2 (-11)).displayOwner = 2 ∧
    ¬ Buried Memory.Tree.mapper (ownWorld k) 1 (-11) ((ownWorld k).killUserProcess 1 (-11)) ∧
    (((ownWorld k).killUserProcess 1 (-11)).mem.spaces.get? 0x1000).isSome = true := by
  obtain ⟨k, hk, h1, h2, t, ht, hst⟩ : ∃ k, machine.Reachable k ∧ (k.table.get? 1).isSome = true ∧
      (k.table.get? 2).isSome = true ∧ ∃ t, (k.killUserProcess 2 (-11)).1.sched.threads[2]? = some t ∧
          t.state = .blocked :=
    Machine.exists_reachable boot vforked rfl (by decide)
  refine ⟨k, hk, h1, h2, ?_, ⟨t, ht, hst⟩, rfl, rfl, ?_, rfl⟩
  · intro hbur
    exact hbur.display.1 rfl
  · intro hbur
    have hnone := (hbur.fds _ rfl).1
    cases hnone

end Ostoo.Proc
