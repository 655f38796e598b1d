/-
  Ostoo.Memory.Lifetimes — no frame is used after it was freed, as long as rings outlive the
  objects that borrow their pages.

  `io_setup_rings` hands out shared-memory fds over the pages of the port's ring. They do not
  own the pages, and nothing keeps the port alive for them: when the last reference to the port
  goes first, the pages are freed under the fds (`ring_pages_freed_under_open_fds`).

  A break that shrinks frees the frames of its pages whatever their counts. They are the heap's
  own, unless a vfork child has moved the break of the address space it shares and mapped shared
  memory in the gap.

  Apart from these steps (`Careful`) the ledger is kept by every step of every process, so that
  no page table of a live process and no open object names a free frame (`no_use_after_free`).
-/

import Ostoo.Memory.Objects

namespace Ostoo.Memory

open Ostoo.Lib Ostoo.Fd Elf List OrdMap FdTable Option Mem Frames

/-- Images and requests keep to the user half. -/
def SysEv.OnUserHalf : SysEv → Prop
  | .spawn _ info | .execve _ _ info => info.InHalf
  | .call _ (.brk addr) => pagesOf addr * PAGE_SIZE ≤ USER_END
  | .call _ (.mmap addr length _ flags _ _) => BitVec.ofNat 32 flags &&& MAP_FIXED ≠ 0 → addr + length ≤ USER_END
  | .call _ (.munmap addr length) | .call _ (.mprotect addr length _) => addr + length ≤ USER_END
  | _ => True

/-- The process that makes the step. -/
def SysEv.actor : SysEv → Option Nat
  | .spawn .. | .reap _ | .release _ => none
  | .clone pid | .execve pid _ _ | .exit pid | .fault pid | .openFile pid _ | .openOther pid _ | .ioCreate pid _
  | .ioSetupRings pid _ | .shmemCreate pid _ _ | .close pid _ | .dup2 pid _ _ | .setFdFlags pid _ _ | .hold pid _
  | .install pid _ | .call pid _ => some pid

/-- The process that leaves its address space. -/
def SysEv.leaver : SysEv → Option Nat
  | .exit pid | .execve pid _ _ => some pid
  | _ => none

/-- The process that moves its break, and where to. -/
def SysEv.newBreak : SysEv → Option (Nat × Nat)
  | .call pid (.brk addr) => some (pid, addr)
  | _ => none

/-- The frames that a shared-memory object lists. -/
def Object.lists : Object → List Nat
  | shmem inner => inner.frames
  | port _ => []

namespace Sys

variable {τ : Type} (M : Mapper τ)

section

variable (s : Sys τ)

/-- The references that objects hold on a frame. -/
def owners (f : Nat) : Nat := s.objects.total fun _ o => o.owns.count f

/-- The frames that shared-memory objects list. -/
def Listed (f : Nat) : Prop := ∃ i inner, s.objects.get? i = some (.shmem inner) ∧ f ∈ inner.frames

/-- The page tables of every live process are there and name no free frame; every frame that an
    open shared-memory object lists is not free and is referred to. -/
structure NoUseAfterFree (s : Sys τ) : Prop where
  mapped : ∀ pid p, s.procs.get? pid = some p → p.zombie = false → ∃ t, s.mem.spaces.get? p.proc.pml4 = some t ∧
    ∀ f ∈ s.mem.frames.freeList, f ≠ p.proc.pml4 ∧ f ∉ M.tables t ∧ ∀ v e, (M.leaves t).get? v = some e → e.1 ≠ f
  listed : ∀ i inner, s.objects.get? i = some (.shmem inner) → s.strongCount i ≠ 0 → ∀ f ∈ inner.frames,
    f ∉ s.mem.frames.freeList ∧ 1 ≤ s.mem.uses M f + s.owners f

/-! ## The steps considered -/

/-- The references that a step gives up. -/
def closes : SysEv → List Nat
  | .exit pid | .reap pid => (s.procs.get? pid).elim [] Process.refs
  | .execve pid _ _ => (s.procs.get? pid).elim [] fun p => refsOf p.fds.cloexecObjects
  | .close pid fd => (s.procs.get? pid).elim [] fun p => refsOf (p.fds.getObject fd).toList
  | .dup2 pid oldfd newfd => (s.procs.get? pid).elim [] fun p =>
      if oldfd = newfd ∨ (p.fds.getFd oldfd).isNone then [] else refsOf (p.fds.getObject newfd).toList
  | .install pid i => (s.procs.get? pid).elim [] fun p => if (p.fds.allocFd ⟨.object i, false⟩).isSome then [] else [i]
  | .release i => [i]
  | _ => []

/-- A port whose pages a shared-memory object borrows is not given up before it. -/
def KeepsRings (l : List Nat) : Prop :=
  ∀ x ∈ s.objects.entries, ∀ y ∈ s.objects.entries, x.2.Borrows y.2 → l.count x.1 < s.strongCount x.1 →
    l.count y.1 < s.strongCount y.1

/-- No other live process runs in the address space of `pid`, if that is its own. -/
def Alone (pid : Nat) : Prop :=
  ∀ p ∈ s.procs.get? pid, p.pml4Shared = false →
    ∀ y ∈ s.procs.entries, y.2.zombie = false → y.2.proc.pml4 = p.proc.pml4 → y.1 = pid

/-- The pages from `addr` to the break of `pid` name no shared frame. -/
def HeapUnshared (pid addr : Nat) : Prop :=
  ∀ p ∈ s.procs.get? pid, ∀ t ∈ s.mem.spaces.get? p.proc.pml4, ∀ x ∈ (M.leaves t).entries,
    pagesOf addr * PAGE_SIZE ≤ x.1 → x.1 < p.proc.brkCurrent → s.mem.refcounts.get? x.2.1 = none

end

@[mk_iff] structure Careful (s : Sys τ) (e : SysEv) : Prop where
  userHalf : e.OnUserHalf
  alone : ∀ pid ∈ e.leaver, s.Alone pid
  heap : ∀ x ∈ e.newBreak, s.HeapUnshared M x.1 x.2
  rings : s.KeepsRings (s.closes e)

variable {M} {s s' : Sys τ} {pid : Nat} {p p' : Process} {l : List Nat}

/-! ## Counting references -/

theorem refsOf_cons (h : Handle) (hs : List Handle) : refsOf (h :: hs) = h.ref.toList ++ refsOf hs := by
  cases h <;> rfl

variable {hs hs' : List Handle} {fd i : Nat} {o : Object} {fds : FdTable Handle} {m : Mem τ}

theorem refsOf_perm (h : hs.Perm hs') (i : Nat) : (refsOf hs).count i = (refsOf hs').count i :=
  (h.filterMap Handle.ref).count_eq i

theorem refsOf_append_count {hs'' : List Handle} (h : hs.Perm (hs' ++ hs'')) (i : Nat) :
    (refsOf hs).count i = (refsOf hs').count i + (refsOf hs'').count i := by
  rw [refsOf_perm h, refsOf, filterMap_append, count_append]
  rfl

theorem count_singleton_ne_zero {i j : Nat} : [i].count j ≠ 0 ↔ j = i := by
  rw [← Nat.pos_iff_ne_zero, count_pos_iff, mem_singleton]

theorem caller_eq_some (h : s.caller pid = some p) : s.procs.get? pid = some p ∧ p.zombie = false := by
  obtain ⟨hp, hz⟩ := filter_eq_some_iff.mp h
  exact ⟨hp, Bool.not_eq_true' _ |>.mp hz⟩

theorem caller_bind {f : Process → Option (Sys τ)} (h : (s.caller pid).bind f = some s') :
    ∃ p, s.caller pid = some p ∧ s.procs.get? pid = some p ∧ f p = some s' := by
  obtain ⟨p, hp, h⟩ := of_bind h
  exact ⟨p, hp, (caller_eq_some hp).1, h⟩

theorem strongCount_congr (hprocs : s'.procs = s.procs) (hheld : s'.held = s.held) :
    s'.strongCount = s.strongCount := by
  unfold strongCount
  rw [hprocs, hheld]

variable (hp : s.procs.get? pid = some p) {keep : Nat → Prop} {e : FdEntry Handle} {f : Nat} {l' : List Nat}
  {cloexec : Bool} {ring : IoRing} {m' : Mem τ}
include hp

theorem strongCount_setProc (p' : Process) (i : Nat) :
    (s.setProc pid p').strongCount i + p.refs.count i = s.strongCount i + p'.refs.count i := by
  have hins := total_insert (fun _ (q : Process) => q.refs.count i) s.procs pid p'
  rw [hp, elim_some] at hins
  unfold strongCount setProc
  dsimp only
  omega

theorem strongCount_setFds (fds : FdTable Handle) (i : Nat) :
    (s.setProc pid { p with fds := fds }).strongCount i + p.refs.count i =
      s.strongCount i + (refsOf fds.objects).count i :=
  strongCount_setProc hp { p with fds := fds } i

/-- A process is added. -/
def addProc (s : Sys τ) (p : Process) : Sys τ :=
  { s with procs := s.procs.insert s.nextPid p, nextPid := s.nextPid + 1 }

omit hp in
theorem strongCount_addProc (hp : s.procs.get? s.nextPid = none) (p : Process) (i : Nat) :
    (s.addProc p).strongCount i = s.strongCount i + p.refs.count i := by
  have hins := total_insert (fun _ (q : Process) => q.refs.count i) s.procs s.nextPid p
  rw [hp, elim_none] at hins
  unfold strongCount addProc
  dsimp only
  omega

theorem strongCount_remove (hprocs : s'.procs = s.procs.remove pid) (hheld : s'.held = s.held)
    (i : Nat) : s'.strongCount i + p.refs.count i = s.strongCount i := by
  have hrem := total_remove (g := fun _ (q : Process) => q.refs.count i) hp
  unfold strongCount
  rw [hprocs, hheld]
  omega

theorem refs_le_strongCount (i : Nat) : p.refs.count i ≤ s.strongCount i := by
  have hle := le_total (g := fun _ (q : Process) => q.refs.count i) hp
  exact Nat.le_add_right_of_le hle

omit hp

/-! ## Giving references up -/

/-- An object is there exactly while it is referred to; the references `l` are still to be given up. -/
def Counted (s : Sys τ) (l : List Nat) : Prop := ∀ i, (s.objects.get? i).isSome ↔ s.strongCount i + l.count i ≠ 0

theorem dropObject_frame (s : Sys τ) (i : Nat) : (s.dropObject i).procs = s.procs ∧ (s.dropObject i).held = s.held ∧
    (s.dropObject i).nextPid = s.nextPid ∧ (s.dropObject i).nextObject = s.nextObject ∧
    (s.dropObject i).mem.spaces = s.mem.spaces := by
  unfold dropObject
  split
  · exact ⟨rfl, rfl, rfl, rfl, releaseAll_spaces ..⟩
  · exact ⟨rfl, rfl, rfl, rfl, rfl⟩

theorem dropObject_objects (s : Sys τ) (i j : Nat) :
    (s.dropObject i).objects.get? j = if j = i then none else s.objects.get? j := by
  unfold dropObject
  split
  · exact get?_remove ..
  rename_i hnone
  split
  · rename_i he
    rw [he, hnone]
  · rfl

theorem dropRefs_frame (l : List Nat) : ∀ s : Sys τ, (s.dropRefs l).procs = s.procs ∧ (s.dropRefs l).held = s.held ∧
    (s.dropRefs l).nextPid = s.nextPid ∧ (s.dropRefs l).nextObject = s.nextObject ∧
    (s.dropRefs l).mem.spaces = s.mem.spaces := by
  induction l with
  | nil => exact fun s => ⟨rfl, rfl, rfl, rfl, rfl⟩
  | cons i rest ih =>
    intro s
    unfold dropRefs
    obtain ⟨h1, h2, h3, h4, h5⟩ := ih (if s.strongCount i + rest.count i = 0 then s.dropObject i else s)
    rw [h1, h2, h3, h4, h5]
    split
    · exact dropObject_frame s i
    · exact ⟨rfl, rfl, rfl, rfl, rfl⟩

theorem Counted.drop {rest : List Nat} (h : s.Counted (i :: rest)) :
    Counted (if s.strongCount i + rest.count i = 0 then s.dropObject i else s) rest := by
  intro j
  have hj := h j
  rw [count_cons] at hj
  split
  · rename_i hzero
    rw [dropObject_objects, strongCount_congr (dropObject_frame s i).1 (dropObject_frame s i).2.1]
    by_cases he : j = i
    · subst he
      simp [hzero]
    · rw [if_neg he]
      simpa [Ne.symm he] using hj
  · rename_i hne
    by_cases he : j = i
    · subst he
      exact iff_of_true (hj.mpr (by omega)) hne
    · simpa [Ne.symm he] using hj

theorem dropRefs_objects (l : List Nat) : ∀ {s : Sys τ}, s.Counted l → ∀ j,
    (s.dropRefs l).objects.get? j = if s.strongCount j = 0 then none else s.objects.get? j := by
  induction l with
  | nil =>
    intro s hc j
    have hj := hc j
    unfold dropRefs
    split
    · rename_i hzero
      cases ho : s.objects.get? j with
      | none => rfl
      | some o =>
        rw [ho] at hj
        exact absurd hzero (hj.mp rfl)
    · rfl
  | cons i rest ih =>
    intro s hc j
    unfold dropRefs
    rw [ih hc.drop j]
    split
    · rw [strongCount_congr (dropObject_frame s i).1 (dropObject_frame s i).2.1, dropObject_objects]
      by_cases he : j = i
      · subst he
        rw [if_pos (by omega), if_pos (by omega)]
      · rw [if_neg he]
    · rfl

theorem owners_remove (h : s.objects.get? i = some o) (hobj : s'.objects = s.objects.remove i) (f : Nat) :
    s.owners f = s'.owners f + o.owns.count f := by
  have hrem := total_remove (g := fun _ (o : Object) => o.owns.count f) h
  unfold owners
  rw [hobj]
  omega

theorem owners_ne_zero (h : s.objects.get? i = some o) (hf : f ∈ o.owns) : s.owners f ≠ 0 := by
  have hle := le_total (g := fun _ (o : Object) => o.owns.count f) h
  have hpos := count_pos_iff.mpr hf
  unfold owners
  omega

/-- The frames of `keep` are owned by objects that stay, so dropping the others keeps the ledger. -/
theorem dropRefs_ledger (l : List Nat) : ∀ {s : Sys τ}, s.Counted l → s.mem.Ledger M s.owners keep →
    (∀ f, keep f → ∃ j o, s.objects.get? j = some o ∧ s.strongCount j ≠ 0 ∧ f ∈ o.owns) →
    (s.dropRefs l).mem.Ledger M (s.dropRefs l).owners keep := by
  induction l with
  | nil => exact fun _ hl _ => hl
  | cons i rest ih =>
    intro s hc hl hk
    refine ih hc.drop ?_ ?_
    · split
      · cases ho : s.objects.get? i with
        | none =>
          rw [show s.dropObject i = s by unfold dropObject; rw [ho]]
          exact hl
        | some o =>
          have hs : s.dropObject i =
              { s with mem := o.owns.foldl releaseFrame s.mem, objects := s.objects.remove i } := by
            unfold dropObject
            rw [ho]
          rw [hs]
          refine Mem.Ledger.releaseAll (fun f hf => ?_) ?_
          · obtain ⟨j, o', hj, hne, hmem⟩ := hk f hf
            have hstays : (s.objects.remove i).get? j = some o' := by
              rw [get?_remove, if_neg]
              · exact hj
              · intro he
                rw [he] at hne
                omega
            exact owners_ne_zero hstays hmem
          · have hown : (fun f => owners { s with objects := s.objects.remove i } f + o.owns.count f) = s.owners :=
              (funext (owners_remove ho rfl)).symm
            exact hown ▸ hl
      · exact hl
    · intro f hf
      obtain ⟨j, o, hj, hne, hmem⟩ := hk f hf
      split
      · refine ⟨j, o, ?_, ?_, hmem⟩
        · rw [dropObject_objects, if_neg]
          · exact hj
          · intro he
            rw [he] at hne
            omega
        · rwa [strongCount_congr (dropObject_frame s i).1 (dropObject_frame s i).2.1]
      · exact ⟨j, o, hj, hne, hmem⟩

/-! ## The invariant -/

/-- The objects, while the references `l` are still to be given up. -/
structure ObjectsOk (M : Mapper τ) (s : Sys τ) (l : List Nat) : Prop where
  ledger : s.mem.Ledger M s.owners s.Listed
  /-- What a shared-memory object does not own, a ring does. -/
  backed : ∀ i inner, s.objects.get? i = some (.shmem inner) → inner.owned = false → ∀ f ∈ inner.frames,
    ∃ j ring, s.objects.get? j = some (.port (some ring)) ∧ f ∈ ring.frames
  counted : s.Counted l
  fresh : ∀ i, s.nextObject ≤ i → s.objects.get? i = none

structure ProcsOk (s : Sys τ) : Prop where
  space : ∀ pid p, s.procs.get? pid = some p → p.zombie = false → (s.mem.spaces.get? p.proc.pml4).isSome
  vmas : ∀ pid p, s.procs.get? pid = some p → VmasOk p.proc
  brk : ∀ pid p, s.procs.get? pid = some p → p.proc.brkCurrent ≤ USER_END
  fresh : ∀ pid, s.nextPid ≤ pid → s.procs.get? pid = none

structure Inv (M : Mapper τ) (s : Sys τ) : Prop where
  objects : ObjectsOk M s []
  procs : ProcsOk s

theorem ObjectsOk.of_same (h : ObjectsOk M s l) (hobj : s'.objects = s.objects) (hnext : s'.nextObject = s.nextObject)
    (hl : s'.mem.Ledger M s.owners s.Listed)
    (hcount : ∀ i, s'.strongCount i + l'.count i ≠ 0 ↔ s.strongCount i + l.count i ≠ 0) : ObjectsOk M s' l' where
  ledger := by
    unfold owners Listed
    rw [hobj]
    exact hl
  backed := by
    rw [hobj]
    exact h.backed
  counted i := by
    rw [hobj, hcount]
    exact h.counted i
  fresh := by
    rw [hobj, hnext]
    exact h.fresh

theorem ObjectsOk.dropRefs (h : ObjectsOk M s l)
    (hk : ∀ x ∈ s.objects.entries, ∀ y ∈ s.objects.entries, x.2.Borrows y.2 → s.strongCount x.1 ≠ 0 →
      s.strongCount y.1 ≠ 0) :
    ObjectsOk M (s.dropRefs l) [] := by
  have hobj := dropRefs_objects l h.counted
  obtain ⟨hprocs, hheld, -, hnext, -⟩ := dropRefs_frame l s
  have hstay : ∀ {j o}, (s.dropRefs l).objects.get? j = some o → s.strongCount j ≠ 0 ∧ s.objects.get? j = some o := by
    intro j o hj
    rw [hobj] at hj
    obtain ⟨hne, hj⟩ := of_unless hj
    exact ⟨hne, hj⟩
  -- a ring stays when what borrows its pages does
  have hring : ∀ {i inner f}, s.strongCount i ≠ 0 → s.objects.get? i = some (.shmem inner) → inner.owned = false →
      f ∈ inner.frames → ∃ j ring, s.objects.get? j = some (.port (some ring)) ∧ s.strongCount j ≠ 0 ∧
          f ∈ ring.frames := by
    intro i inner f hne hi hown hf
    obtain ⟨j, ring, hj, hmem⟩ := h.backed i inner hi hown f hf
    refine ⟨j, ring, hj, ?_, hmem⟩
    exact hk _ (get?_eq_some.mp hi) _ (get?_eq_some.mp hj) ⟨hown, f, hf, hmem⟩ hne
  have hlisted : ∀ f, (s.dropRefs l).Listed f → s.Listed f := by
    intro f hf
    obtain ⟨i, inner, hi, hmem⟩ := hf
    exact ⟨i, inner, (hstay hi).2, hmem⟩
  have howned : ∀ f, (s.dropRefs l).Listed f → ∃ j o, s.objects.get? j = some o ∧ s.strongCount j ≠ 0 ∧ f ∈ o.owns := by
    intro f hf
    obtain ⟨i, inner, hi, hmem⟩ := hf
    obtain ⟨hne, hi⟩ := hstay hi
    cases hown : inner.owned with
    | true => exact ⟨i, .shmem inner, hi, hne, by rw [Object.owns, if_pos hown]; exact hmem⟩
    | false =>
      obtain ⟨j, ring, hj, hjne, hmem⟩ := hring hne hi hown hmem
      exact ⟨j, .port (some ring), hj, hjne, hmem⟩
  refine ⟨dropRefs_ledger l h.counted (h.ledger.unlist hlisted) howned, ?_, ?_, ?_⟩
  · intro i inner hi hown f hf
    obtain ⟨hne, hi⟩ := hstay hi
    obtain ⟨j, ring, hj, hjne, hmem⟩ := hring hne hi hown hf
    exact ⟨j, ring, by rw [hobj, if_neg hjne]; exact hj, hmem⟩
  · intro i
    rw [hobj, strongCount_congr hprocs hheld, count_nil, add_zero]
    split
    · rename_i hzero
      simp [hzero]
    · rename_i hne
      exact iff_of_true ((h.counted i).mpr (by omega)) hne
  · intro i hi
    rw [hobj, h.fresh i (hnext ▸ hi), ite_self]

/-! ## Processes -/

theorem ProcsOk.insert (h : ProcsOk s) (hprocs : s'.procs = s.procs.insert pid p') (hnext : s.nextPid ≤ s'.nextPid)
    (hpid : pid < s'.nextPid) (hv : VmasOk p'.proc) (hb : p'.proc.brkCurrent ≤ USER_END)
    (hself : p'.zombie = false → (s'.mem.spaces.get? p'.proc.pml4).isSome) (hspaces : s.mem.SpacesKept s'.mem) :
    ProcsOk s' := by
  have hcases : ∀ {qid q}, s'.procs.get? qid = some q → q = p' ∨ s.procs.get? qid = some q :=
    fun hq => (get?_insert_cases (hprocs ▸ hq)).imp And.right And.right
  refine ⟨?_, ?_, ?_, ?_⟩
  · intro qid q hq hz
    rcases hcases hq with rfl | hq
    · exact hself hz
    · exact hspaces _ (h.space qid q hq hz)
  · intro qid q hq
    rcases hcases hq with rfl | hq
    · exact hv
    · exact h.vmas qid q hq
  · intro qid q hq
    rcases hcases hq with rfl | hq
    · exact hb
    · exact h.brk qid q hq
  · intro qid hle
    rw [hprocs, get?_insert, if_neg (by omega)]
    exact h.fresh qid (hnext.trans hle)

theorem ProcsOk.pid_lt (h : ProcsOk s) (hp : s.procs.get? pid = some p) : pid < s.nextPid := by
  by_contra hle
  rw [h.fresh pid (not_lt.mp hle)] at hp
  cases hp

theorem ProcsOk.of_same (h : ProcsOk s) (hprocs : s'.procs = s.procs) (hnext : s'.nextPid = s.nextPid)
    (hspaces : s.mem.SpacesKept s'.mem) : ProcsOk s' where
  space pid p hp hz := hspaces _ (h.space pid p (hprocs ▸ hp) hz)
  vmas pid p hp := h.vmas pid p (hprocs ▸ hp)
  brk pid p hp := h.brk pid p (hprocs ▸ hp)
  fresh pid hle := by
    rw [hprocs]
    exact h.fresh pid (hnext ▸ hle)

theorem ProcsOk.dropRefs (h : ProcsOk s) (l : List Nat) : ProcsOk (s.dropRefs l) := by
  obtain ⟨hprocs, -, hpid, -, hspaces⟩ := dropRefs_frame l s
  exact h.of_same hprocs hpid (.of_eq hspaces)

/-! ## Tables -/

/-- A step that only deals with fds and objects: of the processes, the table of `pid` may change. -/
structure FdStep (M : Mapper τ) (s : Sys τ) (pid : Nat) (s' : Sys τ) : Prop where
  objects : ObjectsOk M s' []
  procs : s'.procs = s.procs ∨ ∃ p fds, s.caller pid = some p ∧ s'.procs = s.procs.insert pid { p with fds := fds }
  nextPid : s'.nextPid = s.nextPid
  spaces : s'.mem.spaces = s.mem.spaces

theorem FdStep.refl (hi : Inv M s) (pid : Nat) : FdStep M s pid s := ⟨hi.objects, .inl rfl, rfl, rfl⟩

theorem FdStep.inv (hi : Inv M s) (h : FdStep M s pid s') : Inv M s' := by
  refine ⟨h.objects, ?_⟩
  have hspaces : s.mem.SpacesKept s'.mem := .of_eq h.spaces
  rcases h.procs with hprocs | ⟨p, _, hc, hprocs⟩
  · exact hi.procs.of_same hprocs h.nextPid hspaces
  · obtain ⟨hp, hlive⟩ := caller_eq_some hc
    exact hi.procs.insert hprocs (le_of_eq h.nextPid.symm) (h.nextPid ▸ hi.procs.pid_lt hp) (hi.procs.vmas pid p hp)
      (hi.procs.brk pid p hp) (fun _ => hspaces _ (hi.procs.space pid p hp hlive)) hspaces

/-- The references `l` are given up, after the references `extra` to objects that stay were taken. -/
theorem ObjectsOk.exchange (h : ObjectsOk M s []) (extra : List Nat) (hk : s.KeepsRings l)
    (hobj : s'.objects = s.objects) (hnext : s'.nextObject = s.nextObject) (hl : s'.mem.Ledger M s.owners s.Listed)
    (hsum : ∀ i, s'.strongCount i + l.count i = s.strongCount i + extra.count i)
    (hextra : ∀ i ∈ extra, l.count i < s.strongCount i) : ObjectsOk M (s'.dropRefs l) [] := by
  have hpos : ∀ i, extra.count i ≠ 0 → l.count i < s.strongCount i :=
    fun i hne => hextra i (count_pos_iff.mp (Nat.pos_of_ne_zero hne))
  have hs' : ObjectsOk M s' l := by
    refine h.of_same hobj hnext hl fun i => ?_
    have hi := hpos i
    rw [hsum, count_nil]
    omega
  refine hs'.dropRefs fun x hx y hy hb hne => ?_
  rw [hobj] at hx hy
  have hkeep := hk x hx y hy hb
  have hx' := hsum x.1
  have hxe := hpos x.1
  have hy' := hsum y.1
  omega

theorem ObjectsOk.keepsRings_nil (h : ObjectsOk M s []) : s.KeepsRings [] := by
  intro x _ y hy _ _
  have hy := (h.counted y.1).mp (by rw [get?_eq_some.mpr hy]; rfl)
  rw [count_nil] at hy ⊢
  omega

theorem Inv.exchange (hi : Inv M s) (extra : List Nat) (hc : s.caller pid = some p) (hk : s.KeepsRings l)
    (hcount : ∀ i, (refsOf fds.objects).count i + l.count i = p.refs.count i + extra.count i)
    (hextra : ∀ i ∈ extra, l.count i < s.strongCount i) :
    FdStep M s pid ((s.setProc pid { p with fds := fds }).dropRefs l) := by
  obtain ⟨hprocs, -, hpid, -, hspaces⟩ := dropRefs_frame l (s.setProc pid { p with fds := fds })
  refine ⟨hi.objects.exchange extra hk rfl rfl hi.objects.ledger (fun i => ?_) hextra, .inr ⟨p, fds, hc, hprocs⟩,
    hpid, hspaces⟩
  have hins := strongCount_setFds (caller_eq_some hc).1 fds i
  have hc := hcount i
  omega

theorem Inv.setFds (hi : Inv M s) (extra : List Nat) (hc : s.caller pid = some p)
    (hcount : ∀ i, (refsOf fds.objects).count i = p.refs.count i + extra.count i)
    (hextra : ∀ i ∈ extra, 0 < s.strongCount i) : FdStep M s pid (s.setProc pid { p with fds := fds }) :=
  hi.exchange extra hc hi.objects.keepsRings_nil hcount hextra

theorem count_refs_of_perm {h : Handle} (hperm : hs.Perm (h :: hs')) (i : Nat) :
    (refsOf hs).count i = (refsOf hs').count i + (refsOf [h]).count i := by
  rw [refsOf_append_count (show hs.Perm ([h] ++ hs') from hperm), add_comm]

theorem refs_getFd (h : fds.getFd fd = some e) : (refsOf [e.object]).count i ≤ (refsOf fds.objects).count i := by
  have hperm := objects_empty (getFd_eq_some.mp h)
  rw [count_refs_of_perm hperm]
  exact Nat.le_add_left ..

theorem openFd_step (hi : Inv M s) (he : e.object.ref = none) (h : s.openFd pid e = some s') : FdStep M s pid s' := by
  obtain ⟨_, hc, -, h⟩ := caller_bind h
  split at h
  · rename_i hfd
    cases h
    refine hi.setFds [] hc (fun i => ?_) nofun
    rw [count_refs_of_perm (objects_allocFd hfd), refsOf_cons, he]
    rfl
  · cases h
    exact .refl hi pid

theorem sysClose_step (hi : Inv M s) (hk : s.KeepsRings (s.closes (.close pid fd))) (h : s.sysClose pid fd = some s') :
    FdStep M s pid s' := by
  obtain ⟨_, hc, hp, h⟩ := caller_bind h
  split at h
  · rename_i e _ hfd
    cases h
    have hl : s.closes (.close pid fd) = refsOf [e.object] := by
      simp only [closes, hp, elim_some, getObject_takeFd hfd, toList_some]
    exact hi.exchange [] hc (hl ▸ hk) (fun i => (count_refs_of_perm (objects_takeFd hfd) i).symm) nofun
  · cases h
    exact .refl hi pid

theorem sysDup2_step {oldfd newfd : Nat} (hi : Inv M s) (hk : s.KeepsRings (s.closes (.dup2 pid oldfd newfd)))
    (h : s.sysDup2 pid oldfd newfd = some s') : FdStep M s pid s' := by
  obtain ⟨p, hc, hp, h⟩ := caller_bind h
  split at h
  · cases h
    exact .refl hi pid
  rename_i e he
  split at h
  · cases h
    exact .refl hi pid
  rename_i hold
  split at h
  · rename_i old fds htake
    cases h
    have hobj : p.fds.getObject newfd = some old.object := by
      rw [← getObject_extend]
      exact getObject_takeFd htake
    have hl : s.closes (.dup2 pid oldfd newfd) = refsOf [old.object] := by
      simp only [closes, hp, elim_some, he, isNone_some, Bool.false_eq_true, or_false, hold, if_false, hobj,
        toList_some]
    rw [hl] at hk
    refine hi.exchange (refsOf [e.object]) hc hk (fun i => ?_) fun i hmem => ?_
    · have h1 := count_refs_of_perm (objects_replaceFd htake ⟨e.object, false⟩) i
      have h2 := count_refs_of_perm (.refl (old.object :: FdTable.objects (fds.set newfd (some ⟨e.object, false⟩)))) i
      exact h2.symm.trans h1
    · -- the object is in the other slot too
      have hstill : fds.getFd oldfd = some e := by
        rw [getFd_takeFd htake, if_neg hold, getFd_extend, he]
      have hin := refs_getFd hstill (i := i)
      have hpos := count_pos_iff.mpr hmem
      have hsum := count_refs_of_perm (objects_takeFd htake) i
      rw [objects_extend] at hsum
      have hle : (refsOf p.fds.objects).count i ≤ s.strongCount i := refs_le_strongCount hp i
      omega
  · rename_i htake
    cases h
    refine hi.setFds (refsOf [e.object]) hc (fun i => count_refs_of_perm (objects_fillFd htake ⟨e.object, false⟩) i)
      fun i hmem => ?_
    exact (count_pos_iff.mpr hmem).trans_le ((refs_getFd he).trans (refs_le_strongCount hp i))

theorem setFdFlags_step (hi : Inv M s) (h : s.setFdFlags pid fd cloexec = some s') : FdStep M s pid s' := by
  obtain ⟨p, hc, -, h⟩ := caller_bind h
  split at h
  · cases h
    exact .refl hi pid
  rename_i e he
  cases h
  refine hi.setFds [] hc (fun i => ?_) nofun
  have hreplace := objects_replace (getFd_eq_some.mp he) { e with cloexec := cloexec }
  have h1 := count_refs_of_perm hreplace i
  have h2 :=
    count_refs_of_perm (.refl (e.object :: FdTable.objects (p.fds.set fd (some { e with cloexec := cloexec })))) i
  have h3 : (refsOf (FdTable.objects (p.fds.set fd (some { e with cloexec := cloexec })))).count i = p.refs.count i :=
    add_right_cancel (h2.symm.trans h1)
  exact h3

/-! ## References held by the kernel -/

theorem strongCount_erase (h : i ∈ s.held) (hprocs : s'.procs = s.procs) (hheld : s'.held = s.held.erase i) (j : Nat) :
    s'.strongCount j + [i].count j = s.strongCount j := by
  have hperm := (perm_cons_erase h).count_eq j
  have hcons : (i :: s.held.erase i).count j = (s.held.erase i).count j + [i].count j := by
    simp [count_cons]
  unfold strongCount
  rw [hprocs, hheld]
  omega

theorem hold_step (hi : Inv M s) (h : s.hold pid fd = some s') : FdStep M s pid s' := by
  obtain ⟨_, -, hp, h⟩ := caller_bind h
  split at h
  · rename_i i hobj
    cases h
    have hin : s.strongCount i ≠ 0 := by
      obtain ⟨e, he, hei⟩ := of_map hobj
      have hle : (refsOf [e.object]).count i ≤ s.strongCount i := (refs_getFd he).trans (refs_le_strongCount hp i)
      rw [hei] at hle
      have hone : (refsOf [Handle.object i]).count i = 1 := count_singleton_self
      omega
    refine ⟨hi.objects.of_same rfl rfl hi.objects.ledger fun j => ?_, .inl rfl, rfl, rfl⟩
    have hsum : strongCount { s with held := i :: s.held } j = s.strongCount j + [i].count j := by
      simp only [strongCount, count_cons, count_nil]
      omega
    have hone := count_singleton_ne_zero (i := i) (j := j)
    rw [hsum, count_nil]
    by_cases he : j = i
    · subst he
      omega
    · omega
  · cases h
    exact .refl hi pid

theorem Inv.unhold (hi : Inv M s) (h : i ∈ s.held) (hk : s.KeepsRings [i]) :
    FdStep M s pid (dropRefs { s with held := s.held.erase i } [i]) := by
  obtain ⟨hprocs, -, hpid, -, hspaces⟩ := dropRefs_frame [i] { s with held := s.held.erase i }
  refine ⟨hi.objects.exchange [] hk rfl rfl hi.objects.ledger (fun j => ?_) nofun, .inl hprocs, hpid, hspaces⟩
  refine (strongCount_erase h ?_ ?_ j).trans ?_ <;> rfl

theorem install_step (hi : Inv M s) (hk : s.KeepsRings (s.closes (.install pid i))) (h : s.install pid i = some s') :
    FdStep M s pid s' := by
  obtain ⟨p, hc, hp, h⟩ := caller_bind h
  obtain ⟨hheld, h⟩ := of_guard h
  split at h
  · rename_i fds hfd
    cases h
    refine ⟨hi.objects.of_same rfl rfl hi.objects.ledger fun j => ?_, .inr ⟨p, fds, hc, rfl⟩, rfl, rfl⟩
    -- the reference only moves
    have hins := strongCount_setFds hp fds j
    have hmore : (refsOf fds.objects).count j = p.refs.count j + [i].count j :=
      count_refs_of_perm (objects_allocFd hfd) j
    have herase : strongCount { s with procs := s.procs.insert pid { p with fds := fds }, held := s.held.erase i }
        j + [i].count j = (s.setProc pid { p with fds := fds }).strongCount j := by
      refine strongCount_erase (s := s.setProc pid { p with fds := fds }) hheld ?_ ?_ j <;> rfl
    rw [count_nil]
    omega
  · rename_i hfull
    cases h
    have hl : s.closes (.install pid i) = [i] := by
      simp only [closes, hp, elim_some, hfull, isSome_none, Bool.false_eq_true, if_false]
    exact hi.unhold hheld (hl ▸ hk)

/-! ## New objects -/

theorem owners_put (hobj : s'.objects = s.objects.insert i o) (hold : ∀ o', s.objects.get? i = some o' → o'.owns = []) :
    s'.owners = fun f => s.owners f + o.owns.count f := by
  funext f
  have hins := total_insert (fun _ (o : Object) => o.owns.count f) s.objects i o
  have hzero : (s.objects.get? i).elim 0 (fun o => o.owns.count f) = 0 := by
    cases ho : s.objects.get? i with
    | none => rfl
    | some o' => rw [elim_some, hold o' ho, count_nil]
  unfold owners
  rw [hobj]
  omega

theorem listed_put (hobj : s'.objects = s.objects.insert i o) (hf : s'.Listed f) : s.Listed f ∨ f ∈ o.lists := by
  obtain ⟨j, inner, hj, hmem⟩ := hf
  obtain ⟨-, rfl⟩ | ⟨-, hj⟩ := get?_insert_cases (hobj ▸ hj)
  · exact .inr hmem
  · exact .inl ⟨j, inner, hj, hmem⟩

theorem ObjectsOk.put (h : ObjectsOk M s l)
    (hobj : s'.objects = s.objects.insert i o) (hold : ∀ o', s.objects.get? i = some o' → o'.owns = [])
    (hnext : s.nextObject ≤ s'.nextObject) (hlt : i < s'.nextObject)
    (hl : s'.mem.Ledger M (fun f => s.owners f + o.owns.count f) keep) (hkeep : ∀ f, s.Listed f ∨ f ∈ o.lists → keep f)
    (hback : ∀ inner, o = .shmem inner → inner.owned = false →
      ∀ f ∈ inner.frames, ∃ j ring, s.objects.get? j = some (.port (some ring)) ∧ f ∈ ring.frames)
    (hcount : ∀ j, s'.strongCount j + l'.count j ≠ 0 ↔ j = i ∨ s.strongCount j + l.count j ≠ 0) :
    ObjectsOk M s' l' := by
  have hget : ∀ j, s'.objects.get? j = if j = i then some o else s.objects.get? j := by
    intro j
    rw [hobj, get?_insert]
  refine ⟨?_, ?_, ?_, ?_⟩
  · exact owners_put hobj hold ▸ hl.unlist fun f hf => hkeep f (listed_put hobj hf)
  · intro j inner hj hown f hf
    obtain ⟨k, ring, hk, hmem⟩ : ∃ k ring, s.objects.get? k = some (.port (some ring)) ∧ f ∈ ring.frames := by
      rw [hget] at hj
      split at hj
      · exact hback inner (some.inj hj) hown f hf
      · exact h.backed j inner hj hown f hf
    -- the ring that backs a frame is not the object that is replaced
    refine ⟨k, ring, ?_, hmem⟩
    rw [hget, if_neg]
    · exact hk
    · rintro rfl
      have hnil : ring.frames = [] := hold _ hk
      exact absurd hmem (hnil ▸ not_mem_nil)
  · intro j
    rw [hget, hcount]
    split
    · rename_i he
      exact iff_of_true rfl (.inl he)
    · rename_i hne
      rw [h.counted j, or_iff_right hne]
  · intro j hle
    rw [hget, if_neg (by omega)]
    exact h.fresh j (hnext.trans hle)

theorem ObjectsOk.owns_next (h : ObjectsOk M s l) (o : Object) (ho : s.objects.get? s.nextObject = some o) :
    o.owns = [] := by
  rw [h.fresh _ le_rfl] at ho
  cases ho

theorem Inv.newObject (hi : Inv M s) (hc : s.caller pid = some p)
    (howned : ∀ inner, o = .shmem inner → inner.owned = true)
    (hl : m.Ledger M (fun f => s.owners f + o.owns.count f) fun f => s.Listed f ∨ f ∈ o.lists)
    (hspaces : m.spaces = s.mem.spaces) : FdStep M s pid (Sys.newObject { s with mem := m } pid p o cloexec) := by
  unfold Sys.newObject
  split
  · rename_i fds hfd
    refine ⟨hi.objects.put rfl hi.objects.owns_next (Nat.le_succ _) (Nat.lt_succ_self _) hl (fun _ => id)
      (fun inner ho hown => ?_) (fun j => ?_), .inr ⟨p, fds, hc, rfl⟩, rfl, hspaces⟩
    · rw [howned inner ho] at hown
      cases hown
    · have hins := strongCount_setFds (caller_eq_some hc).1 fds j
      have hmore : (refsOf fds.objects).count j = p.refs.count j + [s.nextObject].count j :=
        count_refs_of_perm (objects_allocFd hfd) j
      have hone := count_singleton_ne_zero (i := s.nextObject) (j := j)
      show (s.setProc pid { p with fds := fds }).strongCount j + 0 ≠ 0 ↔ j = s.nextObject ∨ s.strongCount j + 0 ≠ 0
      omega
  · exact ⟨hi.objects.of_same rfl rfl (Mem.Ledger.releaseAll hi.objects.ledger.owned (hl.unlist fun f => .inl)) fun i =>
      Iff.rfl, .inl rfl, rfl, (releaseAll_spaces ..).trans hspaces⟩

theorem sysIoCreate_step {flags : Nat} (hi : Inv M s) (h : s.sysIoCreate pid flags = some s') : FdStep M s pid s' := by
  obtain ⟨_, hc, -, h⟩ := caller_bind h
  split at h
  · cases h
    exact .refl hi pid
  · cases h
    refine hi.newObject hc nofun (hi.objects.ledger.unlist fun f hf => ?_) rfl
    exact hf.resolve_right not_mem_nil

theorem sysShmemCreate_step {size : Nat} {flags : BitVec 32} (hi : Inv M s)
    (h : s.sysShmemCreate pid size flags = some s') : FdStep M s pid s' := by
  obtain ⟨_, hc, -, h⟩ := caller_bind h
  split at h
  · cases h
    exact .refl hi pid
  rename_i hsize
  split at h
  · cases h
    exact .refl hi pid
  obtain ⟨⟨o, _⟩, hnew, h⟩ := of_bind h
  rw [sharedMemNew, if_neg hsize] at hnew
  obtain ⟨_, -, hnew⟩ := of_bind hnew
  obtain ⟨_, _, rfl, htook, hl⟩ := allocFrames_took hi.objects.ledger.sound (some.inj hnew)
  cases o with
  | none =>
    cases h
    exact ⟨hi.objects.of_same rfl rfl (hi.objects.ledger.took htook) fun i => Iff.rfl, .inl rfl, rfl, rfl⟩
  | some frames =>
    cases h
    obtain rfl := hl frames rfl
    refine hi.newObject hc (fun inner he => ?_) ?_ rfl
    · cases he
      rfl
    · exact (hi.objects.ledger.took htook).adopt htook.nodup fun f hf => hi.objects.ledger.loose htook hf

theorem ringNew_took {o : Option IoRing} (hs : m.frames.Sound) (h : IoRing.new m = (o, m')) :
    ∃ l b, m' = { m with frames := b } ∧ m.frames.Took l b ∧ ∀ ring, o = some ring → l = ring.frames := by
  unfold IoRing.new at h
  split at h
  · rename_i a ha
    cases h
    exact ⟨[], a, rfl, allocate_took hs ha, nofun⟩
  rename_i sq _ ha
  have htook := allocate_took hs ha
  split at h
  · rename_i b hb
    cases h
    exact ⟨[sq], b, rfl, htook.append (allocate_took htook.sound hb), nofun⟩
  · rename_i cq b hb
    cases h
    refine ⟨[sq, cq], b, rfl, htook.append (allocate_took htook.sound hb), fun ring he => ?_⟩
    cases he
    rfl

theorem ObjectsOk.lt_next (h : ObjectsOk M s l) (ho : s.objects.get? i = some o) : i < s.nextObject := by
  by_contra hge
  rw [h.fresh i (not_lt.mp hge)] at ho
  cases ho

/-- A page of a ring that is there becomes an object of its own, and its one reference is in hand. -/
theorem ObjectsOk.putPage {i : Nat} {page : List Nat} (h : ObjectsOk M s l)
    (hport : s.objects.get? i = some (.port (some ring))) (hpage : ∀ f ∈ page, f ∈ ring.frames)
    (hobj : s'.objects = s.objects.insert s.nextObject (.shmem ⟨page, PAGE_SIZE, false⟩))
    (hnext : s'.nextObject = s.nextObject + 1)
    (hl : s'.mem.Ledger M s.owners keep) (hkeep : ∀ f, s.Listed f ∨ f ∈ ring.frames → keep f)
    (hcount : ∀ j, s'.strongCount j + l'.count j = s.strongCount j + l.count j + [s.nextObject].count j) :
    ObjectsOk M s' l' := by
  refine h.put hobj h.owns_next (by omega) (by omega) hl (fun f hf => hkeep f (hf.imp_right (hpage f)))
    (fun inner he _ f hf => ?_) fun j => ?_
  · cases he
    exact ⟨i, ring, hport, hpage f hf⟩
  · rw [hcount, ← count_singleton_ne_zero]
    omega

theorem installRing_step {port : Nat} (hi : Inv M s) (hc : s.caller pid = some p)
    (hport : s.objects.get? port = some (.port none))
    (hl : m.Ledger M (fun f => s.owners f + ring.frames.count f) fun f => s.Listed f ∨ f ∈ ring.frames)
    (hspaces : m.spaces = s.mem.spaces) : FdStep M s pid (installRing { s with mem := m } pid port p ring) := by
  have hp := (caller_eq_some hc).1
  have hdropped : (ring.frames.foldl releaseFrame m).Ledger M s.owners s.Listed :=
    Mem.Ledger.releaseAll hi.objects.ledger.owned (hl.unlist fun f => .inl)
  have hkept : (ring.frames.foldl releaseFrame m).spaces = s.mem.spaces := (releaseAll_spaces ..).trans hspaces
  unfold installRing
  split
  · exact ⟨hi.objects.of_same rfl rfl hdropped fun i => Iff.rfl, .inl rfl, rfl, hkept⟩
  rename_i sqFd fds hsq
  have hcount1 : ∀ i, (refsOf fds.objects).count i = p.refs.count i + [s.nextObject].count i :=
    fun i => count_refs_of_perm (objects_allocFd hsq) i
  split
  · -- the first fd is closed again
    refine ⟨hi.objects.of_same rfl rfl hdropped fun i => ?_, .inr ⟨p, fds.set sqFd none, hc, rfl⟩, rfl, hkept⟩
    have hslot := getFd_eq_some.mp (allocFd_fresh hsq).2.1
    have hcount2 : (refsOf fds.objects).count i =
        (refsOf (FdTable.objects (fds.set sqFd none))).count i + [s.nextObject].count i :=
      count_refs_of_perm (objects_empty hslot) i
    have hins := strongCount_setFds hp (fds.set sqFd none) i
    have hone := hcount1 i
    show (s.setProc pid { p with fds := fds.set sqFd none }).strongCount i + _ ≠ 0 ↔ _
    omega
  rename_i fds' hcq
  -- the port gets the ring, and then each of the pages its object
  let s₁ : Sys τ := { s with mem := m, objects := s.objects.insert port (.port (some ring)) }
  let s₂ : Sys τ := { s₁ with objects := s₁.objects.insert s.nextObject (.shmem ⟨ring.sqPhys, PAGE_SIZE, false⟩)
                              nextObject := s.nextObject + 1 }
  have hlt := hi.objects.lt_next hport
  have hold : ∀ o', s.objects.get? port = some o' → o'.owns = [] := by
    intro o' ho
    rw [hport] at ho
    cases ho
    rfl
  have h₁ : ObjectsOk M s₁ [] := by
    refine hi.objects.put rfl hold le_rfl hlt hl (fun f hf => .inl (hf.resolve_right not_mem_nil)) nofun fun j => ?_
    refine ⟨.inr, fun hj => hj.elim (fun he => ?_) id⟩
    exact (hi.objects.counted j).mp (by rw [he, hport]; rfl)
  have hl₁ : m.Ledger M s₁.owners fun f => s.Listed f ∨ f ∈ ring.frames := (owners_put rfl hold : s₁.owners = _) ▸ hl
  have hlisted₁ : ∀ f, s₁.Listed f ∨ f ∈ ring.frames → s.Listed f ∨ f ∈ ring.frames :=
    fun f hf => hf.imp_left fun hf => (listed_put rfl hf).resolve_right not_mem_nil
  have hport₁ : s₁.objects.get? port = some (.port (some ring)) := by
    rw [get?_insert, if_pos rfl]
  have hsq : ∀ f ∈ ring.sqPhys, f ∈ ring.frames := fun f => mem_append_left _
  have h₂ : ObjectsOk M s₂ [s.nextObject] := h₁.putPage hport₁ hsq rfl rfl hl₁ hlisted₁ fun j => rfl
  have hl₂ : m.Ledger M s₂.owners fun f => s.Listed f ∨ f ∈ ring.frames :=
    (owners_put rfl h₁.owns_next : s₂.owners = _) ▸ hl₁
  refine ⟨h₂.putPage (i := port) ?_ (fun f => mem_append_right _) rfl rfl hl₂ (fun f hf => hlisted₁ f ?_) fun j => ?_,
    .inr ⟨p, fds', hc, rfl⟩, rfl, hspaces⟩
  · rw [get?_insert, if_neg (ne_of_lt hlt)]
    exact hport₁
  · exact hf.elim (fun hf => (listed_put rfl hf).imp_right (hsq f)) .inr
  · have hins := strongCount_setFds hp fds' j
    have h1 := hcount1 j
    have h2 : (refsOf fds'.objects).count j = (refsOf fds.objects).count j + [s.nextObject + 1].count j :=
      count_refs_of_perm (objects_allocFd hcq) j
    show (s.setProc pid { p with fds := fds' }).strongCount j + 0 = s.strongCount j + _ + [s.nextObject + 1].count j
    omega

theorem sysIoSetupRings_step {portFd : Nat} (hi : Inv M s) (h : s.sysIoSetupRings pid portFd = some s') :
    FdStep M s pid s' := by
  obtain ⟨_, hc, -, h⟩ := caller_bind h
  split at h
  · split at h
    · rename_i hport
      split at h
      · rename_i hnew
        cases h
        obtain ⟨_, _, rfl, htook, -⟩ := ringNew_took hi.objects.ledger.sound hnew
        exact ⟨hi.objects.of_same rfl rfl (hi.objects.ledger.took htook) fun i => Iff.rfl, .inl rfl, rfl, rfl⟩
      · rename_i ring _ hnew
        cases h
        obtain ⟨_, _, rfl, htook, hl⟩ := ringNew_took hi.objects.ledger.sound hnew
        obtain rfl := hl ring rfl
        exact installRing_step hi hc hport
          ((hi.objects.ledger.took htook).adopt htook.nodup fun f hf => hi.objects.ledger.loose htook hf) rfl
    · cases h
      exact .refl hi pid
  · cases h
    exact .refl hi pid

/-- The steps that only deal with fds and objects. -/
def Minor : SysEv → Prop
  | .spawn .. | .clone _ | .execve .. | .exit _ | .fault _ | .reap _ | .call .. => False
  | _ => True

theorem minor_step {e : SysEv} (hi : Inv M s) (hk : s.KeepsRings (s.closes e)) (hm : Minor e) (pid : Nat)
    (h : s.step M e = some s') : FdStep M s (e.actor.getD pid) s' := by
  cases e with
  | openFile q content => exact openFd_step hi rfl h
  | openOther q cloexec => exact openFd_step hi rfl h
  | ioCreate q flags => exact sysIoCreate_step hi h
  | ioSetupRings q portFd => exact sysIoSetupRings_step hi h
  | shmemCreate q size flags => exact sysShmemCreate_step hi h
  | close q fd => exact sysClose_step hi hk h
  | dup2 q oldfd newfd => exact sysDup2_step hi hk h
  | setFdFlags q fd cloexec => exact setFdFlags_step hi h
  | hold q fd => exact hold_step hi h
  | install q i => exact install_step hi hk h
  | release i =>
    obtain ⟨hheld, ⟨⟩⟩ := of_guard h
    exact hi.unhold hheld hk
  | _ => exact hm.elim

/-! ## Processes come and go -/

theorem sysClone_inv (hi : Inv M s) (h : s.sysClone pid = some s') : Inv M s' := by
  obtain ⟨p, hc, hp, h⟩ := caller_bind h
  cases h
  have hnone := hi.procs.fresh s.nextPid le_rfl
  refine ⟨hi.objects.of_same rfl rfl hi.objects.ledger fun i => ?_, ?_⟩
  · -- the child's references are the parent's
    have hnew : (s.addProc { p with pml4Shared := true }).strongCount i = s.strongCount i + p.refs.count i :=
      strongCount_addProc hnone ..
    have hle := refs_le_strongCount hp i
    show (s.addProc { p with pml4Shared := true }).strongCount i + _ ≠ 0 ↔ _
    omega
  · exact hi.procs.insert rfl (Nat.le_succ _) (Nat.lt_succ_self _) (hi.procs.vmas pid p hp) (hi.procs.brk pid p hp)
      (fun _ => hi.procs.space pid p hp (caller_eq_some hc).2) (.of_eq rfl)

theorem killUserProcess_inv (hi : Inv M s) (h : s.killUserProcess pid = some s') : Inv M s' := by
  obtain ⟨p, -, hp, h⟩ := caller_bind h
  cases h
  refine ⟨hi.objects.of_same rfl rfl hi.objects.ledger fun i => ?_, ?_⟩
  · rw [add_right_cancel (strongCount_setProc hp { p with zombie := true } i)]
  · exact hi.procs.insert rfl le_rfl (hi.procs.pid_lt hp) (hi.procs.vmas pid p hp) (hi.procs.brk pid p hp) nofun
      (.of_eq rfl)

theorem reap_inv (hi : Inv M s) (hk : s.KeepsRings (s.closes (.reap pid))) (h : s.reap pid = some s') : Inv M s' := by
  obtain ⟨p, hp, h⟩ := of_bind h
  obtain ⟨-, ⟨⟩⟩ := of_guard h
  have hl : s.closes (.reap pid) = p.refs := by simp only [closes, hp, elim_some]
  have hprocs : ProcsOk { s with procs := s.procs.remove pid } := by
    have hget : ∀ {qid q}, (s.procs.remove pid).get? qid = some q → s.procs.get? qid = some q :=
      fun hq => (get?_of_remove hq).2
    refine ⟨fun qid q hq => hi.procs.space qid q (hget hq), fun qid q hq => hi.procs.vmas qid q (hget hq),
      fun qid q hq => hi.procs.brk qid q (hget hq), fun qid hle => ?_⟩
    show (s.procs.remove pid).get? qid = none
    rw [get?_remove, hi.procs.fresh qid hle, ite_self]
  refine ⟨hi.objects.exchange [] (hl ▸ hk) rfl rfl hi.objects.ledger (fun i => ?_) nofun,
    hprocs.dropRefs p.refs⟩
  refine (strongCount_remove hp ?_ ?_ i).trans ?_ <;> rfl

theorem cleanup_inv {s1 s2 : Sys τ} (hM : M.Lawful) (hobj : ObjectsOk M s1 []) (hprocs : ProcsOk s1)
    (halone : p.pml4Shared = false → ∀ qid q, s1.procs.get? qid = some q → q.zombie = false → q.proc.pml4 ≠ p.proc.pml4)
    (h : s1.cleanup M p = some s2) : Inv M s2 := by
  unfold Sys.cleanup at h
  split at h
  · cases h
    exact ⟨hobj, hprocs⟩
  rename_i hown
  obtain ⟨mem, hclean, rfl⟩ := of_map h
  obtain ⟨hl, hspaces⟩ := hobj.ledger.cleanup hM hclean
  refine ⟨hobj.of_same rfl rfl hl fun i => Iff.rfl, ?_, hprocs.vmas, hprocs.brk, hprocs.fresh⟩
  intro qid q hq hz
  have hne := halone (eq_false_of_ne_true (not_or.mp hown).1) qid q hq hz
  show (mem.spaces.get? q.proc.pml4).isSome
  rw [hspaces, get?_remove, if_neg hne]
  exact hprocs.space qid q hq hz

theorem Alone.ne (h : s.Alone pid) (hp : s.procs.get? pid = some p) (hown : p.pml4Shared = false) {qid : Nat}
    {q : Process}
    (hne : qid ≠ pid) (hq : s.procs.get? qid = some q) (hz : q.zombie = false) : q.proc.pml4 ≠ p.proc.pml4 :=
  fun he => hne (h p hp hown (qid, q) (get?_eq_some.mp hq) hz he)

variable (hM : M.Lawful) (hi : Inv M s) {imageLen : Nat} {info : ElfInfo}
include hM hi

/-- A process changes into `p'`, gives up the references that it does not keep, and leaves its address space. -/
theorem leave_inv {mem : Mem τ} (hp : s.procs.get? pid = some p)
    (h : ((Sys.setProc { s with mem := mem } pid p').dropRefs l).cleanup M p = some s') (halone : s.Alone pid)
    (hk : s.KeepsRings l) (hledger : mem.Ledger M s.owners s.Listed) (hspaces : s.mem.SpacesKept mem)
    (hv : VmasOk p'.proc)
    (hb : p'.proc.brkCurrent ≤ USER_END) (hcount : ∀ i, p.refs.count i = l.count i + p'.refs.count i)
    (hself : p'.zombie = false → (mem.spaces.get? p'.proc.pml4).isSome ∧ p'.proc.pml4 ≠ p.proc.pml4) : Inv M s' := by
  have hprocs : ProcsOk (Sys.setProc { s with mem := mem } pid p') :=
    hi.procs.insert rfl le_rfl (hi.procs.pid_lt hp) hv hb (fun hz => (hself hz).1) hspaces
  have hobj : ObjectsOk M ((Sys.setProc { s with mem := mem } pid p').dropRefs l) [] := by
    refine hi.objects.exchange [] hk rfl rfl hledger (fun i => ?_) nofun
    have hins : (Sys.setProc { s with mem := mem } pid p').strongCount i + p.refs.count i =
        s.strongCount i + p'.refs.count i :=
      strongCount_setProc hp p' i
    have hsplit := hcount i
    rw [count_nil]
    omega
  refine cleanup_inv hM hobj (hprocs.dropRefs l) (fun hown qid q hq hz => ?_) h
  rw [(dropRefs_frame l _).1] at hq
  obtain ⟨-, rfl⟩ | ⟨hne, hq⟩ := get?_insert_cases hq
  · exact (hself hz).2
  · exact halone.ne hp hown hne hq hz

theorem terminate_inv (halone : s.Alone pid) (hk : s.KeepsRings (s.closes (.exit pid)))
    (h : s.terminate M pid = some s') : Inv M s' := by
  obtain ⟨p, -, hp, h⟩ := caller_bind h
  have hl : s.closes (.exit pid) = p.refs := by simp only [closes, hp, elim_some]
  refine leave_inv hM hi hp h halone (hl ▸ hk) hi.objects.ledger (.of_eq rfl) (empty_vmasOk rfl) (hi.procs.brk pid p hp)
    (fun i => ?_) nofun
  have hnone : refsOf p.fds.dropAll.objects = [] := by
    rw [objects_dropAll]
    rfl
  show _ = _ + (refsOf p.fds.dropAll.objects).count i
  rw [hnone]
  rfl

/-- An image has been loaded. -/
structure Loaded (M : Mapper τ) (s : Sys τ) (pml4 brkBase : Nat) (mem : Mem τ) : Prop where
  ledger : mem.Ledger M s.owners s.Listed
  new : s.mem.spaces.get? pml4 = none
  there : (mem.spaces.get? pml4).isSome
  only : Mem.OnlyAt pml4 s.mem mem
  brk : brkBase ≤ USER_END

/-- What `spawn` and `execve` do with an image: nothing, or they load it and go on. -/
theorem load_cases {k : Nat → Nat → Mem τ → Option (Sys τ)}
    (hfit : info.InHalf) (h : (if info.segments.isEmpty then some s else do
      match ← loadElfAddressSpace (loader M) imageLen info s.mem with
      | .error _ => pure s
      | .ok (pml4, _, mem) =>
        let brkBase ← computeBrkBase info
        k pml4 brkBase mem) = some s') : s' = s ∨ ∃ pml4 brkBase mem, Loaded M s pml4 brkBase mem ∧
          k pml4 brkBase mem = some s' := by
  split at h
  · cases h
    exact .inl rfl
  obtain ⟨r, hload, h⟩ := of_bind h
  cases r with
  | error e =>
    cases h
    exact .inl rfl
  | ok r =>
    obtain ⟨pml4, _, mem⟩ := r
    obtain ⟨brkBase, hbrk, h⟩ := of_bind h
    obtain ⟨hledger, hnew, hthere, honly⟩ := loadElfAddressSpace_ledger hM hi.objects.ledger hfit hload
    exact .inr ⟨pml4, brkBase, mem, ⟨hledger, hnew, hthere, honly, hfit.brkBase hbrk⟩, h⟩

theorem sysExecve_inv (hfit : info.InHalf) (halone : s.Alone pid)
    (hk : s.KeepsRings (s.closes (.execve pid imageLen info))) (h : s.sysExecve M pid imageLen info = some s') :
    Inv M s' := by
  obtain ⟨p, hc, hp, h⟩ := caller_bind h
  have hl : s.closes (.execve pid imageLen info) = refsOf p.fds.cloexecObjects := by simp only [closes, hp, elim_some]
  rcases load_cases hM hi hfit h with rfl | ⟨_, _, _, hload, h⟩
  · exact hi
  refine leave_inv hM hi hp h halone (hl ▸ hk) hload.ledger hload.only.kept (empty_vmasOk rfl) hload.brk
    (fun i => refsOf_append_count (objects_dropCloexec p.fds) i) fun _ => ⟨hload.there, fun he => ?_⟩
  -- the new space is not the old one
  have hold := hi.procs.space pid p hp (caller_eq_some hc).2
  rw [← he, hload.new] at hold
  cases hold

theorem spawn_inv (hfit : info.InHalf) (h : s.spawn M imageLen info = some s') : Inv M s' := by
  rcases load_cases hM hi hfit h with rfl | ⟨pml4, brkBase, _, hload, h⟩
  · exact hi
  cases h
  refine ⟨hi.objects.of_same rfl rfl hload.ledger fun i => ?_, ?_⟩
  · have hnew : (s.addProc (.new pml4 brkBase)).strongCount i = s.strongCount i + 0 :=
      strongCount_addProc (hi.procs.fresh s.nextPid le_rfl) ..
    exact hnew ▸ Iff.rfl
  · exact hi.procs.insert rfl (Nat.le_succ _) (Nat.lt_succ_self _) (empty_vmasOk rfl) hload.brk
      (fun _ => hload.there) hload.only.kept

omit hM hi

/-! ## Memory -/

theorem fdView_lists (s : Sys τ) (p : Process) : Lists (s.fdView p) s.Listed := by
  intro fd size frames hview f hf
  unfold fdView at hview
  split at hview
  · cases hview
  · cases hview
  · cases hview
  rename_i i _
  split at hview
  · rename_i inner hinner
    cases hview
    exact ⟨i, inner, hinner, hf⟩
  · cases hview

theorem HeapUnshared.unshared {addr : Nat} (h : s.HeapUnshared M pid addr) (hp : s.procs.get? pid = some p) :
    s.mem.Unshared M p.proc.pml4 (pagesOf addr * PAGE_SIZE) p.proc.brkCurrent := by
  intro v f fl hleaf hlo hhi
  obtain ⟨t, ht, hleaf⟩ := of_bind hleaf
  exact h p hp t ht (v, f, fl) (get?_eq_some.mp hleaf) hlo hhi

theorem call_brkCurrent {ops : MemOps (Mem τ)} {q q' : Proc} {r : Int} {e : Ev} (he : ∀ addr, e ≠ .brk addr)
    (h : Memory.call ops q m e = some (r, q', m')) : q'.brkCurrent = q.brkCurrent := by
  cases e with
  | brk addr => exact absurd rfl (he addr)
  | mmap fds addr length prot flags a5 r9 =>
    rcases sysMmap_inv h with ⟨-, -, rfl, -⟩ | ⟨-, -, _, _, -, -, -, h⟩
    · rfl
    rcases mmapPlace_inv h with ⟨-, -, rfl, -⟩ | ⟨-, -, -, vmaMap, ranges, -, ok, -, -, -, hres⟩ |
      ⟨-, _, ok, -, -, hres⟩
    · rfl
    all_goals cases ok <;> rw [hres.2]
  | munmap addr length =>
    rcases sysMunmap_inv h with ⟨-, rfl, -⟩ | ⟨-, -, -, -, -, -, -, rfl⟩ <;> rfl
  | mprotect addr length prot =>
    rcases sysMprotect_inv h with ⟨-, rfl, -⟩ | ⟨-, -, -, -, -, -, -, rfl⟩ <;> rfl

theorem memCall_inv {c : MemCall} (hM : M.Lawful) (hi : Inv M s) (hc : Careful M s (.call pid c))
    (h : s.memCall M pid c = some s') : Inv M s' := by
  obtain ⟨p, hcaller, hp, h⟩ := caller_bind h
  obtain ⟨⟨_, proc, mem⟩, hcall, h⟩ := of_bind h
  cases h
  obtain ⟨honly, hpml4⟩ := (services_preservesAt (M := M) s.mem _).call (.of_eq rfl) hcall
  have hvmas := hi.procs.vmas pid p hp
  have hcur := hi.procs.brk pid p hp
  have hall : mem.Ledger M s.owners s.Listed ∧ VmasOk proc ∧ proc.brkCurrent ≤ USER_END := by
    cases c with
    | brk addr =>
      obtain ⟨hl, hb⟩ := sysBrk_ledger hM hi.objects.ledger hcur hc.userHalf
        ((hc.heap (pid, addr) rfl).unshared hp) hcall
      exact ⟨hl, sysBrk_ok hvmas hcall, hb⟩
    | mmap addr length prot flags a5 r9 =>
      refine ⟨sysMmap_ledger hM hi.objects.ledger hvmas (fdView_lists s p) hc.userHalf hcall, sysMmap_ok hvmas hcall,
        ?_⟩
      rwa [call_brkCurrent (fun _ he => (by cases he)) hcall]
    | munmap addr length =>
      refine ⟨sysMunmap_ledger hM hi.objects.ledger hvmas hc.userHalf hcall, sysMunmap_ok hvmas hcall, ?_⟩
      rwa [call_brkCurrent (fun _ he => (by cases he)) hcall]
    | mprotect addr length prot =>
      refine ⟨sysMprotect_keeps hvmas hc.userHalf hi.objects.ledger (fun _ _ _ _ hv hl hb => hl.updateFlags hM hv hb)
        hcall, sysMprotect_ok hvmas hcall, ?_⟩
      rwa [call_brkCurrent (fun _ he => (by cases he)) hcall]
  obtain ⟨hl, hv, hb⟩ := hall
  refine ⟨hi.objects.of_same rfl rfl hl fun i => ?_, ?_⟩
  · have hsame : (s.setProc pid { p with proc := proc }).strongCount i = s.strongCount i :=
      add_right_cancel (strongCount_setProc hp { p with proc := proc } i)
    exact hsame ▸ Iff.rfl
  · refine hi.procs.insert rfl le_rfl (hi.procs.pid_lt hp) hv hb (fun _ => ?_) honly.kept
    show (mem.spaces.get? proc.pml4).isSome
    rw [hpml4]
    exact honly.kept _ (hi.procs.space pid p hp (caller_eq_some hcaller).2)

/-! ## Runs -/

theorem step_inv {e : SysEv} (hM : M.Lawful) (hi : Inv M s) (hc : Careful M s e) (h : s.step M e = some s') :
    Inv M s' := by
  cases e with
  | spawn imageLen info => exact spawn_inv hM hi hc.userHalf h
  | clone pid => exact sysClone_inv hi h
  | execve pid imageLen info => exact sysExecve_inv hM hi hc.userHalf (hc.alone pid rfl) hc.rings h
  | exit pid => exact terminate_inv hM hi (hc.alone pid rfl) hc.rings h
  | fault pid => exact killUserProcess_inv hi h
  | reap pid => exact reap_inv hi hc.rings h
  | call pid c => exact memCall_inv hM hi hc h
  | _ => exact (minor_step hi hc.rings (by trivial) 0 h).inv hi

theorem booted_inv {usable : List Nat} (next : Nat) (hn : usable.Nodup) : Inv M (booted usable next) := by
  refine ⟨⟨⟨⟨hn, .nil, by simp [booted]⟩, ?_, by simp [booted], ?_, by simp [booted], by simp [booted],
    ?_⟩, by simp [booted], ?_, ?_⟩, by simp [booted], by simp [booted], by simp [booted], by simp [booted]⟩
  · exact fun f => Nat.zero_le _
  · intro f hf
    rcases hf with hf | hf <;> exact absurd rfl hf
  · intro f hf
    obtain ⟨i, _, hget, -⟩ := hf
    cases hget
  · exact fun i => iff_of_false (by simp [booted]) fun h => h rfl
  · exact fun i _ => rfl

theorem Inv.noUseAfterFree (hi : Inv M s) : s.NoUseAfterFree M where
  mapped pid p hp hz := by
    obtain ⟨t, ht⟩ := isSome_iff_exists.mp (hi.procs.space pid p hp hz)
    refine ⟨t, ht, fun f hf => ?_⟩
    have hunused := (hi.objects.ledger.free f hf).1
    have hspace := le_total (g := spaceUses M f) ht
    have huses : s.mem.uses M f = s.mem.spaces.total (spaceUses M f) := rfl
    rw [spaceUses_eq] at hspace
    refine ⟨?_, ?_, ?_⟩
    · intro he
      rw [if_pos he.symm] at hspace
      omega
    · intro hmem
      have hpos := count_pos_iff.mpr hmem
      omega
    · intro v e hleaf he
      have hpos : 1 ≤ s.mem.uses M e.1 := uses_of_leaf ht (show _ = some (e.1, e.2) from hleaf)
      rw [he] at hpos
      omega
  listed i inner hget _ f hf := by
    have hlisted : s.Listed f := ⟨i, inner, hget, hf⟩
    have howned := hi.objects.ledger.owned f hlisted
    exact ⟨hi.objects.ledger.listed_not_free hlisted, by omega⟩

/-- In every run of careful steps no frame is used after it was freed. -/
theorem no_use_after_free (hM : M.Lawful) (h : (machine M).Reach (Careful M) s) : s.NoUseAfterFree M := by
  refine Inv.noUseAfterFree
    (Machine.Reach.inv (I := Inv M) (fun s hs => ?_) (fun s e s' hi hc he => step_inv hM hi hc he) h)
  obtain ⟨_, next, hn, rfl⟩ := hs
  exact booted_inv next hn

/-! ## Runs of one or two processes -/

deriving instance Decidable for ElfInfo.InHalf

instance (e : SysEv) : Decidable e.OnUserHalf := by
  unfold SysEv.OnUserHalf
  split <;> infer_instance

deriving instance Decidable for KeepsRings

deriving instance Decidable for Alone

deriving instance Decidable for HeapUnshared

instance (s : Sys τ) (e : SysEv) : Decidable (Careful M s e) := decidable_of_iff' _ (careful_iff M s e)

/-- `n` frames, none in use. -/
def unused (n : Nat) : Sys Tree := booted ((List.range n).map fun k => 0x1000 * (k + 1)) 0

theorem unused_start (n : Nat) : (machine Tree.mapper).start (unused n) :=
  ⟨_, _, nodup_range.map fun a b (h : 0x1000 * (a + 1) = 0x1000 * (b + 1)) => by omega, rfl⟩

/-- One page of code at 0x400000. -/
def onePage : ElfInfo := ⟨0x400078, [⟨0x400000, 0, 120, 0x1000, 5⟩], 0x400040, 1, 56⟩

/-- The port is on fd 3, its ring's pages on 4 and 5. -/
def ringsMade : List SysEv := [SysEv.spawn 120 onePage, SysEv.ioCreate 1 0, SysEv.ioSetupRings 1 3]

/-- A shared mapping of the page behind fd 4. -/
def mapSq : SysEv := .call 1 (.mmap 0x500000 0x1000 3 0x11 4 0)

/-- A port made, its rings mapped, and everything closed, the port last: the mapped page stays. -/
theorem no_use_after_free_port_closed_last : ∃ s, (machine Tree.mapper).Reach (Careful Tree.mapper) s ∧
    s.NoUseAfterFree Tree.mapper ∧ s.objects.entries.length = 0 ∧
    (s.mem.leafAt Tree.mapper 0x1000 0x500000).map (·.1) = some 0x11000 := by
  obtain ⟨s, hreach, hs⟩ : ∃ s, (machine Tree.mapper).Reach (Careful Tree.mapper) s ∧ s.objects.entries.length = 0 ∧
      (s.mem.leafAt Tree.mapper 0x1000 0x500000).map (·.1) = some 0x11000 :=
    Machine.exists_reach (unused 30) (ringsMade ++ [mapSq, SysEv.close 1 4, SysEv.close 1 5, SysEv.close 1 3])
      (unused_start 30) (by decide)
  exact ⟨s, hreach, no_use_after_free Tree.mapper_lawful hreach, hs⟩

/-- In every run of careful steps a page table, and a frame that a space refers to and that is
    not counted as shared, has one reference in all spaces and objects. -/
theorem frames_private (hM : M.Lawful) (h : (machine M).Reach (Careful M) s) {q f : Nat} {u : τ}
    (hu : s.mem.spaces.get? q = some u) (hf : spaceUses M f q u ≠ 0)
    (hn : (f = q ∨ f ∈ M.tables u) ∨ s.mem.refcounts.get? f = none) : s.mem.uses M f = 1 ∧ s.owners f = 0 := by
  have hl : s.mem.Ledger M s.owners s.Listed := by
    refine (h.inv (I := Inv M) ?_ fun _ _ _ hi hc => step_inv hM hi hc).objects.ledger
    rintro _ ⟨_, next, hn, rfl⟩
    exact booted_inv next hn
  have hspace : spaceUses M f q u ≤ s.mem.uses M f := le_total hu
  -- tables have no count either, so one is all the ledger allows
  have hbound := hl.bound f
  rw [Mem.count, hn.elim (fun hf => (hl.exclusive q u hu f hf).1) id, getD_none] at hbound
  omega

/-- Two processes, the first with a port and its rings; the frame is the code of the second. -/
theorem frames_private_two_spaces : ∃ s, (machine Tree.mapper).Reach (Careful Tree.mapper) s ∧
      s.mem.spaces.entries.length = 2 ∧
    s.objects.entries.length = 3 ∧ (s.mem.leafAt Tree.mapper 0x11000 0x400000).map (·.1) = some 0x12000 ∧
    s.mem.uses Tree.mapper 0x12000 = 1 ∧ s.owners 0x12000 = 0 := by
  obtain ⟨s, h, hspaces, hobjects, hleaf, u, hu, hf, hn⟩ : ∃ s, (machine Tree.mapper).Reach (Careful Tree.mapper) s ∧
      s.mem.spaces.entries.length = 2 ∧ s.objects.entries.length = 3 ∧
      (s.mem.leafAt Tree.mapper 0x11000 0x400000).map (·.1) = some 0x12000 ∧
      ∃ u, s.mem.spaces.get? 0x11000 = some u ∧ spaceUses Tree.mapper 0x12000 0x11000 u ≠ 0 ∧
          s.mem.refcounts.get? 0x12000 = none :=
    Machine.exists_reach (unused 40) (.spawn 120 onePage :: ringsMade ++ [mapSq]) (unused_start 40) (by decide)
  exact ⟨s, h, hspaces, hobjects, hleaf, frames_private Tree.mapper_lawful h hu hf (.inr hn)⟩

/-- The shared-memory object `i` is open and lists `f`, which is free. -/
def listsFree (s : Sys τ) (i f : Nat) : Bool :=
  match s.objects.get? i with
  | some (.shmem inner) => decide (s.strongCount i ≠ 0 ∧ f ∈ inner.frames ∧ f ∈ s.mem.frames.freeList)
  | _ => false

theorem not_noUseAfterFree_of_listsFree (h : s.listsFree i f = true) : ¬ s.NoUseAfterFree M := by
  intro hn
  unfold listsFree at h
  split at h
  · rename_i inner hget
    obtain ⟨hopen, hmem, hfree⟩ := of_decide_eq_true h
    exact (hn.listed i inner hget hopen f hmem).1 hfree
  · cases h

/-- The port is closed first. The page behind fd 4 is free, and then mapped through the fd. -/
theorem ring_pages_freed_under_open_fds : ∃ s, (machine Tree.mapper).Reachable s ∧ ¬ s.NoUseAfterFree Tree.mapper ∧
    s.listsFree 1 0x11000 = true ∧ (s.mem.leafAt Tree.mapper 0x1000 0x500000).map (·.1) = some 0x11000 := by
  obtain ⟨s, hs, hfree, hleaf⟩ : ∃ s, (machine Tree.mapper).Reachable s ∧ s.listsFree 1 0x11000 = true ∧
      (s.mem.leafAt Tree.mapper 0x1000 0x500000).map (·.1) = some 0x11000 :=
    Machine.exists_reachable (unused 30) (ringsMade ++ [SysEv.close 1 3, mapSq]) (unused_start 30) (by decide)
  exact ⟨s, hs, not_noUseAfterFree_of_listsFree hfree, hfree, hleaf⟩

end Sys

end Ostoo.Memory
