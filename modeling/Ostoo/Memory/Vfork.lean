/-
  Ostoo.Memory.Vfork — what a process knows of its address space when it comes back from
  `clone`.

  `sys_clone` copies `vma_map` and `brk_current` into the child and lets it run in the parent's
  page tables, while the parent sleeps until the child exits or calls `execve`. It parks once:
  any other `unblock` of its thread ends the sleep as well. Over the whole system (`Sys`), a
  sleeping process makes no step (`Vfork.step`). So without such an `unblock` nobody leaves an
  address space of its own while another process runs in it (`Inv.alone`).

  The calls of the child change the page tables and the child's record, not the parent's. When
  the child has moved the break, the parent's next `brk` fails on pages that its record does not
  have (`the_childs_break_is_in_the_way`). Only when all calls made in a shared address space
  change nothing (`Harmless`) and no sleep is cut short (`Orderly`) does the record still say
  what is mapped (`record_describes_again`).
-/

import Ostoo.Memory.Lifetimes

namespace Ostoo.Memory

open Ostoo.Lib Ostoo.Fd Elf Ostoo.Memory.Tree List Option OrdMap Mem
open Function (update update_self update_of_ne)

/-- The system, with the parents that wait for a vfork child. -/
structure Vfork (τ : Type) where
  sys : Sys τ
  /-- Each child that has neither exited nor called `execve`, with the parent that sleeps for it. -/
  asleep : List (Nat × Nat)

namespace Vfork

variable {τ : Type}

def Asleep (s : Vfork τ) (pid : Nat) : Prop := ∃ x ∈ s.asleep, x.2 = pid

deriving instance Decidable for Asleep

/-- Who sleeps after the event `e`, which led to `t`: `clone` waits; `exit` and an `execve` that
    succeeds take the thread out of `vfork_parent_thread` and wake it. -/
def sleepers (s : Vfork τ) (e : SysEv) (t : Sys τ) : List (Nat × Nat) :=
  match e with
  | .clone pid => (s.sys.nextPid, pid) :: s.asleep
  | .exit pid => s.asleep.filter (·.1 ≠ pid)
  | .execve pid _ _ => if (t.procs.get? pid).any (·.pml4Shared) then s.asleep else s.asleep.filter (·.1 ≠ pid)
  | _ => s.asleep

inductive Ev
  | sys (e : SysEv)
  /-- `scheduler::unblock` of the thread of `pid`, from a slot that has kept its index: a waiter,
      a timer, an earlier child. -/
  | unblock (pid : Nat)

variable (M : Mapper τ)

def step (s : Vfork τ) : Ev → Option (Vfork τ)
  | .sys e => if ∃ pid ∈ e.actor, s.Asleep pid then none else (s.sys.step M e).map fun t => ⟨t, s.sleepers e t⟩
  -- `wait_while` does not look at the child again
  | .unblock pid => some { s with asleep := s.asleep.filter (·.2 ≠ pid) }

def machine : Machine (Vfork τ) Ev where
  start := fun s => (Sys.machine M).start s.sys ∧ s.asleep = []
  step := fun s e => s.step M e

end Vfork

/-- What the record of a process says about its page tables, apart from the pages of its image
    and its stack, of which there is no record. -/
structure Describes {τ : Type} (M : Mapper τ) (image : Nat → Prop) (p : Proc) (m : Mem τ) : Prop where
  mapped : ∀ v, PAGE_SIZE ∣ v → v < USER_END →
    ((m.leafAt M p.pml4 v).isSome ↔ image v ∨ (attrAt p.vmaMap v).isSome ∨ (p.brkBase ≤ v ∧ v < p.brkCurrent))
  flags : ∀ v e a, PAGE_SIZE ∣ v → v < USER_END → m.leafAt M p.pml4 v = some e → attrAt p.vmaMap v = some a →
    e.2 = protToPageFlags a.prot

/-- The arguments of a call that changes nothing. -/
def MemCall.Idle (p : Proc) : MemCall → Prop
  | .brk addr => addr = 0 ∨ addr < p.brkBase ∨ pagesOf addr * PAGE_SIZE = p.brkCurrent
  | .mmap addr length _ flags _ _ =>
    length = 0 ∨ (BitVec.ofNat 32 flags &&& MAP_SHARED ≠ 0 ↔ BitVec.ofNat 32 flags &&& MAP_PRIVATE ≠ 0) ∨
    (BitVec.ofNat 32 flags &&& MAP_SHARED ≠ 0 ∧ BitVec.ofNat 32 flags &&& MAP_ANONYMOUS ≠ 0) ∨
    (BitVec.ofNat 32 flags &&& MAP_FIXED ≠ 0 ∧ (addr = 0 ∨ ¬ Aligned addr))
  | .munmap addr length | .mprotect addr length _ => ¬ Aligned addr ∨ length = 0 ∨ ∀ v, ¬ CoveredPage p addr length v

namespace Sys

variable {τ : Type} {M : Mapper τ} {s s' s'' : Sys τ} {pid : Nat} {p : Process} {e : SysEv}

/-! ## Calls that change nothing -/

variable {q' : Proc} {m m' : Mem τ} {r : Int} {fd addr : Nat} {p' : Process} {fds : Nat → FdView} {c : MemCall}

theorem sysBrk_idle {q : Proc} (hc : (MemCall.brk addr).Idle q)
    (h : sysBrk (services M) q m addr = some (r, q', m')) : m' = m := by
  unfold sysBrk at h
  split at h
  · cases h
    rfl
  rename_i hargs
  obtain ⟨_, hnew, h⟩ := of_bind h
  obtain ⟨-, rfl⟩ := alignUp_pages hnew
  obtain ⟨hne, hge⟩ := not_or.mp hargs
  have hcur := (hc.resolve_left hne).resolve_left hge
  rw [if_neg (not_lt.mpr (le_of_eq hcur.symm)), if_pos hcur] at h
  cases h
  rfl

theorem sysMmap_idle {q : Proc} {length prot flags a5 r9 : Nat}
    (hc : (MemCall.mmap addr length prot flags a5 r9).Idle q)
    (h : sysMmap (services M) fds q m addr length prot flags a5 r9 = some (r, q', m')) : m' = m := by
  rcases sysMmap_inv h with ⟨-, -, -, hm⟩ | ⟨-, hpos, _, _, -, -, -, hplace⟩
  · exact hm
  rcases hc with hlen | hboth | hanon | ⟨hfixed, haddr⟩
  · exact absurd hpos (by omega)
  · unfold sysMmap at h
    obtain ⟨alignedLen, -, h⟩ := of_bind h
    simp only [decide_eq_decide.mpr hboth] at h
    split at h <;> cases h <;> rfl
  · unfold sysMmap at h
    obtain ⟨alignedLen, -, h⟩ := of_bind h
    simp only [decide_eq_true hanon.1, decide_eq_true hanon.2] at h
    split at h
    · cases h
      rfl
    · split at h <;> cases h <;> rfl
  · rcases mmapPlace_inv hplace with ⟨-, -, -, hm⟩ | ⟨-, hne, hal, -⟩ | ⟨hfree, -⟩
    · exact hm
    · exact absurd haddr (not_or.mpr ⟨hne, not_not.mpr hal⟩)
    · exact absurd hfixed (of_decide_eq_false hfree)

theorem idle_leafAt {q : Proc} (hM : M.Lawful) (hp : VmasOk q)
    (huser : (SysEv.call pid c).OnUserHalf) (hc : c.Idle q)
    (h : Memory.call (services M) q m (c.ev fds) = some (r, q', m')) : m'.leafAt M q.pml4 = m.leafAt M q.pml4 := by
  cases c with
  | brk addr => rw [sysBrk_idle hc h]
  | mmap addr length prot flags a5 r9 => rw [sysMmap_idle hc h]
  | munmap addr length =>
    rcases sysMunmap_inv h with ⟨-, -, hm⟩ | ⟨-, hal, hpos, -⟩
    · rw [hm]
    rcases sysMunmap_pages hM hp huser h with ⟨-, -, hm⟩ | ⟨-, -, -, -, -, -, hleaf⟩
    · rw [hm]
    · have hnone := (hc.resolve_left (not_not.mpr hal)).resolve_left (ne_of_gt hpos)
      exact funext fun w => hleaf w (hnone w)
  | mprotect addr length prot =>
    rcases sysMprotect_inv h with ⟨-, -, hm⟩ | ⟨-, hal, hpos, -⟩
    · rw [hm]
    rcases sysMprotect_pages hM hp huser h with ⟨-, -, hm⟩ | ⟨-, -, -, -, hleaf⟩
    · rw [hm]
    · have hnone := (hc.resolve_left (not_not.mpr hal)).resolve_left (ne_of_gt hpos)
      exact funext fun w => hleaf w (hnone w)

/-! ## What a step leaves alone -/

/-- Where a live process runs, and whether the address space is another's. -/
def home (s : Sys τ) (pid : Nat) : Option (Nat × Bool) := (s.caller pid).map fun p => (p.proc.pml4, p.pml4Shared)

theorem home_congr (h : s'.procs = s.procs) : s'.home = s.home := by
  unfold home caller
  rw [h]

theorem home_insert (h : s'.procs = s.procs.insert pid p') :
    s'.home = update s.home pid (if p'.zombie then none else some (p'.proc.pml4, p'.pml4Shared)) := by
  funext q
  rw [home, caller, h, get?_insert, Function.update_apply]
  split
  · cases hz : p'.zombie <;> simp [hz]
  · rfl

theorem home_of_caller (hp : s.caller pid = some p) : s.home pid = some (p.proc.pml4, p.pml4Shared) := by
  rw [home, hp]
  rfl

theorem FdStep.home (h : FdStep M s pid s') : s'.home = s.home := by
  rcases h.procs with hprocs | ⟨_, _, hp, hprocs⟩
  · exact home_congr hprocs
  · rw [home_insert hprocs, (caller_eq_some hp).2, ← home_of_caller hp]
    exact Function.update_eq_self pid s.home

variable {P x imageLen : Nat} {q : Process} {info : ElfInfo}

theorem FdStep.others (h : FdStep M s pid s') (hne : P ≠ pid) : s'.procs.get? P = s.procs.get? P := by
  rcases h.procs with hprocs | ⟨_, _, -, hprocs⟩
  · rw [hprocs]
  · rw [hprocs, get?_insert, if_neg hne]

theorem ne_actor (hact : e.actor ≠ some P) : P ≠ e.actor.getD (P + 1) := by
  cases hactor : e.actor with
  | none => exact Nat.ne_of_lt (Nat.lt_succ_self P)
  | some pid => exact fun he => hact (hactor.trans (congrArg some he.symm))

/-! ## Processes and their address spaces -/

theorem leafAt_congr_at (h : m'.spaces.get? x = m.spaces.get? x) : m'.leafAt M x = m.leafAt M x := by
  funext v
  unfold leafAt
  rw [h]

theorem caller_congr (h : s'.procs.get? P = s.procs.get? P) : s'.caller P = s.caller P := by
  unfold caller
  rw [h]

theorem caller_insert (h : s'.procs = s.procs.insert pid p') (hne : P ≠ pid) : s'.caller P = s.caller P := by
  refine caller_congr ?_
  rw [h, get?_insert, if_neg hne]

theorem space_of_caller (hi : Inv M s) (hq : s.caller P = some q) : (s.mem.spaces.get? q.proc.pml4).isSome :=
  hi.procs.space P q (caller_eq_some hq).1 (caller_eq_some hq).2

theorem pid_lt_of_caller (hi : Inv M s) (hq : s.caller P = some q) : P < s.nextPid :=
  hi.procs.pid_lt (caller_eq_some hq).1

theorem spawn_cases (hM : M.Lawful) (hi : Inv M s) (hfit : info.InHalf)
    (h : s.spawn M imageLen info = some s') : s' = s ∨ ∃ pml4 p', s.mem.spaces.get? pml4 = none ∧
      s'.procs = s.procs.insert s.nextPid p' ∧
      p'.zombie = false ∧ p'.pml4Shared = false ∧ p'.proc.pml4 = pml4 ∧ Mem.OnlyAt pml4 s.mem s'.mem := by
  rcases load_cases hM hi hfit h with rfl | ⟨pml4, _, _, hload, h⟩
  · exact .inl rfl
  · cases h
    exact .inr ⟨pml4, _, hload.new, rfl, rfl, rfl, rfl, hload.only⟩

theorem leave_cases {mem : Mem τ} {l : List Nat}
    (h : ((Sys.setProc { s with mem := mem } pid p').dropRefs l).cleanup M p = some s') :
    s'.procs = s.procs.insert pid p' ∧
      ∀ x, (p.pml4Shared = false → x ≠ p.proc.pml4) → s'.mem.spaces.get? x = mem.spaces.get? x := by
  obtain ⟨hprocs, -, -, -, hspaces⟩ := dropRefs_frame l (Sys.setProc { s with mem := mem } pid p')
  unfold Sys.cleanup at h
  split at h
  · cases h
    exact ⟨hprocs, fun x _ => by rw [hspaces]; rfl⟩
  rename_i hown
  obtain ⟨_, hclean, rfl⟩ := of_map h
  refine ⟨hprocs, fun x hx => ?_⟩
  have hne := hx (eq_false_of_ne_true (not_or.mp hown).1)
  obtain ⟨_, -, hclean⟩ := of_bind hclean
  cases hclean
  show (foldl freeMet _ _).spaces.get? x = _
  rw [(freeAll_frame _ _).1, get?_remove, if_neg hne, hspaces]
  rfl

theorem sysExecve_cases (hM : M.Lawful) (hi : Inv M s) (hfit : info.InHalf)
    (h : s.sysExecve M pid imageLen info = some s') : ∃ p, s.caller pid = some p ∧ (s' = s ∨
      ∃ pml4 p', s.mem.spaces.get? pml4 = none ∧ s'.procs = s.procs.insert pid p' ∧ p'.zombie = false ∧
        p'.pml4Shared = false ∧ p'.proc.pml4 = pml4 ∧ ∀ x, x ≠ pml4 → (p.pml4Shared = false → x ≠ p.proc.pml4) →
          s'.mem.spaces.get? x = s.mem.spaces.get? x) := by
  obtain ⟨p, hp, h⟩ := of_bind h
  refine ⟨p, hp, ?_⟩
  rcases load_cases hM hi hfit h with rfl | ⟨pml4, _, _, hload, h⟩
  · exact .inl rfl
  · obtain ⟨hprocs, hspaces⟩ := leave_cases h
    exact .inr ⟨pml4, _, hload.new, hprocs, (caller_eq_some hp).2, rfl, rfl, fun x hx hold => (hspaces x hold).trans
      (hload.only.others hx)⟩

theorem terminate_cases (h : s.terminate M pid = some s') : ∃ p p', s.caller pid = some p ∧ p'.zombie = true ∧
    s'.procs = s.procs.insert pid p' ∧
    ∀ x, (p.pml4Shared = false → x ≠ p.proc.pml4) → s'.mem.spaces.get? x = s.mem.spaces.get? x := by
  obtain ⟨p, hp, h⟩ := of_bind h
  obtain ⟨hprocs, hspaces⟩ := leave_cases h
  exact ⟨p, _, hp, rfl, hprocs, hspaces⟩

theorem sysClone_cases (h : s.sysClone pid = some s') : ∃ p, s.caller pid = some p ∧ s'.mem = s.mem ∧
    s'.procs = s.procs.insert s.nextPid { p with pml4Shared := true } := by
  obtain ⟨p, hp, h⟩ := of_bind h
  cases h
  exact ⟨p, hp, rfl, rfl⟩

theorem killUserProcess_cases (h : s.killUserProcess pid = some s') : ∃ p, s.caller pid = some p ∧ s'.mem = s.mem ∧
    s'.procs = s.procs.insert pid { p with zombie := true } := by
  obtain ⟨p, hp, h⟩ := of_bind h
  cases h
  exact ⟨p, hp, rfl, rfl⟩

theorem reap_cases (h : s.reap pid = some s') : s'.mem.spaces = s.mem.spaces ∧ ∀ q, s'.caller q = s.caller q := by
  obtain ⟨p, hp, h⟩ := of_bind h
  obtain ⟨hz, ⟨⟩⟩ := of_guard h
  obtain ⟨hprocs, -, -, -, hspaces⟩ := dropRefs_frame p.refs { s with procs := s.procs.remove pid }
  refine ⟨hspaces, fun q => ?_⟩
  unfold caller
  rw [hprocs, get?_remove]
  split
  · rename_i he
    subst he
    rw [hp]
    simp [Option.filter, hz]
  · rfl

theorem memCall_cases (h : s.memCall M pid c = some s') : ∃ p r proc, s.caller pid = some p ∧
    Memory.call (services M) p.proc s.mem (c.ev (s.fdView p)) = some (r, proc, s'.mem) ∧ proc.pml4 = p.proc.pml4 ∧
    Mem.OnlyAt p.proc.pml4 s.mem s'.mem ∧ s'.procs = s.procs.insert pid { p with proc := proc } := by
  obtain ⟨p, hp, h⟩ := of_bind h
  obtain ⟨⟨r, proc, mem⟩, hcall, h⟩ := of_bind h
  cases h
  obtain ⟨hkept, hpml4⟩ := (services_preservesAt (M := M) s.mem p.proc.pml4).call (.of_eq rfl) hcall
  exact ⟨p, r, proc, hp, hcall, hpml4, hkept, rfl⟩

variable (hM : M.Lawful) (hi : Inv M s) (hc : Careful M s e) (h : s.step M e = some s')
include hM hi hc h

/-- A process that does not act keeps its record, and its address space as it is, but for calls
    of others that run in it. -/
theorem step_others (hq : s.caller P = some q)
    (hact : e.actor ≠ some P)
    (hidle : ∀ pid c p, e = .call pid c → s.caller pid = some p → p.proc.pml4 = q.proc.pml4 → c.Idle p.proc) :
    s'.caller P = some q ∧ s'.mem.leafAt M q.proc.pml4 = s.mem.leafAt M q.proc.pml4 := by
  have hspace := space_of_caller hi hq
  have hlt := pid_lt_of_caller hi hq
  have hnew : ∀ pml4, s.mem.spaces.get? pml4 = none → q.proc.pml4 ≠ pml4 := by
    intro pml4 hnone he
    rw [he, hnone] at hspace
    cases hspace
  have hleft : ∀ pid p, e.leaver = some pid → pid ≠ P → s.caller pid = some p → p.pml4Shared = false →
      q.proc.pml4 ≠ p.proc.pml4 := by
    intro pid p hl hne hp hown
    exact (hc.alone pid hl).ne (caller_eq_some hp).1 hown hne.symm (caller_eq_some hq).1 (caller_eq_some hq).2
  cases e with
  | spawn n info =>
    rcases spawn_cases hM hi hc.userHalf h with rfl | ⟨pml4, p', hnone, hprocs, -, -, -, hkept⟩
    · exact ⟨hq, rfl⟩
    · exact ⟨(caller_insert hprocs (ne_of_lt hlt)).trans hq, leafAt_congr_at (hkept.others (hnew pml4 hnone))⟩
  | clone pid =>
    obtain ⟨p, -, hmem, hprocs⟩ := sysClone_cases h
    exact ⟨(caller_insert hprocs (ne_of_lt hlt)).trans hq, by rw [hmem]⟩
  | execve pid n info =>
    have hne : pid ≠ P := fun he => hact (congrArg some he)
    obtain ⟨p, hp, rfl | ⟨pml4, p', hnone, hprocs, -, -, -, hkept⟩⟩ := sysExecve_cases hM hi hc.userHalf h
    · exact ⟨hq, rfl⟩
    · exact ⟨(caller_insert hprocs hne.symm).trans hq,
        leafAt_congr_at (hkept _ (hnew pml4 hnone) (hleft pid p rfl hne hp))⟩
  | exit pid =>
    have hne : pid ≠ P := fun he => hact (congrArg some he)
    obtain ⟨p, _, hp, -, hprocs, hkept⟩ := terminate_cases h
    exact ⟨(caller_insert hprocs hne.symm).trans hq, leafAt_congr_at (hkept _ (hleft pid p rfl hne hp))⟩
  | fault pid =>
    have hne : pid ≠ P := fun he => hact (congrArg some he)
    obtain ⟨p, -, hmem, hprocs⟩ := killUserProcess_cases h
    exact ⟨(caller_insert hprocs hne.symm).trans hq, by rw [hmem]⟩
  | reap pid =>
    obtain ⟨hspaces, hcaller⟩ := reap_cases h
    exact ⟨(hcaller P).trans hq, leafAt_congr_at (by rw [hspaces])⟩
  | call pid c =>
    have hne : pid ≠ P := fun he => hact (congrArg some he)
    obtain ⟨p, _, proc, hp, hcall, -, hkept, hprocs⟩ := memCall_cases h
    refine ⟨(caller_insert hprocs hne.symm).trans hq, ?_⟩
    by_cases he : p.proc.pml4 = q.proc.pml4
    · rw [← he]
      exact idle_leafAt hM (hi.procs.vmas pid p (caller_eq_some hp).1) hc.userHalf (hidle pid c p rfl hp he) hcall
    · exact leafAt_congr_at (hkept.others (Ne.symm he))
  | _ =>
    have hstep := minor_step hi hc.rings (by trivial) (P + 1) h
    exact ⟨(caller_congr (hstep.others (ne_actor hact))).trans hq, leafAt_congr_at (by rw [hstep.spaces])⟩

theorem step_home :
    s'.home = s.home ∨
    (∃ pid x b, e = .clone pid ∧ s.home pid = some (x, b) ∧ s'.home = update s.home s.nextPid (some (x, true))) ∨
    (∃ pid x, (pid = s.nextPid ∨ ∃ n info, e = .execve pid n info) ∧ s.mem.spaces.get? x = none ∧
      s'.home = update s.home pid (some (x, false))) ∨
    ∃ pid, (e = .exit pid ∨ e = .fault pid) ∧ s'.home = update s.home pid none := by
  cases e with
  | spawn n info =>
    rcases spawn_cases hM hi hc.userHalf h with rfl | ⟨pml4, p', hnone, hprocs, hz, hown, rfl, -⟩
    · exact .inl rfl
    · refine .inr (.inr (.inl ⟨s.nextPid, _, .inl rfl, hnone, ?_⟩))
      rw [home_insert hprocs, hz, hown]
      rfl
  | clone pid =>
    obtain ⟨p, hp, -, hprocs⟩ := sysClone_cases h
    refine .inr (.inl ⟨pid, _, _, rfl, home_of_caller hp, ?_⟩)
    rw [home_insert hprocs, (caller_eq_some hp).2]
    rfl
  | execve pid n info =>
    obtain ⟨p, hp, rfl | ⟨-, p', hnone, hprocs, hz, hown, rfl, -⟩⟩ := sysExecve_cases hM hi hc.userHalf h
    · exact .inl rfl
    · refine .inr (.inr (.inl ⟨pid, _, .inr ⟨n, info, rfl⟩, hnone, ?_⟩))
      rw [home_insert hprocs, hz, hown]
      rfl
  | exit pid =>
    obtain ⟨p, _, -, hz, hprocs, -⟩ := terminate_cases h
    refine .inr (.inr (.inr ⟨pid, .inl rfl, ?_⟩))
    rw [home_insert hprocs, hz]
    rfl
  | fault pid =>
    obtain ⟨p, -, -, hprocs⟩ := killUserProcess_cases h
    refine .inr (.inr (.inr ⟨pid, .inr rfl, ?_⟩))
    rw [home_insert hprocs]
    rfl
  | reap pid =>
    obtain ⟨-, hcaller⟩ := reap_cases h
    exact .inl (funext fun q => congrArg (Option.map _) (hcaller q))
  | call pid c =>
    obtain ⟨_, r, proc, hp, -, hpml4, -, hprocs⟩ := memCall_cases h
    refine .inl ?_
    rw [home_insert hprocs, (caller_eq_some hp).2]
    simp only [hpml4]
    exact (congrArg _ (home_of_caller hp).symm).trans (Function.update_eq_self pid s.home)
  | _ => exact .inl (minor_step hi hc.rings (by trivial) 0 h).home

end Sys

/-! ## Who sleeps -/

namespace Vfork

variable {τ : Type} (M : Mapper τ)

/-- Who runs in another's address space was cloned by a process that runs there too and sleeps;
    each address space belongs to one process. -/
structure Inv (s : Vfork τ) : Prop where
  sys : Sys.Inv M s.sys
  chain : ∀ q x, s.sys.home q = some (x, true) → ∃ P b, (q, P) ∈ s.asleep ∧ s.sys.home P = some (x, b) ∧ P < q
  owner : ∀ q q' x, s.sys.home q = some (x, false) → s.sys.home q' = some (x, false) → q = q'

/-- The steps considered: those of `Careful`, and calls in a shared address space that change nothing. -/
structure Harmless (s : Vfork τ) (e : SysEv) : Prop where
  userHalf : e.OnUserHalf
  heap : ∀ x ∈ e.newBreak, s.sys.HeapUnshared M x.1 x.2
  rings : s.sys.KeepsRings (s.sys.closes e)
  idle : ∀ pid c p, e = .call pid c → s.sys.caller pid = some p → p.pml4Shared = true → c.Idle p.proc

/-- And nobody but its child ends the sleep of a parent. -/
def Orderly (s : Vfork τ) : Ev → Prop
  | .sys e => Harmless M s e
  | .unblock pid => ¬ s.Asleep pid

variable {M} {s s' : Vfork τ} {e : SysEv} {pid P x : Nat}

theorem step_cases (h : s.step M (.sys e) = some s') : (∀ pid, e.actor = some pid → ¬ s.Asleep pid) ∧
    s.sys.step M e = some s'.sys ∧ s'.asleep = s.sleepers e s'.sys := by
  obtain ⟨hawake, h⟩ := of_unless h
  obtain ⟨_, ht, rfl⟩ := of_map h
  exact ⟨fun pid hpid hs => hawake ⟨pid, hpid, hs⟩, ht, rfl⟩

/-- The owner of an address space is asleep while others run in it. -/
theorem Inv.owner_alone (hi : Inv M s) (hown : s.sys.home pid = some (x, false)) (hawake : ¬ s.Asleep pid) :
    ∀ q b, s.sys.home q = some (x, b) → q = pid := by
  intro q
  induction q using Nat.strong_induction_on with
  | _ q ih =>
    intro b hq
    cases b with
    | false => exact hi.owner q pid x hq hown
    | true =>
      obtain ⟨P, b, hm, hP, hlt⟩ := hi.chain q x hq
      have he := ih P hlt b hP
      exact absurd ⟨(q, P), hm, he⟩ hawake

theorem Inv.alone {p : Process} (hi : Inv M s) (hp : s.sys.caller pid = some p) (hawake : ¬ s.Asleep pid) :
    s.sys.Alone pid := by
  intro p' hp' hown y hy hz he
  obtain rfl : p = p' := some.inj ((Sys.caller_eq_some hp).1.symm.trans hp')
  have hq : s.sys.home y.1 = some (y.2.proc.pml4, y.2.pml4Shared) := by
    refine Sys.home_of_caller ?_
    rw [Sys.caller, get?_eq_some.mpr hy]
    simp [hz]
  refine hi.owner_alone ?_ hawake y.1 _ (he ▸ hq)
  rw [← hown]
  exact Sys.home_of_caller hp

theorem Inv.careful (hi : Inv M s) (hh : Harmless M s e) (h : s.step M (.sys e) = some s') : Sys.Careful M s.sys e := by
  obtain ⟨hawake, hs, -⟩ := step_cases h
  refine ⟨hh.userHalf, ?_, hh.heap, hh.rings⟩
  intro pid hl
  cases e with
  | execve q n info | exit q =>
    cases hl
    obtain ⟨_, hp, -⟩ := of_bind hs
    exact hi.alone hp (hawake _ rfl)
  | _ => cases hl

/-- A child stays with its sleeping parent until it has left the address space. -/
theorem sleepers_keep {t : Sys τ} {y : Nat × Nat} (hs : s.sys.step M e = some t) (hy : y ∈ s.asleep)
    (hstay : t.home y.1 = some (x, true)) : y ∈ s.sleepers e t := by
  unfold sleepers
  split
  · exact mem_cons_of_mem _ hy
  · refine mem_filter.mpr ⟨hy, decide_eq_true ?_⟩
    intro he
    obtain ⟨p, _, -, hz, hprocs, -⟩ := Sys.terminate_cases hs
    rw [Sys.home_insert hprocs, he, update_self, hz] at hstay
    cases hstay
  · split
    · exact hy
    rename_i hshared
    refine mem_filter.mpr ⟨hy, decide_eq_true ?_⟩
    intro he
    rw [he] at hstay
    obtain ⟨_, hp, hpx⟩ := of_map hstay
    rw [(Sys.caller_eq_some hp).1] at hshared
    exact hshared (congrArg Prod.snd hpx)
  · exact hy

theorem Inv.space_of_home {b : Bool} (hi : Inv M s) (h : s.sys.home pid = some (x, b)) :
    (s.sys.mem.spaces.get? x).isSome := by
  obtain ⟨_, hp, he⟩ := of_map h
  cases he
  exact Sys.space_of_caller hi.sys hp

theorem Inv.lt_of_home {y : Nat × Bool} (hi : Inv M s) (h : s.sys.home pid = some y) : pid < s.sys.nextPid := by
  obtain ⟨_, hp, -⟩ := of_map h
  exact Sys.pid_lt_of_caller hi.sys hp

variable (hM : M.Lawful) (hi : Inv M s) (hh : Harmless M s e) (h : s.step M (.sys e) = some s') {q : Process}
include hM hi hh h

/-- Only the process that acts moves. -/
theorem Inv.chain_step {q : Nat}
    (hq : s'.sys.home q = some (x, true)) : ∃ P b, (q, P) ∈ s'.asleep ∧ s'.sys.home P = some (x, b) ∧ P < q := by
  obtain ⟨hawake, hs, hasleep⟩ := step_cases h
  rw [hasleep]
  -- The parent of a child that was there before still lives where it did: it does not act.
  have hold : ∀ pid y, s'.sys.home = update s.sys.home pid y → (pid = s.sys.nextPid ∨ e.actor = some pid) →
      q ≠ pid → ∃ P b, (q, P) ∈ s.sleepers e s'.sys ∧ s'.sys.home P = some (x, b) ∧ P < q := by
    intro pid y hhome hwho hne
    have hq' := hq
    rw [hhome, update_of_ne hne] at hq'
    obtain ⟨P, b, hm, hP, hlt⟩ := hi.chain q x hq'
    refine ⟨P, b, sleepers_keep hs hm hq, ?_, hlt⟩
    rw [hhome, update_of_ne]
    · exact hP
    · intro he
      rcases hwho with rfl | hwho
      · exact ne_of_lt (hi.lt_of_home hP) he
      · exact hawake pid hwho ⟨(q, P), hm, he⟩
  rcases Sys.step_home hM hi.sys (hi.careful hh h) hs with hhome | ⟨pid, _, b, rfl, hpid, hhome⟩ |
    ⟨pid, _, hwho, -, hhome⟩ | ⟨pid, hwho, hhome⟩
  · have hq' := hq
    rw [hhome] at hq'
    obtain ⟨P, b, hm, hP, hlt⟩ := hi.chain q x hq'
    exact ⟨P, b, sleepers_keep hs hm hq, hhome ▸ hP, hlt⟩
  · by_cases hne : q = s.sys.nextPid
    · have hlt := hi.lt_of_home hpid
      rw [hhome, hne, update_self] at hq
      cases hq
      refine ⟨pid, b, ?_, ?_, hne ▸ hlt⟩
      · rw [hne]
        exact mem_cons_self
      · rw [hhome, update_of_ne (ne_of_lt hlt)]
        exact hpid
    · exact hold _ _ hhome (.inl rfl) hne
  · refine hold pid _ hhome ?_ ?_
    · rcases hwho with hwho | ⟨-, -, rfl⟩
      · exact .inl hwho
      · exact .inr rfl
    · rintro rfl
      rw [hhome, update_self] at hq
      cases hq
  · refine hold pid _ hhome ?_ ?_
    · rcases hwho with rfl | rfl <;> exact .inr rfl
    · rintro rfl
      rw [hhome, update_self] at hq
      cases hq

/-- A new address space is nobody else's. -/
theorem Inv.owner_step {q q' : Nat} (hq : s'.sys.home q = some (x, false)) (hq' : s'.sys.home q' = some (x, false)) :
    q = q' := by
  obtain ⟨-, hs, -⟩ := step_cases h
  rcases Sys.step_home hM hi.sys (hi.careful hh h) hs with hhome | ⟨-, y, -, rfl, -, hhome⟩ | ⟨_, y, -, hnone, hhome⟩ |
    ⟨pid, -, hhome⟩
  · rw [hhome] at hq hq'
    exact hi.owner q q' x hq hq'
  · obtain ⟨-, ⟨⟩⟩ | ⟨-, hq⟩ := update_eq_some (hhome ▸ hq)
    obtain ⟨-, ⟨⟩⟩ | ⟨-, hq'⟩ := update_eq_some (hhome ▸ hq')
    exact hi.owner q q' x hq hq'
  · have hfresh : ∀ r, s.sys.home r ≠ some (y, false) := by
      intro r hr
      have := hi.space_of_home hr
      rw [hnone] at this
      cases this
    obtain ⟨he, ⟨⟩⟩ | ⟨-, hq⟩ := update_eq_some (hhome ▸ hq) <;> obtain ⟨he', ⟨⟩⟩ | ⟨-, hq'⟩ :=
      update_eq_some (hhome ▸ hq')
    · exact he.trans he'.symm
    · exact absurd hq' (hfresh q')
    · exact absurd hq (hfresh q)
    · exact hi.owner q q' x hq hq'
  · obtain ⟨-, ⟨⟩⟩ | ⟨-, hq⟩ := update_eq_some (hhome ▸ hq)
    obtain ⟨-, ⟨⟩⟩ | ⟨-, hq'⟩ := update_eq_some (hhome ▸ hq')
    exact hi.owner q q' x hq hq'

theorem Inv.sys_step : Inv M s' :=
  ⟨Sys.step_inv hM hi.sys (hi.careful hh h) (step_cases h).2.1, fun _ _ => hi.chain_step hM hh h, fun _ _ _ =>
    hi.owner_step hM hh h⟩

omit hM hi hh h

/-- Nobody sleeps whom the `unblock` could wake. -/
theorem unblock_step (hawake : ¬ s.Asleep pid) (h : s.step M (.unblock pid) = some s') : s' = s := by
  cases h
  have hkept : s.asleep.filter (·.2 ≠ pid) = s.asleep :=
    filter_eq_self.mpr fun x hx => decide_eq_true fun he => hawake ⟨x, hx, he⟩
  rw [hkept]

theorem step_inv {e : Ev} (hM : M.Lawful) (hi : Inv M s) (hg : Orderly M s e) (h : s.step M e = some s') :
    Inv M s' := by
  cases e with
  | sys e => exact hi.sys_step hM hg h
  | unblock pid => rwa [unblock_step hg h]

theorem start_inv (h : (machine M).start s) : Inv M s := by
  obtain ⟨⟨_, next, hn, hs⟩, -⟩ := h
  have hnobody : ∀ q, s.sys.home q = none := by
    intro q
    rw [hs]
    rfl
  refine ⟨hs ▸ Sys.booted_inv next hn, ?_, ?_⟩
  · intro q x hq
    rw [hnobody] at hq
    cases hq
  · intro q q' x hq
    rw [hnobody] at hq
    cases hq

theorem reach_inv (hM : M.Lawful) (h : (machine M).Reach (Orderly M) s) : Inv M s :=
  Machine.Reach.inv (I := Inv M) (fun _ => start_inv) (fun _ _ _ hi hh hs => step_inv hM hi hh hs) h

/-! ## The record of the parent -/

theorem asleep_step {e : Ev} (hM : M.Lawful) (hi : Inv M s) (hg : Orderly M s e) (h : s.step M e = some s')
    (hq : s.sys.caller P = some q) (hasleep : s.Asleep P) :
    s'.sys.caller P = some q ∧ s'.sys.mem.leafAt M q.proc.pml4 = s.sys.mem.leafAt M q.proc.pml4 := by
  cases e with
  | unblock pid =>
    rw [unblock_step hg h]
    exact ⟨hq, rfl⟩
  | sys e => ?_
  have hh : Harmless M s e := hg
  obtain ⟨hawake, hs, -⟩ := step_cases h
  refine Sys.step_others hM hi.sys (hi.careful hh h) hs hq (fun hact => hawake P hact hasleep) ?_
  intro pid c p he hp hsame
  refine hh.idle pid c p he hp ?_
  -- An owner that is awake would be alone.
  by_contra hown
  subst he
  have hawake' := hawake pid rfl
  have hhome := Sys.home_of_caller hp
  rw [eq_false_of_ne_true hown] at hhome
  have hqhome := Sys.home_of_caller hq
  rw [← hsame] at hqhome
  obtain rfl := hi.owner_alone hhome hawake' P _ hqhome
  exact hawake' hasleep

theorem Inv.clone_harmless (hi : Inv M s) (pid : Nat) : Harmless M s (.clone pid) where
  userHalf := trivial
  heap _ hx := by cases hx
  rings := hi.sys.objects.keepsRings_nil
  idle _ _ _ he := by cases he

theorem clone_caller (hi : Inv M s) (h : s.step M (.sys (.clone pid)) = some s') (hq : s.sys.caller P = some q) :
    s'.sys.caller P = some q ∧ s'.sys.mem = s.sys.mem := by
  obtain ⟨_, -, hmem, hprocs⟩ := Sys.sysClone_cases (step_cases h).2.1
  exact ⟨(Sys.caller_insert hprocs (ne_of_lt (Sys.pid_lt_of_caller hi.sys hq))).trans hq, hmem⟩

/-- A process calls `clone` when its record describes its page tables. In the runs considered it
    has the same record, and the record describes the page tables, from then on to the step that
    wakes it. -/
theorem record_describes_again (hM : M.Lawful) {s₀ s₁ : Vfork τ} {p : Process} {image : Nat → Prop}
    (h₀ : (machine M).Reach (Orderly M) s₀) (hp : s₀.sys.caller P = some p) (hd : Describes M image p.proc s₀.sys.mem)
    (hclone : (machine M).step s₀ (.sys (.clone P)) = some s₁)
    (h : ((machine M).startedAt s₁).Reach (fun s e => Orderly M s e ∧ s.Asleep P) s) :
    s.sys.caller P = some p ∧ Describes M image p.proc s.sys.mem := by
  have hi₀ := reach_inv hM h₀
  obtain ⟨hp₁, hmem⟩ := clone_caller hi₀ hclone hp
  let I : Vfork τ → Prop := fun s => Inv M s ∧ s.sys.caller P = some p ∧
    s.sys.mem.leafAt M p.proc.pml4 = s₀.sys.mem.leafAt M p.proc.pml4
  have hI₁ : I s₁ := ⟨hi₀.sys_step hM (hi₀.clone_harmless P) hclone, hp₁, by rw [hmem]⟩
  have hI : I s := by
    refine Machine.Reach.inv_from hI₁ ?_ h
    intro s e s' hs hg hstep
    obtain ⟨hi, hcaller, hleaf⟩ := hs
    obtain ⟨hcaller', hleaf'⟩ := asleep_step hM hi hg.1 hstep hcaller hg.2
    exact ⟨step_inv hM hi hg.1 hstep, hcaller', hleaf'.trans hleaf⟩
  refine ⟨hI.2.1, ?_, ?_⟩ <;> rw [hI.2.2]
  · exact hd.mapped
  · exact hd.flags

/-! ## Runs of one process and its child -/

/-- A process without areas: the pages of a list and of its heap are mapped, and no others. -/
def DescribedBy (M : Mapper τ) (pages : List Nat) (p : Proc) (t : τ) : Prop :=
  p.vmaMap.entries.length = 0 ∧ PAGE_SIZE ∣ p.brkBase ∧
    (∀ x ∈ (M.leaves t).entries, x.1 ∈ pages ∨ (p.brkBase ≤ x.1 ∧ x.1 < p.brkCurrent)) ∧
    (∀ v ∈ pages, ((M.leaves t).get? v).isSome) ∧
    ∀ i < pagesOf (p.brkCurrent - p.brkBase), ((M.leaves t).get? (p.brkBase + i * PAGE_SIZE)).isSome

instance (pages : List Nat) (p : Proc) (t : τ) : Decidable (DescribedBy M pages p t) :=
  inferInstanceAs (Decidable (_ ∧ _ ∧ (∀ x ∈ _, _) ∧ (∀ v ∈ _, _) ∧ ∀ i < _, _))

theorem attrAt_eq_none {m : VmaMap} (h : m.entries.length = 0) (v : Nat) : attrAt m v = none := by
  obtain ⟨_, _⟩ := m
  cases length_eq_zero_iff.mp h
  rfl

theorem DescribedBy.describes {p : Proc} {m : Mem τ} {t : τ} {pages : List Nat} (h : DescribedBy M pages p t)
    (ht : m.spaces.get? p.pml4 = some t) : Describes M (· ∈ pages) p m := by
  obtain ⟨hv, hbase, hkeys, hpages, hheap⟩ := h
  refine ⟨?_, ?_⟩
  · intro v hal _
    rw [leafAt_eq ht, attrAt_eq_none hv]
    constructor
    · intro hleaf
      obtain ⟨e, he⟩ := isSome_iff_exists.mp hleaf
      exact (hkeys (v, e) (get?_eq_some.mp he)).imp_right .inr
    · rintro (hm | hcov | ⟨hlo, _⟩)
      · exact hpages v hm
      · cases hcov
      · have hspan : v < p.brkBase + (p.brkCurrent - p.brkBase) := by omega
        obtain ⟨i, hlt, rfl⟩ := page_of_range hbase hal hlo hspan
        exact hheap i hlt
  · intro v e a _ _ _ ha
    rw [attrAt_eq_none hv] at ha
    cases ha

/-- Eighty frames, none in use, and nobody sleeps. -/
def eighty : Vfork Tree := ⟨Sys.unused 80, []⟩

theorem eighty_start : (machine mapper).start eighty := ⟨Sys.unused_start 80, rfl⟩

/-- The pages of `onePage` and of the stack. -/
def imagePages : List Nat := 0x400000 :: (List.range ELF_STACK_PAGES).map fun i => ELF_STACK_VIRT + i * PAGE_SIZE

/-- The record of process 1 has this break and describes its page tables. -/
def described (s : Vfork Tree) (brk : Nat) : Bool :=
  ∃ p, s.sys.caller 1 = some p ∧ ∃ t, s.sys.mem.spaces.get? p.proc.pml4 = some t ∧
    p.proc.brkCurrent = brk ∧ DescribedBy Tree.mapper imagePages p.proc t

theorem describes_of_described {s : Vfork Tree} {brk : Nat} (h : described s brk = true) :
    ∃ p, s.sys.caller 1 = some p ∧ p.proc.brkCurrent = brk ∧ Describes mapper (· ∈ imagePages) p.proc s.sys.mem := by
  obtain ⟨p, hp, _, ht, hbrk, hd⟩ := of_decide_eq_true h
  exact ⟨p, hp, hbrk, hd.describes ht⟩

/-- `Harmless`, with only the simplest calls in a shared address space. -/
def harmless (s : Vfork Tree) (e : SysEv) : Bool :=
  decide (e.OnUserHalf ∧ (∀ x ∈ e.newBreak, s.sys.HeapUnshared Tree.mapper x.1 x.2) ∧
    s.sys.KeepsRings (s.sys.closes e)) &&
  match e with
  | .call pid (.brk addr) => (s.sys.caller pid).all fun p => !p.pml4Shared || addr == 0
  | .call pid (.munmap _ length) => (s.sys.caller pid).all fun p => !p.pml4Shared || length == 0
  | .call _ _ => false
  | _ => true

theorem harmless_of_check {s : Vfork Tree} {e : SysEv} (h : harmless s e = true) : Harmless mapper s e := by
  obtain ⟨hcare, hcall⟩ := (Bool.and_eq_true _ _).mp h
  obtain ⟨huser, hheap, hrings⟩ := of_decide_eq_true hcare
  refine ⟨huser, hheap, hrings, ?_⟩
  rintro _ c _ rfl hp hshared
  cases c with
  | brk addr =>
    simp only [hp, all_some, hshared, Bool.not_true, Bool.false_or, beq_iff_eq] at hcall
    exact .inl hcall
  | munmap addr length =>
    simp only [hp, all_some, hshared, Bool.not_true, Bool.false_or, beq_iff_eq] at hcall
    exact .inr (.inl hcall)
  | mmap => cases hcall
  | mprotect => cases hcall

def orderly (s : Vfork Tree) : Ev → Bool
  | .sys e => harmless s e
  | .unblock pid => !decide (s.Asleep pid)

theorem orderly_of_check {s : Vfork Tree} {e : Ev} (h : orderly s e = true) : Orderly mapper s e := by
  cases e with
  | sys e => exact harmless_of_check h
  | unblock pid => simpa [orderly, Orderly] using h

/-- Process 1 has a heap of one page. Its child asks for the break, unmaps nothing and calls
    `execve`; each is unblocked once while it does not sleep. -/
theorem record_describes_again_after_execve : ∃ s₀ s₁ s p, (machine Tree.mapper).Reach (Orderly Tree.mapper) s₀ ∧
    (machine Tree.mapper).step s₀ (.sys (.clone 1)) = some s₁ ∧
    ((machine Tree.mapper).startedAt s₁).Reach (fun s e => Orderly Tree.mapper s e ∧ s.Asleep 1) s ∧ ¬ s.Asleep 1 ∧
    (s.sys.home 2).map (·.2) = some false ∧ s.sys.caller 1 = some p ∧ p.proc.brkCurrent = 0x402000 ∧
    Describes Tree.mapper (· ∈ imagePages) p.proc s.sys.mem := by
  obtain ⟨s₀, h₀, hd, s₁, hclone, s, h, hawake, hhome⟩ : ∃ s₀, (machine mapper).checkedRun orderly eighty
      [.sys (.spawn 120 Sys.onePage), .sys (.call 1 (.brk 0x402000)), .unblock 1] = some s₀ ∧
        described s₀ 0x402000 = true ∧
      ∃ s₁, (machine mapper).step s₀ (.sys (.clone 1)) = some s₁ ∧
      ∃ s, ((machine mapper).startedAt s₁).checkedRun (fun s e => orderly s e && decide (s.Asleep 1)) s₁
        [.sys (.call 2 (.brk 0)), .sys (.call 2 (.munmap 0x500000 0)), .unblock 2, .sys (.execve 2 120 Sys.onePage)] =
          some s ∧
      ¬ s.Asleep 1 ∧ (s.sys.home 2).map (·.2) = some false := by
    decide
  obtain ⟨p, hp, hbrk, hd⟩ := describes_of_described hd
  have h₀ := (Machine.reach_checkedRun (.start eighty_start) h₀).mono fun _ _ hg => orderly_of_check hg
  have h : ((machine mapper).startedAt s₁).Reach (fun s e => Orderly mapper s e ∧ s.Asleep 1) s := by
    refine (Machine.reach_checkedRun (.start rfl) h).mono fun s e hg => ?_
    obtain ⟨horder, hsleep⟩ := (Bool.and_eq_true _ _).mp hg
    exact ⟨orderly_of_check horder, of_decide_eq_true hsleep⟩
  obtain ⟨hcaller, hdesc⟩ := record_describes_again mapper_lawful h₀ hp hd hclone h
  exact ⟨s₀, s₁, s, p, h₀, hclone, h, hawake, hhome, hcaller, hbrk, hdesc⟩

/-- The child grows the break by a page and exits. Process 1 wakes up with a page that its record
    does not have, and cannot grow its own break, although frames are left. -/
theorem the_childs_break_is_in_the_way : ∃ s₀ s₁ s s' p q q', (machine Tree.mapper).Reachable s₀ ∧
      s₀.sys.caller 1 = some p ∧
    Describes Tree.mapper (· ∈ imagePages) p.proc s₀.sys.mem ∧
      (machine Tree.mapper).step s₀ (.sys (.clone 1)) = some s₁ ∧
    ((machine Tree.mapper).startedAt s₁).Reachable s ∧ ¬ s.Asleep 1 ∧ s.sys.caller 1 = some q ∧
    ¬ Describes Tree.mapper (· ∈ imagePages) q.proc s.sys.mem ∧
    (machine Tree.mapper).step s (.sys (.call 1 (.brk 0x402000))) = some s' ∧ s'.sys.caller 1 = some q' ∧
      q'.proc.brkCurrent = 0x401000 ∧
    s'.sys.mem.frames.next + 40 ≤ s'.sys.mem.frames.usable.length := by
  obtain ⟨s₀, hr₀, hd, s₁, hclone, s, hr, ⟨q, hq, hawake, _, hno, hleaf⟩, s', hs', q', hq', hcur', hleft⟩ :
      ∃ s₀, (machine mapper).run eighty [.sys (.spawn 120 Sys.onePage)] = some s₀ ∧ described s₀ 0x401000 = true ∧
      ∃ s₁, (machine mapper).step s₀ (.sys (.clone 1)) = some s₁ ∧
      ∃ s, ((machine mapper).startedAt s₁).run s₁ [.sys (.call 2 (.brk 0x402000)), .sys (.exit 2)] = some s ∧
      (∃ q, s.sys.caller 1 = some q ∧ ¬ s.Asleep 1 ∧ q.proc.brkCurrent = 0x401000 ∧
        q.proc.vmaMap.entries.length = 0 ∧ (s.sys.mem.leafAt mapper q.proc.pml4 0x401000).isSome) ∧
      ∃ s', (machine mapper).step s (.sys (.call 1 (.brk 0x402000))) = some s' ∧ ∃ q', s'.sys.caller 1 = some q' ∧
      q'.proc.brkCurrent = 0x401000 ∧ s'.sys.mem.frames.next + 40 ≤ s'.sys.mem.frames.usable.length := by
    decide
  obtain ⟨p, hp, -, hd⟩ := describes_of_described hd
  refine ⟨s₀, s₁, s, s', p, q, q', Machine.reachable_of_run _ _ eighty_start hr₀, hp, hd, hclone,
    Machine.reachable_of_run _ _ rfl hr, hawake, hq, ?_, hs', hq', hcur', hleft⟩
  intro hdesc
  rcases (hdesc.mapped 0x401000 (by decide) (by decide)).mp hleaf with himage | harea | _
  · exact absurd himage (by decide)
  · rw [attrAt_eq_none hno] at harea
    cases harea
  · omega

end Vfork

end Ostoo.Memory
