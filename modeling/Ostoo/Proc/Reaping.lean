/-
  Ostoo.Proc.Reaping — a process's kernel stack goes back to the arena only when its
  thread has run for the last time, if every `reap` finds that thread dead.

  `sys_wait4` and `wait_and_reap` reap a process as soon as it is a zombie, and
  `reap_zombies` also one whose thread is not recorded yet. A process is a zombie
  before its thread is dead: `terminate_process` marks it, wakes the parent and yields,
  and only when it runs again kills the thread. `ReapsDead` says that a step does not
  reap such a process.

  In runs of such steps a stack is freed only when no thread on it ever runs again
  (`stacks_outlive_threads`); without it `wait4` frees the stack of a thread that then
  runs (`a_waiting_parent_frees_a_stack_in_use`).
-/

import Ostoo.Proc.Stacks

namespace Ostoo.Proc

open Ostoo.Lib Ostoo.Task Scheduler List OrdMap BitVec
open Function (update update_of_ne)

namespace Kernel

variable {k₀ k k' : Kernel} {x : Core Ctx} {pid : Nat}

/-- What holds between two steps. -/
structure Good (k : Kernel) : Prop where
  ok : k.sched.Ok
  inv : k.view.Inv

/-- Thread ids are given out in order, each to one slot. -/
structure Ids (s : Scheduler Ctx) : Prop where
  lt : ∀ i x, s.core? i = some x → x.id < s.nextThreadId
  once : ∀ i j x y, s.core? i = some x → s.core? j = some y → x.id = y.id → i = j

/-- No dead thread comes back: a thread is the one its slot held, or a new one. -/
structure Evolves (k₀ k : Kernel) : Prop where
  next : k₀.sched.nextThreadId ≤ k.sched.nextThreadId
  old : ∀ i x, k.sched.core? i = some x →
    (∃ x₀, k₀.sched.core? i = some x₀ ∧ x₀.id = x.id ∧ (x₀.dead = true → x.dead = true)) ∨
    (k₀.sched.nextThreadId ≤ x.id ∧ x.id < k.sched.nextThreadId)
  ids : Ids k₀.sched → Ids k.sched

/-- Every live thread lives on, on its stack. -/
def Keeps (k₀ k : Kernel) : Prop :=
  ∀ i x₀, k₀.sched.core? i = some x₀ → x₀.dead = false →
    ∃ x, k.sched.core? i = some x ∧ x.kind = x₀.kind ∧ x.stack = x₀.stack ∧ x.dead = false

/-- What a step that started in `k₀` leaves behind. -/
structure Out (k₀ k : Kernel) : Prop extends Good k, Evolves k₀ k where
  keeps : Keeps k₀ k ∨ k.freeBitmap = k₀.freeBitmap

/-- The scheduler inside such a step, of the thread `x`. -/
structure Mid (k₀ k : Kernel) (x : Core Ctx) : Prop extends Evolves k₀ k where
  ok : k.sched.Ok
  keeps : Keeps k₀ k
  cur : k.sched.core? k.sched.currentIdx = some x

/-- The same where the stacks and the table are in order. -/
structure At (k₀ k : Kernel) (x : Core Ctx) : Prop extends Mid k₀ k x where
  inv : k.view.Inv

theorem At.good (h : At k₀ k x) : Good k := ⟨h.ok, h.inv⟩

theorem At.out (h : At k₀ k x) : Out k₀ k := ⟨h.good, h.toEvolves, .inl h.keeps⟩

variable {t : Thread Ctx}

theorem Good.at_current (h : Good k) (ht : k.sched.current? = some t) : At k k t.core := by
  refine ⟨⟨⟨le_refl _, fun i x hx => .inl ⟨x, hx, rfl, fun hd => hd⟩, fun hi => hi⟩, h.ok, fun i x hx hd =>
    ⟨x, hx, rfl, rfl, hd⟩, ?_⟩, h.inv⟩
  simp only [current?] at ht
  simp [core?, ht]

/-! ## What the operations do to the threads -/

theorem Evolves.of_core (h : Evolves k₀ k) (hn : k'.sched.nextThreadId = k.sched.nextThreadId)
    (hc : k'.sched.core? = k.sched.core?) : Evolves k₀ k' := by
  refine ⟨hn ▸ h.next, ?_, fun h₀ => ⟨?_, ?_⟩⟩
  · rw [hc, hn]
    exact h.old
  · rw [hc, hn]
    exact (h.ids h₀).lt
  · rw [hc]
    exact (h.ids h₀).once

theorem Keeps.of_core (h : Keeps k₀ k) (hc : k'.sched.core? = k.sched.core?) : Keeps k₀ k' := by
  unfold Keeps
  rw [hc]
  exact h

theorem Mid.of_core (h : Mid k₀ k x) (hok : k'.sched.Ok) (hn : k'.sched.nextThreadId = k.sched.nextThreadId)
    (hi : k'.sched.currentIdx = k.sched.currentIdx) (hc : k'.sched.core? = k.sched.core?) : Mid k₀ k' x := by
  refine ⟨h.toEvolves.of_core hn hc, hok, h.keeps.of_core hc, ?_⟩
  rw [hc, hi]
  exact h.cur

theorem Mid.of_sched (h : Mid k₀ k x) (hs : k'.sched = k.sched) : Mid k₀ k' x :=
  h.of_core (hs ▸ h.ok) (by rw [hs]) (by rw [hs]) (by rw [hs])

theorem Mid.evolves_update (h : Mid k₀ k x) (x' : Core Ctx) (hid : x'.id = x.id) (hd : x.dead = true → x'.dead = true)
    (hn : k'.sched.nextThreadId = k.sched.nextThreadId)
    (hc : k'.sched.core? = update k.sched.core? k.sched.currentIdx (some x')) : Evolves k₀ k' := by
  -- every thread is one that was there, under its id
  have hback : ∀ i y, k'.sched.core? i = some y → ∃ z, k.sched.core? i = some z ∧ z.id = y.id ∧
      (z.dead = true → y.dead = true) := by
    intro i y hy
    obtain ⟨rfl, ⟨⟩⟩ | ⟨-, hy⟩ := update_eq_some (hc ▸ hy)
    · exact ⟨x, h.cur, hid.symm, hd⟩
    · exact ⟨y, hy, rfl, fun e => e⟩
  refine ⟨hn ▸ h.next, ?_, fun h₀ => ⟨?_, ?_⟩⟩
  · intro i y hy
    obtain ⟨z, hz, hidz, hdz⟩ := hback i y hy
    rw [hn, ← hidz]
    rcases h.old i z hz with ⟨x₀, hx₀, hid₀, hd₀⟩ | hnew
    · exact .inl ⟨x₀, hx₀, hid₀, fun e => hdz (hd₀ e)⟩
    · exact .inr hnew
  · intro i y hy
    obtain ⟨z, hz, hidz, -⟩ := hback i y hy
    rw [hn, ← hidz]
    exact (h.ids h₀).lt i z hz
  · intro i j y y' hy hy' he
    obtain ⟨z, hz, hidz, -⟩ := hback i y hy
    obtain ⟨z', hz', hidz', -⟩ := hback j y' hy'
    exact (h.ids h₀).once i j z z' hz hz' (by rw [hidz, hidz', he])

theorem Mid.goto (h : Mid k₀ k x) (c : Ctx) : Mid k₀ (k.goto c) { x with ctx := c } := by
  have hc : (k.goto c).sched.core? = update k.sched.core? k.sched.currentIdx (some { x with ctx := c }) :=
    setCtx_core h.cur c
  refine ⟨h.evolves_update { x with ctx := c } rfl (fun e => e) rfl hc, setCtx_ok h.ok c, ?_, ?_⟩
  · intro i x₀ hx₀ hd₀
    obtain ⟨y, hy, hr⟩ := h.keeps i x₀ hx₀ hd₀
    rw [hc]
    by_cases e : i = k.sched.currentIdx
    · subst e
      cases h.cur.symm.trans hy
      exact ⟨_, Function.update_self .., hr⟩
    · exact ⟨y, (update_of_ne e ..).trans hy, hr⟩
  · show (k.goto c).sched.core? k.sched.currentIdx = _
    rw [hc, Function.update_self]

theorem Mid.spawn (h : Mid k₀ k x) (kind : SchedulableKind) (stack : Nat) (owns : Bool) (c : Ctx) :
    Mid k₀ (k.spawn kind stack owns c).1 x := by
  have hc : (k.spawn kind stack owns c).1.sched.core? = update k.sched.core? (k.spawn kind stack owns c).2
      (some ⟨k.sched.nextThreadId, c, kind, stack, owns, false⟩) := spawn_core
  have hcur : (k.spawn kind stack owns c).1.sched.currentIdx = k.sched.currentIdx := (spawn_rest ..).2.1
  have hnext : (k.spawn kind stack owns c).1.sched.nextThreadId = k.sched.nextThreadId + 1 := (spawn_rest ..).2.2.2
  -- its slot was no live thread's
  have hslot : ∀ y, k.sched.core? (k.spawn kind stack owns c).2 = some y → y.dead = true := fun y hy =>
    spawn_slot_core hy
  have hne : k.sched.currentIdx ≠ (k.spawn kind stack owns c).2 := (spawn_ne_current h.ok).symm
  generalize (k.spawn kind stack owns c).2 = slot at hc hslot hne
  have hnew : ∀ i y, (k.spawn kind stack owns c).1.sched.core? i = some y →
      (i = slot ∧ y.id = k.sched.nextThreadId) ∨ k.sched.core? i = some y := by
    intro i y hy
    obtain ⟨rfl, ⟨⟩⟩ | ⟨-, hy⟩ := update_eq_some (hc ▸ hy)
    · exact .inl ⟨rfl, rfl⟩
    · exact .inr hy
  refine ⟨⟨?_, ?_, fun h₀ => ⟨?_, ?_⟩⟩, spawn_ok h.ok, ?_, ?_⟩
  · rw [hnext]
    exact Nat.le_succ_of_le h.next
  · intro i y hy
    rw [hnext]
    rcases hnew i y hy with ⟨-, hid⟩ | hy
    · rw [hid]
      exact .inr ⟨h.next, Nat.lt_succ_self _⟩
    · exact (h.old i y hy).imp id fun hn => ⟨hn.1, Nat.lt_succ_of_lt hn.2⟩
  · intro i y hy
    rw [hnext]
    rcases hnew i y hy with ⟨-, hid⟩ | hy
    · rw [hid]
      exact Nat.lt_succ_self _
    · exact Nat.lt_succ_of_lt ((h.ids h₀).lt i y hy)
  · intro i j y z hy hz he
    rcases hnew i y hy with ⟨ei, hid⟩ | hy
    · rcases hnew j z hz with ⟨ej, -⟩ | hz
      · rw [ei, ej]
      · have := (h.ids h₀).lt j z hz
        omega
    · rcases hnew j z hz with ⟨-, _⟩ | hz
      · have := (h.ids h₀).lt i y hy
        omega
      · exact (h.ids h₀).once i j y z hy hz he
  · intro i x₀ hx₀ hd₀
    obtain ⟨y, hy, hk, hst, hd⟩ := h.keeps i x₀ hx₀ hd₀
    have hne : i ≠ slot := by
      intro e
      rw [hslot y (e ▸ hy)] at hd
      cases hd
    exact ⟨y, by rw [hc, update_of_ne hne]; exact hy, hk, hst, hd⟩
  · rw [hc, hcur, update_of_ne hne]
    exact h.cur

/-! ## What they do to the stacks and the table -/

theorem withProcess_view (f : Process → Process) : (k.withProcess pid f).view = k.view.alter pid f := by
  simp only [view, withProcess, View.alter, View.mk.injEq, true_and, and_true]
  funext j
  exact get?_alter ..

variable (h : At k₀ k x)
include h

theorem At.withProcess {f : Process → Process}
    (hf : ∀ p, (f p).pid = p.pid ∧ (f p).kernelStack = p.kernelStack ∧ (f p).threadIdx = p.threadIdx) :
    At k₀ (k.withProcess pid f) x :=
  ⟨h.toMid.of_sched rfl, withProcess_view f ▸ h.inv.alter_keep hf⟩

omit h in
theorem unblock_view (i : Nat) : (k.unblock i).view = k.view := by
  simp only [view, unblock, unblock_core]

theorem At.unblock (i : Nat) : At k₀ (k.unblock i) x := by
  refine ⟨h.toMid.of_core (unblock_ok h.ok) (unblock_turns i).next unblock_currentIdx
    unblock_core, ?_⟩
  rw [unblock_view]
  exact h.inv

theorem At.donate (i : Nat) : At k₀ { k with sched := k.sched.setDonateTarget i } x :=
  ⟨h.toMid.of_core ⟨⟨h.ok.ready, h.ok.nodup, h.ok.idle⟩, h.ok.fresh, h.ok.running⟩ rfl rfl rfl, h.inv⟩

omit h in
theorem goto_view (hx : k.sched.core? k.sched.currentIdx = some x) (c : Ctx) :
    (k.goto c).view = k.view.setCore k.sched.currentIdx { x with ctx := c } := by
  simp only [view, goto, View.setCore, setCtx_core hx]

variable {c : Ctx} {code : Int}

theorem At.goto (hi : (k.view.setCore k.sched.currentIdx { x with ctx := c }).Inv) :
    At k₀ (k.goto c) { x with ctx := c } :=
  ⟨h.toMid.goto c, goto_view h.cur c ▸ hi⟩

omit h in
theorem Mid.out_goto (h : Mid k₀ k x) (hs : k'.sched = k.sched) (hi : (k'.goto c).view.Inv) : Out k₀ (k'.goto c) :=
  At.out ⟨(h.of_sched hs).goto c, hi⟩

theorem At.goto_user (hc : c.isUser = true) : At k₀ (k.goto c) { x with ctx := c } :=
  h.goto (h.inv.goto_plain h.cur (.inl hc) (.inr hc))

theorem At.goto_kernel (hk : x.kind = .kernel) : At k₀ (k.goto .kernel) { x with ctx := .kernel } :=
  h.goto (h.inv.goto_plain h.cur (.inr (.inl rfl)) (.inl hk))

theorem At.switch {s : Scheduler Ctx} (hok : s.Ok) (hn : s.nextThreadId = k.sched.nextThreadId)
    (hc : s.core? = k.sched.core?) : Out k₀ { k with sched := s } := by
  refine ⟨⟨hok, ?_⟩, h.toEvolves.of_core hn hc, .inl (h.keeps.of_core hc)⟩
  have hv : view { k with sched := s } = k.view := by simp only [view, hc]
  exact hv ▸ h.inv

theorem At.yieldNow (hs : k.yieldNow = some k') : Out k₀ k' := by
  obtain ⟨_, hy, rfl⟩ := of_map hs
  exact h.switch (yieldTick_ok h.ok.toQueue h.ok.fresh hy) (yieldTick_turns hy).next
    (yieldTick_core h.ok.toQueue h.ok.fresh hy)

theorem At.block (hk : x.kind ≠ .kernel) (hs : k.blockCurrentThread = some k') : Out k₀ k' := by
  obtain ⟨_, hy, rfl⟩ := of_map hs
  exact h.switch (block_ok h.ok h.cur hk hy) (yieldTick_turns hy).next (block_core h.ok h.cur hk hy)

theorem At.kill (hk : x.kind = .userProcess pid) (hf : k.freeBitmap = k₀.freeBitmap)
    (hs : k.killCurrentThread = some k') : Out k₀ k' := by
  obtain ⟨s, hy, rfl⟩ := of_map hs
  have hne : x.kind ≠ .kernel := by simp [hk]
  have hc := kill_core h.ok h.cur hne hy
  refine ⟨⟨kill_ok h.ok h.cur hne hy, ?_⟩,
    h.evolves_update { x with dead := true } rfl (fun _ => rfl) (yieldTick_turns hy).next hc, .inr hf⟩
  have hv : view { k with sched := s } = k.view.setCore k.sched.currentIdx { x with dead := true } := by
    simp only [view, View.setCore, hc]
  exact hv ▸ h.inv.kill h.cur hk

omit h in
theorem reap_view {p : Process} (hp : k.table.get? pid = some p) : (k.reap pid).view =
    { k.view with tab := update k.view.tab pid none, free := dropStack k.view.free p.kernelStack } := by
  unfold reap
  rw [hp]
  simp only [view, get?_remove_eq]

theorem At.reap (hd : ∀ j, ¬ k.view.Live pid j) : At k₀ (k.reap pid) x := by
  cases hp : k.table.get? pid with
  | none =>
    have he : k.reap pid = k := by simp [Kernel.reap, hp]
    rw [he]
    exact h
  | some p =>
    have hs : (k.reap pid).sched = k.sched := by simp [Kernel.reap, hp]
    exact ⟨h.toMid.of_sched hs, reap_view hp ▸ h.inv.reap hp hd⟩

omit h in
/-- A new thread takes no stack away: the thread whose slot it gets is a process's. -/
theorem Good.spawn_view (h : Good k) (kind : SchedulableKind) (stack : Nat) (owns : Bool) (c : Ctx) :
    (k.spawn kind stack owns c).1.view =
      k.view.setCore (k.spawn kind stack owns c).2 ⟨k.sched.nextThreadId, c, kind, stack, owns, false⟩ := by
  have hfree : (k.spawn kind stack owns c).1.freeBitmap = k.freeBitmap := by
    unfold Kernel.spawn
    dsimp only
    split
    · rename_i t ht
      have hd := spawn_slot ht
      have hc : k.view.core (k.sched.spawn kind stack owns c).2 = some t.core := by simp [view, core?, ht]
      split
      · rename_i ho
        have := h.inv.alive _ t.core hc (h.inv.owner _ t.core hc ho)
        simp [Thread.core, hd] at this
      · rfl
    · rfl
  have hcore : (k.spawn kind stack owns c).1.sched.core? = update k.sched.core? (k.spawn kind stack owns c).2
      (some ⟨k.sched.nextThreadId, c, kind, stack, owns, false⟩) := spawn_core
  simp only [view, View.setCore, hcore, hfree]
  rfl

theorem At.spawn {kind : SchedulableKind} {stack : Nat} {owns : Bool}
    (hi : (k.view.setCore (k.spawn kind stack owns c).2 ⟨k.sched.nextThreadId, c, kind, stack, owns, false⟩).Inv) :
    At k₀ (k.spawn kind stack owns c).1 x :=
  ⟨h.toMid.spawn kind stack owns c, h.good.spawn_view .. ▸ hi⟩

/-! ## Exit -/

theorem At.releaseVforkParent : At k₀ (k.releaseVforkParent pid) x := by
  unfold Kernel.releaseVforkParent
  split
  · have hw : At k₀ (k.withProcess pid ({ · with vforkParentThread := none })) x := h.withProcess fun p =>
      ⟨rfl, rfl, rfl⟩
    split
    · exact hw.unblock _
    · exact hw
  · exact h

theorem At.wakeWaitThread : At k₀ (k.wakeWaitThread pid).1 x := by
  unfold Kernel.wakeWaitThread
  split
  · have hw : At k₀ (k.withProcess pid ({ · with waitThread := none })) x := h.withProcess fun p => ⟨rfl, rfl, rfl⟩
    split
    · exact hw.unblock _
    · exact hw
  · exact h

theorem At.killUserProcess : At k₀ (k.killUserProcess pid code).1 x := by
  have hz : At k₀ (k.markZombie pid code) x := h.withProcess fun p => ⟨rfl, rfl, rfl⟩
  unfold Kernel.killUserProcess
  dsimp only
  split
  · apply At.wakeWaitThread
    unfold queueSigchld
    split
    · exact hz
    · exact hz.withProcess fun p => ⟨rfl, rfl, rfl⟩
  · exact hz

omit h in
theorem killUserProcess_free (code : Int) : (k.killUserProcess pid code).1.freeBitmap = k.freeBitmap := by
  have hw : ∀ (k : Kernel) parent, (k.wakeWaitThread parent).1.freeBitmap = k.freeBitmap := by
    intro k parent
    unfold Kernel.wakeWaitThread
    split
    · split <;> rfl
    · rfl
  unfold Kernel.killUserProcess
  dsimp only
  split
  · rw [hw]
    unfold queueSigchld
    split <;> rfl
  · rfl

theorem At.terminateProcess (hs : k.terminateProcess pid code = some k') : Out k₀ k' := by
  have hr : At k₀ ((k.releaseVforkParent pid).killUserProcess pid code).1 x := h.releaseVforkParent.killUserProcess
  unfold Kernel.terminateProcess at hs
  dsimp only at hs
  split at hs
  · exact ((hr.donate _).goto_user rfl).yieldNow hs
  · exact (hr.goto_user rfl).yieldNow hs

/-! ## Wait and reap -/

end Kernel

/-- The thread of the process is recorded, and dead. -/
def Process.settled (p : Process) (s : Scheduler Ctx) : Bool :=
  match p.threadIdx with
  | some i => s.isThreadDead i
  | none => false

/-- Whether `wait4` may answer with this process. -/
def Process.awaited (p : Process) (parent : Nat) (target : BitVec 64) : Bool :=
  p.parentPid = parent ∧ p.state = .zombie ∧ (target = BitVec.allOnes 64 ∨ p.pid = target.toNat)

/-- The condition under which stacks are safe, on the state before the step: no zombie that
    the step may reap still has a thread to run. -/
def ReapsDead (k : Kernel) (e : Ev) : Bool :=
  match k.sched.current? with
  | none => true
  | some t => match e, t.kind, t.ctx with
    | .wait4 target, .userProcess parent, _ =>
      k.table.values.all fun p => !p.awaited parent target || p.settled k.sched
    | .reap, _, .zombieSeen pid => match k.table.get? pid with
      | some p => p.settled k.sched
      | none => true
    | .reapZombies, _, _ => k.table.values.all fun p => p.state ≠ .zombie || p.threadIdx.isSome
    | _, _, _ => true

namespace Kernel

variable {p : Process} {n parent : Nat} {free : BitVec 32} {e : Ev}

theorem Good.settled (h : Good k) (hp : k.table.get? pid = some p) (hs : p.settled k.sched = true) :
    ∀ j, ¬ k.view.Live pid j := by
  intro j hl
  obtain ⟨y, hy, hk, hd⟩ := hl
  obtain ⟨q, hq, -, ht⟩ := h.inv.live pid j y hy hk hd
  have : q = p := Option.some.inj (hq.symm.trans hp)
  subst this
  unfold Process.settled at hs
  split at hs
  · rename_i hi
    rcases ht with ht | ht
    · rw [ht] at hi
      cases hi
      rw [isThreadDead_core hs hy] at hd
      cases hd
    · rw [ht] at hi
      cases hi
  · cases hs

theorem Good.mem_values (h : Good k) (hp : p ∈ k.table.values) : k.table.get? p.pid = some p := by
  obtain ⟨pid, hp⟩ := OrdMap.mem_values.mp hp
  have hp := get?_eq_some.mpr hp
  have := (h.inv.pids pid p hp).1
  rw [this]
  exact hp

variable (h : At k₀ k x) {target : BitVec 64}
include h

theorem At.sysWait4 (hk : x.kind ≠ .kernel)
    (hg : ∀ p ∈ k.table.values, p.awaited parent target = true → p.settled k.sched = true)
    (hs : k.sysWait4 parent target = some k') : Out k₀ k' := by
  unfold Kernel.sysWait4 at hs
  split at hs
  · rename_i hc
    cases hs
    obtain ⟨p, hp, he⟩ := of_map hc
    cases he
    have hm := mem_of_find?_eq_some hp
    have haw : p.awaited parent target = true := by simpa [Process.awaited] using find?_some hp
    exact ((h.reap (h.good.settled (h.good.mem_values hm) (hg p hm haw))).goto_user rfl).out
  · split at hs
    · cases hs
      exact (h.goto_user rfl).out
    split at hs
    · cases hs
      exact (h.goto_user rfl).out
    have hw : At k₀ (k.withProcess parent
        ({ · with waitThread := some k.sched.currentIdx, signalThread := some k.sched.currentIdx })) x :=
      h.withProcess fun p => ⟨rfl, rfl, rfl⟩
    exact (hw.goto_user (c := .wait4 target) rfl).block hk hs

/-! ## New processes -/

omit h in
theorem Good.take (h : Good k) (ha : allocStack k.freeBitmap = some (n, free)) :
    View.Inv { k.view with free := free } ∧ Loose k.view.hold free n := by
  obtain ⟨hs, hl⟩ := h.inv.stackOwners.take ha
  exact ⟨h.inv.withFree hs, hl⟩

theorem At.addChild (ha : allocStack k.freeBitmap = some (n, free)) (hp : p.pid = k.nextPid) (hst : p.kernelStack = n)
    (ht : p.threadIdx = none) :
    At k₀ { k with freeBitmap := free, nextPid := k.nextPid + 1, table := k.table.insert k.nextPid p } x := by
  obtain ⟨hi, hl⟩ := h.good.take ha
  have hadd := hi.bump.addEntry (p := p) (hp ▸ Nat.lt_succ_self _) (hp ▸ h.inv.next_new) ht (hst ▸ hl) ?_
  · have hv : view { k with freeBitmap := free, nextPid := k.nextPid + 1, table := k.table.insert k.nextPid p } =
        { k.view with tab := update k.view.tab p.pid (some p), next := k.nextPid + 1, free := free } := by
      simp only [view, hp, get?_insert_eq]
    exact ⟨h.toMid.of_sched rfl, hv ▸ hadd⟩
  · intro j y hy hab
    exact absurd (h.inv.about_lt hy hab) (by rw [hp]; exact lt_irrefl _)

theorem At.startChild (hk : x.kind ≠ .kernel) (hp : k.table.get? pid = some p) (ht : p.threadIdx = none)
    (hdead : ∀ j, ¬ k.view.Live pid j) (hab : ∀ j y, k.view.core j = some y → ¬ y.ctx.About pid)
    (hs : k.startChild pid p.kernelStack = some k') : Out k₀ k' := by
  have hi := h.inv.spawnUser (k.spawn (.userProcess pid) p.kernelStack false (.user 0)).2
    k.sched.nextThreadId (c := .user 0) hp ht hab rfl
  have h1 : At k₀ (k.spawn (.userProcess pid) p.kernelStack false (.user 0)).1 x := h.spawn hi
  have hv := h.good.spawn_view (.userProcess pid) p.kernelStack false (.user 0)
  have h2 : At k₀ ((k.spawn (.userProcess pid) p.kernelStack false (.user 0)).1.withProcess pid
      ({ · with threadIdx := some (k.spawn (.userProcess pid) p.kernelStack false (.user 0)).2 })) x := by
    refine ⟨h1.toMid.of_sched rfl, ?_⟩
    rw [withProcess_view, hv]
    apply hi.record
    · intro j hl
      obtain ⟨y, hy, hky, hd⟩ := hl
      rcases View.setCore_cases hy with ⟨e, -⟩ | ⟨-, hy⟩
      · exact e
      · exact absurd ⟨y, hy, hky, hd⟩ (hdead j)
    · intro j y hy ha
      rcases View.setCore_cases hy with ⟨-, rfl⟩ | ⟨-, hy⟩
      · rfl
      · exact absurd ha (hab j y hy)
  exact (h2.goto_user (c := .user pid) rfl).block hk hs

theorem At.sysClone (hk : x.kind ≠ .kernel) (hs : k.sysClone parent = some k') : Out k₀ k' := by
  unfold Kernel.sysClone at hs
  split at hs
  · cases hs
    exact (h.goto_user rfl).out
  split at hs
  · cases hs
  rename_i stack _ ha
  have h1 := h.addChild ha (p := { Process.new k.nextPid stack with
    parentPid := parent, vforkParentThread := some k.sched.currentIdx }) rfl rfl rfl
  refine h1.startChild (p := { Process.new k.nextPid stack with
    parentPid := parent, vforkParentThread := some k.sched.currentIdx }) hk ?_ rfl ?_ ?_ hs
  · rw [get?_insert, if_pos rfl]
  · intro j hl
    obtain ⟨y, hy, hky, hd⟩ := hl
    obtain ⟨p, hp, -⟩ := h.inv.live _ j y hy hky hd
    exact absurd (h.inv.pids _ p hp).2 (lt_irrefl _)
  · intro j y hy hab
    exact absurd (h.inv.about_lt hy hab) (lt_irrefl _)

/-! ## The jobs of kernel threads -/

theorem At.deadZombies (hk : x.kind = .kernel) (hg : ∀ p ∈ k.table.values, p.state = .zombie → p.threadIdx ≠ none) :
    At k₀ (k.goto (.reaping k.deadZombies)) { x with ctx := .reaping k.deadZombies } := by
  have hz : ∀ pid ∈ k.deadZombies, ∃ p, k.table.get? pid = some p ∧ p.threadIdx ≠ none ∧ p.settled k.sched = true := by
    intro pid hpid
    obtain ⟨p, hp, rfl⟩ := mem_map.mp hpid
    obtain ⟨hp, hd⟩ := mem_filter.mp hp
    obtain ⟨hp, hst⟩ := mem_filter.mp hp
    have hrec := hg p hp (by simpa using hst)
    refine ⟨p, h.good.mem_values hp, hrec, ?_⟩
    unfold Process.settled
    cases ht : p.threadIdx with
    | none => exact absurd ht hrec
    | some i => simpa [ht] using hd
  apply h.goto
  refine h.inv.goto h.cur ?_ rfl (.inl hk) ?_
  · intro pid hpid
    obtain ⟨p, hp, hrec, hset⟩ := hz pid hpid
    refine ⟨(h.inv.pids pid p hp).2, ?_, h.good.settled hp hset⟩
    intro q hq
    cases hq.symm.trans hp
    exact hrec
  · intro pid j y _ hy
    refine ⟨fun e => absurd e (by simp [Ctx.making]), fun hpid hm => ?_⟩
    -- who makes a process has not recorded its thread
    obtain ⟨p, hp, hrec, -⟩ := hz pid hpid
    have hc := h.inv.ctx j y hy
    cases hctx : y.ctx <;> rw [hctx] at hm hc <;> simp only [Ctx.making, Option.some.injEq, reduceCtorEq] at hm
    case made q => exact absurd (hc.2.1.symm.trans (hm ▸ hp)) (by simp)
    case inserted q => exact hrec (hc.2.1 p (hm ▸ hp))
    case spawned q l => exact hrec (hc.2.1 p (hm ▸ hp))

theorem At.reapNext {pids : List Nat} (hk : x.kind = .kernel) (hc : x.ctx = .reaping (pid :: pids)) :
    Out k₀ ((k.reap pid).goto (.reaping pids)) := by
  have hok : k.view.CtxOk (.reaping (pid :: pids)) := hc ▸ h.inv.ctx _ x h.cur
  have h1 := h.reap (hok pid mem_cons_self).2.2
  have hok1 : (k.reap pid).view.CtxOk (.reaping (pid :: pids)) := hc ▸ h1.inv.ctx _ x h1.cur
  refine (h1.goto (h1.inv.goto h1.cur ?_ rfl (.inl hk) ?_)).out
  · exact fun q hq => hok1 q (.tail _ hq)
  · intro q j y hj hy
    have hal := h1.inv.alone h1.cur q j y hj hy
    rw [hc] at hal
    exact ⟨fun e => absurd e (by simp [Ctx.making]), fun hq => hal.2 (.tail _ hq)⟩

theorem At.newProcess (hk : x.kind = .kernel)
    (ha : allocStack k.freeBitmap = some (n, free)) (hp : p.pid = k.nextPid) (hst : p.kernelStack = n)
    (ht : p.threadIdx = none) : Out k₀ ({ k with freeBitmap := free, nextPid := k.nextPid + 1 }.goto (.made p)) := by
  obtain ⟨hi, hl⟩ := h.good.take ha
  have hm := hi.makeProcess (p := p) h.cur hk (hst ▸ hl) hp ht
  refine h.toMid.out_goto ?_ ?_
  · rfl
  have hv : view ({ k with freeBitmap := free, nextPid := k.nextPid + 1 }.goto (.made p)) =
      View.setCore { k.view with next := k.nextPid + 1, free := free } k.sched.currentIdx
          { x with ctx := .made p } := by
    simp only [view, Kernel.goto, View.setCore, setCtx_core h.cur]
  rw [hv]
  exact hm

theorem At.insert (hc : x.ctx = .made p) :
    Out k₀ ({ k with table := k.table.insert p.pid { p with state := .running } }.goto (.inserted p.pid)) := by
  have hi := h.inv.insert h.cur { p with state := .running } hc rfl rfl rfl
  refine h.toMid.out_goto ?_ ?_
  · rfl
  have hv : view ({ k with table := k.table.insert p.pid { p with state := .running } }.goto (.inserted p.pid)) =
      { k.view.setCore k.sched.currentIdx { x with ctx := .inserted p.pid } with
        tab := update k.view.tab p.pid (some { p with state := .running }) } := by
    simp only [view, Kernel.goto, View.setCore, setCtx_core h.cur, get?_insert_eq]
  rw [hv]
  exact hi

theorem At.spawnUserThread (hk : x.kind = .kernel) (hc : x.ctx = .inserted pid)
    (hs : k.spawnUserThread pid = some k') : Out k₀ k' := by
  unfold Kernel.spawnUserThread at hs
  split at hs
  · rename_i p hp
    cases hs
    have hm := h.toMid.spawn (.userProcess pid) p.kernelStack false (.user 0)
    have hcur : (k.spawn (.userProcess pid) p.kernelStack false (.user 0)).1.sched.currentIdx = k.sched.currentIdx :=
      (spawn_rest ..).2.1
    have hne : k.sched.currentIdx ≠ (k.spawn (.userProcess pid) p.kernelStack false (.user 0)).2 :=
      (spawn_ne_current h.ok).symm
    refine hm.out_goto rfl ?_
    rw [goto_view hm.cur, hcur, h.good.spawn_view]
    exact h.inv.startThread h.cur hk hc hp hne
  · cases hs

variable {i : Nat}

theorem At.recordThread (hk : x.kind = .kernel) (hc : x.ctx = .spawned pid i) :
    Out k₀ ((k.withProcess pid ({ · with threadIdx := some i })).goto .kernel) := by
  refine h.toMid.out_goto ?_ ?_
  · rfl
  rw [goto_view (k := k.withProcess pid _) h.cur, withProcess_view]
  exact h.inv.finish h.cur hk hc

theorem At.spawnThread (ha : allocStack k.freeBitmap = some (n, free)) :
    Out k₀ ({ k with freeBitmap := free }.spawn .kernel n true .kernel).1 := by
  obtain ⟨hi, hl⟩ := h.good.take ha
  have h1 : At k₀ { k with freeBitmap := free } x := ⟨h.toMid.of_sched rfl, hi⟩
  exact (h1.spawn (h1.inv.spawnKernel hl)).out

omit h

/-! ## Steps -/

theorem At.userStep (h : At k k x) (hk : x.kind = .userProcess pid) (hs : k.userStep pid e = some k')
    (hg : ∀ target, e = .wait4 target → ∀ p ∈ k.table.values, p.awaited pid target = true → p.settled k.sched = true) :
    Out k k' := by
  have hne : x.kind ≠ .kernel := by simp [hk]
  cases e with
  | yield => exact h.yieldNow hs
  | park => exact h.block hne hs
  | clone => exact h.sysClone hne hs
  | execve =>
    cases hs
    exact h.releaseVforkParent.out
  | exit code => exact h.terminateProcess hs
  | fault code => exact h.killUserProcess.kill hk (killUserProcess_free code) hs
  | wait4 target => exact h.sysWait4 hne (hg target rfl) hs
  | _ => cases hs

theorem At.kernelStep (h : At k k x) (hk : x.kind = .kernel) (hs : k.kernelStep e = some k')
    (hg : e = .reapZombies → ∀ p ∈ k.table.values, p.state = .zombie → p.threadIdx ≠ none) : Out k k' := by
  cases e with
  | spawnThread =>
    simp only [Kernel.kernelStep] at hs
    split at hs
    · rename_i ha
      cases hs
      exact h.spawnThread ha
    · cases hs
  | newProcess parent =>
    simp only [Kernel.kernelStep] at hs
    split at hs
    · rename_i ha
      cases hs
      exact h.newProcess hk ha rfl rfl rfl
    · cases hs
  | reapZombies =>
    cases hs
    exact (h.deadZombies hk (hg rfl)).out
  | isZombie pid =>
    cases hs
    split
    · exact (h.goto (h.inv.goto_plain h.cur (.inr (.inr ⟨pid, rfl⟩)) (.inl hk))).out
    · exact h.out
  | _ => cases hs

theorem awaited_settled (hg : ReapsDead k (.wait4 target) = true)
    (ht : k.sched.current? = some t) (hk : t.kind = .userProcess parent) :
    ∀ p ∈ k.table.values, p.awaited parent target = true → p.settled k.sched = true := by
  intro p hp ha
  simp only [ReapsDead, ht, hk, all_eq_true, Bool.or_eq_true, Bool.not_eq_true'] at hg
  rcases hg p hp with h | h
  · rw [ha] at h
    cases h
  · exact h

theorem At.threadStep (h : At k k t.core) (ht : k.sched.current? = some t) (hg : ReapsDead k e = true)
    (hs : k.threadStep t e = some k') : Out k k' := by
  unfold Kernel.threadStep at hs
  split at hs
  · rename_i hk hc
    refine h.userStep hk hs ?_
    intro target he
    subst he
    exact awaited_settled hg ht hk
  · rename_i hk hc
    obtain ⟨he, hs⟩ := of_guard hs
    subst he
    have hne : t.core.kind ≠ .kernel := by
      rw [show t.core.kind = t.kind from rfl, hk]
      simp
    refine At.sysWait4 (h.withProcess (f := ({ · with signalThread := none })) fun p => ⟨rfl, rfl, rfl⟩) hne ?_ hs
    intro p hp ha
    obtain ⟨q, hq, rfl | rfl⟩ := mem_values_alter hp
    · exact awaited_settled hg ht hk p hq ha
    · exact awaited_settled hg ht hk q hq ha
  · rename_i hk hc
    exact h.kill hk rfl hs
  · rename_i hk hc
    refine h.kernelStep hk hs ?_
    intro he p hp hz
    subst he
    simp only [ReapsDead, ht, all_eq_true] at hg
    simpa [hz, Option.isSome_iff_ne_none] using hg p hp
  · rename_i hk hc
    cases hs
    exact h.insert hc
  · rename_i hk hc
    exact h.spawnUserThread hk hc hs
  · rename_i hk hc
    cases hs
    exact h.recordThread hk hc
  · rename_i hk hc
    cases hs
    exact (h.goto_kernel hk).out
  · rename_i hk hc
    cases hs
    exact h.reapNext hk hc
  · rename_i pid hk hc
    cases hs
    refine (At.goto_kernel (h.reap ?_) hk).out
    simp only [ReapsDead, ht, hc] at hg
    split at hg
    · rename_i p hp
      exact h.good.settled hp hg
    rename_i hp
    intro j hl
    obtain ⟨y, hy, hky, hd⟩ := hl
    obtain ⟨_, hp', -⟩ := h.inv.live pid j y hy hky hd
    cases hp.symm.trans hp'
  · cases hs

theorem step_out (h : Good k) (hg : ReapsDead k e = true) (hs : k.step e = some k') : Out k k' := by
  obtain ⟨_, ht, -⟩ := h.ok.running
  have ha := h.at_current ht
  cases e with
  | tick =>
    obtain ⟨_, hy, rfl⟩ := of_map hs
    exact ha.switch (preemptTick_ok h.ok hy) (preemptTick_turns hy).next (preemptTick_core h.ok hy)
  | wake i =>
    cases hs
    exact (ha.unblock i).out
  | donate i =>
    cases hs
    exact (ha.donate i).out
  | signals pid pending blocked =>
    cases hs
    exact (ha.withProcess (f := ({ · with pending, blocked })) fun p => ⟨rfl, rfl, rfl⟩).out
  | _ =>
    simp only [step, ht] at hs
    exact ha.threadStep ht hg hs

/-! ## Whole runs -/

theorem boot_core {x : Core Ctx} (h : boot.sched.core? i = some x) :
    (i = 0 ∧ x = ⟨0, .kernel, .kernel, 0, false, false⟩) ∨ (i = 1 ∧ x = ⟨1, .idle, .kernel, 1, true, false⟩) := by
  match i with
  | 0 =>
    cases h
    exact .inl ⟨rfl, rfl⟩
  | 1 =>
    cases h
    exact .inr ⟨rfl, rfl⟩
  | n + 2 => cases h

theorem boot_ids : Ids boot.sched := by
  constructor
  · intro i x hx
    rcases boot_core hx with ⟨rfl, rfl⟩ | ⟨rfl, rfl⟩ <;> decide
  · intro i j x y hx hy he
    rcases boot_core hx with ⟨rfl, rfl⟩ | ⟨rfl, rfl⟩ <;> rcases boot_core hy with ⟨rfl, rfl⟩ | ⟨rfl, rfl⟩ <;> simp_all

theorem boot_hold {h : Holder} (hh : boot.view.hold h = some n) :
    (h = .thread 0 ∧ n = 0) ∨ (h = .thread 1 ∧ n = 1) := by
  cases h with
  | process pid => cases hh
  | thread i =>
    obtain ⟨x, hx, hn⟩ := of_bind hh
    rcases boot_core hx with ⟨rfl, rfl⟩ | ⟨rfl, rfl⟩ <;> simp at hn <;> simp [hn]
  | maker i =>
    obtain ⟨_, hx, hn⟩ := of_bind hh
    rcases boot_core hx with ⟨rfl, rfl⟩ | ⟨rfl, rfl⟩ <;> cases hn

theorem boot_good : Good boot := by
  refine ⟨⟨⟨by simp [boot], by simp [boot], ⟨_, rfl, rfl, rfl⟩⟩, by simp [boot], ⟨_, rfl, rfl, by decide⟩⟩, ?_⟩
  refine ⟨?_, ?_, ?_, ⟨?_, ?_⟩, ?_, ?_, ?_, ?_⟩
  · intro i x hx _
    rcases boot_core hx with ⟨rfl, rfl⟩ | ⟨rfl, rfl⟩ <;> rfl
  · intro i x hx _
    rcases boot_core hx with ⟨rfl, rfl⟩ | ⟨rfl, rfl⟩ <;> rfl
  · intro i x pid hx hk
    rcases boot_core hx with ⟨rfl, rfl⟩ | ⟨rfl, rfl⟩ <;> cases hk
  · intro h n hh
    rcases boot_hold hh with ⟨-, rfl⟩ | ⟨-, rfl⟩ <;> decide
  · intro h h' n hh hh'
    rcases boot_hold hh with ⟨rfl, rfl⟩ | ⟨rfl, rfl⟩ <;> rcases boot_hold hh' with ⟨rfl, _⟩ | ⟨rfl, _⟩ <;> simp_all
  · intro pid p hp
    cases hp
  · intro pid j x hx hk
    rcases boot_core hx with ⟨rfl, rfl⟩ | ⟨rfl, rfl⟩ <;> cases hk
  · intro i j x y pid hx _ hm
    rcases boot_core hx with ⟨rfl, rfl⟩ | ⟨rfl, rfl⟩ <;> cases hm
  · intro i x hx
    rcases boot_core hx with ⟨rfl, rfl⟩ | ⟨rfl, rfl⟩ <;> trivial

end Kernel

open Kernel

/-- The steps that meet the condition. -/
def Safe (k : Kernel) (e : Ev) : Prop := ReapsDead k e = true

variable {k : Kernel} {tid : Nat}

theorem reach_good (h : machine.Reach Safe k) : Good k ∧ Ids k.sched := by
  refine Machine.Reach.inv (I := fun k => Good k ∧ Ids k.sched) ?_ ?_ h
  · intro k hk
    cases hk
    exact ⟨boot_good, boot_ids⟩
  · intro k e k' hi hg hs
    have := step_out hi.1 hg hs
    exact ⟨this.toGood, this.ids hi.2⟩

theorem live_stack (h : Good k) {x : Core Ctx} (hx : k.sched.core? i = some x) (hd : x.dead = false) :
    k.freeBitmap.getLsbD x.stack = false := by
  cases hk : x.kind with
  | kernel => exact (h.inv.stackOwners.held (.thread i) x.stack (by simp [View.hold, view, hx, hk])).2
  | userProcess pid =>
    obtain ⟨_, hp, hst, -⟩ := h.inv.live pid i x hx hk hd
    exact (h.inv.stackOwners.held (.process pid) x.stack (by simp [View.hold, hp, hst])).2

/-- A thread that is gone for good: its id belongs to no thread that could run. -/
def Gone (tid : Nat) (k : Kernel) : Prop :=
  tid < k.sched.nextThreadId ∧ ∀ i x, k.sched.core? i = some x → x.id = tid → x.dead = true

theorem Gone.out {k' : Kernel} (h : Gone tid k) (ho : Out k k') : Gone tid k' := by
  refine ⟨lt_of_lt_of_le h.1 ho.next, ?_⟩
  intro i x hx hid
  rcases ho.old i x hx with ⟨x₀, hx₀, hid₀, hd⟩ | ⟨_, -⟩
  · exact hd (h.2 i x₀ hx₀ (hid₀.trans hid))
  · have := h.1
    omega

theorem Gone.never_current {k' : Kernel} (hgood : Good k) (h : Gone tid k)
    (hr : (machine.startedAt k).Reach Safe k') {u : Thread Ctx} (hu : k'.sched.current? = some u) : u.id ≠ tid := by
  have hi : Good k' ∧ Gone tid k' := by
    refine Machine.Reach.inv (I := fun k => Good k ∧ Gone tid k) ?_ ?_ hr
    · intro s hs
      cases hs
      exact ⟨hgood, h⟩
    · intro s e s' hi hg hs
      have ho := step_out hi.1 hg hs
      exact ⟨ho.toGood, hi.2.out ho⟩
  intro e
  obtain ⟨x, hx, hd⟩ := hi.1.ok.current_core
  have hxu : x = u.core := by
    simp only [current?] at hu
    simpa [core?, hu, eq_comm] using hx
  rw [hi.2.2 _ x hx (by rw [hxu]; exact e)] at hd
  cases hd

/-- In a run whose steps reap only processes with a dead thread, no thread that can still
    run is on a free stack, and when a step frees a stack every thread on it is dead, has
    been switched away from, and is never current again. -/
theorem stacks_outlive_threads {k : Kernel} (h : machine.Reach Safe k) :
    (∀ (i : Nat) t, k.sched.threads[i]? = some t → t.state ≠ .dead → k.freeBitmap.getLsbD t.stack = false) ∧
    ∀ e k' n, Safe k e → machine.step k e = some k' → k.freeBitmap.getLsbD n = false → k'.freeBitmap.getLsbD n = true →
      ∀ (i : Nat) t, k.sched.threads[i]? = some t → t.stack = n →
        t.state = .dead ∧ i ≠ k.sched.currentIdx ∧
        ∀ k'', (machine.startedAt k').Reach Safe k'' → ∀ u, k''.sched.current? = some u → u.id ≠ t.id := by
  obtain ⟨hgood, hids⟩ := reach_good h
  have hcore : ∀ (i : Nat) t, k.sched.threads[i]? = some t → k.sched.core? i = some t.core := by
    intro i t ht
    simp [core?, ht]
  refine ⟨?_, ?_⟩
  · intro i t ht hd
    exact live_stack hgood (hcore i t ht) (by simp [Thread.core, hd])
  · intro e k' n hg hs h0 h1 i t ht hn
    have ho := step_out hgood hg hs
    -- a thread that lives on would keep its stack
    have hdead : t.core.dead = true := by
      rcases ho.keeps with hkeep | hfree
      · by_contra hd
        obtain ⟨x, hx, -, hst, hdx⟩ := hkeep i t.core (hcore i t ht) (by simpa using hd)
        have := live_stack ho.toGood hx hdx
        rw [hst, show t.core.stack = t.stack from rfl, hn, h1] at this
        cases this
      · rw [hfree, h0] at h1
        cases h1
    have hgone : Gone t.id k := by
      refine ⟨hids.lt i _ (hcore i t ht), ?_⟩
      intro j x hx hid
      have := hids.once j i x t.core hx (hcore i t ht) hid
      rw [this, hcore i t ht] at hx
      cases hx
      exact hdead
    refine ⟨by simpa [Thread.core] using hdead, ?_, ?_⟩
    · intro e
      obtain ⟨_, hc, hd⟩ := hgood.ok.current_core
      rw [← e, hcore i t ht] at hc
      cases hc
      rw [hdead] at hd
      cases hd
    · intro k'' hr u hu
      exact (hgone.out ho).never_current ho.toGood hr hu

/-- The boot thread makes a process; it exits, is switched back to, and dies; then
    `reap_zombies` runs. -/
def orderlyTrace : List Ev :=
  [Ev.newProcess 0, .insert, .spawnUserThread, .recordThread] ++ List.replicate 10 Ev.tick ++
    [Ev.exit 0] ++ List.replicate 10 Ev.tick ++ [Ev.die, .reapZombies]

theorem stacks_outlive_threads_after_exit :
    ∃ k k', machine.Reach Safe k ∧ Safe k .reapNext ∧ machine.step k .reapNext = some k' ∧
      k.freeBitmap.getLsbD 2 = false ∧
      k'.freeBitmap.getLsbD 2 = true ∧ ∃ t, k.sched.threads[2]? = some t ∧ t.stack = 2 ∧ t.state = .dead ∧
      ∀ k'', (machine.startedAt k').Reach Safe k'' → ∀ u, k''.sched.current? = some u → u.id ≠ t.id := by
  obtain ⟨k, h, h0, ⟨t, ht, hst, -⟩, hsafe, k', hs, h1⟩ : ∃ k, machine.checkedRun ReapsDead boot orderlyTrace = some k ∧
      k.freeBitmap.getLsbD 2 = false ∧ (∃ t, k.sched.threads[2]? = some t ∧ t.stack = 2 ∧ t.state = .dead) ∧
        ReapsDead k .reapNext = true ∧
      ∃ k', machine.step k .reapNext = some k' ∧ k'.freeBitmap.getLsbD 2 = true := by decide
  have h := Machine.reach_checkedRun (.start rfl) h
  obtain ⟨hd, -, hlast⟩ := (stacks_outlive_threads h).2 .reapNext k' 2 hsafe hs h0 h1 2 t ht hst
  exact ⟨k, k', h, hsafe, hs, h0, h1, t, ht, hst, hd, hlast⟩

/-- A process clones a child and waits for it; the child exits, wakes the parent and yields to it. -/
def waitingTrace : List Ev :=
  [Ev.newProcess 0, .insert, .spawnUserThread, .recordThread] ++ List.replicate 10 Ev.tick ++ [Ev.clone] ++
    List.replicate 10 Ev.tick ++ [Ev.execve, .yield] ++ List.replicate 10 Ev.tick ++ [Ev.wait4 (BitVec.allOnes 64),
      .exit 0]

/-- `wait4` then frees the stack of the child's thread, which is Ready; the parent clones
    again, the new process gets the stack, and the old thread runs on it. -/
theorem a_waiting_parent_frees_a_stack_in_use :
    ∃ k k', machine.Reachable k ∧ machine.step k (.wait4 (allOnes 64)) = some k' ∧ k.freeBitmap.getLsbD 3 = false ∧
      k'.freeBitmap.getLsbD 3 = true ∧ (∃ t, k.sched.threads[3]? = some t ∧ t.stack = 3 ∧ t.state = .ready) ∧
      ∃ k'', (machine.startedAt k').Reachable k'' ∧ k''.freeBitmap.getLsbD 3 = false ∧ k''.sched.currentIdx = 3 ∧
        (∃ t, k''.sched.threads[3]? = some t ∧ t.stack = 3 ∧ t.state = .running) ∧
        ∃ t, k''.sched.threads[4]? = some t ∧ t.stack = 3 ∧ t.state = .ready := by
  obtain ⟨k, hr, h0, hon, k', hs, h1, k'', hr', h0', hcur, hon3, hon4⟩ : ∃ k, machine.run boot waitingTrace = some k ∧
      k.freeBitmap.getLsbD 3 = false ∧ (∃ t, k.sched.threads[3]? = some t ∧ t.stack = 3 ∧ t.state = .ready) ∧
      ∃ k', machine.step k (.wait4 (allOnes 64)) = some k' ∧ k'.freeBitmap.getLsbD 3 = true ∧
      ∃ k'', (machine.startedAt k').run k' (.clone :: replicate 10 .tick) = some k'' ∧
        k''.freeBitmap.getLsbD 3 = false ∧
        k''.sched.currentIdx = 3 ∧ (∃ t, k''.sched.threads[3]? = some t ∧ t.stack = 3 ∧ t.state = .running) ∧
        ∃ t, k''.sched.threads[4]? = some t ∧ t.stack = 3 ∧ t.state = .ready := by
    decide
  exact ⟨k, k', Machine.reachable_of_run boot waitingTrace rfl hr, hs, h0, h1, hon, k'',
    Machine.reachable_of_run k' _ rfl hr', h0', hcur, hon3, hon4⟩

end Ostoo.Proc
