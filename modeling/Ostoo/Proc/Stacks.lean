/-
  Ostoo.Proc.Stacks — when a kernel stack goes back to the arena.

  Every slot that is not free has one holder (`Holder`): the process it belongs to, a
  kernel thread, or the kernel thread that is making a process with it. A thread of a
  process that is not dead has its process in the table, and runs on that process's
  stack. So a stack that `reap` drops is still run on exactly when the thread of the
  process is not dead. `reap_zombies` checks that; `sys_wait4` and `wait_and_reap` do
  not, and `terminate_process` lets the parent run between `mark_zombie` and the end
  of its own thread.
-/

import Ostoo.Proc.Lifecycle

namespace Ostoo.Proc

open Ostoo.Lib Ostoo.Task Option
open Function (update_of_ne update)

/-! ## Who holds a stack -/

inductive Holder
  | process (pid : Nat)
  | thread (i : Nat)
  /-- The thread holds it for a process it has not inserted yet. -/
  | maker (i : Nat)
  deriving DecidableEq

/-- No slot that is held is free, and each is held once. -/
structure Stacks (hold : Holder → Option Nat) (free : BitVec 32) : Prop where
  held : ∀ h n, hold h = some n → n < 32 ∧ free.getLsbD n = false
  once : ∀ h h' n, hold h = some n → hold h' = some n → h = h'

/-- A slot in no one's hands: not free, and not held. -/
structure Loose (hold : Holder → Option Nat) (free : BitVec 32) (n : Nat) : Prop where
  lt : n < 32
  taken : free.getLsbD n = false
  unheld : ∀ h, hold h ≠ some n

namespace Stacks

variable {hold hold' : Holder → Option Nat} {free free' : BitVec 32} {h : Holder} {n : Nat}

variable (hs : Stacks hold free)
include hs

theorem sub (hsub : ∀ h n, hold' h = some n → hold h = some n) : Stacks hold' free :=
  ⟨fun h n hh => hs.held h n (hsub h n hh), fun h h' n hh hh' => hs.once h h' n (hsub h n hh) (hsub h' n hh')⟩

theorem take (ha : allocStack free = some (n, free')) : Stacks hold free' ∧ Loose hold free' n := by
  have hfree := allocStack_free ha
  refine ⟨⟨?_, hs.once⟩, BitVec.lt_of_getLsbD hfree, ?_, ?_⟩
  · intro h m hm
    obtain ⟨hlt, hb⟩ := hs.held h m hm
    exact ⟨hlt, by rw [allocStack_rest ha, hb]; rfl⟩
  · rw [allocStack_rest ha]
    simp
  · intro h hh
    have := (hs.held h n hh).2
    rw [hfree] at this
    cases this

theorem give (hl : Loose hold free n) (hh : hold' h = some n)
    (hrest : ∀ g, g ≠ h → ∀ m, hold' g = some m → hold g = some m) : Stacks hold' free := by
  have hne : ∀ g, g ≠ h → hold' g ≠ some n := fun g hg hn => hl.unheld g (hrest g hg n hn)
  constructor
  · intro g m hm
    by_cases e : g = h
    · rw [e, hh] at hm
      cases hm
      exact ⟨hl.lt, hl.taken⟩
    · exact hs.held g m (hrest g e m hm)
  · intro g₁ g₂ m h1 h2
    by_cases e1 : g₁ = h
    · by_cases e2 : g₂ = h
      · rw [e1, e2]
      · rw [e1, hh] at h1
        cases h1
        exact absurd h2 (hne g₂ e2)
    · by_cases e2 : g₂ = h
      · rw [e2, hh] at h2
        cases h2
        exact absurd h1 (hne g₁ e1)
      · exact hs.once g₁ g₂ m (hrest g₁ e1 m h1) (hrest g₂ e2 m h2)

theorem loosen (hh : hold h = some n) (hgone : hold' h = none)
    (hsub : ∀ g m, hold' g = some m → hold g = some m) : Loose hold' free n := by
  obtain ⟨hlt, hb⟩ := hs.held h n hh
  refine ⟨hlt, hb, ?_⟩
  intro g hg
  have := hs.once g h n (hsub g n hg) hh
  rw [this, hgone] at hg
  cases hg

theorem putBack (hl : Loose hold free n) : Stacks hold (dropStack free n) := by
  refine ⟨?_, hs.once⟩
  intro h m hm
  obtain ⟨hlt, hb⟩ := hs.held h m hm
  have hne : m ≠ n := fun e => hl.unheld h (e ▸ hm)
  exact ⟨hlt, by rw [dropStack_getLsbD hl.lt, hb]; simp [hne]⟩

end Stacks

/-! ## The invariant -/

namespace Ctx

/-- The process the thread is making. -/
def making : Ctx → Option Nat
  | .made p => some p.pid
  | .inserted pid | .spawned pid _ => some pid
  | _ => none

/-- The stack the thread holds for it. -/
def madeStack : Ctx → Option Nat
  | .made p => some p.kernelStack
  | _ => none

/-- The processes the thread's job is about. -/
def About : Ctx → Nat → Prop
  | .made p, pid => pid = p.pid
  | .inserted q, pid | .spawned q _, pid => pid = q
  | .reaping pids, pid => pid ∈ pids
  | _, _ => False

theorem about_of_making {c : Ctx} {pid : Nat} (h : c.making = some pid) : c.About pid := by
  cases c <;> simp only [making, some.injEq, reduceCtorEq] at h <;> exact h.symm

/-- Where a process's thread can be. -/
def isUser : Ctx → Bool
  | .user _ | .wait4 _ | .dying => true
  | _ => false

end Ctx

/-- What the invariant reads of a state. -/
structure View where
  core : Nat → Option (Core Ctx)
  tab : Nat → Option Process
  next : Nat
  free : BitVec 32

def Kernel.view (k : Kernel) : View := ⟨k.sched.core?, k.table.get?, k.nextPid, k.freeBitmap⟩

namespace View

section

variable (v : View)

def hold : Holder → Option Nat
  | .process pid => (v.tab pid).map (·.kernelStack)
  | .thread i => (v.core i).bind fun x => if x.kind = .kernel then some x.stack else none
  | .maker i => (v.core i).bind (·.ctx.madeStack)

/-- Thread `j` is a thread of the process and not dead. -/
def Live (pid j : Nat) : Prop := ∃ x, v.core j = some x ∧ x.kind = .userProcess pid ∧ x.dead = false

/-- What a thread in the middle of a job relies on. -/
def CtxOk : Ctx → Prop
  | .made p => p.pid < v.next ∧ v.tab p.pid = none ∧ p.threadIdx = none
  | .inserted pid => pid < v.next ∧ (∀ p, v.tab pid = some p → p.threadIdx = none) ∧ ∀ j, ¬ v.Live pid j
  | .spawned pid i => pid < v.next ∧ (∀ p, v.tab pid = some p → p.threadIdx = none) ∧ ∀ j, v.Live pid j → j = i
  | .reaping pids => ∀ pid ∈ pids, pid < v.next ∧ (∀ p, v.tab pid = some p → p.threadIdx ≠ none) ∧ ∀ j, ¬ v.Live pid j
  | _ => True

def setCore (i : Nat) (x : Core Ctx) : View := { v with core := Function.update v.core i (some x) }

/-- `with_process` -/
def alter (pid : Nat) (f : Process → Process) : View :=
  { v with tab := fun j => if j = pid then (v.tab j).map f else v.tab j }

structure Inv (v : View) : Prop where
  /-- Kernel threads do not end. -/
  alive : ∀ i x, v.core i = some x → x.kind = .kernel → x.dead = false
  owner : ∀ i x, v.core i = some x → x.ownsStack = true → x.kind = .kernel
  user : ∀ i x pid, v.core i = some x → x.kind = .userProcess pid → x.ctx.isUser = true
  stackOwners : Stacks v.hold v.free
  pids : ∀ pid p, v.tab pid = some p → p.pid = pid ∧ pid < v.next
  /-- A process with a live thread is in the table, with the stack the thread runs on, and
      its `thread_idx` names that thread once it is recorded. -/
  live : ∀ pid j x, v.core j = some x → x.kind = .userProcess pid → x.dead = false →
    ∃ p, v.tab pid = some p ∧ p.kernelStack = x.stack ∧ (p.threadIdx = some j ∨ p.threadIdx = none)
  /-- While a process is being made no other job is about it. -/
  jobs : ∀ i j x y pid, v.core i = some x → v.core j = some y → x.ctx.making = some pid → y.ctx.About pid → i = j
  ctx : ∀ i x, v.core i = some x → v.CtxOk x.ctx

/-- No job of another thread stands in the way of this one. -/
def Alone (i : Nat) (c : Ctx) : Prop :=
  ∀ pid j y, j ≠ i → v.core j = some y → (c.making = some pid → ¬ y.ctx.About pid) ∧
    (c.About pid → y.ctx.making ≠ some pid)

end

variable {v : View} {i pid : Nat} {x : Core Ctx}

/-- What a job relies on carries over to a state where the processes it is about have no
    more live threads and, as far as it cares, the same threads recorded. -/
theorem CtxOk.mono {v' : View} {c : Ctx} (h : v.CtxOk c) (hn : v.next ≤ v'.next)
    (hlive : ∀ q, c.About q → ∀ j, v'.Live q j → v.Live q j)
    (htab : ∀ q, c.About q → q < v.next → ∀ p', v'.tab q = some p' → ∃ p, v.tab q = some p ∧
      (p'.threadIdx = p.threadIdx ∨ c.making = none ∧ p'.threadIdx ≠ none)) :
    v'.CtxOk c := by
  cases c with
  | made p =>
    refine ⟨lt_of_lt_of_le h.1 hn, ?_, h.2.2⟩
    apply eq_none_iff_forall_ne_some.mpr
    intro p' hp'
    obtain ⟨q, hq, -⟩ := htab _ rfl h.1 p' hp'
    rw [h.2.1] at hq
    cases hq
  | inserted pid | spawned pid k =>
    refine ⟨lt_of_lt_of_le h.1 hn, ?_, fun j hj => h.2.2 j (hlive pid rfl j hj)⟩
    intro p' hp'
    obtain ⟨q, hq, he | ⟨he, -⟩⟩ := htab _ rfl h.1 p' hp'
    · rw [he]
      exact h.2.1 q hq
    · cases he
  | reaping pids =>
    intro pid hpid
    obtain ⟨h1, h2, h3⟩ := h pid hpid
    refine ⟨h1.trans_le hn, ?_, fun j hj => h3 j (hlive pid hpid j hj)⟩
    intro p' hp'
    obtain ⟨q, hq, he | ⟨-, he⟩⟩ := htab _ hpid h1 p' hp'
    · rw [he]
      exact h2 q hq
    · exact he
  | _ => trivial

variable {j : Nat} {x' : Core Ctx}

theorem setCore_cases {y : Core Ctx} (h : (v.setCore i x').core j = some y) :
    (j = i ∧ y = x') ∨ (j ≠ i ∧ v.core j = some y) :=
  (update_eq_some h).imp_left (And.imp_right fun he => (some.inj he).symm)

theorem setCore_self (x' : Core Ctx) : (v.setCore i x').core i = some x' := Function.update_self ..

/-- What is written last to a slot is what counts. -/
theorem setCore_between (h : i ≠ j) (a b c : Core Ctx) :
    ((v.setCore i a).setCore j b).setCore i c = (v.setCore j b).setCore i c := by
  simp only [setCore, View.mk.injEq, and_self, and_true]
  rw [Function.update_comm h, Function.update_idem]

theorem setCore_of_ne (x' : Core Ctx) (h : j ≠ i) : (v.setCore i x').core j = v.core j :=
  update_of_ne h ..

theorem hold_setCore (x' : Core Ctx) (g : Holder) : (v.setCore i x').hold g =
    if g = .thread i then (if x'.kind = .kernel then some x'.stack else none)
    else if g = .maker i then x'.ctx.madeStack else v.hold g := by
  cases g with
  | process q => rfl
  | thread j | maker j => by_cases e : j = i <;> simp [hold, setCore, e]

theorem plain {c : Ctx} (hp : c.isUser = true ∨ c = .kernel ∨ ∃ pid, c = .zombieSeen pid) :
    c.madeStack = none ∧ c.making = none ∧ (∀ pid, ¬ c.About pid) ∧ ∀ v : View, v.CtxOk c := by
  rcases hp with hp | rfl | ⟨-, rfl⟩
  · cases c with
    | user | wait4 | dying => exact ⟨rfl, rfl, fun _ h => h, fun _ => trivial⟩
    | _ => cases hp
  all_goals exact ⟨rfl, rfl, fun _ h => h, fun _ => trivial⟩

namespace Inv

variable (h : Inv v) {f : Process → Process}
include h

/-- A process changes, keeps its stack, and names its live thread if it names one. -/
theorem alter (hf : ∀ p, (f p).pid = p.pid ∧ (f p).kernelStack = p.kernelStack)
    (hl : ∀ p j, v.Live pid j → (p.threadIdx = some j ∨ p.threadIdx = none) →
      ((f p).threadIdx = some j ∨ (f p).threadIdx = none))
    (hc : ∀ p, (f p).threadIdx = p.threadIdx ∨ ((f p).threadIdx ≠ none ∧ ∀ k y, v.core k = some y → y.ctx.About pid →
      y.ctx.making = none)) :
    Inv (v.alter pid f) := by
  have htab : ∀ q p', (v.alter pid f).tab q = some p' →
      ∃ p, v.tab q = some p ∧ p.pid = p'.pid ∧ p.kernelStack = p'.kernelStack ∧
        (p'.threadIdx = p.threadIdx ∨ (p'.threadIdx ≠ none ∧ ∀ k y, v.core k = some y → y.ctx.About q →
            y.ctx.making = none)) := by
    intro q p' hp'
    simp only [View.alter] at hp'
    split at hp'
    · rename_i e
      subst e
      obtain ⟨p, hp, rfl⟩ := of_map hp'
      exact ⟨p, hp, (hf p).1.symm, (hf p).2.symm, hc p⟩
    · exact ⟨p', hp', rfl, rfl, .inl rfl⟩
  refine ⟨h.alive, h.owner, h.user, ?_, ?_, ?_, h.jobs, ?_⟩
  · apply h.stackOwners.sub
    intro g n hg
    cases g with
    | process q =>
      obtain ⟨p', hp', rfl⟩ := of_map hg
      obtain ⟨p, hp, -, hk, -⟩ := htab q p' hp'
      simp [hold, hp, hk]
    | thread j => exact hg
    | maker j => exact hg
  · intro q p' hp'
    obtain ⟨p, hp, hpid, -⟩ := htab q p' hp'
    rw [← hpid]
    exact h.pids q p hp
  · intro q j y hy hk hd
    obtain ⟨p, hp, hs, ht⟩ := h.live q j y hy hk hd
    by_cases e : q = pid
    · subst e
      exact ⟨f p, by simp [View.alter, hp], (hf p).2.trans hs, hl p j ⟨y, hy, hk, hd⟩ ht⟩
    · exact ⟨p, by simp [View.alter, e, hp], hs, ht⟩
  · intro j y hy
    refine (h.ctx j y hy).mono le_rfl (fun _ _ _ hl => hl) ?_
    intro q hq _ p' hp'
    obtain ⟨p, hp, -, -, ht | ⟨ht, hun⟩⟩ := htab q p' hp'
    · exact ⟨p, hp, .inl ht⟩
    · exact ⟨p, hp, .inr ⟨hun j y hy hq, ht⟩⟩

/-- One slot gets another thread, or its thread changes: what must hold of the new one. -/
theorem setCore (ha : x'.kind = .kernel → x'.dead = false) (ho : x'.ownsStack = true → x'.kind = .kernel)
    (hu : ∀ pid, x'.kind = .userProcess pid → x'.ctx.isUser = true) (hst : Stacks (v.setCore i x').hold v.free)
    (hl : ∀ pid, x'.kind = .userProcess pid → x'.dead = false → ∃ p, v.tab pid = some p ∧ p.kernelStack = x'.stack ∧
      (p.threadIdx = some i ∨ p.threadIdx = none))
    (hm : v.Alone i x'.ctx) (hc : (v.setCore i x').CtxOk x'.ctx)
    (hok : ∀ j y, v.core j = some y → (v.setCore i x').CtxOk y.ctx) : Inv (v.setCore i x') := by
  refine ⟨?_, ?_, ?_, hst, h.pids, ?_, ?_, ?_⟩
  · intro j y hy hk
    rcases setCore_cases hy with ⟨rfl, rfl⟩ | ⟨-, hy⟩
    · exact ha hk
    · exact h.alive j y hy hk
  · intro j y hy hoy
    rcases setCore_cases hy with ⟨rfl, rfl⟩ | ⟨-, hy⟩
    · exact ho hoy
    · exact h.owner j y hy hoy
  · intro j y q hy hk
    rcases setCore_cases hy with ⟨rfl, rfl⟩ | ⟨-, hy⟩
    · exact hu q hk
    · exact h.user j y q hy hk
  · intro q j y hy hk hd
    rcases setCore_cases hy with ⟨rfl, rfl⟩ | ⟨-, hy⟩
    · exact hl q hk hd
    · exact h.live q j y hy hk hd
  · intro j₁ j₂ y₁ y₂ q h1 h2 m1 m2
    rcases setCore_cases h1 with ⟨e1, rfl⟩ | ⟨e1, h1'⟩
    · rcases setCore_cases h2 with ⟨e2, -⟩ | ⟨e2, h2'⟩
      · rw [e1, e2]
      · exact absurd m2 ((hm q j₂ y₂ e2 h2').1 m1)
    · rcases setCore_cases h2 with ⟨-, rfl⟩ | ⟨-, h2'⟩
      · exact absurd m1 ((hm q j₁ y₁ e1 h1').2 m2)
      · exact h.jobs j₁ j₂ y₁ y₂ q h1' h2' m1 m2
  · intro j y hy
    rcases setCore_cases hy with ⟨rfl, rfl⟩ | ⟨-, hy⟩
    · exact hc
    · exact hok j y hy

theorem rewrite (hx : v.core i = some x) (x' : Core Ctx) (hk : x'.kind = x.kind) (hs : x'.stack = x.stack)
    (ho : x'.ownsStack = x.ownsStack) (hd : x'.dead = false → x.dead = false) (ha : x.kind = .kernel → x'.dead = false)
    (hst : Stacks (v.setCore i x').hold v.free) (hc : v.CtxOk x'.ctx) (hu : x.kind = .kernel ∨ x'.ctx.isUser = true)
    (hm : v.Alone i x'.ctx) : Inv (v.setCore i x') := by
  have hlive : ∀ pid j, (v.setCore i x').Live pid j → v.Live pid j := by
    intro pid j hl
    obtain ⟨y, hy, hky, hdy⟩ := hl
    rcases setCore_cases hy with ⟨rfl, rfl⟩ | ⟨-, hy⟩
    · exact ⟨x, hx, hk ▸ hky, hd hdy⟩
    · exact ⟨y, hy, hky, hdy⟩
  have hok : ∀ c, v.CtxOk c → (v.setCore i x').CtxOk c := fun c hc =>
    hc.mono le_rfl (fun q _ => hlive q) fun _ _ _ p' hp' => ⟨p', hp', .inl rfl⟩
  apply h.setCore
  · rw [hk]
    exact ha
  · rw [ho, hk]
    exact h.owner i x hx
  · intro pid hkp
    rcases hu with hu | hu
    · rw [hk, hu] at hkp
      cases hkp
    · exact hu
  · exact hst
  · intro pid hkp hdp
    rw [hs]
    exact h.live pid i x hx (hk ▸ hkp) (hd hdp)
  · exact hm
  · exact hok _ hc
  · intro j y hy
    exact hok _ (h.ctx j y hy)

/-- The stacks as they were, but perhaps for one that thread `i` was making a process with. -/
theorem stacks_setCore (ht : x'.kind = .kernel → ∃ x, v.core i = some x ∧ x.kind = .kernel ∧ x.stack = x'.stack)
    (hm : ∀ n, x'.ctx.madeStack = some n → ∃ x, v.core i = some x ∧ x.ctx.madeStack = some n) :
    Stacks (v.setCore i x').hold v.free := by
  refine h.stackOwners.sub fun g n hg => ?_
  rw [hold_setCore] at hg
  split_ifs at hg with h1 hk h2
  · obtain ⟨x, hx, hkx, hsx⟩ := ht hk
    simpa [h1, hold, hx, hkx, hsx] using hg
  · obtain ⟨_, hx, hsx⟩ := hm n hg
    simp [h2, hold, hx, hsx]
  · exact hg

variable (hx : v.core i = some x)
include hx

theorem alone : v.Alone i x.ctx := by
  intro pid j y hj hy
  exact ⟨fun hm ha => hj (h.jobs i j x y pid hx hy hm ha).symm, fun ha hm => hj (h.jobs j i y x pid hy hx hm ha)⟩

variable {c : Ctx} {p : Process} {j id : Nat}

/-- The thread goes on elsewhere: the new job must be its own, and find what it relies on. -/
theorem goto (hc : v.CtxOk c) (hs : c.madeStack = none)
    (hu : x.kind = .kernel ∨ c.isUser = true) (hm : v.Alone i c) : Inv (v.setCore i { x with ctx := c }) :=
  h.rewrite hx _ rfl rfl rfl id (h.alive i x hx)
    (h.stacks_setCore (fun hk => ⟨x, hx, hk, rfl⟩) fun n hn => absurd hn (by simp [hs])) hc hu hm

theorem goto_plain (hp : c.isUser = true ∨ c = .kernel ∨ ∃ pid, c = .zombieSeen pid)
    (hu : x.kind = .kernel ∨ c.isUser = true) : Inv (v.setCore i { x with ctx := c }) := by
  obtain ⟨hs, hm, ha, hc⟩ := plain hp
  exact h.goto hx (hc v) hs hu fun pid j y _ _ => ⟨fun e => absurd (hm ▸ e) (by simp), fun e => absurd e (ha pid)⟩

theorem kill (hk : x.kind = .userProcess pid) : Inv (v.setCore i { x with dead := true }) :=
  have halone : v.Alone i x.ctx := h.alone hx
  h.rewrite hx _ rfl rfl rfl (fun hd => absurd hd (by simp)) (fun e => absurd (e.symm.trans hk) (by simp))
    (h.stacks_setCore (fun hk => ⟨x, hx, hk, rfl⟩) fun n hn => ⟨x, hx, hn⟩) (h.ctx i x hx) (.inr (h.user i x pid hx hk))
    halone

omit hx

theorem withFree {free : BitVec 32} (hs : Stacks v.hold free) : Inv { v with free := free } :=
  ⟨h.alive, h.owner, h.user, hs, h.pids, h.live, h.jobs, h.ctx⟩

theorem bump : Inv { v with next := v.next + 1 } :=
  ⟨h.alive, h.owner, h.user, h.stackOwners, fun q p hp => ⟨(h.pids q p hp).1, Nat.lt_succ_of_lt (h.pids q p hp).2⟩,
    h.live, h.jobs,
    fun j y hy => (h.ctx j y hy).mono (Nat.le_succ _) (fun _ _ _ hl => hl) fun _ _ _ p' hp' => ⟨p', hp', .inl rfl⟩⟩

theorem next_new : v.tab v.next = none := by
  apply eq_none_iff_forall_ne_some.mpr
  intro p hp
  exact absurd (h.pids _ p hp).2 (lt_irrefl _)

/-- Jobs are about processes that exist already. -/
theorem about_lt (hx : v.core i = some x) (ha : x.ctx.About pid) : pid < v.next := by
  have hc := h.ctx i x hx
  cases hctx : x.ctx <;> rw [hctx] at ha hc
  case made p => exact ha ▸ hc.1
  case inserted q => exact ha ▸ hc.1
  case spawned q j => exact ha ▸ hc.1
  case reaping pids => exact (hc pid ha).1
  all_goals exact ha.elim

theorem reap (hp : v.tab pid = some p) (hd : ∀ j, ¬ v.Live pid j) :
    Inv { v with tab := update v.tab pid none, free := dropStack v.free p.kernelStack } := by
  have htab : ∀ q p', update v.tab pid none q = some p' → q ≠ pid ∧ v.tab q = some p' :=
    fun _ _ => of_update_none
  have hsub : ∀ g n, View.hold { v with tab := update v.tab pid none } g = some n → v.hold g = some n := by
    intro g n hg
    cases g with
    | process q =>
      obtain ⟨p', hp', rfl⟩ := of_map hg
      simp [hold, (htab q p' hp').2]
    | thread j => exact hg
    | maker j => exact hg
  have hi : Inv { v with tab := update v.tab pid none } := by
    refine ⟨h.alive, h.owner, h.user, h.stackOwners.sub hsub, ?_, ?_, h.jobs, ?_⟩
    · intro q p' hq
      exact h.pids q p' (htab q p' hq).2
    · intro q j y hy hk hdy
      obtain ⟨p', hp', hr⟩ := h.live q j y hy hk hdy
      have hne : q ≠ pid := fun e => hd j (e ▸ ⟨y, hy, hk, hdy⟩)
      exact ⟨p', (update_of_ne hne ..).trans hp', hr⟩
    · intro j y hy
      exact (h.ctx j y hy).mono le_rfl (fun _ _ _ hl => hl) fun q _ _ p' hq => ⟨p', (htab q p' hq).2, .inl rfl⟩
  exact hi.withFree
    (hi.stackOwners.putBack (h.stackOwners.loosen (h := .process pid) (by simp [hold, hp]) (by simp [hold]) hsub))

/-- A process that no thread runs yet joins the table, with a stack that was in no one's hands. -/
theorem addEntry (hlt : p.pid < v.next) (hnone : v.tab p.pid = none) (ht : p.threadIdx = none)
    (hl : Loose v.hold v.free p.kernelStack) (hun : ∀ j y, v.core j = some y → y.ctx.About p.pid →
      y.ctx = .inserted p.pid) :
    Inv { v with tab := update v.tab p.pid (some p) } := by
  have hother : ∀ q, q ≠ p.pid → update v.tab p.pid (some p) q = v.tab q := fun q hq => update_of_ne hq ..
  refine ⟨h.alive, h.owner, h.user, ?_, ?_, ?_, h.jobs, ?_⟩
  · refine h.stackOwners.give hl (h := .process p.pid) (by simp [hold]) ?_
    intro g hg n hn
    cases g with
    | process q => simpa [hold, hother q fun e => hg (e ▸ rfl)] using hn
    | thread j => exact hn
    | maker j => exact hn
  · intro q p' hq
    obtain ⟨rfl, ⟨⟩⟩ | ⟨-, hq⟩ := update_eq_some hq
    · exact ⟨rfl, hlt⟩
    · exact h.pids q p' hq
  · intro q j y hy hk hd
    obtain ⟨p', hp', hr⟩ := h.live q j y hy hk hd
    have hq : q ≠ p.pid := by
      intro e
      rw [e, hnone] at hp'
      cases hp'
    exact ⟨p', (hother q hq).trans hp', hr⟩
  · intro j y hy
    by_cases ha : y.ctx.About p.pid
    · have hc := h.ctx j y hy
      rw [hun j y hy ha] at hc ⊢
      refine ⟨hlt, ?_, hc.2.2⟩
      intro p' hp'
      simp only [Function.update_self] at hp'
      cases hp'
      exact ht
    · refine (h.ctx j y hy).mono le_rfl (fun _ _ _ hl => hl) fun q hq _ p' hp' => ⟨p', ?_, .inl rfl⟩
      exact (hother q fun e => ha (e ▸ hq)).symm.trans hp'

theorem makeProcess (hx : v.core i = some x) (hk : x.kind = .kernel) (hl : Loose v.hold v.free p.kernelStack)
    (hp : p.pid = v.next) (ht : p.threadIdx = none) :
    Inv ({ v with next := v.next + 1 }.setCore i { x with ctx := .made p }) := by
  have hnew : ∀ j y pid, v.core j = some y → y.ctx.About pid → p.pid ≠ pid := by
    intro j y pid hy ha
    have := h.about_lt hy ha
    omega
  refine h.bump.rewrite hx { x with ctx := .made p } rfl rfl rfl id (h.alive i x hx) ?_ ?_ (.inl hk) ?_
  · refine h.stackOwners.give hl (h := .maker i) (by simp [hold_setCore, Ctx.madeStack]) fun g hg n hn => ?_
    simp only [hold_setCore, if_neg hg] at hn
    split_ifs at hn with h1
    · cases hn
      simp [h1, hold, hx, hk]
    · exact hn
  · exact ⟨hp ▸ Nat.lt_succ_self _, hp ▸ h.next_new, ht⟩
  · intro pid j y _ hy
    refine ⟨fun hm ha => hnew j y pid hy ha (some.inj hm), fun ha hm => ?_⟩
    exact hnew j y pid hy (Ctx.about_of_making hm) ha.symm

theorem insert (hx : v.core i = some x) (p' : Process) (hc : x.ctx = .made p) (hpid : p'.pid = p.pid)
    (hstack : p'.kernelStack = p.kernelStack) (hthread : p'.threadIdx = p.threadIdx) :
    Inv { v.setCore i { x with ctx := .inserted p.pid } with tab := update v.tab p.pid (some p') } := by
  obtain ⟨hlt, hnone, ht⟩ : v.CtxOk (.made p) := hc ▸ h.ctx i x hx
  have hk : x.kind = .kernel := by
    cases hk : x.kind with
    | kernel => rfl
    | userProcess q =>
      have := h.user i x q hx hk
      rw [hc] at this
      cases this
  have hdead : ∀ j, ¬ v.Live p.pid j := by
    intro j hl
    obtain ⟨y, hy, hky, hd⟩ := hl
    obtain ⟨q, hq, -⟩ := h.live _ j y hy hky hd
    rw [hnone] at hq
    cases hq
  have halone : v.Alone i (.inserted p.pid) := by
    intro pid j y hj hy
    obtain ⟨h1, h2⟩ := h.alone hx pid j y hj hy
    rw [hc] at h1 h2
    exact ⟨h1, h2⟩
  have hok : v.CtxOk (.inserted p.pid) := ⟨hlt, fun q hq => absurd (hnone.symm.trans hq) (by simp), hdead⟩
  -- the thread first lets go of the stack, then the table takes it
  have hi := h.goto hx hok rfl (.inl hk) halone
  have hloose : Loose (v.setCore i { x with ctx := .inserted p.pid }).hold v.free p'.kernelStack := by
    rw [hstack]
    refine h.stackOwners.loosen (h := .maker i) ?_ ?_ ?_
    · simp [hold, hx, hc, Ctx.madeStack]
    · simp [hold, setCore_self, Ctx.madeStack]
    · intro g n hg
      rw [hold_setCore] at hg
      split_ifs at hg with h1
      · cases hg
        simp [h1, hold, hx, hk]
      · cases hg
      · exact hg
  have he := hi.addEntry (p := p') (hpid ▸ hlt) (hpid ▸ hnone) (hthread.trans ht) hloose ?_
  · rw [hpid] at he
    exact he
  · intro j y hy ha
    rw [hpid] at ha ⊢
    rcases setCore_cases hy with ⟨-, rfl⟩ | ⟨hj, hy⟩
    · rfl
    · exact absurd ha ((halone p.pid j y hj hy).1 rfl)

theorem spawnUser (i id : Nat) (hp : v.tab pid = some p) (ht : p.threadIdx = none)
    (hun : ∀ j y, v.core j = some y → ¬ y.ctx.About pid) (hc : c.isUser = true) :
    Inv (v.setCore i ⟨id, c, .userProcess pid, p.kernelStack, false, false⟩) := by
  obtain ⟨hs, hm, ha, hok⟩ := plain (.inl hc)
  have hlive : ∀ q j, q ≠ pid → View.Live (v.setCore i ⟨id, c, .userProcess pid, p.kernelStack, false, false⟩) q j →
      v.Live q j := by
    intro q j hq hl
    obtain ⟨y, hy, hk, hd⟩ := hl
    rcases setCore_cases hy with ⟨-, rfl⟩ | ⟨-, hy⟩
    · exact absurd (SchedulableKind.userProcess.inj hk).symm hq
    · exact ⟨y, hy, hk, hd⟩
  apply h.setCore
  · intro hk
    cases hk
  · intro ho
    cases ho
  · intro q _
    exact hc
  · exact h.stacks_setCore (fun hk => absurd hk (by simp)) fun n hn => absurd hn (by simp [hs])
  · intro q hk _
    cases hk
    exact ⟨p, hp, rfl, .inr ht⟩
  · intro q j y _ _
    exact ⟨fun e => absurd (hm ▸ e) (by simp), fun e => absurd e (ha q)⟩
  · exact hok _
  · intro j y hy
    refine (h.ctx j y hy).mono le_rfl (fun q hq k => hlive q k ?_) fun _ _ _ p' hp' => ⟨p', hp', .inl rfl⟩
    intro e
    exact hun j y hy (e ▸ hq)

theorem alter_keep
    (hf : ∀ p, (f p).pid = p.pid ∧ (f p).kernelStack = p.kernelStack ∧ (f p).threadIdx = p.threadIdx) :
    Inv (v.alter pid f) := by
  apply h.alter
  · exact fun p => ⟨(hf p).1, (hf p).2.1⟩
  · intro p j _ ht
    rw [(hf p).2.2]
    exact ht
  · exact fun p => .inl (hf p).2.2

theorem record (hlive : ∀ j', v.Live pid j' → j' = j) (hun : ∀ k y, v.core k = some y → y.ctx.About pid →
      y.ctx.making = none) :
    Inv (v.alter pid ({ · with threadIdx := some j })) := by
  apply h.alter
  · exact fun p => ⟨rfl, rfl⟩
  · intro p j' hl _
    rw [hlive j' hl]
    exact .inl rfl
  · exact fun p => .inr ⟨by simp, hun⟩

theorem startThread (hx : v.core i = some x) (hk : x.kind = .kernel) (hc : x.ctx = .inserted pid)
    (hp : v.tab pid = some p) (hne : i ≠ j) :
    Inv ((v.setCore j ⟨id, .user 0, .userProcess pid, p.kernelStack, false, false⟩).setCore i
      { x with ctx := .spawned pid j }) := by
  obtain ⟨hlt, hthread, hdead⟩ : v.CtxOk (.inserted pid) := hc ▸ h.ctx i x hx
  have hal : v.Alone i (.inserted pid) := hc ▸ h.alone hx
  -- the maker lays its job down, the process gets its thread, the job is taken up again
  rw [← setCore_between hne { x with ctx := .kernel }]
  have h1 := h.goto_plain (c := .kernel) hx (.inr (.inl rfl)) (.inl hk)
  have hab : ∀ l y, (v.setCore i { x with ctx := .kernel }).core l = some y → ¬ y.ctx.About pid := by
    intro l y hy ha
    rcases setCore_cases hy with ⟨-, rfl⟩ | ⟨hl, hy⟩
    · exact ha
    · exact (hal pid l y hl hy).1 rfl ha
  have h2 := h1.spawnUser j id (c := .user 0) hp (hthread p hp) hab rfl
  refine h2.goto (x := { x with ctx := .kernel }) ?_ ⟨hlt, hthread, ?_⟩ rfl (.inl hk) ?_
  · rw [setCore_of_ne _ hne, setCore_self]
  · intro l hl
    obtain ⟨y, hy, hky, hd⟩ := hl
    rcases setCore_cases hy with ⟨e, -⟩ | ⟨-, hy⟩
    · exact e
    · rcases setCore_cases hy with ⟨rfl, rfl⟩ | ⟨-, hy⟩
      · exact absurd ⟨x, hx, hky, hd⟩ (hdead l)
      · exact absurd ⟨y, hy, hky, hd⟩ (hdead l)
  · intro q l y hl hy
    rcases setCore_cases hy with ⟨-, rfl⟩ | ⟨-, hy⟩
    · exact ⟨fun _ ha => ha, fun _ => by simp [Ctx.making]⟩
    · rw [setCore_of_ne _ hl] at hy
      exact hal q l y hl hy

theorem finish (hx : v.core i = some x) (hk : x.kind = .kernel) (hc : x.ctx = .spawned pid j) :
    Inv ((v.alter pid ({ · with threadIdx := some j })).setCore i { x with ctx := .kernel }) := by
  obtain ⟨-, -, hlive⟩ : v.CtxOk (.spawned pid j) := hc ▸ h.ctx i x hx
  have hal : v.Alone i (.spawned pid j) := hc ▸ h.alone hx
  have h1 := h.goto_plain (c := .kernel) hx (.inr (.inl rfl)) (.inl hk)
  refine h1.record ?_ ?_
  · intro l hl
    obtain ⟨y, hy, hky, hd⟩ := hl
    rcases setCore_cases hy with ⟨rfl, rfl⟩ | ⟨-, hy⟩
    · exact hlive l ⟨x, hx, hky, hd⟩
    · exact hlive l ⟨y, hy, hky, hd⟩
  · intro l y hy ha
    rcases setCore_cases hy with ⟨-, rfl⟩ | ⟨hl, hy⟩
    · rfl
    · exact absurd ha ((hal pid l y hl hy).1 rfl)

theorem spawnKernel {n : Nat} {owns : Bool}
    (hl : Loose v.hold v.free n) : Inv (v.setCore i ⟨id, .kernel, .kernel, n, owns, false⟩) := by
  have hlive : ∀ q j, View.Live (v.setCore i ⟨id, .kernel, .kernel, n, owns, false⟩) q j → v.Live q j := by
    intro q j hl
    obtain ⟨y, hy, hk, hd⟩ := hl
    rcases setCore_cases hy with ⟨-, rfl⟩ | ⟨-, hy⟩
    · cases hk
    · exact ⟨y, hy, hk, hd⟩
  apply h.setCore
  · exact fun _ => rfl
  · exact fun _ => rfl
  · intro q hk
    cases hk
  · refine h.stackOwners.give hl (h := .thread i) ?_ ?_
    · simp [hold, setCore_self]
    · intro g hg m hm
      simp only [hold_setCore, if_neg hg] at hm
      split_ifs at hm
      · cases hm
      · exact hm
  · intro q hk
    cases hk
  · intro q j y _ _
    exact ⟨fun e => absurd e (by simp [Ctx.making]), fun e => e.elim⟩
  · trivial
  · intro j y hy
    exact (h.ctx j y hy).mono le_rfl (fun q _ k => hlive q k) fun _ _ _ p' hp' => ⟨p', hp', .inl rfl⟩

end Inv

end View

end Ostoo.Proc
