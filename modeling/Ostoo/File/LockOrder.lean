/-
  Ostoo.File.LockOrder — the locks of pipes and of the process table (`file.rs`, `process.rs`).

  A call is the list of the locks it takes and gives back; the threads are interleaved
  between any two of these. `close` and `on_dup` of a pipe's writer take the pipe's lock
  inside `with_process`. `PipeReader::read` registers its thread before it locks the pipe,
  so as not to do it the other way round, but looks for signals with the pipe locked: where
  a read finds nothing, it and a close can wait for each other
  (`read_and_close_wait_for_each_other`), and without such reads no two calls can
  (`locks_in_order`).

  Left out: the scheduler's locks, and what is done under the two.
-/

import Mathlib.Logic.Function.Basic
import Ostoo.Lib.Machine

namespace Ostoo.File.LockOrder

open Ostoo.Lib

inductive Lock
  | table
  | pipe (i : Nat)
  deriving DecidableEq

inductive Op
  | lock (l : Lock)
  | unlock (l : Lock)
  deriving DecidableEq

def locked (l : Lock) (body : List Op) : List Op := .lock l :: body ++ [.unlock l]

/-- Writers of these pipes are closed or duplicated inside `with_process`. -/
def withProcess (pipes : List Nat) : List Op := locked .table (pipes.flatMap fun i => locked (.pipe i) [])

inductive Call
  /-- A turn of `PipeReader::read`'s loop; `nothing` if the pipe is empty and has a writer. -/
  | read (byKernel : Bool) (pipe : Nat) (nothing : Bool)
  /-- `some pipe` if the fd is a writer's. -/
  | sysClose (pipe : Option Nat)
  | sysDup2 (dup old : Option Nat)
  | closeCloexecFds (pipes : List Nat)
  /-- In `terminate_process`; its other uses of the table are like a `close` of something else. -/
  | closeAllFds (pipes : List Nat)

def Call.ops : Call → List Op
  | read byKernel pipe nothing =>
    let setSignalThread := if byKernel then [] else withProcess []
    setSignalThread ++ locked (.pipe pipe) (if nothing && !byKernel then withProcess [] else []) ++ setSignalThread
  | sysClose pipe => withProcess pipe.toList
  | sysDup2 dup old => withProcess (dup.toList ++ old.toList)
  | closeCloexecFds pipes | closeAllFds pipes => withProcess pipes

structure St where
  holder : Lock → Option Nat
  todo : Nat → List Op

inductive Ev
  | call (t : Nat) (c : Call)
  | go (t : Nat)

def step (s : St) : Ev → Option St
  | .call t c => if s.todo t = [] then some { s with todo := Function.update s.todo t c.ops } else none
  | .go t => match s.todo t with
    | .lock l :: rest =>
      if s.holder l = none then some ⟨Function.update s.holder l (some t), Function.update s.todo t rest⟩ else none
    | .unlock l :: rest => some ⟨Function.update s.holder l none, Function.update s.todo t rest⟩
    | [] => none

def machine : Machine St Ev := ⟨fun s => s = ⟨fun _ => none, fun _ => []⟩, step⟩

/-- A thread with a pipe locked waits for the table, and one with the table locked for that pipe. -/
def Crossed (s : St) : Prop :=
  ∃ t u i, (s.holder (.pipe i) = some t ∧ (s.todo t).head? = some (.lock .table)) ∧
    s.holder .table = some u ∧ (s.todo u).head? = some (.lock (.pipe i))

/-- Reads of processes find something. -/
def FindsSomething (_ : St) : Ev → Prop
  | .call _ (.read byKernel _ nothing) => byKernel = true ∨ nothing = false
  | _ => True

/-- A pipe that is locked is given back at once. -/
def Brief : List Op → Prop
  | [] => True
  | .lock (.pipe i) :: ops => ops.head? = some (.unlock (.pipe i)) ∧ Brief ops
  | _ :: ops => Brief ops

theorem Brief.tail {op : Op} {ops : List Op} (h : Brief (op :: ops)) : Brief ops := by
  rcases op with ⟨_ | i⟩ | l
  · exact h
  · exact h.2
  · exact h

theorem brief_withProcess (pipes : List Nat) : Brief (withProcess pipes) := by
  induction pipes with
  | nil => trivial
  | cons i pipes ih => exact ⟨rfl, ih⟩

theorem brief_ops {s : St} {t : Nat} {c : Call} (h : FindsSomething s (.call t c)) : Brief c.ops := by
  cases c with
  | read byKernel pipe nothing =>
    cases byKernel with
    | true => cases nothing <;> exact ⟨rfl, trivial⟩
    | false =>
      obtain rfl : nothing = false := h.resolve_left nofun
      exact ⟨rfl, trivial⟩
  | _ => exact brief_withProcess _

structure Inv (s : St) : Prop where
  brief : ∀ t, Brief (s.todo t)
  /-- Who has a pipe locked is about to give it back. -/
  held : ∀ t i, s.holder (.pipe i) = some t → (s.todo t).head? = some (.unlock (.pipe i))

theorem Inv.go {s : St} (h : Inv s) {t : Nat} {op : Op} {rest : List Op} (htodo : s.todo t = op :: rest) {l : Lock}
    {o : Option Nat} (hop : op = .lock l ∧ o = some t ∨ op = .unlock l ∧ o = none) :
    Inv ⟨Function.update s.holder l o, Function.update s.todo t rest⟩ := by
  have hb : Brief (op :: rest) := htodo ▸ h.brief t
  refine ⟨fun u => ?_, fun u i hu => ?_⟩
  · rcases eq_or_ne u t with rfl | e
    · simpa using hb.tail
    · simpa [e] using h.brief u
  · rcases eq_or_ne (.pipe i) l with rfl | hl
    · rcases hop with ⟨rfl, rfl⟩ | ⟨rfl, rfl⟩ <;> simp only [Function.update_self] at hu
      · cases hu
        simpa using hb.1
      · cases hu
    · simp only [Function.update_of_ne hl] at hu
      have hhead := h.held u i hu
      rcases eq_or_ne u t with rfl | e
      · rw [htodo] at hhead
        rcases hop with ⟨rfl, -⟩ | ⟨rfl, -⟩
        · cases hhead
        · cases hhead
          exact absurd rfl hl
      · simpa [e] using hhead

theorem Inv.step {s s' : St} {e : Ev} (h : Inv s) (hg : FindsSomething s e) (hs : step s e = some s') : Inv s' := by
  cases e with
  | call t c =>
    obtain ⟨hidle, hs⟩ := of_guard hs
    cases hs
    refine ⟨fun u => ?_, fun u i hu => ?_⟩ <;> rcases eq_or_ne u t with rfl | e
    · simpa using brief_ops hg
    · simpa [e] using h.brief u
    · cases hidle ▸ h.held u i hu
    · simpa [e] using h.held u i hu
  | go t =>
    simp only [LockOrder.step] at hs
    split at hs
    · rename_i htodo
      obtain ⟨-, hs⟩ := of_guard hs
      cases hs
      exact h.go htodo (.inl ⟨rfl, rfl⟩)
    · rename_i htodo
      cases hs
      exact h.go htodo (.inr ⟨rfl, rfl⟩)
    · cases hs

/-- As long as no process's read finds nothing, no two threads wait for each other. -/
theorem locks_in_order {s : St} (h : machine.Reach FindsSomething s) : ¬ Crossed s := by
  have hi : Inv s := h.inv (fun s h0 => h0 ▸ ⟨fun _ => trivial, nofun⟩) fun s e s' hi hg hs => hi.step hg hs
  rintro ⟨t, u, i, ⟨hp, ht⟩, -⟩
  cases ht.symm.trans (hi.held t i hp)

/-- Thread 0 has taken what it read and goes to the table, which thread 1 has locked to close the writer. -/
theorem locks_in_order_after_a_read : ∃ s, s.holder .table = some 1 ∧ (s.todo 0).head? = some (.lock .table) ∧
      ¬ Crossed s :=
  ⟨_, rfl, rfl, locks_in_order (Machine.reach_of_run (M := machine) _
    [.call 0 (.read false 7 false), .call 1 (.sysClose (some 7)), .go 0, .go 0, .go 0, .go 0, .go 1]
    rfl ⟨.inr rfl, trivial, trivial, trivial, trivial, trivial, trivial, trivial⟩ rfl)⟩

/-- Thread 0 found the pipe empty and looks for signals while thread 1 closes the writer. -/
theorem read_and_close_wait_for_each_other : ∃ s, machine.Reachable s ∧ Crossed s :=
  ⟨_, Machine.reach_of_run (M := machine) _ [.call 0 (.read false 7 true), .call 1 (.sysClose (some 7)), .go 0, .go 0,
    .go 0, .go 1] rfl
    ⟨trivial, trivial, trivial, trivial, trivial, trivial, trivial⟩ rfl, 0, 1, 7, ⟨rfl, rfl⟩, rfl, rfl⟩

end Ostoo.File.LockOrder
