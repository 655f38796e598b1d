/-
  Ostoo.Fd.Exact — the reference counts over whole runs.

  Every call starts and ends with nothing in hand, so the books stay balanced unless an object
  in hand is dropped without a close. The code does that with a service name that is taken
  (`svc_register`), an fd table that is full (`svc_lookup`, a received message), a completion
  queue that is full, and a port destroyed with completions in it; and a process killed by a
  fault keeps its ends open, since its table is never closed. In runs without these
  (`Tight`) the counts are exact, and no close goes below 0 (`counts_exact`).
-/

import Ostoo.Fd.Balance

namespace Ostoo.Fd

open Ostoo.Lib Ostoo.Ipc List

namespace Balanced

variable {b k k' : Kernel} {closed hand : List FdObject}

/-! ## Runs -/

theorem init : Balanced .init [] .init [] := by
  refine ⟨fun o _ => ?_, fun o _ => le_refl _, fun q p hq => ?_⟩
  · cases o <;> rfl
  · cases hq

theorem step {e : Ev} (h : Balanced b closed k []) (hg : Tight k e) (hs : Fd.step k e = some k') :
    Balanced b (closing k e ++ closed) k' [] := by
  have hallowed : e.Allowed terms k := Ev.allowed (fun _ => trivial) (fun _ _ => trivial) k e
  exact (runs b e.process).step h (fun _ => hg) hallowed (Ev.changes (fun _ _ => trivial) k e) hs

theorem rebase (h : Balanced b closed k hand) : Balanced k [] k hand := ⟨h.exact, fun _ _ => le_refl _, h.shaped⟩

theorem of_reach (h : machine.Reach Tight k) : Balanced k [] k [] := by
  refine h.inv (I := fun k => Balanced k [] k []) (fun k h0 => ?_) fun _ _ _ hb hg hs => (hb.step hg hs).rebase
  cases h0
  exact init

end Balanced

/-! ## Closing what there is -/

namespace Kernel

variable {k : Kernel}

theorem close_isSome {o : FdObject} (h : o.counted → 0 < k.count o) : ∃ res k', k.close o = some (res, k') := by
  cases o with
  | pipeWriter q =>
    have hpos := h rfl
    cases hq : k.pipes.get? q with
    | none => simp [count, hq] at hpos
    | some p =>
      rw [count_pipe hq] at hpos
      simp [close, hq, ne_of_gt hpos]
  | channelSend c =>
    have hpos := h rfl
    cases hc : k.channels.get? c with
    | none => simp [count, hc] at hpos
    | some ch =>
      rw [(count_channel hc).1] at hpos
      obtain ⟨⟨act, chan, woken⟩, hr⟩ := closeSend_isSome hpos
      cases act <;> simp [close, hc, hr]
  | channelRecv c =>
    have hpos := h rfl
    cases hc : k.channels.get? c with
    | none => simp [count, hc] at hpos
    | some ch =>
      rw [(count_channel hc).2] at hpos
      obtain ⟨⟨act, _, _⟩, hr⟩ := closeRecv_isSome hpos
      cases act <;> simp [close, hc, hr]
  | _ => exact ⟨_, _, rfl⟩

theorem closeObjects_isSome {l : List FdObject} (h : ∀ o, o.counted → l.count o ≤ k.count o) :
    (k.closeObjects l).isSome := by
  induction l generalizing k with
  | nil => rfl
  | cons o l ih =>
    have hpos : o.counted → 0 < k.count o := by
      intro ho
      have := h o ho
      rw [count_cons_self] at this
      omega
    obtain ⟨res, k1, hclose⟩ := close_isSome hpos
    rw [closeObjects, closeObject, hclose]
    refine ih fun o' ho => ?_
    have hle := h o' ho
    have hdown := (close_spec hclose o' ho).1
    rw [count_cons] at hle
    rw [(forget_spec k1 res o').1]
    simp only [beq_iff_eq] at hle
    omega

end Kernel

/-- In every run in which nothing is lost, each count is the number of live references, and any of
    them can be closed. -/
theorem counts_exact {k : Kernel} (h : machine.Reach Tight k) :
    (∀ o, o.counted → k.count o = k.refs o) ∧
      ∀ l : List FdObject, (∀ o, o.counted → l.count o ≤ k.refs o) → (k.closeObjects l).isSome := by
  have hexact : ∀ o, o.counted → k.count o = k.refs o := fun o ho => (Balanced.of_reach h).exact o ho
  exact ⟨hexact, fun l hl => Kernel.closeObjects_isSome fun o ho => hexact o ho ▸ hl o ho⟩

/-- A process makes a channel, registers its send end as a service and forks. -/
def registerTrace : List Ev := [.spawn 1, .ipcCreate 1 0 4096 4 0, .svcRegister 1 "net" 3, .clone 1 2]

theorem counts_exact_register : ∃ k, machine.run .init registerTrace = some k ∧ k.count (.channelSend 0) = 3 ∧
    k.refs (.channelSend 0) = 3 ∧ (k.closeObjects (replicate 3 (.channelSend 0))).isSome := by
  obtain ⟨k, hr, hcount⟩ : ∃ k, machine.run .init registerTrace = some k ∧ k.count (.channelSend 0) = 3 := by decide
  have hreach : machine.Reach Tight k :=
    Machine.reach_of_run Kernel.init registerTrace rfl ⟨trivial, trivial, .inl rfl, trivial, trivial⟩ hr
  obtain ⟨hexact, hclose⟩ := counts_exact hreach
  have hrefs : k.refs (.channelSend 0) = 3 := (hexact _ rfl).symm.trans hcount
  refine ⟨k, hr, hcount, hrefs, hclose _ fun o _ => ?_⟩
  rw [count_replicate]
  split
  · rename_i he
    rw [← eq_of_beq he, hrefs]
  · exact Nat.zero_le _

/-- The receiver's process keeps only the receive end, the sender's has both and is killed by a fault. -/
def faultTrace : List Ev := [.spawn 1, .ipcCreate 1 0 4096 4 0, .clone 1 2, .close 1 3, .faultKill 2, .reap 2]

/-- No reference to the send end is left, and the channel still counts one: the receiver never sees EPIPE. -/
theorem fault_kill_keeps_count : ∃ k, machine.Reachable k ∧ k.count (.channelSend 0) = 1 ∧ k.refs (.channelSend 0) = 0 ∧
    k.refs (.channelRecv 0) = 1 :=
  Machine.exists_reachable Kernel.init faultTrace rfl (by decide)

end Ostoo.Fd
