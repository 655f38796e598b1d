/-
  Ostoo.Ipc.Closing — what the last close of one end does for the waiters of the other.

  A thread blocked in a receive and a completion port armed for one can be registered at
  the same time. `close_send` looks at the thread first and, if there is one, never at
  the port (`close_recv` alike), so the port stays registered with nobody left to send.
  Exactly then a close misses a waiter (`closeSend_releases`, `closeRecv_releases`); as
  long as it does not happen, nobody is registered opposite a closed end
  (`closing_releases_waiters`).
-/

import Ostoo.Ipc.Buffered

namespace Ostoo.Ipc.Closing

open Ostoo.Lib Channel
open Ostoo.Ipc.Buffered (Ev)

variable {α : Type}

section

variable (c : Channel α)

/-- The channel alone, under its calls. -/
def step : Ev α → Option (Channel α)
  | .trySend t env nonblock => some (c.trySend t env nonblock).chan
  | .tryRecv t nonblock => some (c.tryRecv t nonblock).chan
  | .armSend info => some (c.armSend info).chan
  | .armRecv info => some (c.armRecv info).chan
  | .closeSend => c.closeSend.map (·.chan)
  | .closeRecv => c.closeRecv.map (·.chan)
  | .dupSend => some c.dupSend
  | .dupRecv => some c.dupRecv

def machine (α : Type) : Machine (Channel α) (Ev α) where
  start := fun c => ∃ capacity, c = .new capacity
  step := step

/-! ## The closes -/

/-- The close of the last send end wakes the blocked receiver and hands back the armed port. -/
def SendCloseReleases : Prop :=
  ∀ r, c.closeSend = some r → (∀ t, c.blockedReceiver = some t → r.woken = some t) ∧
    ∀ pr, c.pendingPort = some pr → r.action = .notifyPort pr

def RecvCloseReleases : Prop :=
  ∀ r, c.closeRecv = some r → (∀ t, c.blockedSender = some t → r.woken = some t) ∧
    ∀ ps, c.pendingSendPort = some ps → r.action = .notifyPort ps

def ReceiversWait : Prop := c.blockedReceiver ≠ none ∧ c.pendingPort ≠ none

def SendersWait : Prop := c.blockedSender ≠ none ∧ c.pendingSendPort ≠ none

end

variable {c c' : Channel α}

theorem closeSend_releases (h : c.sendCount = 1) : SendCloseReleases c ↔ ¬ ReceiversWait c := by
  unfold SendCloseReleases ReceiversWait closeSend
  rw [h]
  cases c.blockedReceiver <;> cases c.pendingPort <;> simp

theorem closeRecv_releases (h : c.recvCount = 1) : RecvCloseReleases c ↔ ¬ SendersWait c := by
  unfold RecvCloseReleases SendersWait closeRecv
  rw [h]
  cases c.blockedSender <;> cases c.pendingSendPort <;> simp

/-! ## Runs -/

/-- No close of a last end finds both a thread and a port waiting opposite. -/
def OneWaiter (c : Channel α) : Ev α → Prop
  | .closeSend => c.sendCount = 1 → ¬ ReceiversWait c
  | .closeRecv => c.recvCount = 1 → ¬ SendersWait c
  | _ => True

/-- Nobody is registered opposite a closed end. -/
structure Clear (c : Channel α) : Prop where
  receivers : c.sendClosed → c.blockedReceiver = none ∧ c.pendingPort = none
  senders : c.recvClosed → c.blockedSender = none ∧ c.pendingSendPort = none

variable (h : Clear c) {w : Option Nat} {env : α}
include h

theorem Clear.put {post : Option (PendingPortRecv × α)} (hput : c.Put env c' post w) : Clear c' := by
  cases hput with
  | handover | queueWake => exact ⟨fun hc => ⟨rfl, (h.receivers hc).2⟩, h.senders⟩
  | handoverPort | queuePort => exact ⟨fun hc => ⟨(h.receivers hc).1, rfl⟩, h.senders⟩
  | queue => exact ⟨h.receivers, h.senders⟩

theorem Clear.take {ps : Option (PendingPortSend α)} (htake : c.Take c' env ps w) : Clear c' := by
  cases htake with
  | slot | popWake => exact ⟨h.receivers, fun hc => ⟨rfl, (h.senders hc).2⟩⟩
  | armed | popRefill => exact ⟨h.receivers, fun hc => ⟨(h.senders hc).1, rfl⟩⟩
  | pop => exact ⟨h.receivers, h.senders⟩

theorem trySend_clear (t : Nat) (env : α) (nonblock : Bool) : Clear (c.trySend t env nonblock).chan := by
  generalize hr : c.trySend t env nonblock = r
  cases trySend_cases hr with
  | put _ hput => exact h.put hput
  | block hopen | blockWithMsg hopen => exact ⟨h.receivers, fun hc => absurd (hopen.symm.trans hc) Bool.false_ne_true⟩
  | peerClosed | wouldBlock => exact h

theorem tryRecv_clear (t : Nat) (nonblock : Bool) : Clear (c.tryRecv t nonblock).chan := by
  generalize hr : c.tryRecv t nonblock = r
  cases tryRecv_cases hr with
  | take htake => exact h.take htake
  | block _ hopen => exact ⟨fun hc => absurd (hopen.symm.trans hc) Bool.false_ne_true, h.senders⟩
  | peerClosed | wouldBlock => exact h

theorem armSend_clear (info : PendingPortSend α) : Clear (c.armSend info).chan := by
  generalize hr : c.armSend info = r
  cases armSend_cases hr with
  | put _ hput => exact h.put hput
  | armed hopen => exact ⟨h.receivers, fun hc => absurd (hopen.symm.trans hc) Bool.false_ne_true⟩
  | peerClosed => exact h

theorem armRecv_clear (info : PendingPortRecv) : Clear (c.armRecv info).chan := by
  generalize hr : c.armRecv info = r
  cases armRecv_cases hr with
  | take htake => exact h.take htake
  | armed _ hopen => exact ⟨fun hc => absurd (hopen.symm.trans hc) Bool.false_ne_true, h.senders⟩
  | peerClosed => exact h

theorem closeSend_clear {r : Res α CloseSendAction}
    (hg : c.sendCount = 1 → ¬ ReceiversWait c) (hr : c.closeSend = some r) : Clear r.chan := by
  cases closeSend_cases hr with
  | kept => exact ⟨h.receivers, h.senders⟩
  | wake hone hbr =>
    refine ⟨fun _ => ⟨rfl, ?_⟩, h.senders⟩
    simp_all [ReceiversWait]
  | notify _ hbr => exact ⟨fun _ => ⟨hbr, rfl⟩, h.senders⟩
  | nobody _ hbr hp => exact ⟨fun _ => ⟨hbr, hp⟩, h.senders⟩

theorem closeRecv_clear {r : Res α (CloseRecvAction α)}
    (hg : c.recvCount = 1 → ¬ SendersWait c) (hr : c.closeRecv = some r) : Clear r.chan := by
  cases closeRecv_cases hr with
  | kept => exact ⟨h.receivers, h.senders⟩
  | wake hone hb =>
    refine ⟨h.receivers, fun _ => ⟨rfl, ?_⟩⟩
    simp_all [SendersWait]
  | notify _ hb => exact ⟨h.receivers, fun _ => ⟨hb, rfl⟩⟩
  | nobody _ hb hps => exact ⟨h.receivers, fun _ => ⟨hb, hps⟩⟩

theorem step_clear {e : Ev α} (hg : OneWaiter c e) (hs : step c e = some c') : Clear c' := by
  cases e with
  | trySend t env nonblock => cases hs; exact trySend_clear h t env nonblock
  | tryRecv t nonblock => cases hs; exact tryRecv_clear h t nonblock
  | armSend info => cases hs; exact armSend_clear h info
  | armRecv info => cases hs; exact armRecv_clear h info
  | closeSend =>
    obtain ⟨r, hr, rfl⟩ := of_map hs
    exact closeSend_clear h hg hr
  | closeRecv =>
    obtain ⟨_, hr, rfl⟩ := of_map hs
    exact closeRecv_clear h hg hr
  | dupSend | dupRecv => cases hs; exact ⟨h.receivers, h.senders⟩

omit h

/-- A close of the last end releases every waiter opposite exactly when not both a thread
    and a port wait there; and in runs in which no such close happens, nobody is ever
    registered opposite a closed end. -/
theorem closing_releases_waiters (α : Type) :
    (∀ c : Channel α, (machine α).Reachable c →
      (c.sendCount = 1 → (SendCloseReleases c ↔ ¬ ReceiversWait c)) ∧
      (c.recvCount = 1 → (RecvCloseReleases c ↔ ¬ SendersWait c))) ∧
    ∀ c : Channel α, (machine α).Reach OneWaiter c → Clear c := by
  refine ⟨fun c _ => ⟨closeSend_releases, closeRecv_releases⟩, fun c h => ?_⟩
  refine Machine.Reach.inv (I := Clear) ?_ (fun c e c' hi hg hs => step_clear hi hg hs) h
  rintro - ⟨-, rfl⟩
  exact ⟨fun hc => (nomatch hc), fun hc => (nomatch hc)⟩

/-- A receiver blocks on a rendezvous channel and the send end is closed. -/
theorem closing_releases_waiters_one_receiver :
    ∃ c : Channel Nat, (machine Nat).Reach OneWaiter c ∧ c.sendClosed = true ∧ Clear c := by
  have hreach : (machine Nat).Reach OneWaiter ((((new 0).tryRecv 1 false).chan.closeSend.map (·.chan)).get rfl) :=
    .step .closeSend (.step (.tryRecv 1 false) (.start ⟨0, rfl⟩) trivial rfl) (fun _ h => h.2 rfl) rfl
  exact ⟨_, hreach, rfl, (closing_releases_waiters Nat).2 _ hreach⟩

/-- A thread blocks in a receive, a port is armed for one, and the last send end closes:
    the thread is woken, the port stays registered. -/
theorem closeSend_forgets_the_port :
    ∃ c : Channel Nat, (machine Nat).Reachable c ∧ c.sendCount = 1 ∧ c.pendingPort = some ⟨7, 0, 0⟩ ∧
      c.closeSend.map
        (fun r => (r.woken, r.chan.sendClosed, r.chan.pendingPort, r.chan.pendingSend, r.chan.pendingSendPort)) =
        some (some 1, true, some ⟨7, 0, 0⟩, none, none) := by
  have hrun := Machine.reachable_of_run (M := machine Nat) (.new 0) [.tryRecv 1 false, .armRecv ⟨7, 0, 0⟩] ⟨0, rfl⟩ rfl
  exact ⟨_, hrun, rfl, rfl, rfl⟩

end Ostoo.Ipc.Closing
