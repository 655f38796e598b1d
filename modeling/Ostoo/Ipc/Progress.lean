/-
  Ostoo.Ipc.Progress — no receiver waits while a message does.

  Once all woken threads have run, a waiting receiver (a thread in `blocked_receiver`, an
  armed `OP_IPC_RECV`) and an undelivered message (queued, in `pending_send`, armed)
  should exclude each other, and on a buffered channel a send should stay armed only
  while the queue is full. A receive that frees a place serves the blocked sender or the
  armed send, not both, and moves an armed send into the queue without looking for an
  armed receive (`an_armed_receive_misses_a_queued_message`). So both can fail. They hold in
  the runs in which a receive that takes a message from the queue while a send is armed finds
  neither a blocked sender nor an armed receive, and no thread is woken from elsewhere
  (`quiet_progress`).
-/

import Mathlib.Data.List.Nodup
import Ostoo.Ipc.Moves
import Ostoo.Ipc.Threads

namespace Ostoo.Ipc.Progress

open Ostoo.Lib List Channel
open Ostoo.Ipc.Threads
open Function (update update_of_ne update_self)

variable {α : Type}

/-- A receive that pops the queue while a send is armed finds no blocked sender and no armed receive. -/
def Clean (c : Channel α) : Prop :=
  0 < c.capacity → c.queue ≠ [] → c.pendingSendPort.isSome → c.blockedSender = none ∧ c.pendingPort = none

/-- Receives are clean, and nobody but the channel wakes a thread that sleeps in a call. -/
def CleanPop (s : St) : Ev → Prop
  | .recv _ _ | .portRecv _ => Clean s.chan
  | .resume t => s.th t = .recvWait true → Clean s.chan
  | .unblock t => (s.th t).asleep = false
  | _ => True

/-! ## The channel alone -/

structure ChanOk (c : Channel α) : Prop where
  noSlot : 0 < c.capacity → c.pendingSend = none
  noQueue : c.capacity = 0 → c.queue = []
  armedFull : c.queue.length < c.capacity → c.pendingSendPort = none
  starved : c.blockedReceiver.isSome → c.queue = [] ∧ c.pendingSend = none ∧ c.pendingSendPort = none
  port : c.capacity = 0 → c.pendingPort.isSome → c.pendingSendPort = none

/-- The messages that a receiver could have now. -/
def backlog (c : Channel α) : Nat := c.queue.length + c.pendingSend.toList.length

variable {c : Channel α}

variable {c' : Channel α} {env : α} {w : Option Nat} {ps : Option (PendingPortSend α)} {r : Res α CloseSendAction}

variable (hc : ChanOk c) {post : Option (PendingPortRecv × α)}
include hc

theorem ChanOk.put (h : c.Put env c' post w) : ChanOk c' := by
  cases h with
  | handover hcap hr => exact ⟨fun h => absurd hcap (Nat.ne_of_gt h), hc.noQueue, hc.armedFull, nofun, hc.port⟩
  | handoverPort hcap hr hp => exact ⟨hc.noSlot, hc.noQueue, hc.armedFull, hc.starved, nofun⟩
  | queueWake hroom hr => exact ⟨hc.noSlot, fun h => absurd h (Nat.ne_of_gt (Nat.zero_lt_of_lt hroom)),
      fun _ => hc.armedFull hroom, nofun, hc.port⟩
  | queuePort hroom hr hp hq =>
    exact ⟨hc.noSlot, fun h => absurd h (Nat.ne_of_gt (Nat.zero_lt_of_lt hroom)), fun _ => hc.armedFull hroom,
      fun h => by simp [hr] at h, nofun⟩
  | queue hroom hr hp =>
    exact ⟨hc.noSlot, fun h => absurd h (Nat.ne_of_gt (Nat.zero_lt_of_lt hroom)), fun _ => hc.armedFull hroom,
      fun h => by simp [hr] at h, hc.port⟩

theorem ChanOk.take (hclean : Clean c) (h : c.Take c' env ps w) : ChanOk c' := by
  have hstarved : ∀ {x : α} {rest : List α}, c.queue = x :: rest → c.blockedReceiver.isSome = true → False := by
    intro x rest hq hr
    rw [(hc.starved hr).1] at hq
    cases hq
  cases h with
  | slot hcap hp =>
    exact ⟨fun _ => rfl, hc.noQueue, hc.armedFull, fun h => ⟨(hc.starved h).1, rfl, (hc.starved h).2.2⟩, hc.port⟩
  | armed hcap hp hps =>
    exact ⟨hc.noSlot, hc.noQueue, fun _ => rfl, fun h => ⟨(hc.starved h).1, (hc.starved h).2.1, rfl⟩, fun _ _ => rfl⟩
  | popWake hcap hq hb =>
    refine ⟨hc.noSlot, fun h => absurd h (Nat.ne_of_gt hcap), fun _ => ?_, fun h => (hstarved hq h).elim, hc.port⟩
    cases hps : c.pendingSendPort with
    | none => rfl
    | some ps =>
      have := (hclean hcap (by simp [hq]) (by simp [hps])).1
      rw [hb] at this
      cases this
  | popRefill hcap hq hb hps =>
    exact ⟨hc.noSlot, fun h => absurd h (Nat.ne_of_gt hcap), fun _ => rfl, fun h => (hstarved hq h).elim,
      fun _ _ => rfl⟩
  | pop hcap hq hb hps =>
    exact ⟨hc.noSlot, fun h => absurd h (Nat.ne_of_gt hcap), fun _ => hps, fun h => (hstarved hq h).elim, hc.port⟩

theorem trySend_ok (t : Nat) (env : α) (nonblock : Bool) : ChanOk (c.trySend t env nonblock).chan := by
  generalize hr : c.trySend t env nonblock = r
  cases trySend_cases hr with
  | put _ h => exact hc.put h
  | block _ hcap hbr hp =>
    exact ⟨fun h => absurd hcap (Nat.ne_of_gt h), hc.noQueue, hc.armedFull, fun h => by simp [hbr] at h, hc.port⟩
  | blockWithMsg => exact ⟨hc.noSlot, hc.noQueue, hc.armedFull, hc.starved, hc.port⟩
  | peerClosed | wouldBlock => exact hc

theorem armSend_ok (info : PendingPortSend α) : ChanOk (c.armSend info).chan := by
  generalize hr : c.armSend info = r
  cases armSend_cases hr with
  | peerClosed => exact hc
  | put _ h => exact hc.put h
  | armed _ hfull =>
    refine ⟨hc.noSlot, hc.noQueue, fun h => ?_, fun h => ?_, fun hcap h => ?_⟩
    · rcases hfull with ⟨hcap, -, -⟩ | ⟨-, hfull⟩
      · exact absurd (hcap ▸ h) (Nat.not_lt_zero _)
      · exact absurd h (Nat.not_lt.mpr hfull)
    · rcases hfull with ⟨-, hbr, -⟩ | ⟨hcap, hfull⟩
      · simp [hbr] at h
      · rw [(hc.starved h).1] at hfull
        exact absurd (Nat.le_zero.mp hfull) (Nat.ne_of_gt hcap)
    · rcases hfull with ⟨-, -, hp⟩ | ⟨hpos, -⟩
      · simp [hp] at h
      · exact absurd hcap (Nat.ne_of_gt hpos)

/-- What a receive that finds nothing knows. -/
theorem ChanOk.empty (h : c.NoMessage) : c.queue = [] ∧ c.pendingSend = none ∧ c.pendingSendPort = none := by
  rcases h with ⟨hcap, hp, hps⟩ | ⟨hcap, hq⟩
  · exact ⟨hc.noQueue hcap, hp, hps⟩
  · exact ⟨hq, hc.noSlot hcap, hc.armedFull (by rw [hq]; exact hcap)⟩

theorem tryRecv_ok (hclean : Clean c) (t : Nat) (nonblock : Bool) : ChanOk (c.tryRecv t nonblock).chan := by
  generalize hr : c.tryRecv t nonblock = r
  cases tryRecv_cases hr with
  | take h => exact hc.take hclean h
  | block hempty => exact ⟨hc.noSlot, hc.noQueue, hc.armedFull, fun _ => hc.empty hempty, hc.port⟩
  | peerClosed | wouldBlock => exact hc

theorem armRecv_ok (hclean : Clean c) (info : PendingPortRecv) : ChanOk (c.armRecv info).chan := by
  generalize hr : c.armRecv info = r
  cases armRecv_cases hr with
  | take h => exact hc.take hclean h
  | peerClosed => exact hc
  | armed hempty => exact ⟨hc.noSlot, hc.noQueue, hc.armedFull, hc.starved, fun _ _ => (hc.empty hempty).2.2⟩

theorem closeSend_ok (h : c.closeSend = some r) : ChanOk r.chan := by
  cases closeSend_cases h with
  | wake => exact ⟨hc.noSlot, hc.noQueue, hc.armedFull, nofun, hc.port⟩
  | notify => exact ⟨hc.noSlot, hc.noQueue, hc.armedFull, hc.starved, nofun⟩
  | kept | nobody => exact ⟨hc.noSlot, hc.noQueue, hc.armedFull, hc.starved, hc.port⟩

theorem closeRecv_ok {r : Res α (CloseRecvAction α)} (h : c.closeRecv = some r) : ChanOk r.chan := by
  cases closeRecv_cases h with
  | notify =>
    exact ⟨hc.noSlot, hc.noQueue, fun _ => rfl, fun h => ⟨(hc.starved h).1, (hc.starved h).2.1, rfl⟩, fun _ _ => rfl⟩
  | kept | wake | nobody => exact ⟨hc.noSlot, hc.noQueue, hc.armedFull, hc.starved, hc.port⟩

omit hc

/-! ## What a call does to the slots -/

/-- A call of the send side: it wakes the blocked receiver or leaves it, and with a receive
    armed it adds to the backlog only what it wakes a receiver for. -/
structure Sends (c c' : Channel α) (woken : Option Nat) : Prop where
  wakes : ∀ r, woken = some r → c.blockedReceiver = some r ∧ c'.blockedReceiver = none
  leaves : woken = none → c'.blockedReceiver = c.blockedReceiver
  port : c'.pendingPort.isSome → c.pendingPort.isSome ∧ backlog c' ≤ backlog c + woken.toList.length

/-- A call of the receive side: it wakes the blocked sender or leaves it. -/
structure Takes (c c' : Channel α) (woken : Option Nat) : Prop where
  wakes : ∀ u, woken = some u → c.blockedSender = some u ∧ c'.blockedSender = none
  leaves : woken = none → c'.blockedSender = c.blockedSender

theorem Sends.stay (hr : c'.blockedReceiver = c.blockedReceiver) (hp : c'.pendingPort = c.pendingPort)
    (hlog : c.pendingPort.isSome → backlog c' ≤ backlog c) : Sends c c' none :=
  ⟨nofun, fun _ => hr, fun h => ⟨hp ▸ h, hlog (hp ▸ h)⟩⟩

theorem Sends.put (h : c.Put env c' post w) : Sends c c' w := by
  cases h with
  | handover hcap hr =>
    refine ⟨fun r h => ⟨hr.trans h, rfl⟩, nofun, fun h => ⟨h, ?_⟩⟩
    simp only [backlog, Option.toList_some, length_singleton]
    omega
  | queueWake hroom hr =>
    refine ⟨fun r h => ⟨hr.trans h, rfl⟩, nofun, fun h => ⟨h, ?_⟩⟩
    simp only [backlog, length_append, Option.toList_some, length_singleton]
    omega
  | handoverPort | queuePort => exact ⟨nofun, fun _ => rfl, nofun⟩
  | queue hroom hr hp => exact Sends.stay rfl rfl fun h => by simp [hp] at h

theorem trySend_sends (t : Nat) (env : α) (nonblock : Bool) :
    Sends c (c.trySend t env nonblock).chan (c.trySend t env nonblock).woken := by
  generalize hr : c.trySend t env nonblock = r
  cases trySend_cases hr with
  | put _ h => exact Sends.put h
  | block _ _ _ hp => exact Sends.stay rfl rfl fun h => by simp [hp] at h
  | peerClosed | wouldBlock | blockWithMsg => exact Sends.stay rfl rfl fun _ => Nat.le_refl _

theorem armSend_sends (info : PendingPortSend α) : Sends c (c.armSend info).chan (c.armSend info).woken := by
  generalize hr : c.armSend info = r
  cases armSend_cases hr with
  | put _ h => exact Sends.put h
  | peerClosed | armed => exact Sends.stay rfl rfl fun _ => Nat.le_refl _

theorem closeSend_sends (h : c.closeSend = some r) : Sends c r.chan r.woken := by
  cases closeSend_cases h with
  | wake _ hr => exact ⟨fun r h => ⟨hr.trans h, rfl⟩, nofun, fun h => ⟨h, Nat.le_add_right _ _⟩⟩
  | notify => exact ⟨nofun, fun _ => rfl, nofun⟩
  | kept | nobody => exact Sends.stay rfl rfl fun _ => Nat.le_refl _

theorem closeSend_sender (h : c.closeSend = some r) : r.chan.blockedSender = c.blockedSender := by
  cases closeSend_cases h <;> rfl

theorem Takes.take (h : c.Take c' env ps w) : Takes c c' w := by
  cases h with
  | slot => exact ⟨fun u h => ⟨h, rfl⟩, fun h => h.symm⟩
  | popWake _ _ hb => exact ⟨fun u h => ⟨hb.trans h, rfl⟩, nofun⟩
  | armed | popRefill | pop => exact ⟨nofun, fun _ => rfl⟩

theorem tryRecv_takes (t : Nat) (nonblock : Bool) :
    Takes c (c.tryRecv t nonblock).chan (c.tryRecv t nonblock).woken := by
  generalize hr : c.tryRecv t nonblock = r
  cases tryRecv_cases hr with
  | take h => exact Takes.take h
  | peerClosed | wouldBlock | block => exact ⟨nofun, fun _ => rfl⟩

theorem armRecv_takes (info : PendingPortRecv) : Takes c (c.armRecv info).chan (c.armRecv info).woken := by
  generalize hr : c.armRecv info = r
  cases armRecv_cases hr with
  | take h => exact Takes.take h
  | peerClosed | armed => exact ⟨nofun, fun _ => rfl⟩

theorem closeRecv_takes {r : Res α (CloseRecvAction α)} (h : c.closeRecv = some r) : Takes c r.chan r.woken := by
  cases closeRecv_cases h with
  | wake _ hb => exact ⟨fun u h => ⟨hb.trans h, rfl⟩, nofun⟩
  | kept | notify | nobody => exact ⟨nofun, fun _ => rfl⟩

/-- Taking a message leaves the receivers' places and does not add to the backlog; past an
    armed receive it takes one message off it, or leaves none. -/
theorem take_backlog (h : c.Take c' env ps w) :
    c'.blockedReceiver = c.blockedReceiver ∧ c'.pendingPort = c.pendingPort ∧ backlog c' ≤ backlog c := by
  cases h with
  | slot => exact ⟨rfl, rfl, Nat.add_le_add_left (Nat.zero_le _) _⟩
  | armed => exact ⟨rfl, rfl, Nat.le_refl _⟩
  | popWake _ hq _ | pop _ hq _ _ => exact ⟨rfl, rfl, by simp only [backlog, hq, length_cons]; omega⟩
  | popRefill _ hq _ _ =>
    exact ⟨rfl, rfl, by simp only [backlog, hq, length_cons, length_append, length_nil]; omega⟩

theorem take_backlog_pred (hc : ChanOk c)
    (hclean : Clean c) (h : c.Take c' env ps w) (hport : c.pendingPort.isSome) : backlog c' ≤ backlog c - 1 := by
  cases h with
  | slot _ hp => simp [backlog, hp]
  | armed hcap hp hps => simp [hc.port hcap hport] at hps
  | popWake _ hq _ | pop _ hq _ _ => simp only [backlog, hq, length_cons]; omega
  | popRefill hcap hq hb hps => simp [(hclean hcap (by simp [hq]) (by simp [hps])).2] at hport

/-- With a receive armed, a receive takes one message of the backlog, or there is none. -/
theorem tryRecv_backlog (hc : ChanOk c) (hclean : Clean c) (t : Nat) (nonblock : Bool)
    (h : (c.tryRecv t nonblock).chan.pendingPort.isSome) :
    c.pendingPort.isSome ∧ backlog (c.tryRecv t nonblock).chan ≤ backlog c - 1 := by
  have h0 : c.NoMessage → backlog c ≤ backlog c - 1 := by
    intro hempty
    obtain ⟨hq, hp, -⟩ := hc.empty hempty
    simp [backlog, hq, hp]
  revert h
  generalize hr : c.tryRecv t nonblock = r
  cases tryRecv_cases hr with
  | take ht =>
    intro h
    have hport := (take_backlog ht).2.1 ▸ h
    exact ⟨hport, take_backlog_pred hc hclean ht hport⟩
  | peerClosed hempty | wouldBlock hempty | block hempty => exact fun h => ⟨h, h0 hempty⟩

theorem armRecv_receiver (info : PendingPortRecv) : (c.armRecv info).chan.blockedReceiver = c.blockedReceiver := by
  generalize hr : c.armRecv info = r
  cases armRecv_cases hr with
  | take h => exact (take_backlog h).1
  | peerClosed | armed => rfl

theorem armRecv_backlog (hc : ChanOk c) (info : PendingPortRecv) (h : (c.armRecv info).chan.pendingPort.isSome) :
    (c.pendingPort.isSome ∧ backlog (c.armRecv info).chan ≤ backlog c) ∨ backlog (c.armRecv info).chan = 0 := by
  revert h
  generalize hr : c.armRecv info = r
  cases armRecv_cases hr with
  | take ht =>
    obtain ⟨-, hp, hlog⟩ := take_backlog ht
    exact fun h => .inl ⟨hp ▸ h, hlog⟩
  | peerClosed => exact fun h => .inl ⟨h, Nat.le_refl _⟩
  | armed hempty =>
    obtain ⟨hq, hp, -⟩ := hc.empty hempty
    exact fun _ => .inr (by simp [backlog, hq, hp])

theorem closeRecv_backlog {r : Res α (CloseRecvAction α)} (h : c.closeRecv = some r) :
    r.chan.pendingPort = c.pendingPort ∧ r.chan.blockedReceiver = c.blockedReceiver ∧ backlog r.chan = backlog c := by
  cases closeRecv_cases h <;> exact ⟨rfl, rfl, rfl⟩

/-! ## The threads in the channel's slots -/

/-- At least `n` receivers are woken and have not run. -/
def Woke (th : Nat → Th) (n : Nat) : Prop := ∃ l : List Nat, l.Nodup ∧ n ≤ l.length ∧ ∀ t ∈ l, th t = .recvWait true

variable {th : Nat → Th} {t n : Nat}

theorem Woke.zero : Woke th 0 := ⟨[], .nil, Nat.le_refl 0, by simp⟩

theorem Woke.mono (h : Woke th n) {m : Nat} (hm : m ≤ n) : Woke th m := by
  obtain ⟨l, hl, hn, hw⟩ := h
  exact ⟨l, hl, Nat.le_trans hm hn, hw⟩

theorem Woke.setTh (h : Woke th n) (ht : th t ≠ .recvWait true) (x : Th) : Woke (update th t x) n := by
  obtain ⟨l, hl, hn, hw⟩ := h
  refine ⟨l, hl, hn, fun u hu => ?_⟩
  have hut : u ≠ t := by rintro rfl; exact ht (hw u hu)
  rw [update_of_ne hut, hw u hu]

theorem Woke.succ (h : Woke th n) (ht : th t ≠ .recvWait true) : Woke (update th t (.recvWait true)) (n + 1) := by
  obtain ⟨l, hl, hn, hw⟩ := h
  have hmem : t ∉ l := fun h => ht (hw t h)
  refine ⟨t :: l, nodup_cons.mpr ⟨hmem, hl⟩, Nat.succ_le_succ hn, fun u hu => ?_⟩
  rcases mem_cons.mp hu with rfl | hul
  · rw [update_self]
  · have hut : u ≠ t := by rintro rfl; exact hmem hul
    rw [update_of_ne hut, hw u hul]

theorem Woke.pred (h : Woke th n) (x : Th) : Woke (update th t x) (n - 1) := by
  obtain ⟨l, hl, _, hw⟩ := h
  refine ⟨l.erase t, hl.erase t, ?_, fun u hu => ?_⟩
  · have := le_length_erase (l := l) (a := t)
    omega
  · have hut : u ≠ t := by rintro rfl; exact (hl.not_mem_erase hu).elim
    rw [update_of_ne hut, hw u (mem_of_mem_erase hu)]

theorem Woke.eq_zero {s : St} (h : Woke s.th n) (hq : Quiet s) : n = 0 := by
  obtain ⟨l, -, hn, hw⟩ := h
  cases l with
  | nil => exact Nat.le_zero.mp hn
  | cons t l =>
    have := hq t
    rw [hw t mem_cons_self] at this
    cases this

/-- The threads in the slots are blocked there, and while a receive is armed each message
    of the backlog has a receiver woken for it. -/
structure Slots (c : Channel Nat) (th : Nat → Th) : Prop where
  receiver : ∀ t, c.blockedReceiver = some t → th t = .recvWait false
  sender : ∀ t, c.blockedSender = some t → ∃ id, th t = .sendWait id false ∨ th t = .sendFull id false
  port : c.pendingPort.isSome → Woke th (backlog c)

section

variable {c c' : Channel Nat} {w : Option Nat}

variable (hs : Slots c th)
include hs

theorem Slots.sends (h : Sends c c' w) (hb : c'.blockedSender = c.blockedSender) : Slots c' (unblock th w) := by
  cases w with
  | none =>
    refine ⟨fun r hr => hs.receiver r (h.leaves rfl ▸ hr), fun u hu => hs.sender u (hb ▸ hu), fun hp => ?_⟩
    obtain ⟨hp, hle⟩ := h.port hp
    exact (hs.port hp).mono hle
  | some r =>
    obtain ⟨hr, hnone⟩ := h.wakes r rfl
    have hth := hs.receiver r hr
    have hwake : unblock th (some r) = update th r (.recvWait true) := by simp [unblock, hth, Th.wake]
    rw [hwake]
    refine ⟨fun u hu => ?_, fun u hu => ?_, fun hp => ?_⟩
    · rw [hnone] at hu
      cases hu
    · obtain ⟨id, hid⟩ := hs.sender u (hb ▸ hu)
      have hur : u ≠ r := by rintro rfl; rw [hth] at hid; rcases hid with h | h <;> cases h
      exact ⟨id, by rwa [update_of_ne hur]⟩
    · obtain ⟨hp, hle⟩ := h.port hp
      exact ((hs.port hp).succ (by simp [hth])).mono hle

theorem Slots.takes (h : Takes c c' w) (hb : c'.blockedReceiver = c.blockedReceiver)
    (hp : c'.pendingPort.isSome → (c.pendingPort.isSome ∧ backlog c' ≤ backlog c) ∨ backlog c' = 0) :
    Slots c' (unblock th w) := by
  have hport : ∀ th', (∀ n, Woke th n → Woke th' n) → c'.pendingPort.isSome → Woke th' (backlog c') := by
    intro th' hth hsome
    rcases hp hsome with ⟨hsome, hle⟩ | h0
    · exact hth _ ((hs.port hsome).mono hle)
    · rw [h0]
      exact Woke.zero
  cases w with
  | none =>
    exact ⟨fun r hr => hs.receiver r (hb ▸ hr), fun u hu => hs.sender u (h.leaves rfl ▸ hu), hport th fun _ h => h⟩
  | some u =>
    obtain ⟨hu, hnone⟩ := h.wakes u rfl
    obtain ⟨_, hid⟩ := hs.sender u hu
    refine ⟨fun r hr => ?_, fun v hv => ?_, hport _ fun n hn => hn.setTh ?_ _⟩
    · have hth := hs.receiver r (hb ▸ hr)
      have hru : r ≠ u := by rintro rfl; rw [hth] at hid; rcases hid with h | h <;> cases h
      rw [unblock, update_of_ne hru, hth]
    · rw [hnone] at hv
      cases hv
    · rcases hid with h | h <;> simp [h]

theorem Slots.setTh (hr : th t ≠ .recvWait false) (hsend : ∀ id, th t ≠ .sendWait id false ∧ th t ≠ .sendFull id false)
    (x : Th) (hp : c.pendingPort.isSome → Woke (update th t x) (backlog c)) : Slots c (update th t x) := by
  refine ⟨fun u hu => ?_, fun u hu => ?_, hp⟩
  · have hth := hs.receiver u hu
    have hut : u ≠ t := by rintro rfl; exact hr hth
    rw [update_of_ne hut, hth]
  · obtain ⟨id, hid⟩ := hs.sender u hu
    have hut : u ≠ t := by
      rintro rfl
      rcases hid with h | h
      · exact (hsend id).1 h
      · exact (hsend id).2 h
    exact ⟨id, by rwa [update_of_ne hut]⟩

theorem Slots.sent (h : Sends c c' w) (hb : c'.blockedSender = c.blockedSender)
    (ht : th t = .idle ∨ ∃ id, th t = .sendFull id true) (x : Th) : Slots c' (update (unblock th w) t x) := by
  have hkeep : unblock th w t = th t := by
    cases w with
    | none => rfl
    | some r =>
      have htr : t ≠ r := by
        rintro rfl
        have := hs.receiver t (h.wakes t rfl).1
        rcases ht with ht | ⟨id, ht⟩ <;> rw [ht] at this <;> cases this
      rw [unblock, update_of_ne htr]
  have hs' := hs.sends h hb
  refine hs'.setTh ?_ ?_ x fun hp => (hs'.port hp).setTh ?_ x
  all_goals
    rw [hkeep]
    rcases ht with ht | ⟨_, ht⟩ <;> simp [ht]

theorem Slots.blockSender (ht : th t = .idle ∨ ∃ id, th t = .sendFull id true)
    (hb : c'.blockedSender = some t) (hr : c'.blockedReceiver = c.blockedReceiver)
    (hp : c'.pendingPort.isSome → c.pendingPort.isSome ∧ backlog c' ≤ backlog c) {x : Th} {id : Nat}
    (hx : x = .sendWait id false ∨ x = .sendFull id false) : Slots c' (update th t x) := by
  refine ⟨fun r h => ?_, fun u h => ?_, fun h => ?_⟩
  · have hth := hs.receiver r (hr ▸ h)
    have hrt : r ≠ t := by rintro rfl; rcases ht with ht | ⟨id, ht⟩ <;> rw [ht] at hth <;> cases hth
    rw [update_of_ne hrt, hth]
  · rw [hb] at h
    cases h
    exact ⟨id, by rwa [update_self]⟩
  · obtain ⟨h, hle⟩ := hp h
    exact ((hs.port h).mono hle).setTh (by rcases ht with ht | ⟨_, ht⟩ <;> simp [ht]) x

/-- A receiver in no slot calls and goes elsewhere; it was the one woken for what it took. -/
theorem Slots.received (h : Takes c c' w) (hb : c'.blockedReceiver = c.blockedReceiver)
    (hp : c'.pendingPort.isSome → c.pendingPort.isSome ∧ backlog c' ≤ backlog c - 1)
    (ht : th t = .idle ∨ th t = .recvWait true) (x : Th) : Slots c' (update (unblock th w) t x) := by
  have hkeep : unblock th w t = th t := by
    cases w with
    | none => rfl
    | some u =>
      have htu : t ≠ u := by
        rintro rfl
        obtain ⟨id, hid⟩ := hs.sender t (h.wakes t rfl).1
        rcases ht with ht | ht <;> rw [ht] at hid <;> rcases hid with h | h <;> cases h
      rw [unblock, update_of_ne htu]
  have hs' := hs.takes h hb fun hsome => .inl ⟨(hp hsome).1, by have := (hp hsome).2; omega⟩
  have hwoke : ∀ n, Woke th n → Woke (unblock th w) n := by
    intro n hn
    cases w with
    | none => exact hn
    | some u =>
      obtain ⟨_, hid⟩ := hs.sender u (h.wakes u rfl).1
      exact hn.setTh (by rcases hid with h | h <;> simp [h]) _
  refine hs'.setTh ?_ ?_ x fun hsome => ?_
  · rw [hkeep]
    rcases ht with ht | ht <;> simp [ht]
  · rw [hkeep]
    rcases ht with ht | ht <;> simp [ht]
  · obtain ⟨hsome, hle⟩ := hp hsome
    exact ((hwoke _ (hs.port hsome)).pred x).mono hle

theorem Slots.blockRecv (ht : th t = .idle ∨ th t = .recvWait true) (h0 : backlog c = 0) :
    Slots { c with blockedReceiver := some t } (update th t (.recvWait false)) := by
  refine ⟨fun r h => ?_, fun u h => ?_, fun _ => ?_⟩
  · cases h
    exact update_self ..
  · obtain ⟨id, hid⟩ := hs.sender u h
    have hut : u ≠ t := by
      rintro rfl
      rcases ht with ht | ht <;> rw [ht] at hid <;> rcases hid with h | h <;> cases h
    exact ⟨id, by rwa [update_of_ne hut]⟩
  · have : backlog { c with blockedReceiver := some t } = 0 := h0
    rw [this]
    exact Woke.zero

end

/-! ## Steps -/

structure Inv (s : St) : Prop where
  chan : ChanOk s.chan
  slots : Slots s.chan s.th

variable {s s' : St}

variable (hs : Inv s)
include hs

theorem send_inv (ht : s.th t = .idle ∨ ∃ id, s.th t = .sendFull id true) (id : Nat) (nonblock : Bool) :
    Inv (send s t id nonblock) := by
  have hok := trySend_ok hs.chan t id nonblock
  have hsends := trySend_sends (c := s.chan) t id nonblock
  revert hok hsends
  simp only [send]
  fun_cases trySend s.chan t id nonblock
  all_goals intro hok hsends
  case case5 hpp _ =>
    refine ⟨hok, ?_⟩
    show Slots { s.chan with pendingSend := some id, blockedSender := some t }
      (update s.th t (.sendWait id false))
    refine hs.slots.blockSender ht ?_ ?_ ?_ (.inl rfl)
    · rfl
    · rfl
    · exact fun h => by simp [hpp] at h
  case case11 =>
    refine ⟨hok, ?_⟩
    show Slots { s.chan with blockedSender := some t } (update s.th t (.sendFull id false))
    refine hs.slots.blockSender ht ?_ ?_ ?_ (.inr rfl)
    · rfl
    · rfl
    · exact fun h => ⟨h, Nat.le_refl _⟩
  all_goals exact ⟨hok, hs.slots.sent hsends rfl ht _⟩

theorem recv_inv (hclean : Clean s.chan) (ht : s.th t = .idle ∨ s.th t = .recvWait true) (nonblock : Bool) :
    Inv (recv s t nonblock) := by
  have hok := tryRecv_ok hs.chan hclean t nonblock
  have htakes := tryRecv_takes (c := s.chan) t nonblock
  have hport := tryRecv_backlog hs.chan hclean t nonblock
  revert hok htakes hport
  simp only [recv]
  fun_cases tryRecv s.chan t nonblock
  all_goals intro hok htakes hport
  case case5 hcap hp _ _ _ =>
    exact ⟨hok, hs.slots.blockRecv ht (by simp [backlog, hp, hs.chan.noQueue hcap])⟩
  case case11 hcap hq _ _ =>
    exact ⟨hok, hs.slots.blockRecv ht (by simp [backlog, hq, hs.chan.noSlot (Nat.pos_of_ne_zero hcap)])⟩
  case case2 _ ps hps =>
    simp only [hps]
    exact ⟨hok, hs.slots.received htakes rfl hport ht _⟩
  case case7 ps hps =>
    simp only [hps]
    exact ⟨hok, hs.slots.received htakes rfl hport ht _⟩
  all_goals exact ⟨hok, hs.slots.received htakes rfl hport ht _⟩

theorem portSend_inv (info : PendingPortSend Nat) : Inv (portSend s info) := by
  have hok := armSend_ok hs.chan info
  have hsends := armSend_sends (c := s.chan) info
  revert hok hsends
  simp only [portSend]
  fun_cases armSend s.chan info
  all_goals
    intro hok hsends
    exact ⟨hok, hs.slots.sends hsends rfl⟩

theorem portRecv_inv (hclean : Clean s.chan) (info : PendingPortRecv) : Inv (portRecv s info) := by
  have hok := armRecv_ok hs.chan hclean info
  have hslots : Slots (s.chan.armRecv info).chan (unblock s.th (s.chan.armRecv info).woken) :=
    hs.slots.takes (armRecv_takes info) (armRecv_receiver info) (armRecv_backlog hs.chan info)
  simp only [portRecv]
  split
  · exact ⟨hok, hslots⟩
  · split <;> exact ⟨hok, hslots⟩
  · exact ⟨hok, hslots⟩
  · exact ⟨hok, hslots⟩

theorem Inv.leave (hr : s.th t ≠ .recvWait false ∧ s.th t ≠ .recvWait true)
    (hsend : ∀ id, s.th t ≠ .sendWait id false ∧ s.th t ≠ .sendFull id false) (hc : s'.chan = s.chan)
    (hth : s'.th = update s.th t .idle) : Inv s' := by
  refine ⟨hc ▸ hs.chan, ?_⟩
  rw [hc, hth]
  exact hs.slots.setTh hr.1 hsend _ fun hp => (hs.slots.port hp).setTh hr.2 _

theorem step_inv {e : Ev} (hg : CleanPop s e) (h : step s e = some s') : Inv s' := by
  have hnext : Inv { s with next := s.next + 1 } := ⟨hs.chan, hs.slots⟩
  cases step_cases h with
  | send ht => exact send_inv hnext (.inl ht) _ _
  | recv ht => exact recv_inv hs hg (.inl ht) _
  | failed ht | sent ht | ret ht => exact hs.leave (by simp [ht]) (by simp [ht]) rfl rfl
  | retry ht => exact send_inv hs (.inr ⟨_, ht⟩) _ false
  | again ht => exact recv_inv hs (hg ht) (.inr ht) false
  | portSend => exact portSend_inv hnext _
  | portRecv => exact portRecv_inv hs hg _
  | closeSend hr => exact ⟨closeSend_ok hs.chan hr, hs.slots.sends (closeSend_sends hr) (closeSend_sender hr)⟩
  | closeRecv hr =>
    obtain ⟨hp, hb, hlog⟩ := closeRecv_backlog hr
    exact ⟨closeRecv_ok hs.chan hr,
      hs.slots.takes (closeRecv_takes hr) hb fun h => .inl ⟨hp ▸ h, Nat.le_of_eq hlog⟩⟩
  | unblock => rwa [unblock_of_not_asleep hg]
  | dupSend | dupRecv =>
    exact ⟨⟨hs.chan.noSlot, hs.chan.noQueue, hs.chan.armedFull, hs.chan.starved, hs.chan.port⟩,
      ⟨hs.slots.receiver, hs.slots.sender, hs.slots.port⟩⟩

omit hs

theorem reach_inv {capacity : Nat} (h : (machine capacity).Reach CleanPop s) : Inv s := by
  refine Machine.Reach.inv (I := Inv) (fun s hs => ?_) (fun s e s' hs hg he => step_inv hs hg he) h
  obtain rfl : s = init capacity := hs
  exact ⟨⟨fun _ => rfl, fun _ => rfl, fun _ => rfl, by simp [init, new], fun _ _ => rfl⟩,
    ⟨by simp [init, new], by simp [init, new], by simp [init, new]⟩⟩

/-! ## Progress -/

/-- A receiver waits: a thread in `blocked_receiver` or an armed `OP_IPC_RECV`. -/
def Waiting (c : Channel α) : Prop := c.blockedReceiver.isSome ∨ c.pendingPort.isSome

/-- A message waits: queued, in `pending_send`, or with an armed `OP_IPC_SEND`. -/
def Undelivered (c : Channel α) : Prop := c.queue ≠ [] ∨ c.pendingSend.isSome ∨ c.pendingSendPort.isSome

/-- On a channel of any capacity, in the runs in which a receive that pops the queue while
    a send is armed finds neither a blocked sender nor an armed receive: once all woken
    threads have run, no receiver waits while a message does, and a send is armed on a
    buffered channel only while the queue is full. -/
theorem quiet_progress (capacity : Nat) (s : St) (h : (machine capacity).Reach CleanPop s) (hq : Quiet s) :
    ¬ (Waiting s.chan ∧ Undelivered s.chan) ∧
      (0 < s.chan.capacity → s.chan.pendingSendPort.isSome → s.chan.capacity ≤ s.chan.queue.length) := by
  obtain ⟨hc, hslots⟩ := reach_inv h
  have hfull : 0 < s.chan.capacity → s.chan.pendingSendPort.isSome → s.chan.capacity ≤ s.chan.queue.length := by
    intro _ hsome
    by_contra hlt
    rw [hc.armedFull (Nat.lt_of_not_le hlt)] at hsome
    cases hsome
  refine ⟨fun ⟨hwait, hmsg⟩ => ?_, hfull⟩
  rcases hwait with hr | hp
  · obtain ⟨h1, h2, h3⟩ := hc.starved hr
    simp [Undelivered, h1, h2, h3] at hmsg
  have h0 : backlog s.chan = 0 := (hslots.port hp).eq_zero hq
  have hqueue : s.chan.queue = [] := eq_nil_of_length_eq_zero (by simp only [backlog] at h0; omega)
  have hslot : s.chan.pendingSend = none := by
    cases hps : s.chan.pendingSend with
    | none => rfl
    | some id => simp [backlog, hps] at h0
  have hport : s.chan.pendingSendPort = none := by
    rcases Nat.eq_zero_or_pos s.chan.capacity with hcap | hcap
    · exact hc.port hcap hp
    · exact hc.armedFull (by rw [hqueue]; exact hcap)
  simp [Undelivered, hqueue, hslot, hport] at hmsg

/-- Capacity 1, a full queue and an armed send; a receive moves the send in. -/
def movedTrace : List Ev := [.send 1 false, .portSend 0 5, .recv 2 false]

theorem quiet_progress_moved :
    ∃ s, (machine 1).Reach CleanPop s ∧ Quiet s ∧ s.chan.queue = [1] ∧ ¬ (Waiting s.chan ∧ Undelivered s.chan) := by
  have hg : (machine 1).Guarded CleanPop (init 1) movedTrace := ⟨trivial, trivial, fun _ _ _ => ⟨rfl, rfl⟩, trivial⟩
  obtain ⟨s, hr, hth, hqueue⟩ : ∃ s, (machine 1).run (init 1) movedTrace = some s ∧
      s.th = places [(1, .idle), (2, .idle)] ∧ s.chan.queue = [1] := ⟨_, rfl, rfl, rfl⟩
  have h := Machine.reach_of_run (init 1) movedTrace rfl hg hr
  have hq := quiet_of_places _ hth (by decide)
  exact ⟨s, h, hq, hqueue, (quiet_progress 1 s h hq).1⟩

/-- Capacity 1. A receive is armed and a receiver blocked; message 0 wakes the receiver,
    a second send finds the queue full and is armed; the receiver takes message 0 and the
    armed send is moved into the queue past the armed receive. -/
def missedTrace : List Ev :=
  [.portRecv ⟨0, 9, 0⟩, .recv 1 false, .send 2 false, .portSend 0 5, .resume 1, .resume 2]

theorem an_armed_receive_misses_a_queued_message :
    ∃ s, (machine 1).Reachable s ∧ Quiet s ∧ Waiting s.chan ∧ Undelivered s.chan := by
  refine ⟨_, Machine.reachable_of_run (init 1) missedTrace rfl rfl, ?_, .inr rfl, .inl (by decide)⟩
  exact quiet_of_places [(1, .recvWait false), (1, .recvWait true), (2, .sendRet 0), (1, .idle), (2, .idle)] rfl
    (by decide)

end Ostoo.Ipc.Progress
