/-
  Ostoo.Fd.PeerClosed — the completion that an armed OP_IPC_RECV or OP_IPC_SEND is owed when the
  last reference to the other end of its channel goes.

  `close` hands the obligation back as a `CloseResult`, and only `sys_close` discharges it
  (`handle_close_result`). Closing by dup2, execve, exit and the drop of a message forget it.
  In `sys_close` too it can be lost: a blocked thread is woken in its place (`close_send` looks
  at one waiter only), or the port is full. In runs without these every last reference that
  goes is announced (`last_close_posts_epipe`).
-/

import Ostoo.Fd.Exact

namespace Ostoo.Fd

open Ostoo.Lib Ostoo.Ipc Kernel Option OrdMap

/-! ## What is owed -/

/-- The completion stands in the port's queue, or in its ring. -/
def Posted (k : Kernel) (q : Nat) (c : IoCompletion) : Prop :=
  ∃ port, k.ports.get? q = some port ∧
    (c ∈ port.queue.map (·.toIoCompletion) ∨ ∃ r, port.ring = some r ∧ c ∈ r.cqes)

/-- A port that takes one more completion without data. -/
def PortTakes (k : Kernel) (q : Nat) : Prop :=
  match ((k.ports.get? q).getD .new).ring with
  | some r => r.cqes.length < r.entries
  | none => PortRoom k q

/-- The last reference goes in a way that is announced: by `sys_close`, with no thread blocked that would
    be woken instead, and with room in the port. -/
def Heard (k : Kernel) (e : Ev) (blocked : Option Nat) (q : Nat) : Prop :=
  (∃ pid fd, e = .close pid fd) ∧ blocked = none ∧ PortTakes k q

/-- No last reference goes unheard by an operation that is armed opposite. -/
def Notifying (k : Kernel) (e : Ev) : Prop :=
  Tight k e ∧ ∀ c ch, k.channels.get? c = some ch →
    (∀ pr, ch.pendingPort = some pr → 0 < ch.sendCount → ch.sendCount ≤ (closing k e).count (.channelSend c) →
      Heard k e ch.blockedReceiver pr.port) ∧
    (∀ ps, ch.pendingSendPort = some ps → 0 < ch.recvCount → ch.recvCount ≤ (closing k e).count (.channelRecv c) →
      Heard k e ch.blockedSender ps.port)

variable {k k' : Kernel} {e : Ev} {ch : Channel EnvelopedMessage} {rc : Int} {o : FdObject}

theorem posted_plain {q userData opcode : Nat} {result : Int} (h : PortTakes k q) :
    Posted (k.post q (.plain userData result opcode)) q ⟨userData, result, opcode⟩ := by
  refine ⟨_, by rw [post, get?_insert, if_pos rfl], ?_⟩
  unfold PortTakes PortRoom at h
  generalize (k.ports.get? q).getD .new = port at h ⊢
  unfold CompletionPort.post
  cases hr : port.ring with
  | none =>
    rw [hr] at h
    have hroom : port.queue.length < MAX_QUEUED := h
    simp [CompletionPort.enqueue, hroom, Completion.plain]
  | some r =>
    rw [hr] at h
    have hroom : r.cqes.length < r.entries := h
    simp [CqRing.postCqe, hroom, Completion.plain]

/-! ## The last reference -/

theorem last_closed (h : Balanced k [] k []) (hg : Tight k e) (hs : step k e = some k') (ho : o.counted)
    (hlive : 0 < k.refs o) (hgone : k'.refs o = 0) : 0 < k.count o ∧ k.count o ≤ (closing k e).count o := by
  have h' := h.step hg hs
  have hexact := h.exact o ho
  have hexact' := h'.exact o ho
  have hfloor := h'.floor o ho
  rw [List.count_nil] at hexact hexact'
  rw [List.append_nil] at hfloor
  omega

theorem sysClose_last {pid fd : Nat} (hs : k.sysClose pid fd = some (rc, k'))
    (hclosed : 0 < (closing k (.close pid fd)).count o) :
    ∃ k1 res, close k1 o = some res ∧ k1.channels = k.channels ∧ k1.ports = k.ports ∧
      k' = res.2.handleCloseResult res.1 := by
  obtain ⟨_, hc, hs⟩ := of_bind hs
  obtain ⟨hp, -, -⟩ := caller_spec hc
  rw [closing, hp, Option.elim] at hclosed
  split at hs
  · rename_i hnone
    rw [FdTable.getObject, FdTable.takeFd_eq_none.mp hnone] at hclosed
    cases hclosed
  rename_i en _ ht
  obtain ⟨⟨_, k1⟩, hclose, hs⟩ := of_bind hs
  cases hs
  rw [FdTable.getObject_takeFd ht] at hclosed
  obtain rfl : o = en.object := by
    simpa using List.count_pos_iff.mp hclosed
  exact ⟨_, _, hclose, rfl, rfl, rfl⟩

theorem sysClose_posts_recv {pid fd c : Nat} {pr : PendingPortRecv}
    (hch : k.channels.get? c = some ch) (hpr : ch.pendingPort = some pr) (hcount : ch.sendCount = 1)
    (hblocked : ch.blockedReceiver = none) (hroom : PortTakes k pr.port) (hs : k.sysClose pid fd = some (rc, k'))
    (hclosed : 0 < (closing k (.close pid fd)).count (.channelSend c)) :
    Posted k' pr.port ⟨pr.userData, -EPIPE, OP_IPC_RECV⟩ := by
  obtain ⟨k1, _, hclose, hchannels, hports, rfl⟩ := sysClose_last hs hclosed
  obtain ⟨chan, hr⟩ : ∃ chan, ch.closeSend = some ⟨.notifyPort pr, chan, none⟩ := by
    simp [Channel.closeSend, hcount, hblocked, hpr]
  rw [close, hchannels, hch] at hclose
  simp only [bind_eq_bind, bind_some, hr, pure_def, some.injEq] at hclose
  subst hclose
  exact posted_plain (k := k1.setChannel c chan) (by unfold PortTakes PortRoom setChannel; rw [hports]; exact hroom)

theorem sysClose_posts_send {pid fd c : Nat} {ps : PendingPortSend EnvelopedMessage}
    (hch : k.channels.get? c = some ch) (hps : ch.pendingSendPort = some ps) (hcount : ch.recvCount = 1)
    (hblocked : ch.blockedSender = none) (hroom : PortTakes k ps.port) (hs : k.sysClose pid fd = some (rc, k'))
    (hclosed : 0 < (closing k (.close pid fd)).count (.channelRecv c)) :
    Posted k' ps.port ⟨ps.userData, -EPIPE, OP_IPC_SEND⟩ := by
  obtain ⟨k1, _, hclose, hchannels, hports, rfl⟩ := sysClose_last hs hclosed
  obtain ⟨chan, hr⟩ : ∃ chan, ch.closeRecv = some ⟨.notifyPort ps, chan, none⟩ := by
    simp [Channel.closeRecv, hcount, hblocked, hps]
  rw [close, hchannels, hch] at hclose
  simp only [bind_eq_bind, bind_some, hr, pure_def, some.injEq] at hclose
  subst hclose
  exact posted_plain (k := (k1.setChannel c chan).dropEnvs [ps.envelope])
    (by unfold PortTakes PortRoom setChannel dropEnvs; rw [hports]; exact hroom)

theorem closing_close_le (k : Kernel) (pid fd : Nat) (o : FdObject) : (closing k (.close pid fd)).count o ≤ 1 := by
  rw [closing]
  cases k.procs.get? pid with
  | none => exact Nat.zero_le _
  | some p => exact List.count_le_length.trans length_toList_le

/-- In every run that keeps to the condition: when the last reference to an end of a channel goes, an operation armed at
    the other end gets its completion with -EPIPE. -/
theorem last_close_posts_epipe (h : machine.Reach Notifying k) (hg : Notifying k e) (hs : step k e = some k') {c : Nat}
    {ch : Channel EnvelopedMessage} (hch : k.channels.get? c = some ch) :
    (∀ pr, ch.pendingPort = some pr → 0 < k.refs (.channelSend c) → k'.refs (.channelSend c) = 0 →
      Posted k' pr.port ⟨pr.userData, -EPIPE, OP_IPC_RECV⟩) ∧
    (∀ ps, ch.pendingSendPort = some ps → 0 < k.refs (.channelRecv c) → k'.refs (.channelRecv c) = 0 →
      Posted k' ps.port ⟨ps.userData, -EPIPE, OP_IPC_SEND⟩) := by
  have hb : Balanced k [] k [] := Balanced.of_reach (h.mono fun _ _ hg => hg.1)
  obtain ⟨hsend, hrecv⟩ := count_channel hch
  refine ⟨fun pr hpr hlive hgone => ?_, fun ps hps hlive hgone => ?_⟩
  · obtain ⟨hpos, hle⟩ := last_closed hb hg.1 hs rfl hlive hgone
    rw [hsend] at hpos hle
    obtain ⟨⟨pid, fd, rfl⟩, hblocked, hroom⟩ := (hg.2 c ch hch).1 pr hpr hpos hle
    have hone := closing_close_le k pid fd (.channelSend c)
    obtain ⟨⟨rc, k1⟩, hcall, rfl⟩ := of_map hs
    exact sysClose_posts_recv hch hpr (by omega) hblocked hroom hcall (by omega)
  · obtain ⟨hpos, hle⟩ := last_closed hb hg.1 hs rfl hlive hgone
    rw [hrecv] at hpos hle
    obtain ⟨⟨pid, fd, rfl⟩, hblocked, hroom⟩ := (hg.2 c ch hch).2 ps hps hpos hle
    have hone := closing_close_le k pid fd (.channelRecv c)
    obtain ⟨⟨_, _⟩, hcall, rfl⟩ := of_map hs
    exact sysClose_posts_send hch hps (by omega) hblocked hroom hcall (by omega)

theorem notifying_of_closing_nil (hg : Tight k e) (hnil : closing k e = []) : Notifying k e := by
  refine ⟨hg, fun c ch _ => ?_⟩
  rw [hnil]
  exact ⟨fun pr _ hpos hle => absurd hle (not_le.mpr hpos), fun ps _ hpos hle => absurd hle (not_le.mpr hpos)⟩

/-- No thread is blocked in a receive, no send is armed, and no port has had a completion yet. -/
def calm (k : Kernel) : Bool :=
  k.channels.values.all (fun ch => ch.blockedReceiver.isNone && ch.pendingSendPort.isNone) && k.ports.values.isEmpty

theorem notifying_of_calm {pid fd : Nat} (h : calm k = true) : Notifying k (.close pid fd) := by
  obtain ⟨hchannels, hports⟩ := Bool.and_eq_true_iff.mp h
  have hnone : ∀ q, k.ports.get? q = none := by
    refine fun q => get?_eq_none.mpr fun port hm => ?_
    have hm := mem_values.mpr ⟨q, hm⟩
    rw [List.isEmpty_iff.mp hports] at hm
    cases hm
  refine ⟨trivial, fun c ch hch => ?_⟩
  obtain ⟨hblocked, hsend⟩ := Bool.and_eq_true_iff.mp
    (List.all_eq_true.mp hchannels ch (mem_values.mpr ⟨c, get?_eq_some.mp hch⟩))
  refine ⟨fun pr _ _ _ => ⟨⟨pid, fd, rfl⟩, isNone_iff_eq_none.mp hblocked, ?_⟩, fun ps hps => ?_⟩
  · unfold PortTakes PortRoom
    rw [hnone]
    exact (by decide : 0 < MAX_QUEUED)
  · rw [hps] at hsend
    cases hsend

/-- A process arms an OP_IPC_RECV on a channel whose only send end it holds itself. -/
def armedTrace : List Ev := [.spawn 1, .ipcCreate 1 0 4096 4 0, .ioCreate 1 0, .submitRecv 1 5 9 4 0]

theorem armedTrace_guarded : machine.Guarded Notifying init armedTrace := by
  refine ⟨notifying_of_closing_nil trivial rfl, notifying_of_closing_nil trivial rfl,
    notifying_of_closing_nil trivial rfl, notifying_of_closing_nil ?_ rfl, trivial⟩
  intro p q c ch _ _ _ _
  exact .inl (by decide : 0 < 256)

theorem last_close_posts_epipe_close : ∃ k k', machine.Reach Notifying k ∧ step k (.close 1 3) = some k' ∧
    0 < k.refs (.channelSend 0) ∧ k'.refs (.channelSend 0) = 0 ∧ Posted k' 0 ⟨9, -EPIPE, OP_IPC_RECV⟩ := by
  obtain ⟨k, hr, ⟨ch, hch, hpr⟩, ⟨k', hs, hgone⟩, hlive, hcalm⟩ : ∃ k, machine.run .init armedTrace = some k ∧
      (∃ ch, k.channels.get? 0 = some ch ∧ ch.pendingPort = some ⟨0, 9, 0⟩) ∧
      (∃ k', step k (.close 1 3) = some k' ∧ k'.refs (.channelSend 0) = 0) ∧
      0 < k.refs (.channelSend 0) ∧ calm k = true := by decide
  have hreach : machine.Reach Notifying k := Machine.reach_of_run init armedTrace rfl armedTrace_guarded hr
  exact ⟨k, k', hreach, hs, hlive, hgone,
    (last_close_posts_epipe hreach (notifying_of_calm hcalm) hs hch).1 _ hpr hlive hgone⟩

/-- The receiver arms an OP_IPC_RECV; its child has the only send end, and exits. -/
def exitTrace : List Ev :=
  [.spawn 1, .ipcCreate 1 0 4096 4 0, .clone 1 2, .close 1 3, .ioCreate 1 0, .submitRecv 1 3 9 4 0]

/-- The last send reference goes and nothing is posted. -/
theorem exit_posts_no_epipe : ∃ k k' ch, machine.Reachable k ∧ k.channels.get? 0 = some ch ∧
      ch.pendingPort = some ⟨0, 9, 0⟩ ∧
    step k (.exit 2) = some k' ∧ 0 < k.refs (.channelSend 0) ∧ k'.refs (.channelSend 0) = 0 ∧
    ∀ c, ¬ Posted k' 0 c := by
  obtain ⟨k, hr, ⟨ch, hch, hpr⟩, ⟨k', hs, hgone, hport⟩, hlive⟩ : ∃ k, machine.run .init exitTrace = some k ∧
      (∃ ch, k.channels.get? 0 = some ch ∧ ch.pendingPort = some ⟨0, 9, 0⟩) ∧
      (∃ k', step k (.exit 2) = some k' ∧ k'.refs (.channelSend 0) = 0 ∧ (k'.ports.get? 0).isNone) ∧
      0 < k.refs (.channelSend 0) := by decide
  refine ⟨k, k', ch, Machine.reachable_of_run init exitTrace rfl hr, hch, hpr, hs, hlive, hgone, ?_⟩
  rintro - ⟨_, hp, -⟩
  rw [hp] at hport
  cases hport

end Ostoo.Fd
