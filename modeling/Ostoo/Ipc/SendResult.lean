/-
  Ostoo.Ipc.SendResult — what `ipc_send` returns against what became of its message.

  The runs are those of `Ostoo.Ipc.Threads`. Beside them a state keeps the value each
  finished `ipc_send` returned (`results`) and the messages whose envelope was dropped, which
  closes the descriptors they carry (`dropped`). An envelope is dropped by a send that fails,
  by a store into `pending_send` or `pending_send_port` that finds it there, and by the close
  that answers an armed send.

  A rendezvous sender that was blocked decides by `recv_closed` when it runs again, so it
  may return -EPIPE for a message a receiver has taken; when something else than the channel
  wakes it, it returns 0 for a message nobody has; and a message that waits in the slot is
  dropped by the next blocking send though its own has returned 0 (`ipc_send_misreports`).
  In the runs in which no blocking send finds the slot taken, nobody else wakes a thread that
  sleeps in a call of a rendezvous channel and its receive end is not closed while a sender is
  in its call, the result is the truth (`ipc_send_truthful`).
-/

import Ostoo.Fd.Counts
import Ostoo.Ipc.Buffered
import Ostoo.Ipc.Rendezvous

namespace Ostoo.Ipc.SendResult

open Ostoo.Lib List Channel
open Ostoo.Ipc.Threads (Th Ev unblock send recv portSend portRecv resume)
open Ostoo.Ipc.Buffered
    (sent handedBySend armSent handedByArmSend movedByRecv handedByRecv movedByArmRecv handedByArmRecv)
open Ostoo.Fd (EPIPE EAGAIN envelopes overwritten sendOut recvOut armSendOut armRecvOut closeRecvOut)

structure St where
  base : Threads.St
  /-- Each finished `ipc_send`: its message and what it returned. -/
  results : List (Nat × Int)
  dropped : List Nat

/-! ## What a step returns and drops -/

/-- Where `ipc_send` returns right after `try_send`. -/
def sendResult (id : Nat) : SendAction Nat → List (Nat × Int)
  | .done => [(id, 0)]
  | .wouldBlock _ => [(id, -EAGAIN)]
  | .peerClosed _ => [(id, -EPIPE)]
  | _ => []

def sendDropped (c : Channel Nat) : SendAction Nat → List Nat
  | .donated _ | .block => overwritten c
  | .wouldBlock env | .peerClosed env => [env]
  | _ => []

def armSendDropped (c : Channel Nat) (env : Nat) : ArmSendAction Nat → List Nat
  | .readyDonate _ => overwritten c
  | .armed => c.pendingSendPort.toList.map (·.envelope)
  | .peerClosed => [env]
  | _ => []

def returned (b : Threads.St) : Ev → List (Nat × Int)
  | .send t nonblock => sendResult b.next (b.chan.trySend t b.next nonblock).action
  | .resume t =>
    match b.th t with
    | .sendWait id true => [(id, if b.chan.recvClosed then -EPIPE else 0)]
    | .sendFull id true => sendResult id (b.chan.trySend t id false).action
    | .sendRet id => [(id, 0)]
    | _ => []
  | _ => []

def droppedBy (b : Threads.St) : Ev → List Nat
  | .send t nonblock => sendDropped b.chan (b.chan.trySend t b.next nonblock).action
  | .resume t =>
    match b.th t with
    | .sendFull id true => sendDropped b.chan (b.chan.trySend t id false).action
    | _ => []
  | .portSend port userData => armSendDropped b.chan b.next (b.chan.armSend ⟨port, userData, b.next⟩).action
  | .closeRecv =>
    match b.chan.closeRecv with
    | some r => closeRecvOut r.action
    | none => []
  | _ => []

def step (s : St) (e : Ev) : Option St :=
  (Threads.step s.base e).map fun b => ⟨b, s.results ++ returned s.base e, s.dropped ++ droppedBy s.base e⟩

def init (capacity : Nat) : St := ⟨Threads.init capacity, [], []⟩

def machine (capacity : Nat) : Machine St Ev where
  start := fun s => s = init capacity
  step := step

/-- No blocking send finds the slot taken, on a rendezvous channel nobody else wakes a thread
    that sleeps in a call, and the last receive end is not closed while a sender waits there. -/
def Orderly (s : St) (e : Ev) : Prop :=
  Rendezvous.SlotFree s.base e ∧
    (e = .closeRecv → s.base.chan.recvCount = 1 → ∀ t id w, s.base.th t ≠ .sendWait id w)

/-- The message was enqueued or handed to a receiver: it is in the queue, with a receiver, or
    in the slot with a receiver woken for it. -/
def Delivered (b : Threads.St) (id : Nat) : Prop :=
  id ∈ b.handed ∨ id ∈ b.chan.queue ∨ (b.chan.pendingSend = some id ∧ ∃ t, b.th t = .recvWait true)

/-! ## What a call does to the threads and messages, by its action -/

/-- Where `ipc_send` leaves its thread. -/
def sendTh (id : Nat) : SendAction Nat → Th
  | .done | .wouldBlock _ | .peerClosed _ => .idle
  | .donated _ | .postToPort _ _ => .sendRet id
  | .block => .sendWait id false
  | .blockWithMsg _ => .sendFull id false

def sendAcked (id : Nat) : SendAction Nat → List Nat
  | .done => [id]
  | _ => []

def recvTh : RecvAction Nat → Th
  | .block => .recvWait false
  | _ => .idle

/-- The state after a call, with its successes and the messages it handed out. -/
def called {act : Type} (b : Threads.St) (r : Res Nat act) (th : Nat → Th) (acked handed : List Nat) : Threads.St :=
  ⟨r.chan, th, b.next, b.acked ++ acked, b.handed ++ handed⟩

variable {nonblock : Bool} {act : SendAction Nat} {capacity i : Nat} {b : Threads.St}

theorem send_eq (b : Threads.St) {t id : Nat} {r : Res Nat (SendAction Nat)} (hr : b.chan.trySend t id nonblock = r) :
    send b t id nonblock = called b r (Function.update (unblock b.th r.woken) t (sendTh id r.action))
      (sendAcked id r.action) (handedBySend r.action) := by
  simp only [send, hr]
  obtain ⟨act, -, -⟩ := r
  cases act <;> simp [called, sendTh, sendAcked, handedBySend, Threads.St.after, Threads.St.setTh, Threads.St.ack,
    Threads.St.hand]

theorem recv_eq (b : Threads.St) {t : Nat} {r : Res Nat (RecvAction Nat)} (hr : b.chan.tryRecv t nonblock = r) :
    recv b t nonblock = called b r (Function.update (unblock b.th r.woken) t (recvTh r.action))
      (movedByRecv b.chan.pendingSendPort r.action) (handedByRecv r.action) := by
  simp only [recv, hr]
  obtain ⟨act, -, -⟩ := r
  cases act
  case messageAndNotifySendPort =>
    cases b.chan.pendingSendPort <;>
      simp [called, recvTh, movedByRecv, handedByRecv, Threads.St.after, Threads.St.setTh, Threads.St.ack,
        Threads.St.hand]
  all_goals simp [called, recvTh, movedByRecv, handedByRecv, Threads.St.after, Threads.St.setTh, Threads.St.hand]

theorem portSend_eq (b : Threads.St) {info : PendingPortSend Nat} {r : Res Nat (ArmSendAction Nat)}
    (hr : b.chan.armSend info = r) :
    portSend b info = called b r (unblock b.th r.woken) (armSent info.envelope r.action)
      (handedByArmSend r.action) := by
  simp only [portSend, hr]
  obtain ⟨act, -, -⟩ := r
  cases act <;> simp [called, armSent, handedByArmSend, Threads.St.after, Threads.St.ack, Threads.St.hand]

theorem portRecv_eq (b : Threads.St) {info : PendingPortRecv} {r : Res Nat (ArmRecvAction Nat)}
    (hr : b.chan.armRecv info = r) :
    portRecv b info = called b r (unblock b.th r.woken) (movedByArmRecv b.chan.pendingSendPort r.action)
      (handedByArmRecv r.action) := by
  simp only [portRecv, hr]
  obtain ⟨act, -, -⟩ := r
  cases act
  case readyAndNotifySendPort =>
    cases b.chan.pendingSendPort <;>
      simp [called, movedByArmRecv, handedByArmRecv, Threads.St.after, Threads.St.ack, Threads.St.hand]
  all_goals simp [called, movedByArmRecv, handedByArmRecv, Threads.St.after, Threads.St.hand]

/-! ### The threads -/

/-- The call a thread is in, woken or not. -/
def inCall : Th → Th
  | .sendWait id _ => .sendWait id false
  | .sendFull id _ => .sendFull id false
  | .recvWait _ => .recvWait false
  | x => x

variable {th : Nat → Th} {t u id : Nat} {w : Option Nat} {x y : Th} {acked : List Nat}
  {r : Res Nat (CloseRecvAction Nat)}

theorem inCall_unblock : inCall (unblock th w t) = inCall (th t) := by
  rw [Threads.unblock_apply]
  split
  · cases th t <;> rfl
  · rfl

theorem inCall_eq_sendWait : inCall x = .sendWait id false ↔ ∃ v, x = .sendWait id v := by cases x <;> simp [inCall]

theorem inCall_eq_sendFull : inCall x = .sendFull id false ↔ ∃ v, x = .sendFull id v := by cases x <;> simp [inCall]

theorem inCall_eq_sendRet : inCall x = .sendRet id ↔ x = .sendRet id := by cases x <;> simp [inCall]

theorem inCall_called (h : inCall (Function.update (unblock th w) t x u) = y) :
    inCall (th u) = y ∧ u ≠ t ∨ u = t ∧ inCall x = y := by
  by_cases hut : u = t
  · subst hut
    rw [Function.update_self] at h
    exact .inr ⟨rfl, h⟩
  · rw [Function.update_of_ne hut, inCall_unblock] at h
    exact .inl ⟨h, hut⟩

theorem inCall_of_called (hx : inCall x ≠ y) (h : inCall (Function.update (unblock th w) t x u) = y) :
    inCall (th u) = y := by
  rcases inCall_called h with ⟨h, -⟩ | ⟨-, h⟩
  · exact h
  · exact absurd h hx

theorem inCall_sendTh_sendFull (h : inCall (sendTh i act) = .sendFull id false) :
    id = i ∧ ∃ env, act = .blockWithMsg env := by
  cases act <;> cases h
  exact ⟨rfl, _, rfl⟩

theorem inCall_sendTh_sendWait (h : inCall (sendTh i act) = .sendWait id false) : act = .block := by
  cases act <;> cases h
  rfl

theorem inCall_sendTh_sendRet (h : inCall (sendTh i act) = .sendRet id) : id ∈ sent i act := by
  cases act <;> cases h <;> exact mem_singleton_self _

theorem inCall_recvTh (act : RecvAction Nat) (i : Nat) :
    inCall (recvTh act) ≠ .sendFull i false ∧ inCall (recvTh act) ≠ .sendWait i false ∧
      inCall (recvTh act) ≠ .sendRet i := by
  cases act <;> simp [recvTh, inCall]

/-! ## Where every message is -/

/-- The messages in the channel, handed out and dropped. -/
def placed (b : Threads.St) (dropped : List Nat) : List Nat := envelopes b.chan ++ (b.handed ++ dropped)

/-- The message `ipc_send` keeps for its next try. -/
def kept : SendAction Nat → List Nat
  | .blockWithMsg env => [env]
  | _ => []

section

variable {b : Threads.St} {d : List Nat}

theorem called_placed {act : Type} {r : Res Nat act} {th : Nat → Th} (ins outs dropped keep : List Nat)
    (h : (ins ++ envelopes b.chan).Perm (envelopes r.chan ++ (outs ++ (dropped ++ keep)))) :
    (ins ++ placed b d).Perm (placed (called b r th acked outs) (d ++ dropped) ++ keep) := by
  refine perm_iff_count.mpr fun a => ?_
  have h := perm_iff_count.mp h a
  simp only [placed, called, count_append] at h ⊢
  omega

theorem sendOut_split (c : Channel Nat) (act : SendAction Nat) :
    sendOut c act = handedBySend act ++ (sendDropped c act ++ kept act) := by
  cases act <;> simp [sendOut, handedBySend, sendDropped, kept]

theorem send_placed (t id : Nat) (nonblock : Bool) :
    (id :: placed b d).Perm
      (placed (send b t id nonblock) (d ++ sendDropped b.chan (b.chan.trySend t id nonblock).action) ++
        kept (b.chan.trySend t id nonblock).action) := by
  rw [send_eq b rfl]
  refine called_placed [id] _ _ _ ?_
  rw [← sendOut_split]
  exact Fd.trySend_envelopes b.chan t id nonblock

theorem recv_placed (t : Nat) (nonblock : Bool) : (placed b d).Perm (placed (recv b t nonblock) d) := by
  have hout : ∀ act : RecvAction Nat, recvOut act = handedByRecv act := by rintro (_ | _) <;> rfl
  have h := Fd.tryRecv_envelopes b.chan t nonblock
  rw [hout, ← append_nil (handedByRecv _)] at h
  rw [recv_eq b rfl]
  simpa using called_placed [] _ [] [] h

theorem portSend_placed (info : PendingPortSend Nat) :
    (info.envelope :: placed b d).Perm
      (placed (portSend b info) (d ++ armSendDropped b.chan info.envelope (b.chan.armSend info).action)) := by
  have hout : ∀ act : ArmSendAction Nat, armSendOut b.chan info.envelope act =
      handedByArmSend act ++ (armSendDropped b.chan info.envelope act ++ []) := by
    rintro (_ | _) <;> simp [armSendOut, handedByArmSend, armSendDropped]
  have h := Fd.armSend_envelopes b.chan info
  rw [hout] at h
  rw [portSend_eq b rfl]
  simpa using called_placed [info.envelope] _ _ [] h

theorem portRecv_placed (info : PendingPortRecv) : (placed b d).Perm (placed (portRecv b info) d) := by
  have hout : ∀ act : ArmRecvAction Nat, armRecvOut act = handedByArmRecv act := by rintro (_ | _) <;> rfl
  have h := Fd.armRecv_envelopes b.chan info
  rw [hout, ← append_nil (handedByArmRecv _)] at h
  rw [portRecv_eq b rfl]
  simpa using called_placed [] _ [] [] h

theorem closeRecv_placed (hr : b.chan.closeRecv = some r) :
    (placed b d).Perm (placed (b.after r) (d ++ closeRecvOut r.action)) := by
  refine perm_iff_count.mpr fun a => ?_
  simp only [placed, Threads.St.after, (Fd.closeRecv_counts hr).2.2, count_append]
  omega

end

/-! ### Threads that keep their message -/

/-- The thread has a message it could not send yet. -/
def Retries (th : Nat → Th) (t id : Nat) : Prop := ∃ w, th t = .sendFull id w

theorem retries_iff : Retries th t id ↔ inCall (th t) = .sendFull id false := inCall_eq_sendFull.symm

theorem retries_unblock (h : Retries (unblock th w) t id) : Retries th t id := by
  rw [retries_iff, inCall_unblock] at h
  exact retries_iff.mpr h

/-- A thread that keeps a message after a step kept it before, or has just tried to send it. -/
theorem send_retries (h : Retries (send b t i nonblock).th u id) :
    Retries b.th u id ∧ u ≠ t ∨ u = t ∧ id ∈ kept (b.chan.trySend t i nonblock).action := by
  rw [send_eq b rfl, retries_iff] at h
  rcases inCall_called h with ⟨h, hne⟩ | ⟨rfl, h⟩
  · exact .inl ⟨retries_iff.mpr h, hne⟩
  · obtain ⟨rfl, _, hact⟩ := inCall_sendTh_sendFull h
    rw [hact, trySend_blockWithMsg hact]
    exact .inr ⟨rfl, mem_singleton_self _⟩

theorem recv_retries (h : Retries (recv b t nonblock).th u id) : Retries b.th u id := by
  rw [recv_eq b rfl, retries_iff] at h
  rcases inCall_called h with ⟨h, -⟩ | ⟨-, h⟩
  · exact retries_iff.mpr h
  · exact absurd h (inCall_recvTh _ id).1

/-! ### The books -/

/-- Every message is in one place at most, a message that is kept for another try is in none,
    and a failed send's is dropped. -/
structure Books (s : St) : Prop where
  nodup : (placed s.base s.dropped).Nodup
  below : ∀ id ∈ placed s.base s.dropped, id < s.base.next
  retry : ∀ t id, Retries s.base.th t id → id ∉ placed s.base s.dropped ∧ id < s.base.next
  alone : ∀ t u id, Retries s.base.th t id → Retries s.base.th u id → t = u
  failed : ∀ id v, (id, v) ∈ s.results → v ≠ 0 → (v = -EPIPE ∨ v = -EAGAIN) ∧ id ∈ s.dropped

variable {s s' : St} {e : Ev}

/-- The messages `ins` come to a place; `keep` of them stay with thread `t`. -/
theorem Books.move (h : Books s) (ins keep : List Nat) (t : Nat)
    (hperm : (ins ++ placed s.base s.dropped).Perm (placed s'.base s'.dropped ++ keep))
    (hnodup : (ins ++ placed s.base s.dropped).Nodup) (hlt : ∀ id ∈ ins, id < s'.base.next)
    (hnext : s.base.next ≤ s'.base.next) (hkeep : ∀ id ∈ keep, id ∈ ins)
    (hth : ∀ u id, Retries s'.base.th u id → (Retries s.base.th u id ∧ id ∉ ins) ∨ (u = t ∧ id ∈ keep))
    (hdropped : s.dropped ⊆ s'.dropped)
    (hres : ∀ id v, (id, v) ∈ s'.results → (id, v) ∈ s.results ∨ (v ≠ 0 → (v = -EPIPE ∨ v = -EAGAIN) ∧
      id ∈ s'.dropped)) : Books s' := by
  have hnodup' := hperm.nodup_iff.mp hnodup
  have hbelow : ∀ id ∈ ins ++ placed s.base s.dropped, id < s'.base.next := by
    intro id hid
    rcases mem_append.mp hid with hid | hid
    · exact hlt id hid
    · exact lt_of_lt_of_le (h.below id hid) hnext
  refine ⟨(nodup_append.mp hnodup').1, ?_, ?_, ?_, ?_⟩
  · intro id hid
    exact hbelow id (hperm.symm.subset (mem_append_left _ hid))
  · intro u id hu
    rcases hth u id hu with ⟨hold, hins⟩ | ⟨-, hkept⟩
    · refine ⟨fun hid => ?_, lt_of_lt_of_le (h.retry u id hold).2 hnext⟩
      rcases mem_append.mp (hperm.symm.subset (mem_append_left _ hid)) with hid | hid
      · exact hins hid
      · exact (h.retry u id hold).1 hid
    · exact ⟨fun hid => disjoint_of_nodup_append hnodup' hid hkept, hlt id (hkeep id hkept)⟩
  · intro u v id hu hv
    rcases hth u id hu with ⟨hu, hins⟩ | ⟨rfl, hkept⟩
    · rcases hth v id hv with ⟨hv, -⟩ | ⟨-, hkept⟩
      · exact h.alone u v id hu hv
      · exact absurd (hkeep id hkept) hins
    · rcases hth v id hv with ⟨-, hins⟩ | ⟨rfl, -⟩
      · exact absurd (hkeep id hkept) hins
      · rfl
  · intro id v hid hv
    rcases hres id v hid with hold | hnew
    · exact ⟨(h.failed id v hold hv).1, hdropped (h.failed id v hold hv).2⟩
    · exact hnew hv

/-- A step that brings no message in and returns no error. -/
theorem Books.same (h : Books s) (hperm : (placed s.base s.dropped).Perm (placed s'.base s'.dropped))
    (hnext : s.base.next ≤ s'.base.next) (hth : ∀ u id, Retries s'.base.th u id → Retries s.base.th u id)
    (hdropped : s.dropped ⊆ s'.dropped) (hres : ∀ id v, (id, v) ∈ s'.results → (id, v) ∈ s.results ∨ v = 0) :
    Books s' := by
  refine h.move [] [] 0 ?_ h.nodup (by simp) hnext (by simp) ?_ hdropped ?_
  · rw [append_nil]
    exact hperm
  · exact fun u id hu => .inl ⟨hth u id hu, not_mem_nil⟩
  · exact fun id v hid => (hres id v hid).imp (fun h => h) fun h0 hv => absurd h0 hv

theorem sendResult_failed {c : Channel Nat} {t id : Nat} {v : Int}
    (h : (i, v) ∈ sendResult id (c.trySend t id nonblock).action)
    (hv : v ≠ 0) : (v = -EPIPE ∨ v = -EAGAIN) ∧ i ∈ sendDropped c (c.trySend t id nonblock).action := by
  revert h
  generalize hr : c.trySend t id nonblock = r
  cases trySend_cases hr with
  | @put _ post w =>
    intro h
    have h0 : v = 0 := by
      cases post <;> cases w <;> simp_all [sendResult, SendAction.ofPut]
    exact absurd h0 hv
  | peerClosed | wouldBlock => simp_all [sendResult, sendDropped]
  | block | blockWithMsg =>
    intro h
    cases h

theorem Books.send (h : Books s) (t id : Nat) (nonblock : Bool) {next : Nat} (hnext : s.base.next ≤ next)
    (hid : id < next) (hfresh : id ∉ placed s.base s.dropped) (hother : ∀ u, u ≠ t → ¬ Retries s.base.th u id) :
    Books ⟨Threads.send { s.base with next } t id nonblock,
      s.results ++ sendResult id (s.base.chan.trySend t id nonblock).action,
      s.dropped ++ sendDropped s.base.chan (s.base.chan.trySend t id nonblock).action⟩ := by
  have hnext' : (Threads.send { s.base with next } t id nonblock).next = next := by
    rw [send_eq _ rfl]
    rfl
  refine h.move [id] (kept (s.base.chan.trySend t id nonblock).action) t
    (send_placed (b := { s.base with next }) t id nonblock) ?_ ?_ ?_ ?_ ?_ (subset_append_left ..) ?_
  · exact nodup_cons.mpr ⟨hfresh, h.nodup⟩
  · intro i hi
    rw [mem_singleton.mp hi, hnext']
    exact hid
  · rw [hnext']
    exact hnext
  · intro i hi
    cases hact : (s.base.chan.trySend t id nonblock).action with
    | blockWithMsg env =>
      rw [hact] at hi
      rw [← trySend_blockWithMsg hact]
      exact hi
    | done | donated t' | block | wouldBlock env | peerClosed env | postToPort pr env =>
      rw [hact] at hi
      cases hi
  · intro u i hu
    rcases send_retries hu with ⟨hold, hne⟩ | hkept
    · refine .inl ⟨hold, fun hi => ?_⟩
      rw [mem_singleton.mp hi] at hold
      exact hother u hne hold
    · exact .inr hkept
  · intro i v hi
    rcases mem_append.mp hi with hi | hi
    · exact .inl hi
    · exact .inr fun hv => ⟨(sendResult_failed hi hv).1, mem_append_right _ (sendResult_failed hi hv).2⟩

/-! ## The receive end stays open for a rendezvous sender -/

/-- A rendezvous sender in its call finds the receive end open. -/
def Open (b : Threads.St) : Prop := ∀ t id w, b.th t = .sendWait id w → b.chan.recvClosed = false

section

variable {b b' : Threads.St}

variable (h : Open b)
include h

theorem Open.keep
    (hth : ∀ t id, inCall (b'.th t) = .sendWait id false → inCall (b.th t) = .sendWait id false ∨
      b.chan.recvClosed = false)
    (hc : b'.chan.recvClosed = b.chan.recvClosed) : Open b' := by
  intro t id w hw
  rw [hc]
  rcases hth t id (inCall_eq_sendWait.mpr ⟨w, hw⟩) with hold | hopen
  · obtain ⟨w', hw'⟩ := inCall_eq_sendWait.mp hold
    exact h t id w' hw'
  · exact hopen

theorem send_open (t i : Nat) (nonblock : Bool) : Open (Threads.send b t i nonblock) := by
  rw [send_eq b rfl]
  refine h.keep (fun u id hu => ?_) (b.chan.trySend_recvClosed t i nonblock)
  rcases inCall_called hu with ⟨hu, -⟩ | ⟨-, hu⟩
  · exact .inl hu
  · exact .inr (trySend_block (inCall_sendTh_sendWait hu)).1

theorem recv_open (t : Nat) (nonblock : Bool) : Open (recv b t nonblock) := by
  rw [recv_eq b rfl]
  exact h.keep (fun u id hu => .inl (inCall_of_called (inCall_recvTh _ id).2.1 hu))
    (b.chan.tryRecv_recvClosed t nonblock)

theorem after_open {act : Type} {r : Res Nat act} (hc : r.chan.recvClosed = b.chan.recvClosed) : Open (b.after r) :=
  h.keep (fun _ _ hu => .inl (inCall_unblock.symm.trans hu)) hc

theorem closeRecv_open (hr : b.chan.closeRecv = some r)
    (hlast : b.chan.recvCount = 1 → ∀ t id w, b.th t ≠ .sendWait id w) : Open (b.after r) := by
  by_cases hone : b.chan.recvCount = 1
  · intro t id w hw
    obtain ⟨w', hw'⟩ := inCall_eq_sendWait.mp (inCall_unblock.symm.trans (inCall_eq_sendWait.mpr ⟨w, hw⟩))
    exact absurd hw' (hlast hone t id w')
  · exact after_open h (closeRecv_recvClosed hr hone)

theorem Open.leave (hth : b'.th = Function.update b.th t .idle) (hc : b'.chan = b.chan) : Open b' := by
  refine h.keep (fun u id hu => .inl ?_) (congrArg recvClosed hc)
  rw [hth] at hu
  exact inCall_of_called (w := none) (by simp [inCall]) hu

theorem step_open (hlast : e = .closeRecv → b.chan.recvCount = 1 → ∀ t id w, b.th t ≠ .sendWait id w)
    (hs : Threads.step b e = some b') : Open b' := by
  cases Threads.step_cases hs with
  | send => exact send_open (b := { b with next := b.next + 1 }) h _ _ _
  | retry => exact send_open h _ _ _
  | recv | again => exact recv_open h _ _
  | failed | sent | ret => exact h.leave rfl rfl
  | @portSend port userData =>
    rw [portSend_eq _ rfl]
    exact after_open h (b.chan.armSend_recvClosed ⟨port, userData, b.next⟩)
  | @portRecv info =>
    rw [portRecv_eq _ rfl]
    exact after_open h (b.chan.armRecv_recvClosed info)
  | closeSend hr => exact after_open h (by cases closeSend_cases hr <;> rfl)
  | closeRecv hr => exact closeRecv_open h hr (hlast rfl)
  | dupSend | dupRecv => exact h
  | @unblock t => exact after_open (r := (⟨(), b.chan, some t⟩ : Res Nat Unit)) h rfl

end

/-! ## Delivery on a buffered channel -/

/-- A send that has succeeded is queued or handed out, and nobody waits for a rendezvous. -/
structure BufOk (b : Threads.St) : Prop where
  cap : 0 < b.chan.capacity
  acked : ∀ id ∈ b.acked, id ∈ b.handed ∨ id ∈ b.chan.queue
  ret : ∀ t id, b.th t = .sendRet id → id ∈ b.handed ∨ id ∈ b.chan.queue
  nowait : ∀ t id w, b.th t ≠ .sendWait id w

section

variable {b b' : Threads.St}

variable {ins outs : List Nat}

variable (h : BufOk b)
include h

/-- A call lets `ins` into the queue and hands `outs` out; what is acknowledged was before, or
    has just entered, or was about to be. -/
theorem BufOk.flow (hf : Buffered.Flow b.chan b'.chan ins outs) (hh : b'.handed = b.handed ++ outs)
    (hacked : ∀ id ∈ b'.acked, id ∈ b.acked ∨ id ∈ ins ∨ ∃ t, b.th t = .sendRet id)
    (hret : ∀ t id, inCall (b'.th t) = .sendRet id → inCall (b.th t) = .sendRet id ∨ id ∈ ins)
    (hwait : ∀ t id, inCall (b'.th t) = .sendWait id false → inCall (b.th t) = .sendWait id false) : BufOk b' := by
  have hmem : ∀ id, id ∈ b.handed ∨ id ∈ b.chan.queue ∨ id ∈ ins → id ∈ b'.handed ∨ id ∈ b'.chan.queue := by
    intro id hid
    have hin : id ∈ b.handed ++ (b.chan.queue ++ ins) := by simpa using hid
    rw [hf.fifo, ← append_assoc, ← hh] at hin
    exact mem_append.mp hin
  refine ⟨hf.capacity ▸ h.cap, fun id hid => ?_, fun t id ht => ?_, fun t id w hw => ?_⟩
  · rcases hacked id hid with hold | hin | ⟨t, ht⟩
    · exact hmem id ((h.acked id hold).imp_right .inl)
    · exact hmem id (.inr (.inr hin))
    · exact hmem id ((h.ret t id ht).imp_right .inl)
  · rcases hret t id (inCall_eq_sendRet.mpr ht) with hold | hin
    · exact hmem id ((h.ret t id (inCall_eq_sendRet.mp hold)).imp_right .inl)
    · exact hmem id (.inr (.inr hin))
  · obtain ⟨w', hw'⟩ := inCall_eq_sendWait.mp (hwait t id (inCall_eq_sendWait.mpr ⟨w, hw⟩))
    exact h.nowait t id w' hw'

theorem BufOk.afterCall {act : Type} {r : Res Nat act} {th : Nat → Th}
    (hf : Buffered.Flow b.chan r.chan ins outs) (hacked : ∀ id ∈ acked, id ∈ ins)
    (hret : ∀ t id, inCall (th t) = .sendRet id → inCall (b.th t) = .sendRet id ∨ id ∈ ins)
    (hwait : ∀ t id, inCall (th t) = .sendWait id false → inCall (b.th t) = .sendWait id false) :
    BufOk (called b r th acked outs) :=
  h.flow hf rfl (fun id hid => (mem_append.mp hid).imp_right fun h => .inl (hacked id h)) hret hwait

theorem BufOk.wakes {act : Type} {r : Res Nat act}
    (hf : Buffered.Flow b.chan r.chan ins outs) (hacked : ∀ id ∈ acked, id ∈ ins) :
    BufOk (called b r (unblock b.th r.woken) acked outs) :=
  h.afterCall hf hacked (fun _ _ hu => .inl (inCall_unblock.symm.trans hu)) fun _ _ hu => inCall_unblock.symm.trans hu

theorem send_bufOk (t i : Nat) (nonblock : Bool) : BufOk (Threads.send b t i nonblock) := by
  rw [send_eq b rfl]
  refine h.afterCall (Buffered.trySend_flow h.cap t i nonblock) ?_ (fun u id hu => ?_) fun u id hu => ?_
  · cases (b.chan.trySend t i nonblock).action <;> simp [sendAcked, sent]
  · rcases inCall_called hu with ⟨hu, -⟩ | ⟨-, hu⟩
    · exact .inl hu
    · exact .inr (inCall_sendTh_sendRet hu)
  · refine inCall_of_called (fun hx => ?_) hu
    exact ne_of_gt h.cap (trySend_block (inCall_sendTh_sendWait hx)).2

theorem recv_bufOk (t : Nat) (nonblock : Bool) : BufOk (recv b t nonblock) := by
  rw [recv_eq b rfl]
  refine h.afterCall (Buffered.tryRecv_flow h.cap t nonblock) (fun _ hid => hid) (fun u id hu => .inl ?_) fun u id hu =>
    ?_
  · exact inCall_of_called (inCall_recvTh _ id).2.2 hu
  · exact inCall_of_called (inCall_recvTh _ id).2.1 hu

theorem step_bufOk (hs : Threads.step b e = some b') : BufOk b' := by
  have hnext : BufOk { b with next := b.next + 1 } := ⟨h.cap, h.acked, h.ret, h.nowait⟩
  have hclose : ∀ {act : Type} (r : Res Nat act), Buffered.Flow b.chan r.chan [] [] → BufOk (b.after r) := by
    intro act r hf
    exact h.flow hf (append_nil _).symm (fun id hid => .inl hid) (fun _ _ hu => .inl (inCall_unblock.symm.trans hu))
      fun _ _ hu => inCall_unblock.symm.trans hu
  cases Threads.step_cases hs with
  | send => exact send_bufOk hnext ..
  | recv => exact recv_bufOk h ..
  | failed ht | sent ht => exact absurd ht (h.nowait _ _ _)
  | retry => exact send_bufOk h ..
  | @ret t id ht =>
    refine h.flow ⟨append_nil _, rfl, fun h => h⟩ (append_nil _).symm (fun i hi => ?_) (fun u i hu => .inl ?_)
      fun u i hu => ?_
    · rcases mem_append.mp hi with hi | hi
      · exact .inl hi
      · exact .inr (.inr ⟨t, mem_singleton.mp hi ▸ ht⟩)
    · exact inCall_of_called (w := none) (by simp [inCall]) hu
    · exact inCall_of_called (w := none) (by simp [inCall]) hu
  | again => exact recv_bufOk h ..
  | portSend =>
    rw [portSend_eq _ rfl]
    exact hnext.wakes (Buffered.armSend_flow h.cap _) fun _ hid => hid
  | portRecv =>
    rw [portRecv_eq _ rfl]
    exact h.wakes (Buffered.armRecv_flow h.cap _) fun _ hid => hid
  | closeSend hr => exact hclose _ (Buffered.closeSend_flow hr)
  | closeRecv hr => exact hclose _ (Buffered.closeRecv_flow hr)
  | dupSend | dupRecv => exact ⟨h.cap, h.acked, h.ret, h.nowait⟩
  | @unblock t => exact hclose (⟨(), b.chan, some t⟩ : Res Nat Unit) ⟨append_nil _, rfl, fun h => h⟩

omit h

/-! ## A send that returns 0 has succeeded -/

theorem zero_sendResult {i : Nat} {act : SendAction Nat} (h : (id, 0) ∈ sendResult i act) : id ∈ sendAcked i act := by
  cases act <;> simp_all [sendResult, sendAcked, EPIPE, EAGAIN]

theorem step_acked (hs : Threads.step b e = some b') :
    (∀ id ∈ b.acked, id ∈ b'.acked) ∧ ∀ id, (id, 0) ∈ returned b e → id ∈ b'.acked := by
  have hold : ∀ {acked : List Nat}, ∀ id ∈ b.acked, id ∈ b.acked ++ acked := fun _ hid => mem_append_left _ hid
  cases Threads.step_cases hs with
  | send =>
    rw [send_eq _ rfl]
    exact ⟨hold, fun id hid => mem_append_right _ (zero_sendResult hid)⟩
  | retry ht =>
    simp only [returned, ht]
    rw [send_eq _ rfl]
    exact ⟨hold, fun id hid => mem_append_right _ (zero_sendResult hid)⟩
  | failed ht hc => exact ⟨fun id hid => hid, by simp [returned, ht, hc, EPIPE]⟩
  | sent ht hc => exact ⟨hold, by simp [returned, ht, hc, Threads.St.setTh, Threads.St.ack]⟩
  | ret ht => exact ⟨hold, by simp [returned, ht, Threads.St.setTh, Threads.St.ack]⟩
  | recv =>
    rw [recv_eq _ rfl]
    exact ⟨hold, by simp [returned]⟩
  | again ht =>
    rw [recv_eq _ rfl]
    exact ⟨hold, by simp [returned, ht]⟩
  | portSend =>
    rw [portSend_eq _ rfl]
    exact ⟨hold, by simp [returned]⟩
  | portRecv =>
    rw [portRecv_eq _ rfl]
    exact ⟨hold, by simp [returned]⟩
  | closeSend | closeRecv | dupSend | dupRecv | unblock => exact ⟨fun id hid => hid, by simp [returned]⟩

end

/-! ## Runs -/

structure Inv (s : St) : Prop where
  books : Books s
  opened : Open s.base
  zero : ∀ id, (id, 0) ∈ s.results → id ∈ s.base.acked

theorem Books.leave (h : Books s) {t : Nat} {rs : List (Nat × Int)} (hchan : b.chan = s.base.chan)
    (hhanded : b.handed = s.base.handed) (hnext : b.next = s.base.next) (hth : b.th = Function.update s.base.th t .idle)
    (hrs : ∀ id v, (id, v) ∈ rs → v = 0) : Books ⟨b, s.results ++ rs, s.dropped⟩ := by
  refine h.same (.of_eq ?_) (le_of_eq hnext.symm) (fun u id hu => ?_) (Subset.refl _) fun id v hid => ?_
  · simp only [placed, hchan, hhanded]
  · rw [hth, retries_iff] at hu
    exact retries_iff.mpr (inCall_of_called (w := none) (by simp [inCall]) hu)
  · exact (mem_append.mp hid).imp_right (hrs id v)

/-- A message with the next number is nowhere yet. -/
theorem Books.next_new (h : Books s) : s.base.next ∉ placed s.base s.dropped := fun hid => lt_irrefl _ (h.below _ hid)

theorem Books.portSend (h : Books s) {port userData : Nat}
    (hb : portSend { s.base with next := s.base.next + 1 } ⟨port, userData, s.base.next⟩ = b) :
    Books ⟨b, s.results ++ [], s.dropped ++ droppedBy s.base (.portSend port userData)⟩ := by
  have hplaced := portSend_placed (b := { s.base with next := s.base.next + 1 }) (d := s.dropped)
    ⟨port, userData, s.base.next⟩
  rw [hb] at hplaced
  rw [portSend_eq _ rfl] at hb
  have hnext : b.next = s.base.next + 1 := by rw [← hb]; rfl
  have hth : ∀ u id, Retries b.th u id → Retries s.base.th u id := fun u id hu => retries_unblock (hb ▸ hu)
  refine h.move [s.base.next] [] 0 ((append_nil _).symm ▸ hplaced) (nodup_cons.mpr ⟨h.next_new, h.nodup⟩) ?_
    (hnext ▸ Nat.le_succ _) (by simp) (fun u id hu => .inl ⟨hth u id hu, fun hid => ?_⟩) (subset_append_left ..)
    fun id v hid => .inl (by simpa using hid)
  · intro id hid
    rw [mem_singleton.mp hid, hnext]
    exact Nat.lt_succ_self _
  · have hlt := (h.retry u id (hth u id hu)).2
    exact Nat.ne_of_lt hlt (mem_singleton.mp hid)

theorem step_books (h : Books s) (hopen : Open s.base) (hs : Threads.step s.base e = some b) :
    Books ⟨b, s.results ++ returned s.base e, s.dropped ++ droppedBy s.base e⟩ := by
  have hkeep : ∀ {rs : List (Nat × Int)} id v, (id, v) ∈ rs ++ [] → (id, v) ∈ rs ∨ v = 0 :=
    fun id v hid => .inl (by simpa using hid)
  have hrecv : ∀ t nonblock, Books ⟨recv s.base t nonblock, s.results ++ [], s.dropped ++ []⟩ := by
    intro t nonblock
    refine h.same ?_ (le_of_eq ?_) (fun u id hu => recv_retries hu) (subset_append_left ..) hkeep
    · simp only [append_nil]
      exact recv_placed t nonblock
    · rw [recv_eq _ rfl]
      rfl
  cases Threads.step_cases hs with
  | send =>
    exact h.send _ s.base.next _ (Nat.le_succ _) (Nat.lt_succ_self _) h.next_new fun u _ hu =>
      Nat.lt_irrefl _ (h.retry u _ hu).2
  | recv => exact hrecv _ _
  | failed ht hc =>
    rw [hopen _ _ _ ht] at hc
    cases hc
  | sent ht hc =>
    simp only [returned, droppedBy, ht, hc, append_nil]
    exact h.leave rfl rfl rfl rfl (by simp)
  | @retry t i ht =>
    simp only [returned, droppedBy, ht]
    have hr : Retries s.base.th t i := ⟨true, ht⟩
    exact h.send t i false le_rfl (h.retry t i hr).2 (h.retry t i hr).1 fun u hu hru => hu (h.alone u t i hru hr)
  | ret ht =>
    simp only [returned, droppedBy, ht, append_nil]
    exact h.leave rfl rfl rfl rfl (by simp)
  | again ht =>
    simp only [returned, droppedBy, ht]
    exact hrecv _ _
  | portSend => exact h.portSend rfl
  | @portRecv info =>
    refine h.same ?_ (le_of_eq ?_) (fun u id hu => ?_) (subset_append_left ..) hkeep
    · simp only [droppedBy, append_nil]
      exact portRecv_placed info
    · rw [portRecv_eq _ rfl]
      rfl
    · rw [portRecv_eq _ rfl] at hu
      exact retries_unblock hu
  | closeSend hr =>
    refine h.same (.of_eq ?_) le_rfl (fun u id hu => retries_unblock hu) (subset_append_left ..) hkeep
    simp only [droppedBy, append_nil, placed, Threads.St.after, (Fd.closeSend_counts hr).2.2]
  | closeRecv hr =>
    refine h.same ?_ le_rfl (fun u id hu => retries_unblock hu) (subset_append_left ..) hkeep
    simp only [droppedBy, hr]
    exact closeRecv_placed hr
  | dupSend | dupRecv =>
    refine h.same (.of_eq ?_) le_rfl (fun u id hu => hu) (subset_append_left ..) hkeep
    simp [droppedBy, placed, envelopes, dupSend, dupRecv]
  | @unblock t =>
    refine h.same (.of_eq ?_) le_rfl (fun u id hu => retries_unblock (w := some t) hu) (subset_append_left ..) hkeep
    simp [droppedBy, placed]

theorem step_inv (h : Inv s) (hg : Orderly s e) (hs : step s e = some s') : Inv s' := by
  obtain ⟨_, hb, rfl⟩ := of_map hs
  refine ⟨step_books h.books h.opened hb, step_open h.opened hg.2 hb, fun id hid => ?_⟩
  obtain ⟨hmono, hnew⟩ := step_acked hb
  rcases mem_append.mp hid with hid | hid
  · exact hmono id (h.zero id hid)
  · exact hnew id hid

theorem init_inv (capacity : Nat) : Inv (init capacity) := by
  refine ⟨⟨nodup_nil, fun id hid => ?_, fun t id ht => ?_, fun t u id ht => ?_, fun id v hid => ?_⟩,
    fun t id w hw => ?_, fun id hid => ?_⟩
  · cases hid
  · obtain ⟨w, hw⟩ := ht
    cases hw
  · obtain ⟨_, hw⟩ := ht
    cases hw
  · cases hid
  · cases hw
  · cases hid

theorem reach_inv (h : (machine capacity).Reach Orderly s) : Inv s := by
  refine Machine.Reach.inv (I := Inv) (fun s h0 => ?_) (fun _ _ _ hi hg hs => step_inv hi hg hs) h
  subst h0
  exact init_inv capacity

theorem reach_base (h : (machine capacity).Reach Orderly s) :
    (Threads.machine capacity).Reach Rendezvous.SlotFree s.base := by
  induction h with
  | start h0 =>
    subst h0
    exact .start rfl
  | step e _ hg hs ih =>
    obtain ⟨_, hb, rfl⟩ := of_map hs
    exact .step e ih hg.1 hb

theorem acked_delivered (h : (Threads.machine capacity).Reach Rendezvous.SlotFree b) (hid : id ∈ b.acked) :
    Delivered b id := by
  rcases eq_zero_or_pos capacity with rfl | hcap
  · rcases (Rendezvous.reach_inv h).acked id hid with hd | hd
    · exact .inl hd
    · exact .inr (.inr hd)
  have hb : BufOk b := by
    refine Machine.Reach.inv (I := BufOk) (fun s h0 => ?_) (fun _ _ _ hi _ hs => step_bufOk hi hs) h
    subst h0
    refine ⟨hcap, fun id hid => ?_, fun t id ht => ?_, fun t id w hw => ?_⟩
    · cases hid
    · cases ht
    · cases hw
  exact (hb.acked id hid).imp_right .inl

theorem ipc_send_truthful (capacity : Nat) (s : St) (h : (machine capacity).Reach Orderly s) (id : Nat) (v : Int)
    (hid : (id, v) ∈ s.results) :
    (v = 0 ↔ Delivered s.base id) ∧
    (v ≠ 0 → (v = -EPIPE ∨ v = -EAGAIN) ∧ id ∈ s.dropped ∧ id ∉ envelopes s.base.chan ∧ id ∉ s.base.handed) := by
  have hi := reach_inv h
  have hfailed : v ≠ 0 → (v = -EPIPE ∨ v = -EAGAIN) ∧ id ∈ s.dropped ∧ id ∉ envelopes s.base.chan ∧
      id ∉ s.base.handed := by
    intro hv
    obtain ⟨herr, hdropped⟩ := hi.books.failed id v hid hv
    obtain ⟨-, hrest, hdisj⟩ := nodup_append.mp hi.books.nodup
    refine ⟨herr, hdropped, fun hin => ?_, fun hin => ?_⟩
    · exact hdisj id hin id (mem_append_right _ hdropped) rfl
    · exact (nodup_append.mp hrest).2.2 id hin id hdropped rfl
  refine ⟨⟨fun hv => ?_, fun hd => ?_⟩, hfailed⟩
  · subst hv
    exact acked_delivered (reach_base h) (hi.zero id hid)
  · by_contra hv
    obtain ⟨-, -, hchan, hhanded⟩ := hfailed hv
    rcases hd with hd | hd | ⟨hd, -⟩
    · exact hhanded hd
    · exact hchan (by simp [envelopes, hd])
    · exact hchan (by simp [envelopes, hd])

/-- Capacity 0: a sender blocks until its message is taken, while thread 2, which does not sleep
    there, is unblocked from elsewhere; another send may not block. -/
def takenTrace : List Ev := [.send 1 false, .unblock 2, .recv 2 false, .resume 1, .send 3 true]

theorem ipc_send_truthful_taken : ∃ s, (machine 0).Reach Orderly s ∧ (0, 0) ∈ s.results ∧ (1, -EAGAIN) ∈ s.results ∧
    Delivered s.base 0 ∧ 1 ∈ s.dropped := by
  have hg : (machine 0).Guarded Orderly (init 0) takenTrace :=
    ⟨⟨fun _ _ _ _ => rfl, nofun⟩, ⟨fun _ => rfl, nofun⟩, ⟨trivial, nofun⟩, ⟨trivial, nofun⟩, ⟨nofun, nofun⟩, trivial⟩
  obtain ⟨s, hr, hres⟩ : ∃ s, (machine 0).run (init 0) takenTrace = some s ∧
      s.results = [(0, 0), (1, -EAGAIN)] := ⟨_, rfl, rfl⟩
  have h := Machine.reach_of_run (init 0) takenTrace rfl hg hr
  have h0 : (0, 0) ∈ s.results := by simp [hres]
  have h1 : (1, -EAGAIN) ∈ s.results := by simp [hres]
  exact ⟨s, h, h0, h1, ((ipc_send_truthful 0 s h 0 0 h0).1).mp rfl,
    ((ipc_send_truthful 0 s h 1 (-EAGAIN) h1).2 (by decide)).2.1⟩

/-- On a rendezvous channel: a blocked sender's message is taken, the receive end is closed,
    and the sender runs; the receive end is closed while the sender is blocked; message 0 is
    put in the slot for a blocked receiver, and before that runs a blocking send puts message
    1 over it; a blocked sender is woken from elsewhere. -/
theorem ipc_send_misreports :
    (∃ s, (machine 0).Reachable s ∧ (0, -EPIPE) ∈ s.results ∧ 0 ∈ s.base.handed) ∧
    (∃ s, (machine 0).Reachable s ∧ (0, -EPIPE) ∈ s.results ∧ 0 ∉ s.dropped ∧ s.base.chan.pendingSend = some 0) ∧
    (∃ s, (machine 0).Reachable s ∧ (0, 0) ∈ s.results ∧ 0 ∈ s.dropped ∧ 0 ∉ s.base.handed) ∧
    ∃ s, (machine 0).Reachable s ∧ (0, 0) ∈ s.results ∧ 0 ∉ s.base.handed ∧ s.base.chan.blockedReceiver = none ∧
      Threads.Quiet s.base := by
  refine ⟨⟨_, Machine.reachable_of_run (init 0) [.send 1 false, .recv 2 false, .closeRecv, .resume 1] rfl rfl,
    ?_, ?_⟩, ⟨_, Machine.reachable_of_run (init 0) [.send 1 false, .closeRecv, .resume 1] rfl rfl, ?_, ?_, rfl⟩,
    ⟨_, Machine.reachable_of_run (init 0) [.recv 1 false, .send 2 false, .send 3 false, .resume 2] rfl rfl,
      ?_, ?_, ?_⟩, ⟨_, Machine.reachable_of_run (init 0) [.send 1 false, .unblock 1, .resume 1] rfl rfl, ?_, ?_, rfl,
      Threads.quiet_of_places [(1, .sendWait 0 false), (1, .sendWait 0 true), (1, .idle)] rfl ?_⟩⟩
  all_goals decide

end Ostoo.Ipc.SendResult
