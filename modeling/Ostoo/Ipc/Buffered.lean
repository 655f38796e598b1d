/-
  Ostoo.Ipc.Buffered — delivery on a channel with a buffer (`capacity > 0`).

  Any number of threads and completion ports make the channel's calls in any order. A
  run keeps two sequences beside the channel: the messages accepted into the queue and
  the messages handed out (returned to a receiver, or passed to an armed receive port).
  In every state the accepted messages are the handed-out ones followed by the queue, so
  hand-out is in order, loses nothing and repeats nothing (`buffered_fifo`).
-/

import Ostoo.Lib.Machine
import Ostoo.Ipc.Moves

namespace Ostoo.Ipc.Buffered

open Ostoo.Lib List Channel

variable {α : Type}

structure St (α : Type) where
  chan : Channel α
  accepted : List α
  handed : List α

inductive Ev (α : Type)
  | trySend (thread : Nat) (env : α) (nonblock : Bool)
  | tryRecv (thread : Nat) (nonblock : Bool)
  | armSend (info : PendingPortSend α)
  | armRecv (info : PendingPortRecv)
  | closeSend
  | closeRecv
  | dupSend
  | dupRecv

/-! ## What a call's action says of the messages -/

def sent (env : α) : SendAction α → List α
  | .done | .donated _ | .postToPort _ _ => [env]
  | _ => []

def handedBySend : SendAction α → List α
  | .postToPort _ env => [env]
  | _ => []

def armSent (env : α) : ArmSendAction α → List α
  | .ready | .readyDonate _ | .readyToRecvPort _ _ => [env]
  | _ => []

def handedByArmSend : ArmSendAction α → List α
  | .readyToRecvPort _ env => [env]
  | _ => []

/-- A receive that notifies the send port has moved the armed send into the queue. -/
def movedByRecv (armed : Option (PendingPortSend α)) : RecvAction α → List α
  | .messageAndNotifySendPort _ _ _ => armed.toList.map (·.envelope)
  | _ => []

def handedByRecv : RecvAction α → List α
  | .message env | .messageAndNotifySendPort env _ _ => [env]
  | _ => []

def movedByArmRecv (armed : Option (PendingPortSend α)) : ArmRecvAction α → List α
  | .readyAndNotifySendPort _ _ _ => armed.toList.map (·.envelope)
  | _ => []

def handedByArmRecv : ArmRecvAction α → List α
  | .ready env | .readyAndNotifySendPort env _ _ => [env]
  | _ => []

def step (s : St α) : Ev α → Option (St α)
  | .trySend t env nonblock =>
    let r := s.chan.trySend t env nonblock
    some ⟨r.chan, s.accepted ++ sent env r.action, s.handed ++ handedBySend r.action⟩
  | .tryRecv t nonblock =>
    let r := s.chan.tryRecv t nonblock
    some ⟨r.chan, s.accepted ++ movedByRecv s.chan.pendingSendPort r.action, s.handed ++ handedByRecv r.action⟩
  | .armSend info =>
    let r := s.chan.armSend info
    some ⟨r.chan, s.accepted ++ armSent info.envelope r.action, s.handed ++ handedByArmSend r.action⟩
  | .armRecv info =>
    let r := s.chan.armRecv info
    some ⟨r.chan, s.accepted ++ movedByArmRecv s.chan.pendingSendPort r.action, s.handed ++ handedByArmRecv r.action⟩
  | .closeSend => s.chan.closeSend.map fun r => { s with chan := r.chan }
  | .closeRecv => s.chan.closeRecv.map fun r => { s with chan := r.chan }
  | .dupSend => some { s with chan := s.chan.dupSend }
  | .dupRecv => some { s with chan := s.chan.dupRecv }

def machine (α : Type) : Machine (St α) (Ev α) where
  start := fun s => ∃ capacity > 0, s = ⟨.new capacity, [], []⟩
  step := step

/-! ## The flow of one call -/

/-- `ins` went to the queue's end and `outs` left from its front, within the capacity. -/
structure Flow (c c' : Channel α) (ins outs : List α) : Prop where
  fifo : c.queue ++ ins = outs ++ c'.queue
  capacity : c'.capacity = c.capacity
  bound : c.queue.length ≤ c.capacity → c'.queue.length ≤ c'.capacity

theorem Flow.refl (c : Channel α) : Flow c c [] [] := ⟨append_nil _, rfl, id⟩

variable {c c' : Channel α} {env : α} {w : Option Nat} {ps : Option (PendingPortSend α)} {s s' : St α} {e : Ev α}

theorem put_flow {post : Option (PendingPortRecv × α)} (hc : 0 < c.capacity)
    (h : c.Put env c' post w) : Flow c c' [env] (handedBySend (.ofPut post w)) := by
  cases h with
  | handover hcap | handoverPort hcap => exact absurd hcap (Nat.ne_of_gt hc)
  | queueWake hroom | queue hroom => exact ⟨rfl, rfl, fun _ => by rw [length_append]; exact hroom⟩
  | queuePort hroom _ _ hq =>
    refine ⟨hq, rfl, fun _ => ?_⟩
    have hlen := congrArg length hq
    simp only [length_append, length_cons, length_nil] at hlen
    dsimp only
    omega

variable (post : Option (PendingPortRecv × α))
include post

theorem sent_ofPut (env : α) (w : Option Nat) : sent env (.ofPut post w) = [env] := by
  cases post <;> cases w <;> rfl

theorem armSent_ofPut (env : α) (w : Option Nat) : armSent env (.ofPut post w) = [env] := by
  cases post <;> cases w <;> rfl

theorem handedByArmSend_ofPut (w : Option Nat) :
    handedByArmSend (.ofPut post w) = handedBySend (.ofPut post w) := by
  cases post <;> cases w <;> rfl

omit post

variable (hc : 0 < c.capacity)
include hc

theorem trySend_flow (t : Nat) (env : α) (nonblock : Bool) :
    Flow c (c.trySend t env nonblock).chan (sent env (c.trySend t env nonblock).action)
      (handedBySend (c.trySend t env nonblock).action) := by
  generalize hr : c.trySend t env nonblock = r
  cases trySend_cases hr with
  | put _ h =>
    rw [sent_ofPut]
    exact put_flow hc h
  | block _ hcap => exact absurd hcap (Nat.ne_of_gt hc)
  | blockWithMsg => exact ⟨append_nil _, rfl, id⟩
  | peerClosed | wouldBlock => exact Flow.refl c

theorem armSend_flow (info : PendingPortSend α) :
    Flow c (c.armSend info).chan (armSent info.envelope (c.armSend info).action)
      (handedByArmSend (c.armSend info).action) := by
  generalize hr : c.armSend info = r
  cases armSend_cases hr with
  | put _ h =>
    rw [armSent_ofPut, handedByArmSend_ofPut]
    exact put_flow hc h
  | armed => exact ⟨append_nil _, rfl, id⟩
  | peerClosed => exact Flow.refl c

/-- A receive on a buffered channel takes the front of the queue, and moves in the armed send
    that it serves. -/
theorem take_flow (h : c.Take c' env ps w) :
    Flow c c' (ps.toList.map (·.envelope)) [env] ∧
      (ps.isSome → ps = c.pendingSendPort ∧ c'.pendingSendPort = none ∧
        c'.queue = c.queue.tail ++ ps.toList.map (·.envelope)) ∧
      (ps = none → c'.pendingSendPort = c.pendingSendPort) := by
  cases h with
  | slot hcap | armed hcap => exact absurd hcap (Nat.ne_of_gt hc)
  | popWake _ hq | pop _ hq =>
    refine ⟨⟨by simp [hq], rfl, fun hb => ?_⟩, nofun, fun _ => rfl⟩
    rw [hq, length_cons] at hb
    exact Nat.le_of_succ_le hb
  | popRefill _ hq _ hps =>
    refine ⟨⟨by simp [hq], rfl, fun hb => ?_⟩, fun _ => ⟨hps.symm, rfl, by simp [hq]⟩, nofun⟩
    rw [hq, length_cons] at hb
    simpa using hb

omit hc in
theorem handedByRecv_ofTake (env : α) (ps : Option (PendingPortSend α)) : handedByRecv (.ofTake env ps) = [env] := by
  cases ps <;> rfl

omit hc in
theorem handedByArmRecv_ofTake (env : α) (ps : Option (PendingPortSend α)) :
    handedByArmRecv (.ofTake env ps) = [env] := by
  cases ps <;> rfl

theorem movedByRecv_ofTake (h : c.Take c' env ps w) :
    movedByRecv c.pendingSendPort (.ofTake env ps) = ps.toList.map (·.envelope) := by
  cases ps with
  | none => rfl
  | some ps =>
    rw [← ((take_flow hc h).2.1 rfl).1]
    rfl

theorem movedByArmRecv_ofTake (h : c.Take c' env ps w) :
    movedByArmRecv c.pendingSendPort (.ofTake env ps) = ps.toList.map (·.envelope) := by
  cases ps with
  | none => rfl
  | some ps =>
    rw [← ((take_flow hc h).2.1 rfl).1]
    rfl

theorem tryRecv_flow (t : Nat) (nonblock : Bool) :
    Flow c (c.tryRecv t nonblock).chan (movedByRecv c.pendingSendPort (c.tryRecv t nonblock).action)
      (handedByRecv (c.tryRecv t nonblock).action) := by
  generalize hr : c.tryRecv t nonblock = r
  cases tryRecv_cases hr with
  | take h =>
    rw [movedByRecv_ofTake hc h, handedByRecv_ofTake]
    exact (take_flow hc h).1
  | block => exact ⟨append_nil _, rfl, id⟩
  | peerClosed | wouldBlock => exact Flow.refl c

theorem armRecv_flow (info : PendingPortRecv) :
    Flow c (c.armRecv info).chan (movedByArmRecv c.pendingSendPort (c.armRecv info).action)
      (handedByArmRecv (c.armRecv info).action) := by
  generalize hr : c.armRecv info = r
  cases armRecv_cases hr with
  | take h =>
    rw [movedByArmRecv_ofTake hc h, handedByArmRecv_ofTake]
    exact (take_flow hc h).1
  | armed => exact ⟨append_nil _, rfl, id⟩
  | peerClosed => exact Flow.refl c

omit hc

theorem closeSend_flow {r : Res α CloseSendAction} (h : c.closeSend = some r) : Flow c r.chan [] [] := by
  cases closeSend_cases h <;> exact ⟨append_nil _, rfl, id⟩

theorem closeRecv_flow {r : Res α (CloseRecvAction α)} (h : c.closeRecv = some r) : Flow c r.chan [] [] := by
  cases closeRecv_cases h <;> exact ⟨append_nil _, rfl, id⟩

/-- One step of the run: what it accepted and handed out is a flow of the channel. -/
theorem step_flow (hc : 0 < s.chan.capacity) (h : step s e = some s') :
    ∃ ins outs, s'.accepted = s.accepted ++ ins ∧ s'.handed = s.handed ++ outs ∧ Flow s.chan s'.chan ins outs := by
  cases e with
  | trySend t env nonblock =>
    cases h
    exact ⟨_, _, rfl, rfl, trySend_flow hc t env nonblock⟩
  | tryRecv t nonblock =>
    cases h
    exact ⟨_, _, rfl, rfl, tryRecv_flow hc t nonblock⟩
  | armSend info =>
    cases h
    exact ⟨_, _, rfl, rfl, armSend_flow hc info⟩
  | armRecv info =>
    cases h
    exact ⟨_, _, rfl, rfl, armRecv_flow hc info⟩
  | closeSend =>
    obtain ⟨r, hr, rfl⟩ := of_map h
    exact ⟨[], [], by simp, by simp, closeSend_flow hr⟩
  | closeRecv =>
    obtain ⟨_, hr, rfl⟩ := of_map h
    exact ⟨[], [], by simp, by simp, closeRecv_flow hr⟩
  | dupSend =>
    cases h
    exact ⟨[], [], by simp, by simp, ⟨by simp [dupSend], rfl, id⟩⟩
  | dupRecv =>
    cases h
    exact ⟨[], [], by simp, by simp, ⟨by simp [dupRecv], rfl, id⟩⟩

/-! ## When an armed send is accepted -/

/-- A receive moves the armed send to the queue's end and empties the slot, or leaves it
    armed and accepts nothing; arming accepts the message at once or puts it in the slot
    (or finds the receive end closed); no other call accepts an armed send. -/
def ArmedEnters (s s' : St α) : Ev α → Prop
  | .tryRecv _ _ | .armRecv _ => ∀ ps, s.chan.pendingSendPort = some ps →
    (s'.accepted = s.accepted ++ [ps.envelope] ∧ s'.chan.queue = s.chan.queue.tail ++ [ps.envelope] ∧
      s'.chan.pendingSendPort = none) ∨
    (s'.accepted = s.accepted ∧ s'.chan.pendingSendPort = some ps)
  | .armSend info =>
    (s'.accepted = s.accepted ++ [info.envelope] ∧ s'.chan.pendingSendPort = s.chan.pendingSendPort) ∨
    (s'.accepted = s.accepted ∧ s'.chan.queue = s.chan.queue ∧
      (s'.chan.pendingSendPort = some info ∨ s.chan.recvClosed = true))
  | .trySend _ env _ =>
    (s'.accepted = s.accepted ∨ s'.accepted = s.accepted ++ [env]) ∧ s'.chan.pendingSendPort = s.chan.pendingSendPort
  | _ => s'.accepted = s.accepted

theorem put_pendingSendPort {post : Option (PendingPortRecv × α)} (h : c.Put env c' post w) :
    c'.pendingSendPort = c.pendingSendPort := by
  cases h <;> rfl

theorem take_armedEnters (hc : 0 < c.capacity) (h : c.Take c' env ps w) (acc : List α) (armed : PendingPortSend α)
    (harmed : c.pendingSendPort = some armed) :
    (acc ++ ps.toList.map (·.envelope) = acc ++ [armed.envelope] ∧ c'.queue = c.queue.tail ++ [armed.envelope] ∧
      c'.pendingSendPort = none) ∨
    (acc ++ ps.toList.map (·.envelope) = acc ∧ c'.pendingSendPort = some armed) := by
  obtain ⟨-, hserved, hleft⟩ := take_flow hc h
  cases ps with
  | none => exact .inr ⟨append_nil _, (hleft rfl).trans harmed⟩
  | some ps =>
    obtain ⟨heq, hnone, hq⟩ := hserved rfl
    obtain rfl : ps = armed := Option.some.inj (heq.trans harmed)
    exact .inl ⟨rfl, hq, hnone⟩

theorem step_armedEnters (hc : 0 < s.chan.capacity) (h : step s e = some s') : ArmedEnters s s' e := by
  cases e with
  | trySend t env nonblock =>
    cases h
    generalize hr : s.chan.trySend t env nonblock = r
    cases trySend_cases hr with
    | put _ h =>
      rw [sent_ofPut]
      exact ⟨.inr rfl, put_pendingSendPort h⟩
    | peerClosed | wouldBlock | block | blockWithMsg => exact ⟨.inl (append_nil _), rfl⟩
  | tryRecv t nonblock =>
    cases h
    intro ps hps
    generalize hr : s.chan.tryRecv t nonblock = r
    cases tryRecv_cases hr with
    | take h =>
      rw [movedByRecv_ofTake hc h]
      exact take_armedEnters hc h s.accepted ps hps
    | peerClosed | wouldBlock | block => exact .inr ⟨append_nil _, hps⟩
  | armSend info =>
    cases h
    generalize hr : s.chan.armSend info = r
    cases armSend_cases hr with
    | put _ h =>
      rw [armSent_ofPut]
      exact .inl ⟨rfl, put_pendingSendPort h⟩
    | peerClosed hclosed => exact .inr ⟨append_nil _, rfl, .inr hclosed⟩
    | armed => exact .inr ⟨append_nil _, rfl, .inl rfl⟩
  | armRecv info =>
    cases h
    intro ps hps
    generalize hr : s.chan.armRecv info = r
    cases armRecv_cases hr with
    | take h =>
      rw [movedByArmRecv_ofTake hc h]
      exact take_armedEnters hc h s.accepted ps hps
    | peerClosed | armed => exact .inr ⟨append_nil _, hps⟩
  | closeSend | closeRecv =>
    obtain ⟨-, -, rfl⟩ := of_map h
    exact rfl
  | dupSend =>
    cases h
    exact rfl
  | dupRecv =>
    cases h
    exact rfl

/-! ## Runs -/

structure Inv (s : St α) : Prop where
  capacity : 0 < s.chan.capacity
  order : s.accepted = s.handed ++ s.chan.queue
  bound : s.chan.queue.length ≤ s.chan.capacity

theorem step_inv (hs : Inv s) (h : step s e = some s') : Inv s' := by
  obtain ⟨ins, _, hacc, hout, hflow⟩ := step_flow hs.capacity h
  refine ⟨hflow.capacity ▸ hs.capacity, ?_, hflow.bound hs.bound⟩
  calc s'.accepted = s.handed ++ (s.chan.queue ++ ins) := by rw [hacc, hs.order, append_assoc]
    _ = s'.handed ++ s'.chan.queue := by rw [hflow.fifo, hout, append_assoc]

theorem reachable_inv (h : (machine α).Reachable s) : Inv s := by
  refine Machine.Reachable.inv (I := Inv) (fun s hs => ?_) (fun s e s' hs he => step_inv hs he) h
  obtain ⟨_, hc, rfl⟩ := hs
  exact ⟨hc, rfl, Nat.zero_le _⟩

/-- In every run on a buffered channel the accepted messages are, in order, those handed
    out followed by those still queued; the queue keeps within the capacity; and an armed
    send enters the order when, and only when, it is moved into the queue. -/
theorem buffered_fifo (α : Type) (s : St α) (h : (machine α).Reachable s) :
    s.accepted = s.handed ++ s.chan.queue ∧ s.chan.queue.length ≤ s.chan.capacity ∧
      ∀ e s', (machine α).step s e = some s' → ArmedEnters s s' e := by
  have hs := reachable_inv h
  exact ⟨hs.order, hs.bound, fun e s' he => step_armedEnters hs.capacity he⟩

/-- Capacity 1: a send, an armed send that finds the queue full, a receive that moves it in. -/
def movedTrace : List (Ev Nat) := [.trySend 7 1 false, .armSend ⟨0, 5, 2⟩, .tryRecv 8 false]

theorem buffered_fifo_moved :
    ∃ s, (machine Nat).Reachable s ∧ s.accepted = [1, 2] ∧ s.handed = [1] ∧ s.accepted = s.handed ++ s.chan.queue := by
  have hr : (machine Nat).run ⟨.new 1, [], []⟩ movedTrace = some ⟨{ new 1 with queue := [2] }, [1, 2], [1]⟩ := rfl
  have h0 : (machine Nat).start ⟨.new 1, [], []⟩ := ⟨1, by decide, rfl⟩
  have h := Machine.reachable_of_run _ movedTrace h0 hr
  exact ⟨_, h, rfl, rfl, (buffered_fifo Nat _ h).1⟩

end Ostoo.Ipc.Buffered
