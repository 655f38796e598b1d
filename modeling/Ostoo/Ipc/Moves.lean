/-
  Ostoo.Ipc.Moves — what a call can do to a channel.

  `try_send` and `arm_send` put a message into the channel in the same ways (`Put`) and
  differ when there is no place for it; `try_recv` and `arm_recv` take one out in the same
  ways (`Take`) and differ when there is none. So a fact about the channel is proved once
  for each way in and out, and once for each way a call is left waiting.
-/

import Ostoo.Ipc.Channel

namespace Ostoo.Ipc

open List

variable {α : Type}

def SendAction.ofPut : Option (PendingPortRecv × α) → Option Nat → SendAction α
  | some (pr, env), _ => .postToPort pr env
  | none, some t => .donated t
  | none, none => .done

def ArmSendAction.ofPut : Option (PendingPortRecv × α) → Option Nat → ArmSendAction α
  | some (pr, env), _ => .readyToRecvPort pr env
  | none, some t => .readyDonate t
  | none, none => .ready

def RecvAction.ofTake (env : α) : Option (PendingPortSend α) → RecvAction α
  | some ps => .messageAndNotifySendPort env ps.port ps.userData
  | none => .message env

def ArmRecvAction.ofTake (env : α) : Option (PendingPortSend α) → ArmRecvAction α
  | some ps => .readyAndNotifySendPort env ps.port ps.userData
  | none => .ready env

namespace Channel

variable {c : Channel α}

/-! ## Messages in -/

/-- No place for a message: the queue is full, or nobody is there for a rendezvous. -/
def NoRoom (c : Channel α) : Prop :=
  c.capacity = 0 ∧ c.blockedReceiver = none ∧ c.pendingPort = none ∨ 0 < c.capacity ∧ c.capacity ≤ c.queue.length

/-- `env` gets into the channel: the channel after it, the message that goes to an armed
    receive, and the receiver that is woken. -/
inductive Put (c : Channel α) (env : α) : Channel α → Option (PendingPortRecv × α) → Option Nat → Prop
  | handover {t : Nat} (hcap : c.capacity = 0) (hr : c.blockedReceiver = some t) :
    Put c env { c with blockedReceiver := none, pendingSend := some env } none (some t)
  | handoverPort {pr : PendingPortRecv} (hcap : c.capacity = 0) (hr : c.blockedReceiver = none)
    (hp : c.pendingPort = some pr) : Put c env { c with pendingPort := none } (some (pr, env)) none
  | queueWake {t : Nat} (hroom : c.queue.length < c.capacity) (hr : c.blockedReceiver = some t) :
    Put c env { c with queue := c.queue ++ [env], blockedReceiver := none } none (some t)
  | queuePort {pr : PendingPortRecv} {front : α} {rest : List α} (hroom : c.queue.length < c.capacity)
    (hr : c.blockedReceiver = none) (hp : c.pendingPort = some pr) (hq : c.queue ++ [env] = front :: rest) :
    Put c env { c with queue := rest, pendingPort := none } (some (pr, front)) none
  | queue (hroom : c.queue.length < c.capacity) (hr : c.blockedReceiver = none) (hp : c.pendingPort = none) :
    Put c env { c with queue := c.queue ++ [env] } none none

/-- The outcomes of `try_send`. -/
inductive TrySend (c : Channel α) (cur : Nat) (env : α) (nonblock : Bool) : Res α (SendAction α) → Prop
  | peerClosed (h : c.recvClosed = true) : TrySend c cur env nonblock ⟨.peerClosed env, c, none⟩
  | put {c' : Channel α} {post : Option (PendingPortRecv × α)} {w : Option Nat} (hopen : c.recvClosed = false)
    (h : Put c env c' post w) : TrySend c cur env nonblock ⟨.ofPut post w, c', w⟩
  | wouldBlock (hopen : c.recvClosed = false) (hfull : c.NoRoom) (hn : nonblock = true) :
    TrySend c cur env nonblock ⟨.wouldBlock env, c, none⟩
  | block (hopen : c.recvClosed = false) (hcap : c.capacity = 0) (hr : c.blockedReceiver = none)
    (hp : c.pendingPort = none) (hn : nonblock = false) :
    TrySend c cur env nonblock ⟨.block, { c with pendingSend := some env, blockedSender := some cur }, none⟩
  | blockWithMsg (hopen : c.recvClosed = false) (hcap : 0 < c.capacity) (hfull : c.capacity ≤ c.queue.length)
    (hn : nonblock = false) :
    TrySend c cur env nonblock ⟨.blockWithMsg env, { c with blockedSender := some cur }, none⟩

/-- The outcomes of `arm_send`. -/
inductive ArmSend (c : Channel α) (info : PendingPortSend α) : Res α (ArmSendAction α) → Prop
  | peerClosed (h : c.recvClosed = true) : ArmSend c info ⟨.peerClosed, c, none⟩
  | put {c' : Channel α} {post : Option (PendingPortRecv × α)} {w : Option Nat} (hopen : c.recvClosed = false)
    (h : Put c info.envelope c' post w) : ArmSend c info ⟨.ofPut post w, c', w⟩
  | armed (hopen : c.recvClosed = false) (hfull : c.NoRoom) :
    ArmSend c info ⟨.armed, { c with pendingSendPort := some info }, none⟩

variable {env : α} {cur : Nat} {nonblock : Bool} {info : PendingPortRecv} {r : Res α (CloseRecvAction α)}

theorem Put.queuePort_nil {pr : PendingPortRecv} (hroom : c.queue.length < c.capacity) (hr : c.blockedReceiver = none)
    (hp : c.pendingPort = some pr) (hq : c.queue = []) :
    Put c env { c with pendingPort := none } (some (pr, env)) none := by
  have h : Put c env { c with queue := [], pendingPort := none } (some (pr, env)) none :=
    .queuePort hroom hr hp (by rw [hq, nil_append])
  rwa [← hq] at h

theorem trySend_cases {r : Res α (SendAction α)} (h : c.trySend cur env nonblock = r) :
    TrySend c cur env nonblock r := by
  subst h
  fun_cases trySend c cur env nonblock
  case case1 h => exact .peerClosed h
  case case2 hopen hcap t hr => exact .put (eq_false_of_ne_true hopen) (.handover hcap hr)
  case case3 hopen hcap hr pr hp => exact .put (eq_false_of_ne_true hopen) (.handoverPort hcap hr hp)
  case case4 hopen hcap hr hp hn => exact .wouldBlock (eq_false_of_ne_true hopen) (.inl ⟨hcap, hr, hp⟩) hn
  case case5 hopen hcap hr hp hn => exact .block (eq_false_of_ne_true hopen) hcap hr hp (eq_false_of_ne_true hn)
  case case6 hopen hcap hroom t hr => exact .put (eq_false_of_ne_true hopen) (.queueWake hroom hr)
  case case7 hopen hcap hroom hr pr hp front rest hq =>
    exact .put (eq_false_of_ne_true hopen) (.queuePort hroom hr hp (by rw [hq, cons_append]))
  case case8 hopen hcap hroom hr pr hp hq => exact .put (eq_false_of_ne_true hopen) (.queuePort_nil hroom hr hp hq)
  case case9 hopen hcap hroom hr hp => exact .put (eq_false_of_ne_true hopen) (.queue hroom hr hp)
  case case10 hopen hcap hfull hn =>
    exact .wouldBlock (eq_false_of_ne_true hopen) (.inr ⟨Nat.pos_of_ne_zero hcap, Nat.le_of_not_lt hfull⟩) hn
  case case11 hopen hcap hfull hn =>
    exact .blockWithMsg (eq_false_of_ne_true hopen) (Nat.pos_of_ne_zero hcap) (Nat.le_of_not_lt hfull)
      (eq_false_of_ne_true hn)

theorem armSend_cases {info : PendingPortSend α} {r : Res α (ArmSendAction α)} (h : c.armSend info = r) :
    ArmSend c info r := by
  subst h
  fun_cases armSend c info
  case case1 h => exact .peerClosed h
  case case2 hopen hcap t hr => exact .put (eq_false_of_ne_true hopen) (.handover hcap hr)
  case case3 hopen hcap hr pr hp => exact .put (eq_false_of_ne_true hopen) (.handoverPort hcap hr hp)
  case case4 hopen hcap hr hp => exact .armed (eq_false_of_ne_true hopen) (.inl ⟨hcap, hr, hp⟩)
  case case5 hopen hcap hroom t hr => exact .put (eq_false_of_ne_true hopen) (.queueWake hroom hr)
  case case6 hopen hcap hroom hr pr hp front rest hq =>
    exact .put (eq_false_of_ne_true hopen) (.queuePort hroom hr hp (by rw [hq, cons_append]))
  case case7 hopen hcap hroom hr pr hp hq => exact .put (eq_false_of_ne_true hopen) (.queuePort_nil hroom hr hp hq)
  case case8 hopen hcap hroom hr hp => exact .put (eq_false_of_ne_true hopen) (.queue hroom hr hp)
  case case9 hopen hcap hfull =>
    exact .armed (eq_false_of_ne_true hopen) (.inr ⟨Nat.pos_of_ne_zero hcap, Nat.le_of_not_lt hfull⟩)

theorem trySend_block (h : (c.trySend cur env nonblock).action = .block) : c.recvClosed = false ∧ c.capacity = 0 := by
  revert h
  generalize hr : c.trySend cur env nonblock = r
  cases trySend_cases hr with
  | @put _ post w =>
    intro h
    cases post <;> cases w <;> cases h
  | block hopen hcap => exact fun _ => ⟨hopen, hcap⟩
  | peerClosed | wouldBlock | blockWithMsg =>
    intro h
    cases h

theorem trySend_blockWithMsg {env' : α} (h : (c.trySend cur env nonblock).action = .blockWithMsg env') :
    env' = env := by
  revert h
  generalize hr : c.trySend cur env nonblock = r
  cases trySend_cases hr with
  | @put _ post w =>
    intro h
    cases post <;> cases w <;> cases h
  | blockWithMsg =>
    intro h
    cases h
    rfl
  | peerClosed | wouldBlock | block =>
    intro h
    cases h

/-! ## Messages out -/

/-- Nothing is there to receive. -/
def NoMessage (c : Channel α) : Prop :=
  c.capacity = 0 ∧ c.pendingSend = none ∧ c.pendingSendPort = none ∨ 0 < c.capacity ∧ c.queue = []

/-- A message is taken out: the channel after it, the message, the armed send that is served
    and the sender that is woken. -/
inductive Take (c : Channel α) : Channel α → α → Option (PendingPortSend α) → Option Nat → Prop
  | slot {env : α} (hcap : c.capacity = 0) (hp : c.pendingSend = some env) :
    Take c { c with pendingSend := none, blockedSender := none } env none c.blockedSender
  | armed {ps : PendingPortSend α} (hcap : c.capacity = 0) (hp : c.pendingSend = none)
    (hps : c.pendingSendPort = some ps) : Take c { c with pendingSendPort := none } ps.envelope (some ps) none
  | popWake {env : α} {rest : List α} {t : Nat} (hcap : 0 < c.capacity) (hq : c.queue = env :: rest)
    (hb : c.blockedSender = some t) : Take c { c with queue := rest, blockedSender := none } env none (some t)
  | popRefill {env : α} {rest : List α} {ps : PendingPortSend α} (hcap : 0 < c.capacity) (hq : c.queue = env :: rest)
    (hb : c.blockedSender = none) (hps : c.pendingSendPort = some ps) :
    Take c { c with queue := rest ++ [ps.envelope], pendingSendPort := none } env (some ps) none
  | pop {env : α} {rest : List α} (hcap : 0 < c.capacity) (hq : c.queue = env :: rest) (hb : c.blockedSender = none)
    (hps : c.pendingSendPort = none) : Take c { c with queue := rest } env none none

/-- The outcomes of `try_recv`. -/
inductive TryRecv (c : Channel α) (cur : Nat) (nonblock : Bool) : Res α (RecvAction α) → Prop
  | take {c' : Channel α} {env : α} {ps : Option (PendingPortSend α)} {w : Option Nat} (h : Take c c' env ps w) :
    TryRecv c cur nonblock ⟨.ofTake env ps, c', w⟩
  | peerClosed (hempty : c.NoMessage) (h : c.sendClosed = true) : TryRecv c cur nonblock ⟨.peerClosed, c, none⟩
  | wouldBlock (hempty : c.NoMessage) (hopen : c.sendClosed = false) (hn : nonblock = true) :
    TryRecv c cur nonblock ⟨.wouldBlock, c, none⟩
  | block (hempty : c.NoMessage) (hopen : c.sendClosed = false) (hn : nonblock = false) :
    TryRecv c cur nonblock ⟨.block, { c with blockedReceiver := some cur }, none⟩

/-- The outcomes of `arm_recv`. -/
inductive ArmRecv (c : Channel α) (info : PendingPortRecv) : Res α (ArmRecvAction α) → Prop
  | take {c' : Channel α} {env : α} {ps : Option (PendingPortSend α)} {w : Option Nat} (h : Take c c' env ps w) :
    ArmRecv c info ⟨.ofTake env ps, c', w⟩
  | peerClosed (hempty : c.NoMessage) (h : c.sendClosed = true) : ArmRecv c info ⟨.peerClosed, c, none⟩
  | armed (hempty : c.NoMessage) (hopen : c.sendClosed = false) :
    ArmRecv c info ⟨.armed, { c with pendingPort := some info }, none⟩

theorem tryRecv_cases {r : Res α (RecvAction α)} (h : c.tryRecv cur nonblock = r) : TryRecv c cur nonblock r := by
  subst h
  fun_cases tryRecv c cur nonblock
  case case1 hcap env hp => exact .take (.slot hcap hp)
  case case2 hcap hp ps hps => exact .take (.armed hcap hp hps)
  case case3 hcap hp hps h => exact .peerClosed (.inl ⟨hcap, hp, hps⟩) h
  case case4 hcap hp hps hopen hn => exact .wouldBlock (.inl ⟨hcap, hp, hps⟩) (eq_false_of_ne_true hopen) hn
  case case5 hcap hp hps hopen hn =>
    exact .block (.inl ⟨hcap, hp, hps⟩) (eq_false_of_ne_true hopen) (eq_false_of_ne_true hn)
  case case6 hcap env rest hq t hb => exact .take (.popWake (Nat.pos_of_ne_zero hcap) hq hb)
  case case7 hcap env rest hq hb ps hps => exact .take (.popRefill (Nat.pos_of_ne_zero hcap) hq hb hps)
  case case8 hcap env rest hq hb hps => exact .take (.pop (Nat.pos_of_ne_zero hcap) hq hb hps)
  case case9 hcap hq h => exact .peerClosed (.inr ⟨Nat.pos_of_ne_zero hcap, hq⟩) h
  case case10 hcap hq hopen hn =>
    exact .wouldBlock (.inr ⟨Nat.pos_of_ne_zero hcap, hq⟩) (eq_false_of_ne_true hopen) hn
  case case11 hcap hq hopen hn =>
    exact .block (.inr ⟨Nat.pos_of_ne_zero hcap, hq⟩) (eq_false_of_ne_true hopen) (eq_false_of_ne_true hn)

theorem armRecvWait_cases (hempty : c.NoMessage) : ArmRecv c info (c.armRecvWait info) := by
  fun_cases armRecvWait c info
  case case1 h => exact .peerClosed hempty h
  case case2 hopen => exact .armed hempty (eq_false_of_ne_true hopen)

theorem armRecv_cases {r : Res α (ArmRecvAction α)} (h : c.armRecv info = r) : ArmRecv c info r := by
  subst h
  fun_cases armRecv c info
  case case1 hcap env hp => exact .take (.slot hcap hp)
  case case2 hcap hp ps hps => exact .take (.armed hcap hp hps)
  case case3 hcap hp hps => exact armRecvWait_cases (.inl ⟨hcap, hp, hps⟩)
  case case4 hcap env rest hq t hb => exact .take (.popWake (Nat.pos_of_ne_zero hcap) hq hb)
  case case5 hcap env rest hq hb ps hps => exact .take (.popRefill (Nat.pos_of_ne_zero hcap) hq hb hps)
  case case6 hcap env rest hq hb hps => exact .take (.pop (Nat.pos_of_ne_zero hcap) hq hb hps)
  case case7 hcap hq => exact armRecvWait_cases (.inr ⟨Nat.pos_of_ne_zero hcap, hq⟩)

/-! ## Closes -/

/-- The outcomes of `close_send`: another send end is left, or the last one wakes or notifies
    one receiver. -/
inductive CloseSend (c : Channel α) : Res α CloseSendAction → Prop
  | kept (h : 1 < c.sendCount) : CloseSend c ⟨.none, { c with sendCount := c.sendCount - 1 }, none⟩
  | wake {t : Nat} (h : c.sendCount = 1) (hr : c.blockedReceiver = some t) :
    CloseSend c ⟨.wakeThread t, { c with sendCount := 0, sendClosed := true, blockedReceiver := none }, some t⟩
  | notify {pr : PendingPortRecv} (h : c.sendCount = 1) (hr : c.blockedReceiver = none) (hp : c.pendingPort = some pr) :
    CloseSend c ⟨.notifyPort pr, { c with sendCount := 0, sendClosed := true, pendingPort := none }, none⟩
  | nobody (h : c.sendCount = 1) (hr : c.blockedReceiver = none) (hp : c.pendingPort = none) :
    CloseSend c ⟨.none, { c with sendCount := 0, sendClosed := true }, none⟩

/-- The outcomes of `close_recv`. -/
inductive CloseRecv (c : Channel α) : Res α (CloseRecvAction α) → Prop
  | kept (h : 1 < c.recvCount) : CloseRecv c ⟨.none, { c with recvCount := c.recvCount - 1 }, none⟩
  | wake {t : Nat} (h : c.recvCount = 1) (hb : c.blockedSender = some t) :
    CloseRecv c ⟨.wakeThread t, { c with recvCount := 0, recvClosed := true, blockedSender := none }, some t⟩
  | notify {ps : PendingPortSend α} (h : c.recvCount = 1) (hb : c.blockedSender = none)
    (hps : c.pendingSendPort = some ps) :
    CloseRecv c ⟨.notifyPort ps, { c with recvCount := 0, recvClosed := true, pendingSendPort := none }, none⟩
  | nobody (h : c.recvCount = 1) (hb : c.blockedSender = none) (hps : c.pendingSendPort = none) :
    CloseRecv c ⟨.none, { c with recvCount := 0, recvClosed := true }, none⟩

theorem closeSend_cases {r : Res α CloseSendAction} (h : c.closeSend = some r) : CloseSend c r := by
  revert h
  fun_cases closeSend c
  all_goals
    intro h
    cases h
  case case2 h => exact .kept (by omega)
  case case3 t hr => exact .wake (by omega) hr
  case case4 hr pr hp => exact .notify (by omega) hr hp
  case case5 hr hp => exact .nobody (by omega) hr hp

theorem closeRecv_cases (h : c.closeRecv = some r) : CloseRecv c r := by
  revert h
  fun_cases closeRecv c
  all_goals
    intro h
    cases h
  case case2 h => exact .kept (by omega)
  case case3 t hb => exact .wake (by omega) hb
  case case4 hb ps hps => exact .notify (by omega) hb hps
  case case5 hb hps => exact .nobody (by omega) hb hps

/-! ## The receive end -/

theorem trySend_recvClosed (cur : Nat) (env : α) (nonblock : Bool) :
    (c.trySend cur env nonblock).chan.recvClosed = c.recvClosed := by
  generalize hr : c.trySend cur env nonblock = r
  cases trySend_cases hr with
  | put _ h => cases h <;> rfl
  | peerClosed | wouldBlock | block | blockWithMsg => rfl

theorem armSend_recvClosed (info : PendingPortSend α) : (c.armSend info).chan.recvClosed = c.recvClosed := by
  generalize hr : c.armSend info = r
  cases armSend_cases hr with
  | put _ h => cases h <;> rfl
  | peerClosed | armed => rfl

theorem tryRecv_recvClosed (cur : Nat) (nonblock : Bool) : (c.tryRecv cur nonblock).chan.recvClosed = c.recvClosed := by
  generalize hr : c.tryRecv cur nonblock = r
  cases tryRecv_cases hr with
  | take h => cases h <;> rfl
  | peerClosed | wouldBlock | block => rfl

theorem armRecv_recvClosed (info : PendingPortRecv) : (c.armRecv info).chan.recvClosed = c.recvClosed := by
  generalize hr : c.armRecv info = r
  cases armRecv_cases hr with
  | take h => cases h <;> rfl
  | peerClosed | armed => rfl

theorem closeRecv_recvClosed (h : c.closeRecv = some r) (hone : c.recvCount ≠ 1) :
    r.chan.recvClosed = c.recvClosed := by
  cases closeRecv_cases h with
  | kept => rfl
  | wake hn | notify hn | nobody hn => exact absurd hn hone

/-! ## The armed receive -/

section

variable {pr : PendingPortRecv}

variable {env : α} {c' : Channel α} {w : Option Nat}

theorem Put.pendingPort {post : Option (PendingPortRecv × α)}
    (h : Put c env c' post w) (hp : c'.pendingPort = some pr) : c.pendingPort = some pr := by
  cases h with
  | handover | queueWake | queue => exact hp
  | handoverPort | queuePort => cases hp

theorem Take.pendingPort {ps : Option (PendingPortSend α)}
    (h : Take c c' env ps w) : c'.pendingPort = c.pendingPort := by
  cases h <;> rfl

theorem trySend_pendingPort {cur : Nat} {nonblock : Bool}
    (hp : (c.trySend cur env nonblock).chan.pendingPort = some pr) : c.pendingPort = some pr := by
  revert hp
  generalize hr : c.trySend cur env nonblock = r
  cases trySend_cases hr with
  | put _ h => exact h.pendingPort
  | peerClosed | wouldBlock | block | blockWithMsg => exact id

theorem armSend_pendingPort {info : PendingPortSend α} (hp : (c.armSend info).chan.pendingPort = some pr) :
    c.pendingPort = some pr := by
  revert hp
  generalize hr : c.armSend info = r
  cases armSend_cases hr with
  | put _ h => exact h.pendingPort
  | peerClosed | armed => exact id

theorem tryRecv_pendingPort (cur : Nat) (nonblock : Bool) :
    (c.tryRecv cur nonblock).chan.pendingPort = c.pendingPort := by
  generalize hr : c.tryRecv cur nonblock = r
  cases tryRecv_cases hr with
  | take h => exact h.pendingPort
  | peerClosed | wouldBlock | block => rfl

theorem armRecv_pendingPort (hp : (c.armRecv info).chan.pendingPort = some pr) :
    c.pendingPort = some pr ∨ pr = info := by
  revert hp
  generalize hr : c.armRecv info = r
  cases armRecv_cases hr with
  | take h => exact fun hp => .inl (h.pendingPort ▸ hp)
  | peerClosed => exact .inl
  | armed => exact fun hp => .inr (Option.some.inj hp).symm

theorem closeSend_pendingPort {r : Res α CloseSendAction} (h : c.closeSend = some r)
    (hp : r.chan.pendingPort = some pr) : c.pendingPort = some pr := by
  cases closeSend_cases h with
  | notify => cases hp
  | kept | wake | nobody => exact hp

end

end Channel

end Ostoo.Ipc
