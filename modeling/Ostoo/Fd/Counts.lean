/-
  Ostoo.Fd.Counts — what each operation does to the reference counts of channel ends and pipe
  writers, and to the references there are.

  A count is kept by hand, by `notify_dup` and `close`. The references are in fd tables,
  messages, completions, the registry and dropped messages (`Kernel.refs`). A call on a channel
  moves messages in and out of it and leaves its counts alone; a close counts down and may take
  a message out.
-/

import Ostoo.Fd.Delivery
import Ostoo.Ipc.Moves

namespace Ostoo.Fd

open Ostoo.Lib Ostoo.Ipc List Channel Option OrdMap

/-! ## The messages of a channel -/

section

variable {α : Type} {ps : Option (PendingPortSend α)} {post : Option (PendingPortRecv × α)}

def sendOut (ch : Channel α) : SendAction α → List α
  | .done => []
  | .donated _ | .block => overwritten ch
  | .blockWithMsg env | .wouldBlock env | .peerClosed env | .postToPort _ env => [env]

def recvOut : RecvAction α → List α
  | .message env | .messageAndNotifySendPort env _ _ => [env]
  | _ => []

def armSendOut (ch : Channel α) (env : α) : ArmSendAction α → List α
  | .ready => []
  | .readyDonate _ => overwritten ch
  | .readyToRecvPort _ env => [env]
  | .armed => ch.pendingSendPort.toList.map (·.envelope)
  | .peerClosed => [env]

def armRecvOut : ArmRecvAction α → List α
  | .ready env | .readyAndNotifySendPort env _ _ => [env]
  | _ => []

theorem armSendOut_ofPut (ch : Channel α) (env : α) (post : Option (PendingPortRecv × α)) (w : Option Nat) :
    armSendOut ch env (.ofPut post w) = sendOut ch (.ofPut post w) := by
  cases post <;> cases w <;> rfl

theorem armRecvOut_ofTake (env : α) (ps : Option (PendingPortSend α)) : armRecvOut (.ofTake env ps) = [env] := by
  cases ps <;> rfl

theorem recvOut_ofTake (env : α) (ps : Option (PendingPortSend α)) : recvOut (.ofTake env ps) = [env] := by
  cases ps <;> rfl

section

variable [DecidableEq α]

/-- A message that gets in joins the envelopes. One of them leaves for an armed receive; one
    that was left in `pending_send` is overwritten. -/
theorem put_envelopes {ch ch' : Channel α} {env : α} {w : Option Nat}
    (h : ch.Put env ch' post w) : (env :: envelopes ch).Perm (envelopes ch' ++ sendOut ch (.ofPut post w)) := by
  refine perm_iff_count.mpr fun a => ?_
  cases h with
  | handover hcap hr =>
    simp [envelopes, sendOut, SendAction.ofPut, overwritten, hcap, count_cons]
    omega
  | handoverPort hcap hr hp =>
    simp [envelopes, sendOut, SendAction.ofPut, count_cons]
    omega
  | queueWake hroom hr =>
    have hcap : ch.capacity ≠ 0 := by omega
    simp [envelopes, sendOut, SendAction.ofPut, overwritten, hcap, count_cons]
    omega
  | queuePort hroom hr hp hq =>
    have := congrArg (count a) hq
    simp [count_cons] at this
    simp [envelopes, sendOut, SendAction.ofPut, count_cons]
    omega
  | queue hroom hr hp =>
    simp [envelopes, sendOut, SendAction.ofPut, count_cons]
    omega

theorem take_envelopes {ch ch' : Channel α} {env : α} {w : Option Nat}
    (h : ch.Take ch' env ps w) : (envelopes ch).Perm (envelopes ch' ++ [env]) := by
  refine perm_iff_count.mpr fun a => ?_
  cases h with
  | slot hcap hp => simp [envelopes, hp, count_cons]
  | armed hcap hp hps => simp [envelopes, hps, count_cons]
  | popWake hcap hq hb | pop hcap hq hb hps =>
    simp [envelopes, hq, count_cons]
    omega
  | popRefill hcap hq hb hps =>
    simp [envelopes, hq, hps, count_cons]
    omega

variable (ch : Channel α)
include ch

theorem trySend_envelopes (t : Nat) (env : α) (nonblock : Bool) :
    (env :: envelopes ch).Perm
    (envelopes (ch.trySend t env nonblock).chan ++ sendOut ch (ch.trySend t env nonblock).action) := by
  generalize hr : ch.trySend t env nonblock = r
  cases trySend_cases hr with
  | put _ h => exact put_envelopes h
  | block _ hcap _ _ _ =>
    refine perm_iff_count.mpr fun a => ?_
    simp [envelopes, sendOut, overwritten, hcap, count_cons]
    omega
  | peerClosed | wouldBlock | blockWithMsg => exact (perm_append_singleton _ _).symm

theorem tryRecv_envelopes (t : Nat) (nonblock : Bool) :
    (envelopes ch).Perm (envelopes (ch.tryRecv t nonblock).chan ++ recvOut (ch.tryRecv t nonblock).action) := by
  generalize hr : ch.tryRecv t nonblock = r
  cases tryRecv_cases hr with
  | take h =>
    rw [recvOut_ofTake]
    exact take_envelopes h
  | peerClosed | wouldBlock | block => exact .of_eq (append_nil _).symm

theorem armSend_envelopes (info : PendingPortSend α) :
    (info.envelope :: envelopes ch).Perm
      (envelopes (ch.armSend info).chan ++ armSendOut ch info.envelope (ch.armSend info).action) := by
  generalize hr : ch.armSend info = r
  cases armSend_cases hr with
  | peerClosed => exact (perm_append_singleton _ _).symm
  | put _ h =>
    rw [armSendOut_ofPut]
    exact put_envelopes h
  | armed =>
    refine perm_iff_count.mpr fun a => ?_
    simp [envelopes, armSendOut, count_cons]
    omega

theorem armRecv_envelopes (info : PendingPortRecv) :
    (envelopes ch).Perm (envelopes (ch.armRecv info).chan ++ armRecvOut (ch.armRecv info).action) := by
  generalize hr : ch.armRecv info = r
  cases armRecv_cases hr with
  | take h =>
    rw [armRecvOut_ofTake]
    exact take_envelopes h
  | peerClosed | armed => exact .of_eq (append_nil _).symm

end

/-- The message the next receiver gets. -/
def nextMessage (ch : Channel α) : Option α :=
  if ch.capacity = 0 then ch.pendingSend.or (ch.pendingSendPort.map (·.envelope)) else ch.queue.head?

variable {ch ch' : Channel α} {env env' : α} {w : Option Nat} {pr : PendingPortRecv}

theorem take_nextMessage (h : ch.Take ch' env ps w) : nextMessage ch = some env := by
  cases h with
  | slot hcap hp => rw [nextMessage, if_pos hcap, hp, some_or]
  | armed hcap hp hps => rw [nextMessage, if_pos hcap, hp, hps, none_or, map_some]
  | popWake hcap hq | popRefill hcap hq | pop hcap hq => rw [nextMessage, if_neg (ne_of_gt hcap), hq, head?_cons]

theorem nextMessage_of_noMessage (h : ch.NoMessage) : nextMessage ch = none := by
  rcases h with ⟨hcap, hp, hps⟩ | ⟨hcap, hq⟩
  · rw [nextMessage, if_pos hcap, hp, hps, none_or, map_none]
  · rw [nextMessage, if_neg (ne_of_gt hcap), hq, head?_nil]

theorem recvOut_tryRecv (ch : Channel α) (t : Nat) (nonblock : Bool) :
    recvOut (ch.tryRecv t nonblock).action = (nextMessage ch).toList := by
  generalize hr : ch.tryRecv t nonblock = r
  cases tryRecv_cases hr with
  | take h => rw [recvOut_ofTake, take_nextMessage h, toList_some]
  | peerClosed h | wouldBlock h | block h => rw [nextMessage_of_noMessage h]; rfl

theorem armRecvOut_armRecv (ch : Channel α) (info : PendingPortRecv) :
    armRecvOut (ch.armRecv info).action = (nextMessage ch).toList := by
  generalize hr : ch.armRecv info = r
  cases armRecv_cases hr with
  | take h => rw [armRecvOut_ofTake, take_nextMessage h, toList_some]
  | peerClosed h | armed h => rw [nextMessage_of_noMessage h]; rfl

theorem put_port {post : PendingPortRecv × α} (h : ch.Put env ch' (some post) w) : ch.pendingPort = some post.1 := by
  cases h with
  | handoverPort _ _ hp | queuePort _ _ hp => exact hp

theorem trySend_postToPort {t : Nat} {nonblock : Bool}
    (h : (ch.trySend t env nonblock).action = .postToPort pr env') : ch.pendingPort = some pr := by
  revert h
  generalize hr : ch.trySend t env nonblock = r
  cases trySend_cases hr with
  | @put _ post w _ hput =>
    intro h
    cases post with
    | none => cases w <;> cases h
    | some post =>
      cases h
      exact put_port hput
  | peerClosed | wouldBlock | block | blockWithMsg =>
    intro h
    cases h

theorem armSend_readyToRecvPort {info : PendingPortSend α}
    (h : (ch.armSend info).action = .readyToRecvPort pr env') : ch.pendingPort = some pr := by
  revert h
  generalize hr : ch.armSend info = r
  cases armSend_cases hr with
  | @put _ post w _ hput =>
    intro h
    cases post with
    | none => cases w <;> cases h
    | some post =>
      cases h
      exact put_port hput
  | peerClosed | armed =>
    intro h
    cases h

/-- The calls on a channel that are no close or dup leave its counts alone. -/
structure SameCounts (ch ch' : Channel α) : Prop where
  send : ch'.sendCount = ch.sendCount
  recv : ch'.recvCount = ch.recvCount

theorem put_counts (h : ch.Put env ch' post w) : SameCounts ch ch' := by
  cases h <;> exact ⟨rfl, rfl⟩

theorem take_counts (h : ch.Take ch' env ps w) : SameCounts ch ch' := by
  cases h <;> exact ⟨rfl, rfl⟩

theorem trySend_counts (ch : Channel α) (t : Nat) (env : α) (nonblock : Bool) :
    SameCounts ch (ch.trySend t env nonblock).chan := by
  generalize hr : ch.trySend t env nonblock = r
  cases trySend_cases hr with
  | put _ h => exact put_counts h
  | peerClosed | wouldBlock | block | blockWithMsg => exact ⟨rfl, rfl⟩

theorem tryRecv_counts (ch : Channel α) (t : Nat) (nonblock : Bool) : SameCounts ch (ch.tryRecv t nonblock).chan := by
  generalize hr : ch.tryRecv t nonblock = r
  cases tryRecv_cases hr with
  | take h => exact take_counts h
  | peerClosed | wouldBlock | block => exact ⟨rfl, rfl⟩

theorem armSend_counts (ch : Channel α) (info : PendingPortSend α) : SameCounts ch (ch.armSend info).chan := by
  generalize hr : ch.armSend info = r
  cases armSend_cases hr with
  | put _ h => exact put_counts h
  | peerClosed | armed => exact ⟨rfl, rfl⟩

theorem armRecv_counts (ch : Channel α) (info : PendingPortRecv) : SameCounts ch (ch.armRecv info).chan := by
  generalize hr : ch.armRecv info = r
  cases armRecv_cases hr with
  | take h => exact take_counts h
  | peerClosed | armed => exact ⟨rfl, rfl⟩

theorem closeSend_counts {r : Res α CloseSendAction} (h : ch.closeSend = some r) :
    r.chan.sendCount + 1 = ch.sendCount ∧ r.chan.recvCount = ch.recvCount ∧ envelopes r.chan = envelopes ch := by
  cases closeSend_cases h with
  | kept hn => exact ⟨Nat.sub_add_cancel (hn.le), rfl, rfl⟩
  | wake hn | notify hn | nobody hn => exact ⟨hn.symm, rfl, rfl⟩

theorem closeSend_isSome (h : 0 < ch.sendCount) : ∃ r, ch.closeSend = some r := by
  fun_cases closeSend ch
  case case1 => omega
  all_goals exact ⟨_, rfl⟩

def closeRecvOut : CloseRecvAction α → List α
  | .notifyPort ps => [ps.envelope]
  | _ => []

theorem closeRecv_counts {r : Res α (CloseRecvAction α)} (h : ch.closeRecv = some r) :
    r.chan.recvCount + 1 = ch.recvCount ∧ r.chan.sendCount = ch.sendCount ∧
      envelopes ch = envelopes r.chan ++ closeRecvOut r.action := by
  cases closeRecv_cases h with
  | kept hn => exact ⟨Nat.sub_add_cancel (hn.le), rfl, (append_nil _).symm⟩
  | notify hn _ hps => exact ⟨hn.symm, rfl, by simp [envelopes, closeRecvOut, hps]⟩
  | wake hn | nobody hn => exact ⟨hn.symm, rfl, (append_nil _).symm⟩

theorem closeRecv_isSome (h : 0 < ch.recvCount) : ∃ r, ch.closeRecv = some r := by
  fun_cases closeRecv ch
  case case1 => omega
  all_goals exact ⟨_, rfl⟩

end

/-! ## The books -/

/-- The count the code keeps for an object. -/
def Kernel.count (k : Kernel) : FdObject → Nat
  | .pipeWriter q => ((k.pipes.get? q).map (·.writerCount)).getD 0
  | .channelSend c => ((k.channels.get? c).map (·.sendCount)).getD 0
  | .channelRecv c => ((k.channels.get? c).map (·.recvCount)).getD 0
  | _ => 0

namespace Kernel

variable {k : Kernel} {ch : Channel EnvelopedMessage} {c : Nat}

theorem count_setChannel (k : Kernel) (c : Nat) (ch : Channel EnvelopedMessage) (o : FdObject) :
    (k.setChannel c ch).count o =
      if o = .channelSend c then ch.sendCount else if o = .channelRecv c then ch.recvCount else k.count o := by
  cases o with
  | channelSend d | channelRecv d => by_cases h : d = c <;> simp [count, setChannel, get?_insert, h]
  | _ => rfl

theorem count_setPipe (k : Kernel) (q : Nat) (p : Pipe) (o : FdObject) :
    count { k with pipes := k.pipes.insert q p } o = if o = .pipeWriter q then p.writerCount else k.count o := by
  cases o with
  | pipeWriter d => by_cases h : d = q <;> simp [count, get?_insert, h]
  | _ => rfl

theorem count_channel (h : k.channels.get? c = some ch) :
    k.count (.channelSend c) = ch.sendCount ∧ k.count (.channelRecv c) = ch.recvCount := by
  simp [count, h]

theorem count_pipe {q : Nat} {p : Pipe} (h : k.pipes.get? q = some p) : k.count (.pipeWriter q) = p.writerCount := by
  simp [count, h]

theorem refs_setChannel (hc : k.channels.get? c = some ch) (ch' : Channel EnvelopedMessage) (o : FdObject) :
    (k.setChannel c ch').refs o + (channelObjects ch).count o = k.refs o + (channelObjects ch').count o := by
  have htotal := total_insert (fun _ ch => (channelObjects ch).count o) k.channels c ch'
  simp only [hc, Option.elim] at htotal
  unfold refs setChannel
  dsimp only
  omega

variable {o : FdObject}

theorem notifyDup_spec {k' : Kernel} (h : k.notifyDup o = some k') (o' : FdObject) (ho : o'.counted) :
    k'.count o' = k.count o' + (if o = o' then 1 else 0) ∧ k'.refs o' = k.refs o' := by
  cases o with
  | pipeWriter q =>
    obtain ⟨_, hp, h⟩ := of_bind h
    cases h
    refine ⟨?_, rfl⟩
    rw [count_setPipe]
    split
    · rename_i he
      simp [he, count_pipe hp]
    · rename_i hne
      rw [if_neg (Ne.symm hne), add_zero]
  | channelSend c =>
    obtain ⟨ch, hch, h⟩ := of_bind h
    cases h
    refine ⟨?_, add_right_cancel (refs_setChannel hch ch.dupSend o')⟩
    rw [count_setChannel]
    split
    · rename_i he
      simp [he, count_channel hch, dupSend]
    rename_i hne
    rw [if_neg (Ne.symm hne), add_zero]
    split
    · rename_i he
      rw [he, (count_channel hch).2]
      rfl
    · rfl
  | channelRecv c =>
    obtain ⟨ch, hch, h⟩ := of_bind h
    cases h
    refine ⟨?_, add_right_cancel (refs_setChannel hch ch.dupRecv o')⟩
    rw [count_setChannel]
    split
    · rename_i he
      simp [he, count_channel hch, dupRecv]
    split
    · rename_i he
      simp [he, count_channel hch, dupRecv]
    · rename_i hne
      rw [if_neg (Ne.symm hne), add_zero]
  | _ =>
    cases h
    rw [if_neg (by rintro rfl; cases ho)]
    exact ⟨rfl, rfl⟩

end Kernel

/-- The objects of a message that a close hands back. -/
def CloseResult.objects : CloseResult → List FdObject
  | .notifySendPort ps => ps.envelope.objects
  | _ => []

namespace Kernel

theorem close_spec {k k' : Kernel} {res : CloseResult} (h : k.close o = some (res, k')) (o' : FdObject)
    (ho : o'.counted) : k'.count o' + (if o = o' then 1 else 0) = k.count o' ∧
      k'.refs o' + res.objects.count o' = k.refs o' := by
  cases o with
  | pipeWriter q =>
    obtain ⟨_, hp, h⟩ := of_bind h
    obtain ⟨_, ⟨⟩⟩ := of_unless h
    refine ⟨?_, rfl⟩
    rw [count_setPipe]
    split
    · rename_i he
      rw [he, count_pipe hp, if_pos rfl]
      dsimp only
      omega
    · rename_i hne
      rw [if_neg (Ne.symm hne), add_zero]
  | channelSend c =>
    obtain ⟨ch, hch, h⟩ := of_bind h
    obtain ⟨r, hr, h⟩ := of_bind h
    obtain ⟨hsend, hrecv, henv⟩ := closeSend_counts hr
    obtain ⟨hk, hres⟩ : k' = k.setChannel c r.chan ∧ res.objects = [] := by
      split at h <;> cases h <;> exact ⟨rfl, rfl⟩
    subst hk
    have hrefs := refs_setChannel hch r.chan o'
    rw [channelObjects, channelObjects, henv] at hrefs
    refine ⟨?_, by rw [hres]; exact add_right_cancel hrefs⟩
    rw [count_setChannel]
    split
    · rename_i he
      rw [he, (count_channel hch).1, if_pos rfl, hsend]
    rename_i hne
    rw [if_neg (Ne.symm hne), add_zero]
    split
    · rename_i he
      rw [he, (count_channel hch).2, hrecv]
    · rfl
  | channelRecv c =>
    obtain ⟨ch, hch, h⟩ := of_bind h
    obtain ⟨r, hr, h⟩ := of_bind h
    obtain ⟨hrecv, hsend, henv⟩ := closeRecv_counts hr
    obtain ⟨hk, hres⟩ : k' = k.setChannel c r.chan ∧ res.objects = (closeRecvOut r.action).flatMap (·.objects) := by
      generalize r.action = act at h ⊢
      cases act <;> cases h <;> simp [CloseResult.objects, closeRecvOut]
    subst hk
    have hrefs := refs_setChannel hch r.chan o'
    rw [channelObjects, channelObjects, henv, flatMap_append, count_append] at hrefs
    refine ⟨?_, by rw [hres]; omega⟩
    rw [count_setChannel]
    split
    · rename_i he
      rw [he, (count_channel hch).1, hsend, if_neg (by simp)]
      rfl
    · split
      · rename_i he
        rw [he, (count_channel hch).2, if_pos rfl, hrecv]
      · rename_i hne
        rw [if_neg (Ne.symm hne), add_zero]
  | _ =>
    cases h
    rw [if_neg (by rintro rfl; cases ho)]
    exact ⟨rfl, rfl⟩

end Kernel

namespace Kernel

variable {k k' : Kernel} {l : List FdObject}

theorem forget_spec (k : Kernel) (res : CloseResult) (o : FdObject) :
    (k.forget res).count o = k.count o ∧ (k.forget res).refs o = k.refs o + res.objects.count o := by
  cases res with
  | notifySendPort ps =>
    refine ⟨rfl, ?_⟩
    simp only [forget, dropEnvs, refs, CloseResult.objects, flatMap_cons, flatMap_nil, append_nil, count_append]
    omega
  | _ => exact ⟨rfl, by simp [forget, CloseResult.objects]⟩

theorem closeObjects_spec (h : k.closeObjects l = some k') (o : FdObject) (ho : o.counted) :
    k'.count o + l.count o = k.count o ∧ k'.refs o = k.refs o := by
  induction l generalizing k with
  | nil =>
    cases h
    exact ⟨rfl, rfl⟩
  | cons a l ih =>
    obtain ⟨_, h1, h⟩ := of_bind h
    obtain ⟨⟨res, k2⟩, h2, h1⟩ := of_bind h1
    cases h1
    obtain ⟨_, hrefs⟩ := ih h
    obtain ⟨hcount1, hrefs1⟩ := forget_spec k2 res o
    obtain ⟨hcount2, hrefs2⟩ := close_spec h2 o ho
    rw [count_cons]
    simp only [beq_iff_eq]
    omega

theorem notifyDups_spec (h : k.notifyDups l = some k') (o : FdObject) (ho : o.counted) :
    k'.count o = k.count o + l.count o ∧ k'.refs o = k.refs o := by
  induction l generalizing k with
  | nil =>
    cases h
    exact ⟨rfl, rfl⟩
  | cons a l ih =>
    obtain ⟨_, h1, h⟩ := of_bind h
    obtain ⟨_, hrefs⟩ := ih h
    obtain ⟨hcount1, hrefs1⟩ := notifyDup_spec h1 o ho
    rw [count_cons]
    simp only [beq_iff_eq]
    omega

variable {t : FdTable FdObject} {msg : IpcMessage} {fds : List Int} {objects : TransferFds}

/-- The loop counts up what it takes out, and down again what it has to give back. -/
theorem extractLoop_spec {res : Option TransferFds}
    (h : k.extractLoop t fds objects = some (res, k')) (o : FdObject) (ho : o.counted) :
    k'.count o + objects.reduceOption.count o = k.count o + (objectsOf res).count o ∧ k'.refs o = k.refs o := by
  induction fds generalizing k objects with
  | nil =>
    cases h
    exact ⟨rfl, rfl⟩
  | cons fd fds ih =>
    have hback : ∀ {k1 : Kernel}, k.closeObjects objects.reduceOption = some k1 → (none, k1) = (res, k') →
        k'.count o + objects.reduceOption.count o = k.count o + (objectsOf res).count o ∧ k'.refs o = k.refs o := by
      intro k1 h1 he
      cases he
      exact closeObjects_spec h1 o ho
    unfold extractLoop at h
    split at h
    · have := ih h
      rwa [reduceOption_append, reduceOption_singleton, toList_none, append_nil] at this
    split at h
    · obtain ⟨k1, h1, h⟩ := of_bind h
      exact hback h1 (some.inj h)
    split at h
    · obtain ⟨k1, h1, h⟩ := of_bind h
      obtain ⟨hcount, _⟩ := ih h
      obtain ⟨_, hrefs1⟩ := notifyDup_spec h1 o ho
      rw [reduceOption_append, reduceOption_singleton, toList_some, count_append, count_singleton] at hcount
      simp only [beq_iff_eq] at hcount
      omega
    · obtain ⟨k1, h1, h⟩ := of_bind h
      exact hback h1 (some.inj h)

/-- The channels there are, with other counts. -/
def SameChannels (k k' : Kernel) : Prop :=
  ∀ c ch', k'.channels.get? c = some ch' → ∃ ch n m, k.channels.get? c = some ch ∧
    ch' = { ch with sendCount := n, recvCount := m }

theorem SameChannels.refl (k : Kernel) : SameChannels k k := fun _ ch h => ⟨ch, ch.sendCount, ch.recvCount, h, rfl⟩

theorem SameChannels.trans {k1 : Kernel} (h : SameChannels k k1) (h' : SameChannels k1 k') : SameChannels k k' := by
  intro c ch' hc
  obtain ⟨ch1, n1, m1, hc1, rfl⟩ := h' c ch' hc
  obtain ⟨ch, -, -, hc0, rfl⟩ := h c ch1 hc1
  exact ⟨ch, n1, m1, hc0, rfl⟩

theorem notifyDup_channels (h : k.notifyDup o = some k') : SameChannels k k' := by
  cases o
  case channelSend d | channelRecv d =>
    obtain ⟨ch, hd, h⟩ := of_bind h
    cases h
    intro c ch' hc
    obtain ⟨rfl, rfl⟩ | ⟨-, hc⟩ := get?_insert_cases hc
    · exact ⟨ch, _, _, hd, rfl⟩
    · exact SameChannels.refl k c ch' hc
  case pipeWriter q =>
    obtain ⟨_, -, h⟩ := of_bind h
    cases h
    exact .refl k
  all_goals
    cases h
    exact .refl _

/-- Objects that are all there are only counted. -/
theorem extractLoop_channels {tf : TransferFds}
    (h : k.extractLoop t fds objects = some (some tf, k')) : SameChannels k k' := by
  induction fds generalizing k objects with
  | nil =>
    cases h
    exact .refl _
  | cons fd fds ih =>
    unfold extractLoop at h
    split at h
    · exact ih h
    split at h
    · obtain ⟨k1, -, h⟩ := of_bind h
      cases h
    split at h
    · obtain ⟨k1, h1, h⟩ := of_bind h
      exact (notifyDup_channels h1).trans (ih h)
    · obtain ⟨_, -, h⟩ := of_bind h
      cases h

theorem extractTransferFds_channels {tf : Option TransferFds}
    (h : k.extractTransferFds t msg = some (some tf, k')) : SameChannels k k' := by
  unfold extractTransferFds at h
  split at h
  · cases h
    exact .refl _
  obtain ⟨⟨_, _⟩, hloop, h⟩ := of_bind h
  obtain ⟨hres, rfl⟩ := Prod.mk.inj (some.inj h)
  obtain ⟨_, rfl, -⟩ := of_map hres
  exact extractLoop_channels hloop

theorem extractTransferFds_spec {res : Option (Option TransferFds)}
    (h : k.extractTransferFds t msg = some (res, k')) (o : FdObject) (ho : o.counted) :
    k'.count o = k.count o + (objectsOf res.join).count o ∧ k'.refs o = k.refs o := by
  unfold extractTransferFds at h
  split at h
  · cases h
    exact ⟨rfl, rfl⟩
  obtain ⟨⟨tf, _⟩, hloop, h⟩ := of_bind h
  cases h
  have := extractLoop_spec hloop o ho
  cases tf <;> simpa [objectsOf] using this

end Kernel

end Ostoo.Fd
