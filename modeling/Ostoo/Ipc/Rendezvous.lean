/-
  Ostoo.Ipc.Rendezvous — delivery on a channel of capacity 0.

  A message passes through the one slot `pending_send`: put there for a receiver that is
  woken to fetch it, or by a sender that blocks until it is fetched. A blocking send that
  finds nobody waiting writes the slot without looking: what an earlier send left there
  is lost, also when that send has already succeeded (`a_later_send_overwrites_the_slot`).
  In the runs in which no blocking send finds the slot taken and nobody else wakes a thread
  that sleeps in a call, every successful send is handed to exactly one receiver, or is in
  the slot with a receiver woken for it (`rendezvous_delivers`).
-/

import Mathlib.Data.List.Perm.Basic
import Mathlib.Data.List.Nodup
import Ostoo.Ipc.Threads

namespace Ostoo.Ipc.Rendezvous

open Ostoo.Lib List Channel
open Ostoo.Ipc.Threads
open Function (update_self update_of_ne update)

/-- A blocking send that finds the receive end open and nobody waiting finds the slot free, and
    on a rendezvous channel nobody else wakes a thread that sleeps in a call. -/
def SlotFree (s : St) : Ev → Prop
  | .send _ nonblock => nonblock = false → s.chan.recvClosed = false → s.chan.blockedReceiver = none →
    s.chan.pendingPort = none → s.chan.pendingSend = none
  | .unblock t => s.chan.capacity = 0 → (s.th t).asleep = false
  | _ => True

/-! ## The invariant -/

/-- The message has reached a receiver, or is in the slot and a receiver was woken for it. -/
def Due (s : St) (id : Nat) : Prop :=
  id ∈ s.handed ∨ (s.chan.pendingSend = some id ∧ ∃ t, s.th t = .recvWait true)

/-- The messages in the slot, armed, or handed out. -/
def live (s : St) : List Nat :=
  s.chan.pendingSend.toList ++ (s.chan.pendingSendPort.toList.map (·.envelope) ++ s.handed)

/-- What a thread's place in a call says of its message. -/
def ThOk (s : St) (t : Nat) : Th → Prop
  | .sendWait id false => s.chan.blockedSender = some t ∧ s.chan.pendingSend = some id
  | .sendWait id true => id ∈ s.handed ∨ s.chan.recvClosed = true
  | .sendFull _ _ => False
  | .sendRet id => Due s id
  | .idle | .recvWait _ => True

structure Inv (s : St) : Prop where
  cap : s.chan.capacity = 0
  live_lt : ∀ id ∈ live s, id < s.next
  live_nodup : (live s).Nodup
  receiver : ∀ t, s.chan.blockedReceiver = some t → s.th t = .recvWait false ∧ s.chan.pendingSend = none
  sender : ∀ t, s.chan.blockedSender = some t → ∃ id, s.th t = .sendWait id false ∧ s.chan.pendingSend = some id
  threads : ∀ t, ThOk s t (s.th t)
  acked : ∀ id ∈ s.acked, Due s id

/-! ## One lemma for each thing a call does -/

section

variable {s s' : St} {t id : Nat} {x : Th}

theorem Due.of_kept (h : Due s id) (hh : s.handed ⊆ s'.handed)
    (hp : ∀ id, s.chan.pendingSend = some id → s'.chan.pendingSend = some id)
    (hw : ∀ t, s.th t = .recvWait true → s'.th t = .recvWait true) : Due s' id := by
  rcases h with h | ⟨h, t, ht⟩
  · exact .inl (hh h)
  · exact .inr ⟨hp id h, t, hw t ht⟩

theorem Due.mem_handed (h : Due s id) (hp : s.chan.pendingSend = none) : id ∈ s.handed := by
  rcases h with h | ⟨h, -⟩
  · exact h
  · rw [hp] at h
    cases h

theorem ThOk.mono (h : ThOk s t x) (hd : ∀ id, Due s id → Due s' id) (hh : s.handed ⊆ s'.handed)
    (hc : s.chan.recvClosed = true → s'.chan.recvClosed = true)
    (hw : ∀ id, x = .sendWait id false → s'.chan.blockedSender = some t ∧ s'.chan.pendingSend = some id) :
    ThOk s' t x := by
  cases x with
  | idle => trivial
  | recvWait w => trivial
  | sendFull id w => exact h
  | sendRet id => exact hd id h
  | sendWait id w =>
    cases w with
    | false => exact hw id rfl
    | true => exact h.imp (fun h => hh h) hc

variable (hs : Inv s) {nonblock : Bool}
include hs

/-- A blocked sender's message is in the slot, and it is the only one blocked there. -/
theorem Inv.waiting (h : s.th t = .sendWait id false) :
    s.chan.blockedSender = some t ∧ s.chan.pendingSend = some id := by
  have := hs.threads t
  rw [h] at this
  exact this

theorem Inv.blockedSender_eq_none (hp : s.chan.pendingSend = none) : s.chan.blockedSender = none := by
  cases hb : s.chan.blockedSender with
  | none => rfl
  | some u =>
    obtain ⟨id, -, h⟩ := hs.sender u hb
    rw [hp] at h
    cases h

theorem Inv.next_live : (s.next :: live s).Nodup ∧ ∀ id ∈ s.next :: live s, id < s.next + 1 := by
  refine ⟨nodup_cons.mpr ⟨fun h => Nat.lt_irrefl _ (hs.live_lt _ h), hs.live_nodup⟩, fun id hid => ?_⟩
  rcases mem_cons.mp hid with rfl | hid
  · exact Nat.lt_succ_self _
  · exact Nat.lt_succ_of_lt (hs.live_lt id hid)

/-- Only these parts of the state matter, and the receive end may close. -/
theorem Inv.frame {c : Channel Nat} {n : Nat} (h1 : c.capacity = s.chan.capacity)
    (h2 : c.pendingSend = s.chan.pendingSend) (h3 : c.pendingSendPort = s.chan.pendingSendPort)
    (h4 : c.blockedReceiver = s.chan.blockedReceiver) (h5 : c.blockedSender = s.chan.blockedSender)
    (h6 : s.chan.recvClosed = true → c.recvClosed = true) (hn : s.next ≤ n) : Inv { s with chan := c, next := n } := by
  have hdue : ∀ id, Due s id → Due { s with chan := c, next := n } id := fun id h =>
    h.of_kept (Subset.refl _) (fun _ h => h2.trans h) fun _ h => h
  have hlive : live { s with chan := c, next := n } = live s := by simp only [live, h2, h3]
  refine ⟨h1.trans hs.cap, fun id hid => ?_, hlive ▸ hs.live_nodup, ?_, ?_, fun t => ?_, fun id h =>
    hdue id (hs.acked id h)⟩
  · exact Nat.lt_of_lt_of_le (hs.live_lt id (hlive ▸ hid)) hn
  · intro t ht
    rw [h4] at ht
    exact ⟨(hs.receiver t ht).1, h2.trans (hs.receiver t ht).2⟩
  · intro t ht
    rw [h5] at ht
    obtain ⟨id, hth, hp⟩ := hs.sender t ht
    exact ⟨id, hth, h2.trans hp⟩
  · exact (hs.threads t).mono hdue (Subset.refl _) h6 fun id h => by
      obtain ⟨hb, hp⟩ := hs.waiting h
      exact ⟨h5.trans hb, h2.trans hp⟩

theorem Inv.setTh (hnot : ∀ id, s.th t ≠ .sendWait id false) (hr : s.th t ≠ .recvWait false)
    (hw : s.th t = .recvWait true → s.chan.pendingSend = none) (hx : ThOk s t x) (hret : ∀ id, x ≠ .sendWait id false) :
    Inv (s.setTh t x) := by
  have hdue : ∀ id, Due s id → Due (s.setTh t x) id := by
    rintro id (h | ⟨h, u, hu⟩)
    · exact .inl h
    · by_cases hut : u = t
      · rw [hw (hut ▸ hu)] at h
        cases h
      · exact .inr ⟨h, u, by simp [St.setTh, hut, hu]⟩
  refine ⟨hs.cap, hs.live_lt, hs.live_nodup, fun u hu => ?_, fun u hu => ?_, fun u => ?_, fun id h =>
    hdue id (hs.acked id h)⟩
  · obtain ⟨h, hp⟩ := hs.receiver u hu
    have hut : u ≠ t := by rintro rfl; exact hr h
    exact ⟨by simp [St.setTh, hut, h], hp⟩
  · obtain ⟨id, h, hp⟩ := hs.sender u hu
    have hut : u ≠ t := by rintro rfl; exact hnot id h
    exact ⟨id, by simp [St.setTh, hut, h], hp⟩
  · by_cases hut : u = t
    · subst hut
      simp only [St.setTh, update_self]
      exact hx.mono hdue (Subset.refl _) (fun h => h) fun id h => absurd h (hret id)
    · simp only [St.setTh, update_of_ne hut]
      exact (hs.threads u).mono hdue (Subset.refl _) (fun h => h) fun id h => hs.waiting h

theorem Inv.ack (h : Due s id) : Inv (s.ack id) := by
  refine ⟨hs.cap, hs.live_lt, hs.live_nodup, hs.receiver, hs.sender, hs.threads, fun j hj => ?_⟩
  rcases mem_append.mp hj with hj | hj
  · exact hs.acked j hj
  · rw [mem_singleton.mp hj]
    exact h

theorem Inv.deposit {r : Nat} (hr : s.chan.blockedReceiver = some r) : let s' := { s with
      next := s.next + 1
      chan := { s.chan with blockedReceiver := none, pendingSend := some s.next }
      th := update s.th r (s.th r).wake }
    Inv s' ∧ Due s' s.next := by
  intro s'
  obtain ⟨hth, hp⟩ := hs.receiver r hr
  have hwoken : s'.th r = .recvWait true := by simp [s', hth, Th.wake]
  have hkeep : ∀ u, u ≠ r → s'.th u = s.th u := fun u hu => by simp [s', hu]
  have hlive : live s' = s.next :: live s := by simp [s', live, hp]
  have hdue : ∀ id, Due s id → Due s' id := fun id h => .inl (h.mem_handed hp)
  refine ⟨⟨hs.cap, hlive ▸ hs.next_live.2, hlive ▸ hs.next_live.1, by simp [s'], ?_, fun u => ?_,
    fun id h => hdue id (hs.acked id h)⟩, .inr ⟨rfl, r, hwoken⟩⟩
  · intro u hu
    cases (hs.blockedSender_eq_none hp).symm.trans hu
  · by_cases hur : u = r
    · subst hur
      rw [hwoken]
      trivial
    · rw [hkeep u hur]
      exact (hs.threads u).mono hdue (Subset.refl _) (fun h => h) fun id h => by
        have := (hs.waiting h).2
        rw [hp] at this
        cases this

theorem Inv.handNew : Inv { s with next := s.next + 1, handed := s.handed ++ [s.next] } := by
  have hperm : (live { s with next := s.next + 1, handed := s.handed ++ [s.next] }).Perm (s.next :: live s) := by
    simp only [live, ← append_assoc]
    exact perm_append_singleton _ _
  have hdue : ∀ id, Due s id → Due { s with next := s.next + 1, handed := s.handed ++ [s.next] } id := fun id h =>
    h.of_kept (subset_append_left _ _) (fun _ h => h) fun _ h => h
  refine ⟨hs.cap, fun id hid => hs.next_live.2 id (hperm.mem_iff.mp hid), hperm.nodup_iff.mpr hs.next_live.1,
    hs.receiver, hs.sender, fun t => ?_, fun id h => hdue id (hs.acked id h)⟩
  exact (hs.threads t).mono hdue (subset_append_left _ _) (fun h => h) fun id h => hs.waiting h

/-- A sender that finds nobody puts its message in the free slot and blocks. -/
theorem Inv.blockSender (ht : s.th t = .idle) (hp : s.chan.pendingSend = none)
    (hr : s.chan.blockedReceiver = none) :
    Inv { s with
      next := s.next + 1
      chan := { s.chan with pendingSend := some s.next, blockedSender := some t }
      th := update s.th t (.sendWait s.next false) } := by
  refine ⟨hs.cap, ?_, ?_, fun u hu => ?_, fun u hu => ?_, fun u => ?_, fun id h => .inl ((hs.acked id h).mem_handed hp)⟩
  · simpa [live, hp] using hs.next_live.2
  · simpa [live, hp] using hs.next_live.1
  · rw [hr] at hu
    cases hu
  · obtain rfl : t = u := by simpa using hu
    exact ⟨s.next, by simp, rfl⟩
  · by_cases hut : u = t
    · subst hut
      simp only [update_self]
      exact ⟨rfl, rfl⟩
    · simp only [update_of_ne hut]
      refine (hs.threads u).mono (fun id h => .inl (h.mem_handed hp)) (Subset.refl _) (fun h => h) fun id h => ?_
      have := (hs.waiting h).2
      rw [hp] at this
      cases this

/-- A receiver takes the message from the slot; the sender blocked on it is woken. -/
theorem Inv.take {act : Type} (a : act) (hp : s.chan.pendingSend = some id) :
    Inv ((s.after ⟨a, { s.chan with pendingSend := none, blockedSender := none }, s.chan.blockedSender⟩).hand id) := by
  have hlive : live s = id :: (s.chan.pendingSendPort.toList.map (·.envelope) ++ s.handed) := by simp [live, hp]
  have hperm : (s.chan.pendingSendPort.toList.map (·.envelope) ++ (s.handed ++ [id])).Perm (live s) := by
    rw [hlive, ← append_assoc]
    exact perm_append_singleton id _
  have hdue : ∀ j, Due s j → j ∈ s.handed ++ [id] := by
    rintro j (h | ⟨h, -⟩)
    · exact mem_append_left _ h
    · obtain rfl : id = j := by simpa using hp.symm.trans h
      exact mem_append_right _ (mem_singleton.mpr rfl)
  have hreceiver : s.chan.blockedReceiver = none := by
    cases hr : s.chan.blockedReceiver with
    | none => rfl
    | some r =>
      have := (hs.receiver r hr).2
      rw [hp] at this
      cases this
  -- the blocked sender, if any, now has its message handed out
  have hth : ∀ u, ThOk ((s.after ⟨a, { s.chan with pendingSend := none, blockedSender := none },
      s.chan.blockedSender⟩).hand id) u ((s.after ⟨a, { s.chan with pendingSend := none, blockedSender := none },
      s.chan.blockedSender⟩).th u) := by
    intro u
    by_cases hu : s.chan.blockedSender = some u
    · obtain ⟨j, hj, hpj⟩ := hs.sender u hu
      obtain rfl : id = j := by simpa using hp.symm.trans hpj
      simp only [St.after, unblock, hu, update_self, hj, Th.wake]
      exact .inl (mem_append_right _ (mem_singleton.mpr rfl))
    · have hkeep : (s.after ⟨a, { s.chan with pendingSend := none, blockedSender := none },
          s.chan.blockedSender⟩).th u = s.th u := by
        cases hb : s.chan.blockedSender with
        | none => rfl
        | some v =>
          have huv : u ≠ v := by rintro rfl; exact hu hb
          simp [St.after, unblock, huv]
      rw [hkeep]
      exact (hs.threads u).mono (fun j h => .inl (hdue j h)) (subset_append_left _ _) (fun h => h)
        fun j h => absurd (hs.waiting h).1 hu
  refine ⟨hs.cap, ?_, ?_, fun u hu => ?_, by simp [St.hand, St.after], hth, fun j h => .inl (hdue j (hs.acked j h))⟩
  · intro j hj
    exact hs.live_lt j (hperm.mem_iff.mp (by simpa [live, St.hand, St.after] using hj))
  · simpa [live, St.hand, St.after] using hperm.nodup_iff.mpr hs.live_nodup
  · simp only [St.hand, St.after, hreceiver] at hu
    cases hu

theorem Inv.takeArmed {ps : PendingPortSend Nat} (hps : s.chan.pendingSendPort = some ps) :
    Inv { s with
      chan := { s.chan with pendingSendPort := none }
      handed := s.handed ++ [ps.envelope]
      acked := s.acked ++ [ps.envelope] } := by
  have hperm : (s.chan.pendingSend.toList ++ (s.handed ++ [ps.envelope])).Perm (live s) := by
    have : live s = s.chan.pendingSend.toList ++ (ps.envelope :: s.handed) := by simp [live, hps]
    rw [this]
    exact (perm_append_singleton _ _).append_left _
  have hdue : ∀ id, Due s id → Due { s with
      chan := { s.chan with pendingSendPort := none }
      handed := s.handed ++ [ps.envelope]
      acked := s.acked ++ [ps.envelope] } id := fun id h =>
    h.of_kept (subset_append_left _ _) (fun _ h => h) fun _ h => h
  refine ⟨hs.cap, ?_, ?_, hs.receiver, hs.sender, fun t => ?_, fun id h => ?_⟩
  · intro j hj
    exact hs.live_lt j (hperm.mem_iff.mp (by simpa [live] using hj))
  · simpa [live] using hperm.nodup_iff.mpr hs.live_nodup
  · exact (hs.threads t).mono hdue (subset_append_left _ _) (fun h => h) fun id h => hs.waiting h
  · rcases mem_append.mp h with h | h
    · exact hdue id (hs.acked id h)
    · exact .inl (mem_append_right _ h)

theorem Inv.blockRecv (ht : s.th t = .idle ∨ s.th t = .recvWait true) (hp : s.chan.pendingSend = none) :
    Inv { s with
      chan := { s.chan with blockedReceiver := some t }
      th := update s.th t (.recvWait false) } := by
  refine ⟨hs.cap, hs.live_lt, hs.live_nodup, fun u hu => ?_, fun u hu => ?_, fun u => ?_,
    fun id h => .inl ((hs.acked id h).mem_handed hp)⟩
  · obtain rfl : t = u := by simpa using hu
    exact ⟨by simp, hp⟩
  · cases (hs.blockedSender_eq_none hp).symm.trans hu
  · by_cases hut : u = t
    · subst hut
      simp only [update_self]
      trivial
    · simp only [update_of_ne hut]
      exact (hs.threads u).mono (fun id h => .inl (h.mem_handed hp)) (Subset.refl _) (fun h => h)
        fun id h => hs.waiting h

/-- A send is armed; one armed before is forgotten. -/
theorem Inv.armSend (port userData : Nat) :
    Inv { s with next := s.next + 1, chan := { s.chan with pendingSendPort := some ⟨port, userData, s.next⟩ } } := by
  have hsub : (s.chan.pendingSend.toList ++ s.handed).Sublist (live s) :=
    (Sublist.refl _).append (sublist_append_right _ _)
  have hdue : ∀ id, Due s id → Due { s with
      next := s.next + 1, chan := { s.chan with pendingSendPort := some ⟨port, userData, s.next⟩ } } id := fun id h => h
  refine ⟨hs.cap, ?_, ?_, hs.receiver, hs.sender, fun t => ?_, fun id h => hdue id (hs.acked id h)⟩
  · intro id hid
    have hid : id = s.next ∨ id ∈ s.chan.pendingSend.toList ++ s.handed := by
      simp [live] at hid ⊢
      tauto
    rcases hid with rfl | hid
    · exact Nat.lt_succ_self _
    · exact Nat.lt_succ_of_lt (hs.live_lt id (hsub.subset hid))
  · show (s.chan.pendingSend.toList ++ s.next :: s.handed).Nodup
    rw [nodup_middle, nodup_cons]
    exact ⟨fun h => Nat.lt_irrefl _ (hs.live_lt _ (hsub.subset h)), hs.live_nodup.sublist hsub⟩
  · exact (hs.threads t).mono hdue (Subset.refl _) (fun h => h) fun id h => hs.waiting h

/-- The receive end closes and wakes the blocked sender, whose message stays in the slot. -/
theorem Inv.closeRecvWake (hb : s.chan.blockedSender = some t) :
    Inv { s with
      chan := { s.chan with recvCount := 0, recvClosed := true, blockedSender := none }
      th := update s.th t (s.th t).wake } := by
  obtain ⟨id, hth, hp⟩ := hs.sender t hb
  have hdue : ∀ id, Due s id → Due { s with
      chan := { s.chan with recvCount := 0, recvClosed := true, blockedSender := none }
      th := update s.th t (s.th t).wake } id := fun id h =>
    h.of_kept (Subset.refl _) (fun _ h => h) fun u hu => by
      have hut : u ≠ t := by rintro rfl; rw [hth] at hu; cases hu
      simp [hut, hu]
  refine ⟨hs.cap, hs.live_lt, hs.live_nodup, fun u hu => ?_, by simp, fun u => ?_, fun id h => hdue id (hs.acked id h)⟩
  · obtain ⟨h, hp⟩ := hs.receiver u hu
    have hut : u ≠ t := by rintro rfl; rw [hth] at h; cases h
    exact ⟨by simp [hut, h], hp⟩
  · by_cases hut : u = t
    · subst hut
      simp only [update_self, hth, Th.wake]
      exact .inr rfl
    · simp only [update_of_ne hut]
      refine (hs.threads u).mono hdue (Subset.refl _) (fun _ => rfl) fun id h => ?_
      have := (hs.waiting h).1
      rw [hb] at this
      cases this
      exact absurd rfl hut

theorem Inv.closeSendWake (hb : s.chan.blockedReceiver = some t) :
    Inv { s with
      chan := { s.chan with sendCount := 0, sendClosed := true, blockedReceiver := none }
      th := update s.th t (s.th t).wake } := by
  obtain ⟨hth, hp⟩ := hs.receiver t hb
  refine ⟨hs.cap, hs.live_lt, hs.live_nodup, by simp, fun u hu => ?_, fun u => ?_,
    fun id h => .inl ((hs.acked id h).mem_handed hp)⟩
  · cases (hs.blockedSender_eq_none hp).symm.trans hu
  · by_cases hut : u = t
    · subst hut
      simp only [update_self, hth, Th.wake]
      trivial
    · simp only [update_of_ne hut]
      exact (hs.threads u).mono (fun id h => .inl (h.mem_handed hp)) (Subset.refl _) (fun h => h)
        fun id h => hs.waiting h

theorem Inv.closeRecvDrop :
    Inv { s with chan := { s.chan with recvCount := 0, recvClosed := true, pendingSendPort := none } } := by
  have hsub : (s.chan.pendingSend.toList ++ s.handed).Sublist (live s) :=
    (Sublist.refl _).append (sublist_append_right _ _)
  refine ⟨hs.cap, fun id hid => hs.live_lt id (hsub.subset hid), hs.live_nodup.sublist hsub, hs.receiver, hs.sender,
    fun t => ?_, hs.acked⟩
  exact (hs.threads t).mono (fun id h => h) (Subset.refl _) (fun _ => rfl) fun id h => hs.waiting h

/-! ## Steps -/

theorem send_inv (ht : s.th t = .idle) (hg : SlotFree s (.send t nonblock)) :
    Inv (send { s with next := s.next + 1 } t s.next nonblock) := by
  have hnot : ∀ id, s.th t ≠ .sendWait id false := fun id h => by rw [ht] at h; cases h
  have hfresh : Inv { s with next := s.next + 1 } := hs.frame rfl rfl rfl rfl rfl (fun h => h) (Nat.le_succ _)
  have hidle : Inv ({ s with next := s.next + 1 }.setTh t .idle) :=
    hfresh.setTh hnot (by simp [ht]) (by simp [ht]) trivial (by simp)
  simp only [send]
  fun_cases trySend s.chan t s.next nonblock
  case case1 => exact hidle
  case case2 r hr =>
    obtain ⟨hinv, hdue⟩ := hs.deposit hr
    have htr : t ≠ r := by rintro rfl; have := (hs.receiver _ hr).1; rw [ht] at this; cases this
    exact hinv.setTh (by simp [htr, ht]) (by simp [htr, ht]) (by simp [htr, ht]) hdue (by simp)
  case case3 pr hpr =>
    have hinv := hs.handNew.frame (c := { s.chan with pendingPort := none }) rfl rfl rfl rfl rfl (fun h => h)
      (Nat.le_refl _)
    exact hinv.setTh hnot (by simp [ht]) (by simp [ht]) (.inl (by simp)) (by simp)
  case case4 => exact hidle
  case case5 hopen _ hr hpp hblock =>
    have hp : s.chan.pendingSend = none := hg (by simpa using hblock) (by simpa using hopen) hr hpp
    exact hs.blockSender ht hp hr
  all_goals exact absurd hs.cap ‹_›

theorem recv_inv (ht : s.th t = .idle ∨ s.th t = .recvWait true) : Inv (recv s t nonblock) := by
  have hnot : ∀ id, s.th t ≠ .sendWait id false := fun id h => by rcases ht with ht | ht <;> rw [ht] at h <;> cases h
  have hr : s.th t ≠ .recvWait false := fun h => by rcases ht with ht | ht <;> rw [ht] at h <;> cases h
  simp only [recv]
  fun_cases tryRecv s.chan t nonblock
  case case1 id hp =>
    have hkeep : ∀ u, s.chan.blockedSender = some u → t ≠ u := by
      rintro u hu rfl
      obtain ⟨id, h, -⟩ := hs.sender _ hu
      exact hnot id h
    have hth : ((s.after ⟨RecvAction.message id, { s.chan with pendingSend := none, blockedSender := none },
        s.chan.blockedSender⟩).hand id).th t = s.th t := by
      cases hb : s.chan.blockedSender with
      | none => rfl
      | some u => simp [St.after, unblock, St.hand, hkeep u hb]
    refine (hs.take (RecvAction.message id) hp).setTh ?_ ?_ (fun _ => rfl) trivial (by simp)
    · rw [hth]; exact hnot
    · rw [hth]; exact hr
  case case2 hp ps hps =>
    simp only [hps]
    have hinv := (hs.takeArmed hps).setTh (t := t) (x := .idle) hnot hr (fun _ => hp) trivial (by simp)
    exact hinv
  case case3 hp _ _ => exact hs.setTh hnot hr (fun _ => hp) trivial (by simp)
  case case4 hp _ _ _ => exact hs.setTh hnot hr (fun _ => hp) trivial (by simp)
  case case5 hp _ _ _ => exact hs.blockRecv ht hp
  all_goals exact absurd hs.cap ‹_›

theorem portSend_inv (port userData : Nat) : Inv (portSend { s with next := s.next + 1 } ⟨port, userData, s.next⟩) := by
  simp only [portSend]
  fun_cases armSend s.chan ⟨port, userData, s.next⟩
  case case1 => exact hs.frame rfl rfl rfl rfl rfl (fun h => h) (Nat.le_succ _)
  case case2 r hr =>
    obtain ⟨hinv, hdue⟩ := hs.deposit hr
    exact hinv.ack hdue
  case case3 pr hpr =>
    have hinv := hs.handNew.frame (c := { s.chan with pendingPort := none }) rfl rfl rfl rfl rfl (fun h => h)
      (Nat.le_refl _)
    exact hinv.ack (.inl (by simp))
  case case4 => exact hs.armSend port userData
  all_goals exact absurd hs.cap ‹_›

theorem portRecv_inv (info : PendingPortRecv) : Inv (portRecv s info) := by
  simp only [portRecv]
  fun_cases armRecv s.chan info
  case case1 id hp => exact hs.take (ArmRecvAction.ready id) hp
  case case2 hp ps hps =>
    simp only [hps]
    exact hs.takeArmed hps
  case case3 =>
    fun_cases armRecvWait s.chan info
    · exact hs
    · exact hs.frame rfl rfl rfl rfl rfl (fun h => h) (Nat.le_refl _)
  all_goals exact absurd hs.cap ‹_›

theorem closeSend_inv {r : Res Nat CloseSendAction} (h : s.chan.closeSend = some r) : Inv (s.after r) := by
  revert h
  fun_cases closeSend s.chan
  all_goals
    intro h
    cases h
  case case3 t ht => exact hs.closeSendWake ht
  all_goals exact hs.frame rfl rfl rfl rfl rfl (fun h => h) (Nat.le_refl _)

theorem closeRecv_inv {r : Res Nat (CloseRecvAction Nat)} (h : s.chan.closeRecv = some r) : Inv (s.after r) := by
  revert h
  fun_cases closeRecv s.chan
  all_goals
    intro h
    cases h
  case case3 t ht => exact hs.closeRecvWake ht
  case case4 => exact hs.closeRecvDrop
  all_goals exact hs.frame rfl rfl rfl rfl rfl (fun h => by simp [h]) (Nat.le_refl _)

theorem step_inv {e : Ev} (hg : SlotFree s e) (h : step s e = some s') : Inv s' := by
  cases step_cases h with
  | send ht => exact send_inv hs ht hg
  | recv ht => exact recv_inv hs (.inl ht)
  | failed ht => exact hs.setTh (by simp [ht]) (by simp [ht]) (by simp [ht]) trivial (by simp)
  | @sent t id ht hopen =>
    have hok := hs.threads t
    rw [ht] at hok
    have hd : Due s id := .inl (hok.resolve_right (by simp [hopen]))
    exact (hs.ack hd).setTh (by simp [St.ack, ht]) (by simp [St.ack, ht]) (by simp [St.ack, ht]) trivial (by simp)
  | @retry t id ht =>
    have hok := hs.threads t
    rw [ht] at hok
    exact hok.elim
  | @ret t id ht =>
    have hok := hs.threads t
    rw [ht] at hok
    exact (hs.ack hok).setTh (by simp [St.ack, ht]) (by simp [St.ack, ht]) (by simp [St.ack, ht]) trivial (by simp)
  | again ht => exact recv_inv hs (.inr ht)
  | portSend => exact portSend_inv hs _ _
  | portRecv => exact portRecv_inv hs _
  | closeSend hr => exact closeSend_inv hs hr
  | closeRecv hr => exact closeRecv_inv hs hr
  | dupSend | dupRecv => exact hs.frame rfl rfl rfl rfl rfl (fun h => h) (Nat.le_refl _)
  | unblock => rwa [unblock_of_not_asleep (hg hs.cap)]

end

theorem reach_inv {s : St} (h : (machine 0).Reach SlotFree s) : Inv s := by
  refine Machine.Reach.inv (I := Inv) (fun s hs => ?_) (fun s e s' hs hg he => step_inv hs hg he) h
  obtain rfl : s = init 0 := hs
  exact ⟨rfl, by simp [live, init, new], by simp [live, init, new], by simp [init, new],
    by simp [init, new], fun _ => trivial, by simp [init]⟩

/-- In the runs considered: no message is handed out twice; a send that succeeded has been
    handed out, or is in the slot with a receiver woken to fetch it, so it has been handed out
    once all woken threads have run; and a blocked sender's message is in the slot. -/
theorem rendezvous_delivers (s : St) (h : (machine 0).Reach SlotFree s) :
    s.handed.Nodup ∧
      (∀ id ∈ s.acked, s.handed.count id = 1 ∨ (s.chan.pendingSend = some id ∧ ∃ t, s.th t = .recvWait true)) ∧
      (Quiet s → ∀ id ∈ s.acked, s.handed.count id = 1) ∧
      (∀ t id, s.th t = .sendWait id false → s.chan.pendingSend = some id) ∧
      (∀ t id, s.th t = .sendWait id true → s.chan.recvClosed = false → s.handed.count id = 1) := by
  have hs := reach_inv h
  have hnodup : s.handed.Nodup :=
    hs.live_nodup.sublist ((sublist_append_right _ _).trans (sublist_append_right _ _))
  have hcount : ∀ id ∈ s.handed, s.handed.count id = 1 := fun id h => count_eq_one_of_mem hnodup h
  refine ⟨hnodup, fun id hid => (hs.acked id hid).imp (hcount id) fun h => h, fun hq id hid => ?_,
    fun t id ht => (hs.waiting ht).2, fun t id ht hopen => ?_⟩
  · rcases hs.acked id hid with h | ⟨-, t, ht⟩
    · exact hcount id h
    · have := hq t
      rw [ht] at this
      cases this
  · have := hs.threads t
    rw [ht] at this
    rcases this with h | h
    · exact hcount id h
    · rw [hopen] at h
      cases h

/-- A sender blocks with message 0, a receiver fetches it, and the sender returns 0. -/
def blockedTrace : List Ev := [.send 1 false, .recv 2 false, .resume 1]

theorem rendezvous_delivers_blocked_sender :
    ∃ s, (machine 0).Reach SlotFree s ∧ s.acked = [0] ∧ Quiet s ∧ s.handed.count 0 = 1 := by
  have hg : (machine 0).Guarded SlotFree (init 0) blockedTrace := ⟨fun _ _ _ _ => rfl, trivial, trivial, trivial⟩
  obtain ⟨s, hr, hth, hacked⟩ : ∃ s, (machine 0).run (init 0) blockedTrace = some s ∧
      s.th = places [(1, .sendWait 0 false), (1, .sendWait 0 true), (2, .idle), (1, .idle)] ∧ s.acked = [0] :=
    ⟨_, rfl, rfl, rfl⟩
  have h := Machine.reach_of_run (init 0) blockedTrace rfl hg hr
  have hq := quiet_of_places _ hth (by decide)
  exact ⟨s, h, hacked, hq, (rendezvous_delivers s h).2.2.1 hq 0 (by rw [hacked]; decide)⟩

/-- A receiver is blocked; an `OP_IPC_SEND` puts message 0 in the slot, wakes it and posts
    success; before it runs, a blocking send puts message 1 over it. All threads run to
    the end of their calls, and message 0 was never handed out. -/
def overwriteTrace : List Ev := [.recv 1 false, .portSend 0 5, .send 3 false, .resume 1, .resume 3]

theorem a_later_send_overwrites_the_slot :
    ∃ s, (machine 0).Reachable s ∧ 0 ∈ s.acked ∧ 0 ∉ s.handed ∧ s.chan.pendingSend = none ∧
      s.chan.recvClosed = false ∧ Quiet s := by
  refine ⟨_, Machine.reachable_of_run (init 0) overwriteTrace rfl rfl, by decide, by decide, rfl, rfl, ?_⟩
  exact quiet_of_places [(1, .recvWait false), (1, .recvWait true), (3, .sendWait 1 false), (3, .sendWait 1 true),
    (1, .idle), (3, .idle)] rfl (by decide)

end Ostoo.Ipc.Rendezvous
