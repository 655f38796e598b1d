/-
  Ostoo.Fd.Balance — the books of the reference counts.

  They balance when each count is the number of live references, plus those the code has in
  hand in the middle of a call (`Balanced`). Here is what each operation that moves objects
  does to what is in hand: `notify_dup` adds one, a close takes one, and a message, a
  completion or an fd table takes what is put into it, if there is room.
-/

import Ostoo.Fd.Calls

namespace Ostoo.Fd

open Ostoo.Lib Ostoo.Ipc List Kernel OrdMap Option

/-- The books in `k`, on the way from `b`: every count is the number of live references and of
    those in hand, and has come down by no more than what was closed. -/
structure Balanced (b : Kernel) (closed : List FdObject) (k : Kernel) (hand : List FdObject) : Prop where
  exact : ∀ o, o.counted → k.count o = k.refs o + hand.count o
  floor : ∀ o, o.counted → b.count o ≤ k.count o + closed.count o
  shaped : ∀ q p, k.ports.get? q = some p → ∀ c ∈ p.queue, c.Shaped

variable {o : FdObject}

theorem refs_live {p : Process} (h : p.zombie = false) :
    p.refs o = p.fdTable.objects.count o + p.call.objects.count o := by
  simp [Process.refs, h, Process.objects]

theorem refs_zombie {p : Process} (h : p.zombie = true) : p.refs o = 0 := by simp [Process.refs, h]

theorem count_uncounted {l : List FdObject} (hl : ∀ o ∈ l, o.counted = false) (ho : o.counted) : l.count o = 0 := by
  refine count_eq_zero.mpr fun hm => ?_
  rw [hl o hm] at ho
  cases ho

namespace Balanced

variable {b k k' : Kernel} {closed hand hand' : List FdObject} {pid : Nat} {p : Process}

/-! ## Single moves -/

variable (h : Balanced b closed k hand)
include h

theorem more (l : List FdObject) : Balanced b (l ++ closed) k hand := by
  refine ⟨h.exact, fun o ho => ?_, h.shaped⟩
  have := h.floor o ho
  rw [count_append]
  omega

variable {l : List FdObject} {t : FdTable FdObject} {c q : Nat}

omit h in
theorem uncounted (hl : ∀ o ∈ l, o.counted = false) : Balanced b closed k (l ++ hand) ↔ Balanced b closed k hand := by
  have hzero : ∀ o : FdObject, o.counted → (l ++ hand).count o = hand.count o := by
    intro o ho
    rw [count_append, count_uncounted hl ho, zero_add]
  exact ⟨fun h => ⟨fun o ho => by rw [h.exact o ho, hzero o ho], h.floor, h.shaped⟩,
    fun h => ⟨fun o ho => by rw [h.exact o ho, hzero o ho], h.floor, h.shaped⟩⟩

theorem change (hports : k'.ports = k.ports)
    (hmove : ∀ o, o.counted → k'.count o + k.refs o + hand.count o = k.count o + k'.refs o + hand'.count o)
    (hclosed : ∀ o, o.counted → k.count o ≤ k'.count o + l.count o) : Balanced b (l ++ closed) k' hand' := by
  refine ⟨fun o ho => ?_, fun o ho => ?_, fun q p hq => h.shaped q p (by rw [← hports]; exact hq)⟩
  · have := h.exact o ho
    have := hmove o ho
    omega
  · have := h.floor o ho
    have := hclosed o ho
    rw [count_append]
    omega

theorem move (hports : k'.ports = k.ports) (hcount : ∀ o, o.counted → k'.count o = k.count o)
    (hmove : ∀ o, o.counted → k.refs o + hand.count o = k'.refs o + hand'.count o) : Balanced b closed k' hand' := by
  refine h.change (l := []) hports (fun o ho => ?_) fun o ho => ?_
  · have := hcount o ho
    have := hmove o ho
    omega
  · rw [hcount o ho]
    exact le_refl _

variable (hp : k.procs.get? pid = some p) {port : CompletionPort} {msg : IpcMessage}
include hp

theorem alterProc {f : Process → Process}
    (hf : ∀ o : FdObject, o.counted → p.refs o + hand.count o = (f p).refs o + hand'.count o) :
    Balanced b closed { k with procs := k.procs.alter pid f } hand' := by
  refine h.move rfl (fun _ _ => rfl) fun o ho => ?_
  have htotal := total_alter (g := fun _ (p : Process) => p.refs o) hp f
  have := hf o ho
  simp only [refs] at htotal ⊢
  omega

theorem setTable (hz : p.zombie = false)
    (ht : (p.fdTable.objects ++ hand).Perm (t.objects ++ hand')) : Balanced b closed (k.setTable pid t) hand' := by
  refine h.alterProc hp fun o _ => ?_
  have hcount := ht.count_eq o
  rw [refs_live hz, refs_live (p := { p with fdTable := t }) hz]
  simp only [count_append] at hcount ⊢
  omega

theorem setCall {c : Call} (hz : p.zombie = false)
    (ht : (p.call.objects ++ hand).Perm (c.objects ++ hand')) : Balanced b closed (k.setCall pid c) hand' := by
  refine h.alterProc hp fun o _ => ?_
  have hcount := ht.count_eq o
  rw [refs_live hz, refs_live (p := { p with call := c }) hz]
  simp only [count_append] at hcount ⊢
  omega

theorem markZombie (hidle : p.call = .idle)
    (ht : ∀ o ∈ p.fdTable.objects, o.counted = false) : Balanced b closed (k.markZombie pid) hand := by
  refine h.alterProc hp fun o ho => ?_
  rw [refs_zombie (p := { p with zombie := true }) rfl, Process.refs, Process.objects, hidle, count_append,
    count_uncounted ht ho]
  simp [Call.objects]

omit hp in
omit h in
theorem insertProc (h : Balanced b closed k t.objects) (hp : k.procs.get? pid = none) :
    Balanced b closed { k with procs := k.procs.insert pid ⟨t, false, .idle⟩ } [] := by
  refine h.move rfl (fun _ _ => rfl) fun o _ => ?_
  have htotal := total_insert (fun _ (p : Process) => p.refs o) k.procs pid ⟨t, false, .idle⟩
  simp only [hp, Option.elim, refs_live (p := ⟨t, false, .idle⟩) rfl, Call.objects, count_nil] at htotal
  simp only [refs, count_nil]
  omega

theorem removeZombie (hz : p.zombie = true) : Balanced b closed { k with procs := k.procs.remove pid } hand := by
  refine h.move rfl (fun _ _ => rfl) fun o _ => ?_
  have htotal := total_remove (g := fun _ (p : Process) => p.refs o) hp
  simp only [refs_zombie hz] at htotal
  simp only [refs]
  omega

omit hp

omit h in
theorem dropEnvs {envs : List EnvelopedMessage} (h : Balanced b closed k (envs.flatMap (·.objects))) :
    Balanced b closed (k.dropEnvs envs) [] := by
  refine h.move rfl (fun _ _ => rfl) fun o _ => ?_
  simp only [Kernel.refs, Kernel.dropEnvs, count_append, count_nil]
  omega

theorem setChannel {ch ch' : Channel EnvelopedMessage} (hc : k.channels.get? c = some ch) (hs : SameCounts ch ch')
    (hp : (channelObjects ch ++ hand).Perm (channelObjects ch' ++ hand')) :
    Balanced b closed (k.setChannel c ch') hand' := by
  refine h.move rfl (fun o _ => ?_) fun o _ => ?_
  · rw [count_setChannel]
    split
    · rename_i he
      rw [he, (count_channel hc).1, hs.send]
    split
    · rename_i he
      rw [he, (count_channel hc).2, hs.recv]
    · rfl
  · have hrefs := refs_setChannel hc ch' o
    have hcount := hp.count_eq o
    rw [count_append, count_append] at hcount
    omega

theorem setPort (hshaped : ∀ c ∈ port.queue, c.Shaped)
    (hp : (portObjects ((k.ports.get? q).getD .new) ++ hand).Perm (portObjects port ++ hand')) :
    Balanced b closed { k with ports := k.ports.insert q port } hand' := by
  refine ⟨fun o ho => ?_, h.floor, fun q' p hq c hc => ?_⟩
  · have htotal := total_insert (fun _ p => (portObjects p).count o) k.ports q port
    have hold : (k.ports.get? q).elim 0 (fun p => (portObjects p).count o) =
        (portObjects ((k.ports.get? q).getD .new)).count o := by
      cases k.ports.get? q <;> rfl
    have hcount := hp.count_eq o
    have hexact := h.exact o ho
    rw [count_append, count_append] at hcount
    simp only [Kernel.refs, Kernel.count] at hexact ⊢
    omega
  · obtain ⟨-, rfl⟩ | ⟨-, hq⟩ := get?_insert_cases hq
    · exact hshaped c hc
    · exact h.shaped q' p hq c hc

theorem shaped_getD (q : Nat) : ∀ c ∈ ((k.ports.get? q).getD .new).queue, c.Shaped := by
  intro c hc
  cases hq : k.ports.get? q with
  | none =>
    rw [hq] at hc
    cases hc
  | some p =>
    rw [hq] at hc
    exact h.shaped q p hq c hc

omit h in
theorem portObjects_post {c : Completion} (h : port.queue.length < MAX_QUEUED ∨ c.objects = []) :
    portObjects (port.post c) = portObjects port ++ c.objects := by
  have henqueue : portObjects (port.enqueue c) = portObjects port ++ c.objects := by
    unfold CompletionPort.enqueue
    split
    · simp [portObjects]
    · rename_i hfull
      rw [h.resolve_left hfull, append_nil]
  unfold CompletionPort.post
  split
  · split
    · rename_i hnone
      simp [Completion.objects, isNone_iff_eq_none.mp hnone.2, objectsOf, portObjects]
    · exact henqueue
  · exact henqueue

omit h in
theorem post {c : Completion} (h : Balanced b closed k c.objects) (hc : c.Shaped)
    (hfits : PortRoom k q ∨ c.objects = []) : Balanced b closed (k.post q c) [] := by
  refine h.setPort (fun c' hc' => ?_) (by rw [portObjects_post hfits, append_nil])
  rcases queue_post hc' with hold | rfl
  · exact h.shaped_getD q c' hold
  · exact hc

omit h in
theorem notifyDups (h : Balanced b closed k []) (hd : k.notifyDups l = some k') : Balanced b closed k' l := by
  refine h.change (l := []) (notifyDups_frame hd).ports (fun o ho => ?_) fun o ho => ?_
  · obtain ⟨hcount, hrefs⟩ := notifyDups_spec hd o ho
    rw [hcount, hrefs, count_nil]
    omega
  · have := (notifyDups_spec hd o ho).1
    omega

omit h in
theorem close {o : FdObject} {res : CloseResult} (h : Balanced b closed k [o]) (hc : k.close o = some (res, k')) :
    Balanced b ([o] ++ closed) (k'.handleCloseResult res) [] := by
  have hclosed : Balanced b ([o] ++ closed) k' res.objects := by
    refine h.change (close_frame hc).ports (fun o' ho => ?_) fun o' ho => ?_
    all_goals
      obtain ⟨_, _⟩ := close_spec hc o' ho
      simp only [count_cons, count_nil, beq_iff_eq]
      omega
  cases res with
  | notifySendPort ps => exact post (dropEnvs (by simpa [CloseResult.objects] using hclosed)) (.inl rfl) (.inr rfl)
  | notifyRecvPort pr => exact post hclosed (.inl rfl) (.inr rfl)
  | _ => exact hclosed

omit h in
theorem closeObjects (h : Balanced b closed k l) (hc : k.closeObjects l = some k') :
    Balanced b (l ++ closed) k' [] := by
  refine h.change (closeObjects_frame hc).ports (fun o ho => ?_) fun o ho => ?_
  · obtain ⟨_, hrefs⟩ := closeObjects_spec hc o ho
    rw [hrefs, count_nil]
    omega
  · have := (closeObjects_spec hc o ho).1
    omega

omit h in
theorem extractTransferFds {res : Option (Option TransferFds)} (h : Balanced b closed k [])
    (he : k.extractTransferFds t msg = some (res, k')) : Balanced b closed k' (objectsOf res.join) := by
  refine h.change (l := []) (extractTransferFds_frame he).ports (fun o ho => ?_) fun o ho => ?_
  · obtain ⟨hcount, hrefs⟩ := extractTransferFds_spec he o ho
    rw [hcount, hrefs, count_nil]
    omega
  · have := (extractTransferFds_spec he o ho).1
    omega

omit h in
theorem installTransferFds {tf : TransferFds} {got : Option IpcMessage}
    (h : Balanced b closed k (tf.reduceOption ++ hand))
    (hp : k.procs.get? pid = some p) (hz : p.zombie = false) (hroom : tf.reduceOption.length ≤ p.fdTable.room)
    (hi : k.installTransferFds pid msg tf = some (got, k')) : Balanced b closed k' hand := by
  obtain ⟨_, -, ⟨-, rfl, _, rfl, hslots⟩ | ⟨_, -⟩⟩ := installTransferFds_spec hp hi
  · refine h.setTable hp hz ?_
    rw [← append_assoc]
    exact (perm_append_comm.trans hslots.objects.symm).append_right _
  · omega

theorem alterPort {f : CompletionPort → CompletionPort} (hqueue : ∀ port, ∀ c ∈ (f port).queue, c ∈ port.queue)
    (hp : (portObjects ((k.ports.get? q).getD .new) ++ hand).Perm
      (portObjects (f ((k.ports.get? q).getD .new)) ++ hand')) :
    Balanced b closed { k with ports := k.ports.alter q f } hand' := by
  unfold alter
  cases hq : k.ports.get? q with
  | some port =>
    rw [hq] at hp
    exact h.setPort (fun c hc => h.shaped q port hq c (hqueue port c hc)) (by rw [hq]; exact hp)
  | none =>
    have hempty : portObjects (f .new) = [] := by
      refine flatMap_eq_nil_iff.mpr fun c hc => ?_
      cases hqueue .new c hc
    rw [hq, getD_none, hempty] at hp
    have hsame : ∀ o, hand.count o = hand'.count o := Perm.count_eq hp
    exact ⟨fun o ho => hsame o ▸ h.exact o ho, h.floor, h.shaped⟩

/-! ## New objects -/

theorem newPipe (hq : k.pipes.get? q = none) :
    Balanced b closed { k with pipes := k.pipes.insert q ⟨1, false⟩ } (.pipeWriter q :: hand) := by
  have hcount : ∀ o, Kernel.count { k with pipes := k.pipes.insert q ⟨1, false⟩ } o =
      k.count o + if FdObject.pipeWriter q = o then 1 else 0 := by
    intro o
    rw [Kernel.count_setPipe]
    split
    · rename_i he
      have hzero : k.count o = 0 := by simp [he, Kernel.count, hq]
      rw [if_pos he.symm, hzero]
    · rename_i hne
      rw [if_neg (Ne.symm hne)]
      rfl
  refine h.change (l := []) rfl (fun o _ => ?_) fun o _ => ?_
  · have hrefs : Kernel.refs { k with pipes := k.pipes.insert q ⟨1, false⟩ } o = k.refs o := rfl
    rw [hrefs, hcount o, count_cons]
    simp only [beq_iff_eq]
    omega
  · rw [hcount o]
    omega

theorem newChannel (hc : k.channels.get? c = none) (capacity : Nat) :
    Balanced b closed (k.setChannel c (.new capacity)) (.channelSend c :: .channelRecv c :: hand) := by
  have hcount : ∀ o, (k.setChannel c (.new capacity)).count o =
      k.count o + (if FdObject.channelSend c = o then 1 else 0) + if FdObject.channelRecv c = o then 1 else 0 := by
    intro o
    rw [count_setChannel]
    split
    · rename_i he
      have hzero : k.count o = 0 := by simp [he, Kernel.count, hc]
      rw [hzero, he, if_pos rfl, if_neg (by simp)]
      rfl
    · rename_i hne
      rw [if_neg (Ne.symm hne)]
      split
      · rename_i he
        have hzero : k.count o = 0 := by simp [he, Kernel.count, hc]
        rw [hzero, if_pos he.symm]
        rfl
      · rename_i hne'
        rw [if_neg (Ne.symm hne')]
        rfl
  refine h.change (l := []) rfl (fun o _ => ?_) fun o _ => ?_
  · have hempty : (channelObjects (.new capacity)).count o = 0 := rfl
    have htotal := total_insert (fun _ ch => (channelObjects ch).count o) k.channels c (.new capacity)
    simp only [hc, Option.elim, hempty] at htotal
    have hrefs : (k.setChannel c (.new capacity)).refs o = k.refs o := by
      unfold Kernel.refs Kernel.setChannel
      dsimp only
      omega
    rw [hrefs, hcount o, count_cons, count_cons]
    simp only [beq_iff_eq]
    omega
  · rw [hcount o]
    omega

/-! ## What nobody holds any more -/

omit h in
theorem destroyChannel (h : Balanced b closed k []) (hd : k.destroyChannel c = some k') : Balanced b closed k' [] := by
  obtain ⟨ch, hc, hd⟩ := of_bind hd
  obtain ⟨hholds, ⟨⟩⟩ := of_guard hd
  have hsend : k.refs (.channelSend c) = 0 := (Nat.add_eq_zero_iff.mp hholds.1).1
  have hrecv : k.refs (.channelRecv c) = 0 := (Nat.add_eq_zero_iff.mp hholds.2).1
  refine h.move rfl (fun o ho => ?_) fun o ho => ?_
  · have hexact := h.exact o ho
    cases o with
    | channelSend d =>
      by_cases he : d = c
      · subst he
        rw [hexact, hsend]
        simp [Kernel.count, Kernel.dropEnvs, get?_remove]
      · simp [Kernel.count, Kernel.dropEnvs, get?_remove, he]
    | channelRecv d =>
      by_cases he : d = c
      · subst he
        rw [hexact, hrecv]
        simp [Kernel.count, Kernel.dropEnvs, get?_remove]
      · simp [Kernel.count, Kernel.dropEnvs, get?_remove, he]
    | _ => rfl
  · have htotal := total_remove (g := fun _ ch => (channelObjects ch).count o) hc
    simp only [Kernel.refs, Kernel.dropEnvs, count_append] at htotal ⊢
    unfold channelObjects at htotal ⊢
    omega

theorem destroyPort (hq : ∀ p, k.ports.get? q = some p → ∀ o ∈ portObjects p, o.counted = false)
    (hd : k.destroyPort q = some k') : Balanced b closed k' hand := by
  obtain ⟨-, ⟨⟩⟩ := of_guard hd
  refine ⟨fun o ho => ?_, h.floor, fun q' p hp => ?_⟩
  · have hsame : (k.ports.remove q).total (fun _ p => (portObjects p).count o) = k.ports.total fun _ p =>
        (portObjects p).count o := by
      cases hp : k.ports.get? q with
      | none =>
        unfold total
        rw [remove_of_get?_eq_none hp]
      | some p =>
        have htotal := total_remove (g := fun _ p => (portObjects p).count o) hp
        simp only [count_uncounted (hq p hp) ho] at htotal
        omega
    have hexact := h.exact o ho
    simp only [Kernel.refs, Kernel.count] at hexact ⊢
    omega
  · exact h.shaped q' p (get?_of_remove hp).2

omit h in
theorem dropNext (h : Balanced b closed k []) (hd : k.dropNext = some k') :
    Balanced b (k.dropped.take 1 ++ closed) k' [] := by
  unfold Kernel.dropNext at hd
  split at hd
  · cases hd
  rename_i o l hl
  rw [hl]
  refine closeObjects (k := { k with dropped := l }) (l := [o]) (h.move rfl (fun _ _ => rfl) fun o' _ => ?_)
    (bind_eq_some_iff.mpr ⟨k', hd, rfl⟩)
  simp only [refs, hl, count_cons, count_nil]
  omega

/-- The terms of a run in which nothing is lost; nothing else is asked. -/
def terms : Terms := ⟨True, fun _ => True, fun _ _ => True, fun _ _ => True⟩

omit h in
theorem runs (b : Kernel) (pid : Nat) : Runs terms pid (Balanced b) where
  leaves _ _ := trivial
  outside _ := ⟨fun _ _ _ _ _ => trivial, fun _ _ _ _ _ => trivial, fun _ _ _ _ _ => trivial, fun _ _ => trivial⟩
  armed _ _ _ := trivial
  shaped _ h hq := h.shaped _ _ hq
  more l h := h.more l
  fresh h hl := (uncounted fun o ho => (hl o ho).1).mpr h
  lose h hl := (uncounted (hl trivial)).mp h
  notifyDups h _ := h.notifyDups
  close h := h.close
  closeObjects h := h.closeObjects
  extract h he _ := h.extractTransferFds he
  install h hp hz _ hroom _ := h.installTransferFds hp hz (hroom trivial)
  setTable h hp hz _ := h.setTable hp hz
  setCall h hp hz _ := h.setCall hp hz
  markZombie h hp hidle ht := h.markZombie hp hidle (ht trivial)
  setChannel h hc hs _ _ := h.setChannel hc hs
  dropEnvs h _ := h.dropEnvs
  post h hc hfits _ _ := h.post hc (hfits trivial)
  alterPort h hqueue hp := h.alterPort hqueue (by rw [append_nil]; exact hp)
  setRing h := h.setPort (h.shaped_getD _) (.refl _)
  newPipe h := h.newPipe
  newChannel h hc := h.newChannel hc _
  register h _ := h.move rfl (fun _ _ => rfl) fun o _ => by
    simp only [refs, map_cons, count_cons, count_nil]
    omega
  tasks _ h := ⟨h.exact, h.floor, h.shaped⟩
  insertProc h hp _ := h.insertProc hp
  removeZombie h := h.removeZombie
  dropNext h := h.dropNext
  destroyChannel h := h.destroyChannel
  destroyPort h hg := h.destroyPort (hg trivial)

end Balanced

end Ostoo.Fd
