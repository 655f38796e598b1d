/-
  Ostoo.Fd.Delivery — passing fds in a message: taken out of the sender's table, installed
  in the receiver's, and the numbers in the message rewritten.

  All three ways to receive install the objects with `install_transfer_fds`, which gives up
  when the receiver's table is full: it closes again what it has installed, and leaves the
  message as the sender wrote it. `ipc_recv` then fails without copying the message;
  `io_wait` and `io_ring_enter` ignore the failure and copy it, with the sender's numbers in
  it. Exactly then a receiver sees descriptors that are not its own (`fds_seen_iff`).
-/

import Mathlib.Data.List.Forall2
import Ostoo.Fd.Kernel

namespace Ostoo.Fd

open Ostoo.Lib Ostoo.Ipc List Kernel Option OrdMap
open Ostoo.User (validateUserBuf)
open Option (bind_eq_some_iff)

/-! ## What the operations leave alone -/

/-- Who holds which objects, channels and dropped messages apart. -/
structure Frame (k k' : Kernel) : Prop where
  procs : k'.procs = k.procs
  ports : k'.ports = k.ports
  registry : k'.registry = k.registry

theorem Frame.refl (k : Kernel) : Frame k k := ⟨rfl, rfl, rfl⟩

theorem Frame.trans {k k1 k' : Kernel} (h : Frame k k1) (h' : Frame k1 k') : Frame k k' :=
  ⟨h'.procs.trans h.procs, h'.ports.trans h.ports, h'.registry.trans h.registry⟩

namespace Kernel

variable {k k' : Kernel} {o : FdObject} {l : List FdObject}

theorem notifyDup_frame (h : k.notifyDup o = some k') : Frame k k' := by
  cases o
  case pipeWriter q | channelSend q | channelRecv q =>
    obtain ⟨_, -, h⟩ := of_bind h
    cases h
    exact ⟨rfl, rfl, rfl⟩
  all_goals
    cases h
    exact .refl k

theorem notifyDups_frame (h : k.notifyDups l = some k') : Frame k k' := by
  induction l generalizing k with
  | nil =>
    cases h
    exact .refl _
  | cons o l ih =>
    obtain ⟨_, h1, h⟩ := of_bind h
    exact (notifyDup_frame h1).trans (ih h)

theorem close_frame {res : CloseResult} (h : k.close o = some (res, k')) : Frame k k' := by
  cases o
  case pipeWriter q =>
    obtain ⟨_, -, h⟩ := of_bind h
    obtain ⟨-, ⟨⟩⟩ := of_unless h
    exact ⟨rfl, rfl, rfl⟩
  case channelSend c | channelRecv c =>
    obtain ⟨_, -, h⟩ := of_bind h
    obtain ⟨_, -, h⟩ := of_bind h
    split at h <;> cases h <;> exact ⟨rfl, rfl, rfl⟩
  all_goals
    cases h
    exact .refl k

theorem forget_frame (k : Kernel) (res : CloseResult) : Frame k (k.forget res) := by cases res <;> exact ⟨rfl, rfl, rfl⟩

theorem closeObject_frame (h : k.closeObject o = some k') : Frame k k' := by
  obtain ⟨⟨res, k1⟩, hc, h⟩ := of_bind h
  cases h
  exact (close_frame hc).trans (forget_frame k1 res)

theorem closeObjects_frame (h : k.closeObjects l = some k') : Frame k k' := by
  induction l generalizing k with
  | nil =>
    cases h
    exact .refl _
  | cons o l ih =>
    obtain ⟨_, h1, h⟩ := of_bind h
    exact (closeObject_frame h1).trans (ih h)

end Kernel

/-! ## Taking the objects out -/

/-- What is extracted for a slot of the message. -/
def Extracted (t : FdTable FdObject) (fd : Int) (slot : Option FdObject) : Prop :=
  match slot with
  | none => fd = -1
  | some o => 0 ≤ fd ∧ t.getObject fd.toNat = some o

variable {sender t t' : FdTable FdObject} {fds : List Int} {tf objects : TransferFds} {p : Process}

theorem extractLoop_slots {k k' : Kernel}
    (h : k.extractLoop t fds objects = some (some tf, k')) : ∃ l, tf = objects ++ l ∧ Forall₂ (Extracted t) fds l := by
  induction fds generalizing k objects with
  | nil =>
    cases h
    exact ⟨[], by simp, .nil⟩
  | cons fd fds ih =>
    unfold extractLoop at h
    split at h
    · rename_i hneg
      obtain ⟨l, rfl, hl⟩ := ih h
      exact ⟨none :: l, by simp, .cons hneg hl⟩
    split at h
    · obtain ⟨k1, -, h⟩ := of_bind h
      cases h
    rename_i hpos
    split at h
    · rename_i e he
      obtain ⟨k1, -, h⟩ := of_bind h
      obtain ⟨l, rfl, hl⟩ := ih h
      exact ⟨some e.object :: l, by simp, .cons ⟨Int.not_lt.mp hpos, by rw [FdTable.getObject, he]; rfl⟩ hl⟩
    · obtain ⟨_, -, h⟩ := of_bind h
      cases h

theorem extractLoop_frame {k k' : Kernel} {res : Option TransferFds}
    (h : k.extractLoop t fds objects = some (res, k')) : Frame k k' := by
  induction fds generalizing k objects with
  | nil =>
    cases h
    exact .refl _
  | cons fd fds ih =>
    unfold extractLoop at h
    split at h
    · exact ih h
    split at h
    · obtain ⟨k1, h1, h⟩ := of_bind h
      cases h
      exact closeObjects_frame h1
    · split at h
      · obtain ⟨k1, h1, h⟩ := of_bind h
        exact (notifyDup_frame h1).trans (ih h)
      · obtain ⟨_, h1, h⟩ := of_bind h
        cases h
        exact closeObjects_frame h1

theorem extractTransferFds_frame {k k' : Kernel} {msg : IpcMessage} {res : Option (Option TransferFds)}
    (h : k.extractTransferFds t msg = some (res, k')) : Frame k k' := by
  unfold extractTransferFds at h
  split at h
  · cases h
    exact .refl _
  · obtain ⟨⟨_, _⟩, hloop, h⟩ := of_bind h
    cases h
    exact extractLoop_frame hloop

theorem extractTransferFds_slots {k k' : Kernel} {msg : IpcMessage} {tf : Option TransferFds}
    (h : k.extractTransferFds t msg = some (some tf, k')) :
    (tf = none ∧ ∀ fd ∈ msg.fds, fd = -1) ∨ ∃ l, tf = some l ∧ Forall₂ (Extracted t) msg.fds l := by
  unfold extractTransferFds at h
  split at h
  · rename_i hall
    cases h
    exact .inl ⟨rfl, by simpa using hall⟩
  · obtain ⟨⟨_, _⟩, hloop, h⟩ := of_bind h
    obtain ⟨hres, -⟩ := Prod.mk.inj (some.inj h)
    obtain ⟨_, rfl, rfl⟩ := of_map hres
    obtain ⟨_, rfl, hl⟩ := extractLoop_slots hloop
    exact .inr ⟨_, rfl, hl⟩

/-! ## Installing them -/

open FdTable

/-- What is installed for a slot: a number that was free before and now stands for the object. -/
def Installs (t t' : FdTable FdObject) (slot : Option FdObject) (fd : Int) : Prop :=
  match slot with
  | none => fd = -1
  | some o => ∃ n : Nat, fd = n ∧ t.getFd n = none ∧ t'.getFd n = some ⟨o, false⟩

/-- Fds that were used stay as they are. -/
def Keeps (t t' : FdTable FdObject) : Prop := ∀ n e, t.getFd n = some e → t'.getFd n = some e

/-- What a part of the loop has done, in either outcome: `fds` stand for `slots`, the rest is as before. -/
structure InstalledSlots (t t' : FdTable FdObject) (slots : TransferFds) (fds : List Int) : Prop where
  each : List.Forall₂ (Installs t t') slots fds
  keeps : Keeps t t'
  others : ∀ n : Nat, (n : Int) ∉ fds → t'.getFd n = t.getFd n
  objects : t'.objects.Perm (slots.reduceOption ++ t.objects)
  room : t'.room + slots.reduceOption.length = t.room
  distinct : fds.Pairwise fun a b => a = b → a = -1

namespace InstalledSlots

variable {t t1 t' : FdTable FdObject} {slots : TransferFds} {fds : List Int}

theorem nil (t : FdTable FdObject) : InstalledSlots t t [] [] :=
  ⟨.nil, fun _ _ h => h, fun _ _ => rfl, .refl _, rfl, .nil⟩

theorem skip (h : InstalledSlots t t' slots fds) : InstalledSlots t t' (none :: slots) (-1 :: fds) where
  each := .cons rfl h.each
  keeps := h.keeps
  others n hn := h.others n fun hm => hn (.tail _ hm)
  objects := by rw [reduceOption_cons_of_none]; exact h.objects
  room := by rw [reduceOption_cons_of_none]; exact h.room
  distinct := .cons (fun _ _ _ => rfl) h.distinct

theorem free (h : InstalledSlots t t' slots fds) {fd : Int} (hm : fd ∈ fds) :
    fd = -1 ∨ ∃ n : Nat, fd = n ∧ t.getFd n = none := by
  obtain ⟨hlen, heach⟩ := forall₂_iff_get.mp h.each
  obtain ⟨i, hi, rfl⟩ := mem_iff_getElem.mp hm
  have hs := heach i (hlen ▸ hi) hi
  cases hslot : slots.get ⟨i, hlen ▸ hi⟩ with
  | none =>
    rw [hslot] at hs
    exact .inl hs
  | some o =>
    rw [hslot] at hs
    obtain ⟨n, hn, hfree, -⟩ := hs
    exact .inr ⟨n, hn, hfree⟩

theorem alloc {o : FdObject} {fd : Nat} (ha : t.allocFd ⟨o, false⟩ = some (fd, t1))
    (h : InstalledSlots t1 t' slots fds) : InstalledSlots t t' (some o :: slots) (fd :: fds) := by
  obtain ⟨hfree, hset, hother⟩ := allocFd_fresh ha
  have hkeeps : Keeps t t1 := by
    intro n e hn
    rw [hother n (by rintro rfl; rw [hfree] at hn; cases hn), hn]
  refine ⟨.cons ⟨fd, rfl, hfree, h.keeps fd _ hset⟩ (h.each.imp fun slot fd' hs => ?_), fun n e hn =>
    h.keeps n e (hkeeps n e hn), fun n hn => ?_, ?_, ?_, .cons (fun b hb he => ?_) h.distinct⟩
  · cases slot with
    | none => exact hs
    | some o' =>
      obtain ⟨n, rfl, hn, hn'⟩ := hs
      exact ⟨n, rfl, (hother n (by rintro rfl; rw [hset] at hn; cases hn)) ▸ hn, hn'⟩
  · obtain ⟨hne, hn⟩ := not_or.mp (mt mem_cons.mpr hn)
    rw [h.others n hn, hother n (by rintro rfl; exact hne rfl)]
  · rw [reduceOption_cons_of_some]
    exact h.objects.trans (((objects_allocFd ha).append_left _).trans perm_middle)
  · have h1 := h.room
    have h2 := allocFd_room ha
    rw [reduceOption_cons_of_some, length_cons]
    omega
  · obtain hneg | ⟨n, hn, hfree'⟩ := h.free hb
    · exact he.trans hneg
    · obtain rfl : fd = n := Int.ofNat_inj.mp (he.trans hn)
      rw [hset] at hfree'
      cases hfree'

end InstalledSlots

theorem installLoop_spec (t : FdTable FdObject) (tf : TransferFds) :
    (∃ t' fds, installLoop t tf = .all t' fds ∧ InstalledSlots t t' tf fds) ∨
    ∃ t' fds before o rest, installLoop t tf = .full t' fds rest ∧ tf = before ++ some o :: rest ∧
      InstalledSlots t t' before fds ∧ t'.room = 0 := by
  induction tf generalizing t with
  | nil => exact .inl ⟨t, [], rfl, .nil t⟩
  | cons slot tf ih =>
    cases slot with
    | none =>
      rcases ih t with ⟨t', fds, h, hi⟩ | ⟨t', fds, before, o, rest, h, rfl, hi, hfull⟩
      · exact .inl ⟨t', -1 :: fds, by rw [installLoop, h]; rfl, hi.skip⟩
      · exact .inr ⟨t', -1 :: fds, none :: before, o, rest, by rw [installLoop, h]; rfl, rfl, hi.skip, hfull⟩
    | some o =>
      cases ha : t.allocFd ⟨o, false⟩ with
      | none =>
        refine .inr ⟨t, [], [], o, tf, by rw [installLoop, ha], rfl, .nil t, ?_⟩
        have hno := mt (allocFd_isSome t ⟨o, false⟩).mpr (by rw [ha]; exact Bool.false_ne_true)
        omega
      | some x =>
        obtain ⟨fd, t1⟩ := x
        rcases ih t1 with ⟨t', fds, h, hi⟩ | ⟨t', fds, before, o', rest, h, rfl, hi, hfull⟩
        · exact .inl ⟨t', fd :: fds, by simp only [installLoop, ha, h]; rfl, hi.alloc ha⟩
        · exact .inr ⟨t', fd :: fds, some o :: before, o', rest, by simp only [installLoop, ha, h]; rfl, rfl,
            hi.alloc ha, hfull⟩

theorem closeFds_table {k k' : Kernel} {pid : Nat} (hp : k.procs.get? pid = some p) (ht : p.fdTable = t)
    (hfds : ∀ fd ∈ fds, fd = -1 ∨ 0 ≤ fd) (h : k.closeFds pid t fds = some k') :
    ∃ t', k'.procs.get? pid = some { p with fdTable := t' } ∧
      ∀ n : Nat, t'.getFd n = if (n : Int) ∈ fds then none else t.getFd n := by
  induction fds generalizing k t p with
  | nil =>
    cases h
    exact ⟨t, by rw [hp, ← ht], fun n => by simp⟩
  | cons fd fds ih =>
    have hrest : ∀ fd ∈ fds, fd = -1 ∨ 0 ≤ fd := fun fd hm => hfds fd (.tail _ hm)
    unfold closeFds at h
    split at h
    · obtain ⟨t', hp', ht'⟩ := ih hp ht hrest h
      refine ⟨t', hp', fun n => ?_⟩
      have hne : (n : Int) ≠ fd := by omega
      rw [ht' n]
      simp [hne]
    · rename_i hneg
      have hpos : 0 ≤ fd := (hfds fd mem_cons_self).resolve_left hneg
      lift fd to Nat using hpos with m
      rw [Int.toNat_natCast] at h
      split at h
      · rename_i t1 htake
        obtain ⟨k1, h1, h⟩ := of_bind h
        have hp1 : k1.procs.get? pid = some { p with fdTable := t1 } := by
          rw [(closeObject_frame h1).procs, setTable, get?_alter, if_pos rfl, hp]
          rfl
        obtain ⟨t', hp', ht'⟩ := ih hp1 rfl hrest h
        refine ⟨t', hp', fun n => ?_⟩
        rw [ht' n, FdTable.getFd_takeFd htake]
        simp only [mem_cons, Int.ofNat_inj]
        by_cases hn : n = m <;> simp [hn]
      · rename_i htake
        obtain ⟨t', hp', ht'⟩ := ih hp ht hrest h
        refine ⟨t', hp', fun n => ?_⟩
        rw [ht' n]
        simp only [mem_cons, Int.ofNat_inj]
        by_cases hn : n = m
        · simp [hn, FdTable.takeFd_eq_none.mp htake]
        · simp [hn]

/-- An installation that fails leaves the receiver's fds as they were. -/
theorem installTransferFds_spec {k k' : Kernel} {pid : Nat} {msg : IpcMessage}
    {got : Option IpcMessage} (hp : k.procs.get? pid = some p) (h : k.installTransferFds pid msg tf = some (got, k')) :
    ∃ t', k'.procs.get? pid = some { p with fdTable := t' } ∧
      ((tf.reduceOption.length ≤ p.fdTable.room ∧ k' = k.setTable pid t' ∧ ∃ fds, got = some { msg with fds := fds } ∧
          InstalledSlots p.fdTable t' tf fds) ∨
        (p.fdTable.room < tf.reduceOption.length ∧ got = none ∧ ∀ n : Nat, t'.getFd n = p.fdTable.getFd n)) := by
  unfold installTransferFds at h
  rw [hp] at h
  obtain ⟨_, hp1, h⟩ := of_bind h
  cases hp1
  have hset : ∀ t : FdTable FdObject, (k.setTable pid t).procs.get? pid = some { p with fdTable := t } := by
    intro t
    rw [setTable, get?_alter, if_pos rfl, hp]
    rfl
  rcases installLoop_spec p.fdTable tf with ⟨t', fds, hloop, hi⟩ | ⟨t1, fds, _, _, rest, hloop, rfl, hi, hfull⟩
  · rw [hloop] at h
    cases h
    have := hi.room
    exact ⟨t', hset t', .inl ⟨by omega, rfl, fds, rfl, hi⟩⟩
  · rw [hloop] at h
    obtain ⟨k1, h1, h⟩ := of_bind h
    obtain ⟨k2, h2, h⟩ := of_bind h
    cases h
    have hfds : ∀ fd ∈ fds, fd = -1 ∨ 0 ≤ fd := by
      intro fd hm
      refine (hi.free hm).imp_right ?_
      rintro ⟨n, rfl, -⟩
      exact Int.natCast_nonneg n
    obtain ⟨t', hp', ht'⟩ := closeFds_table (hset t1) rfl hfds h1
    refine ⟨t', by rw [(closeObjects_frame h2).procs]; exact hp', .inr ⟨?_, rfl, fun n => ?_⟩⟩
    · have := hi.room
      rw [reduceOption_append, reduceOption_cons_of_some, length_append, length_cons]
      omega
    · rw [ht' n]
      split
      · rename_i hn
        obtain he | ⟨m, he, hfree⟩ := hi.free hn
        · omega
        · rw [Int.ofNat_inj.mp he, hfree]
      · rename_i hn
        exact hi.others n hn

/-! ## Completions -/

/-- What a completion has to copy, whether or not its objects could be installed. -/
def installedBuf (k : Kernel) (pid : Nat) (c : Completion) : Option (Option ReadBuf × Kernel) :=
  match c.transferFds, c.readBuf with
  | some tf, some (.message msg) => (k.installTransferFds pid msg tf).map fun x => (some (.message (x.1.getD msg)), x.2)
  | _, buf => some (buf, k)

def copiedBuf (dest : Nat) : Option ReadBuf → Option (Nat × ReadBuf)
  | some b => if b.len ≠ 0 ∧ dest ≠ 0 ∧ validateUserBuf dest b.len then some (dest, b) else none
  | none => none

theorem deliverCompletion_eq (k : Kernel) (pid : Nat) (c : Completion) :
    k.deliverCompletion pid c = (installedBuf k pid c).map fun x => (copiedBuf c.readDest x.1, x.2) := by
  obtain ⟨-, buf, dest, tf⟩ := c
  have hcopy : ∀ (b : ReadBuf) (k : Kernel),
      (if b.len ≠ 0 ∧ dest ≠ 0 ∧ validateUserBuf dest b.len then some (some (dest, b), k) else some (none, k)) =
        some (copiedBuf dest (some b), k) := by
    intro b k
    unfold copiedBuf
    dsimp only
    split <;> rfl
  cases tf with
  | none =>
    cases buf with
    | none => rfl
    | some b => exact hcopy b k
  | some tf =>
    rcases buf with _ | ⟨msg⟩ | ⟨-⟩
    · rfl
    · simp only [deliverCompletion, installedBuf]
      cases k.installTransferFds pid msg tf with
      | none => rfl
      | some x => exact hcopy _ _
    · exact hcopy _ k

/-- A completion with a message and objects has them installed; any other is only copied. -/
theorem deliverCompletion_cases {k k' : Kernel} {pid : Nat} {c : Completion} {got : Option (Nat × ReadBuf)}
    (h : k.deliverCompletion pid c = some (got, k')) :
    (k' = k ∧ (c.transferFds = none ∨ ∀ msg, c.readBuf ≠ some (.message msg))) ∨
      ∃ tf msg res, c.transferFds = some tf ∧ c.readBuf = some (.message msg) ∧
        k.installTransferFds pid msg tf = some (res, k') := by
  rw [deliverCompletion_eq] at h
  obtain ⟨⟨_, _⟩, hi, h⟩ := of_map h
  cases h
  unfold installedBuf at hi
  split at hi
  · rename_i tf msg htf hbuf
    obtain ⟨⟨res, _⟩, hres, hi⟩ := of_map hi
    cases hi
    exact .inr ⟨tf, msg, res, htf, hbuf, hres⟩
  · rename_i hother
    cases hi
    refine .inl ⟨rfl, ?_⟩
    cases htf : c.transferFds with
    | none => exact .inl rfl
    | some tf => exact .inr fun msg hbuf => hother tf msg htf hbuf

/-! ## The three ways to receive -/

inductive Path
  | ipcRecv
  | ioWait
  | ioRingEnter
  deriving DecidableEq

def messageOf : Nat × ReadBuf → Option IpcMessage
  | (_, .message msg) => some msg
  | _ => none

/-- One message on its way to user memory: as an envelope, or as a completion that was posted
    for an OP_IPC_RECV with buffer `dest`. With the message that is copied. -/
def deliver (k : Kernel) (path : Path) (pid userData dest : Nat) (env : EnvelopedMessage) :
    Option (Option IpcMessage × Kernel) :=
  match path with
  | .ipcRecv => (k.deliverToUser pid env).map (·.2)
  | .ioWait | .ioRingEnter =>
    (k.deliverCompletion pid (.ofMessage userData dest env)).map fun x => (x.1.bind messageOf, x.2)

/-- What a receiver may find in a slot: nothing, or a number that was free in its table `t` and
    in `t'` stands for the object the sender put there. -/
def OwnFd (sender t t' : FdTable FdObject) (sent got : Int) : Prop :=
  got = -1 ∨ ∃ (n : Nat) (o : FdObject), got = n ∧ 0 ≤ sent ∧ sender.getObject sent.toNat = some o ∧
    t.getFd n = none ∧ t'.getFd n = some ⟨o, false⟩

def OwnFds (sender t t' : FdTable FdObject) (sent got : IpcMessage) : Prop :=
  List.Forall₂ (OwnFd sender t t') sent.fds got.fds

theorem ownFds_of_none {msg : IpcMessage} (h : ∀ fd ∈ msg.fds, fd = -1) : OwnFds sender t t' msg msg :=
  forall₂_same.mpr fun fd hm => .inl (h fd hm)

theorem ownFds_of_installed {msg : IpcMessage} (he : Forall₂ (Extracted sender) msg.fds tf)
    (hi : Forall₂ (Installs t t') tf fds) : OwnFds sender t t' msg { msg with fds := fds } := by
  unfold OwnFds
  generalize msg.fds = sent at he
  induction he generalizing fds with
  | nil =>
    cases hi
    exact .nil
  | @cons fd slot _ _ hslot _ ih =>
    obtain ⟨_, _, hg, hrest, rfl⟩ := forall₂_cons_left_iff.mp hi
    refine .cons ?_ (ih hrest)
    cases slot with
    | none => exact .inl hg
    | some o =>
      obtain ⟨n, hn, hfree, hset⟩ := hg
      exact .inr ⟨n, o, hn, hslot.1, hslot.2, hfree, hset⟩

/-- The sender's numbers are not the receiver's. -/
theorem not_ownFds {msg : IpcMessage} (he : Forall₂ (Extracted sender) msg.fds tf) (hsome : tf.reduceOption ≠ [])
    (ht : ∀ n : Nat, t'.getFd n = t.getFd n) : ¬ OwnFds sender t t' msg msg := by
  intro hown
  obtain ⟨_, ho⟩ := exists_mem_of_ne_nil _ hsome
  obtain ⟨i, hi, hslot⟩ := mem_iff_getElem.mp (reduceOption_mem_iff.mp ho)
  obtain ⟨hlen, heach⟩ := forall₂_iff_get.mp he
  have hsent := heach i (hlen ▸ hi) hi
  rw [get_eq_getElem, get_eq_getElem, hslot] at hsent
  have hpos : 0 ≤ msg.fds[i] := hsent.1
  rcases forall₂_same.mp hown (msg.fds[i]) (getElem_mem (hlen ▸ hi)) with _ | ⟨n, _, -, -, -, hfree, hset⟩
  · omega
  · rw [ht n, hfree] at hset
    cases hset

variable {k k' : Kernel} {path : Path} {pid userData dest : Nat} {msg : IpcMessage} {copied : Option IpcMessage}

theorem messageOf_copiedBuf (dest : Nat) (msg : IpcMessage) :
    (copiedBuf dest (some (.message msg))).bind messageOf =
      if dest ≠ 0 ∧ validateUserBuf dest MSG_SIZE then some msg else none := by
  have hlen : MSG_SIZE ≠ 0 := by decide
  simp only [copiedBuf, ReadBuf.len, ne_eq, hlen, not_false_eq_true, true_and]
  split <;> rfl

theorem deliver_of_none (h : deliver k path pid userData dest ⟨msg, none⟩ = some (copied, k')) :
    k' = k ∧ (copied = none ∨ copied = some msg) := by
  cases path
  case ipcRecv =>
    cases h
    exact ⟨rfl, .inr rfl⟩
  all_goals
    simp only [deliver, deliverCompletion_eq, installedBuf, Completion.ofMessage, map_some, messageOf_copiedBuf] at h
    cases h
    refine ⟨rfl, ?_⟩
    split
    · exact .inr rfl
    · exact .inl rfl

/-- Only `ipc_recv` looks at the result. -/
theorem deliver_of_some (h : deliver k path pid userData dest ⟨msg, some tf⟩ = some (copied, k')) :
    ∃ res, k.installTransferFds pid msg tf = some (res, k') ∧
      copied = if path = .ipcRecv then res
        else if dest ≠ 0 ∧ validateUserBuf dest MSG_SIZE then some (res.getD msg) else none := by
  cases path
  case ipcRecv =>
    obtain ⟨⟨_, _, k1⟩, hd, h⟩ := of_map h
    cases h
    obtain ⟨⟨res, k2⟩, hinst, hd⟩ := of_bind hd
    refine ⟨res, ?_⟩
    cases res <;> cases hd <;> exact ⟨hinst, rfl⟩
  all_goals
    simp only [deliver, deliverCompletion_eq, installedBuf, Completion.ofMessage, Option.map_map] at h
    obtain ⟨⟨res, k1⟩, hinst, h⟩ := of_map h
    cases h
    exact ⟨res, hinst, by simpa using messageOf_copiedBuf dest (res.getD msg)⟩

/-- A receiver sees only its own descriptors exactly when the message comes by `ipc_recv`, or
    the table has room for what it carries, or the message is not copied. -/
theorem fds_seen_iff {k0 k1 : Kernel} {sender : FdTable FdObject} {tf : Option TransferFds} {p : Process}
    (hsend : k0.extractTransferFds sender msg = some (some tf, k1)) (hp : k.procs.get? pid = some p)
    (h : deliver k path pid userData dest ⟨msg, tf⟩ = some (copied, k')) :
    (∀ got, copied = some got → ∃ p', k'.procs.get? pid = some p' ∧ OwnFds sender p.fdTable p'.fdTable msg got) ↔
      (path = .ipcRecv ∨ (objectsOf tf).length ≤ p.fdTable.room ∨ ¬ (dest ≠ 0 ∧ validateUserBuf dest MSG_SIZE)) := by
  rcases extractTransferFds_slots hsend with ⟨rfl, hnone⟩ | ⟨slots, rfl, hslots⟩
  · -- nothing to install: the message is as the sender wrote it, and all slots are -1
    refine iff_of_true (fun got hgot => ?_) (.inr (.inl (Nat.zero_le _)))
    obtain ⟨rfl, rfl | rfl⟩ := deliver_of_none h
    · cases hgot
    · cases hgot
      exact ⟨p, hp, ownFds_of_none hnone⟩
  · obtain ⟨_, hinst, hcopied⟩ := deliver_of_some h
    obtain ⟨_, hp', ⟨hroom, -, fds, rfl, hi⟩ | ⟨hfull, rfl, ht'⟩⟩ := installTransferFds_spec hp hinst
    · refine iff_of_true (fun got hgot => ⟨_, hp', ?_⟩) (.inr (.inl hroom))
      obtain rfl : got = { msg with fds := fds } := by
        rw [hcopied, getD_some] at hgot
        split at hgot
        · exact (some.inj hgot).symm
        · exact (some.inj (of_guard hgot).2).symm
      exact ownFds_of_installed hslots hi.each
    · by_cases hcopy : path ≠ .ipcRecv ∧ dest ≠ 0 ∧ validateUserBuf dest MSG_SIZE
      · refine iff_of_false (fun hall => ?_) ?_
        · obtain ⟨_, hget, hown⟩ := hall msg (by rw [hcopied, if_neg hcopy.1, if_pos hcopy.2]; rfl)
          rw [hp'] at hget
          cases hget
          exact not_ownFds hslots (ne_nil_of_length_pos (by omega)) ht' hown
        · rintro (hpath | hroom | hdest)
          · exact hcopy.1 hpath
          · exact absurd hroom (not_le.mpr hfull)
          · exact hdest hcopy.2
      · have hno : copied = none := by
          rw [hcopied]
          split
          · rfl
          · rename_i hpath
            exact if_neg fun hdest => hcopy ⟨hpath, hdest⟩
        refine iff_of_true (fun got hgot => by rw [hno] at hgot; cases hgot) ?_
        by_cases hpath : path = .ipcRecv
        · exact .inl hpath
        · exact .inr (.inr fun hdest => hcopy ⟨hpath, hdest⟩)

/-- A message with fd 3 in it, and the table it is sent from. -/
def passedMessage : IpcMessage := ⟨0, [0, 0, 0], [3, -1, -1, -1]⟩

def passedTable : FdTable FdObject := defaultFdTable ++ [some ⟨.other 7, false⟩]

def passedObjects : TransferFds := [some (.other 7), none, none, none]

/-- A receiver with `n` fds left. -/
def receiverWith (n : Nat) : Kernel :=
  { Kernel.init with
    procs := OrdMap.empty.insert 1 ⟨List.replicate (MAX_FDS - n) (some ⟨.other 0, false⟩), false, .idle⟩ }

theorem fds_seen_with_room :
    ∃ p copied k', (receiverWith 1).procs.get? 1 = some p ∧ p.fdTable.room = 1 ∧
      deliver (receiverWith 1) .ioWait 1 0 4096 ⟨passedMessage, some passedObjects⟩ = some (some copied, k') ∧
      ∃ p', k'.procs.get? 1 = some p' ∧ OwnFds passedTable p.fdTable p'.fdTable passedMessage copied := by
  have hsend : init.extractTransferFds passedTable passedMessage = some (some (some passedObjects), init) := rfl
  have hp : (receiverWith 1).procs.get? 1 = some ⟨replicate (MAX_FDS - 1) (some ⟨.other 0, false⟩), false, .idle⟩ := rfl
  obtain ⟨⟨_, k'⟩, hd, hc⟩ : ∃ x, deliver (receiverWith 1) .ioWait 1 0 4096
    ⟨passedMessage, some passedObjects⟩ = some x ∧ x.1.isSome := by decide
  obtain ⟨copied, rfl⟩ := isSome_iff_exists.mp hc
  exact ⟨_, copied, k', hp, by decide, hd,
    (fds_seen_iff hsend hp hd).mpr (.inr (.inl (by decide))) copied rfl⟩

/-- With a full table `io_wait` copies the sender's number 3, an fd the receiver has for something else. -/
theorem io_wait_copies_senders_fd :
    ∃ p copied k', (receiverWith 0).procs.get? 1 = some p ∧
      Kernel.init.extractTransferFds passedTable passedMessage = some (some (some passedObjects), Kernel.init) ∧
      deliver (receiverWith 0) .ioWait 1 0 4096 ⟨passedMessage, some passedObjects⟩ = some (some copied, k') ∧
      copied.fds = passedMessage.fds ∧
      ¬ ∃ p', k'.procs.get? 1 = some p' ∧ OwnFds passedTable p.fdTable p'.fdTable passedMessage copied := by
  obtain ⟨⟨-, k'⟩, hd, rfl⟩ : ∃ x, deliver (receiverWith 0) .ioWait 1 0 4096
    ⟨passedMessage, some passedObjects⟩ = some x ∧ x.1 = some passedMessage := by decide
  refine ⟨_, passedMessage, k', rfl, rfl, hd, rfl, ?_⟩
  rintro ⟨_, -, hown⟩
  rcases forall₂_same.mp hown 3 mem_cons_self with h | ⟨n, -, hn, -, -, hfree, -⟩
  · cases h
  · obtain rfl : n = 3 := by omega
    cases hfree

/-! ## What a failed installation closes -/

/-- The objects `closeFds` closes. -/
def closedFds : FdTable FdObject → List Int → List FdObject
  | _, [] => []
  | t, fd :: fds =>
    if fd = -1 then closedFds t fds
    else match t.takeFd fd.toNat with
      | some (e, t) => e.object :: closedFds t fds
      | none => closedFds t fds

/-- The objects `install_transfer_fds` closes: `alloc_fd` has dropped the one it had no slot for. -/
def closedObjects (t : FdTable FdObject) (tf : TransferFds) : List FdObject :=
  match Kernel.installLoop t tf with
  | .all _ _ => []
  | .full t fds rest => closedFds t fds ++ rest.reduceOption

theorem closeObject_procs (k : Kernel) (ps : OrdMap Nat Process) (o : FdObject) :
    { k with procs := ps }.closeObject o = (k.closeObject o).map ({ · with procs := ps }) := by
  cases o
  case pipeWriter q =>
    simp only [closeObject, close]
    cases k.pipes.get? q with
    | none => rfl
    | some p => by_cases h : p.writerCount = 0 <;> simp [h, forget]
  case channelSend c | channelRecv c =>
    simp only [closeObject, close]
    cases k.channels.get? c with
    | none => rfl
    | some ch =>
      simp only [bind_eq_bind, bind_some]
      rw [map_bind, bind_assoc, bind_assoc]
      refine bind_congr fun r _ => ?_
      cases r.action <;> simp <;> rfl
  all_goals rfl

theorem closeObjects_procs (k : Kernel) (ps : OrdMap Nat Process) (l : List FdObject) :
    { k with procs := ps }.closeObjects l = (k.closeObjects l).map ({ · with procs := ps }) := by
  induction l generalizing k with
  | nil => rfl
  | cons o l ih =>
    simp only [closeObjects, closeObject_procs]
    cases k.closeObject o with
    | none => rfl
    | some k₁ => exact ih k₁

theorem closeFds_closes {pid : Nat} {l : List FdObject} {k k₁ k' : Kernel} {ps : OrdMap Nat Process}
    (h : { k with procs := ps }.closeFds pid t fds = some k₁) (hl : k₁.closeObjects l = some k') :
    ∃ k₂, k.closeObjects (closedFds t fds ++ l) = some k₂ ∧ k' = { k₂ with procs := k'.procs } := by
  fun_induction closedFds t fds generalizing k ps with
  | case1 =>
    cases h
    obtain ⟨k₂, h₂, rfl⟩ := of_map ((closeObjects_procs k ps l).symm.trans hl)
    exact ⟨k₂, h₂, rfl⟩
  | case2 t fds ih =>
    exact ih h
  | case3 t fd fds hfd e t₁ htake ih =>
    simp only [closeFds, if_neg hfd, htake] at h
    obtain ⟨_, hclose, h⟩ := of_bind h
    obtain ⟨k₁, h₁, rfl⟩ := of_map ((closeObject_procs k _ _).symm.trans hclose)
    obtain ⟨k₂, h₂, hk'⟩ := ih h
    exact ⟨k₂, bind_eq_some_iff.mpr ⟨k₁, h₁, h₂⟩, hk'⟩
  | case4 t fd fds hfd htake ih =>
    simp only [closeFds, if_neg hfd, htake] at h
    exact ih h

theorem closedFds_length {slots : TransferFds} (h : Forall₂ (Installs t t') slots fds) (u : FdTable FdObject) :
    (closedFds u fds).length ≤ slots.reduceOption.length := by
  induction h generalizing u with
  | nil => exact le_refl _
  | @cons slot fd slots fds hfd _ ih =>
    cases slot with
    | none => simpa [closedFds, show fd = -1 from hfd, reduceOption_cons_of_none] using ih u
    | some o =>
      rw [reduceOption_cons_of_some, length_cons, closedFds]
      split
      · exact Nat.le_succ_of_le (ih u)
      · split
        · exact Nat.succ_le_succ (ih _)
        · exact Nat.le_succ_of_le (ih u)

/-- What is closed: nothing where all objects fit, and not all of them where they do not. -/
theorem closedObjects_cases (t : FdTable FdObject) (tf : TransferFds) :
    (tf.reduceOption.length ≤ t.room ∧ closedObjects t tf = []) ∨
      (t.room < tf.reduceOption.length ∧ (closedObjects t tf).length < tf.reduceOption.length) := by
  unfold closedObjects
  rcases installLoop_spec t tf with ⟨t', _, hloop, hi⟩ | ⟨t', _, before, o, rest, hloop, rfl, hi, hfull⟩
  · have := hi.room
    rw [hloop]
    exact .inl ⟨by omega, rfl⟩
  · have hroom := hi.room
    have hlen := closedFds_length hi.each t'
    simp only [hloop, reduceOption_append, reduceOption_cons_of_some, length_append, length_cons]
    exact .inr ⟨by omega, by omega⟩

/-- Every object has a new slot of its own; or, after an error, the fds are as before and every object is closed
    once. -/
def CleanInstall (t t' : FdTable FdObject) (tf : TransferFds) (closed : List FdObject) : Option IpcMessage → Prop
  | some msg => List.Forall₂ (Installs t t') tf msg.fds ∧ msg.fds.Pairwise (fun a b => a = b → a = -1) ∧ closed = []
  | none => (∀ n, t'.getFd n = t.getFd n) ∧ closed.Perm tf.reduceOption

/-- The closes of `closedObjects` are what the call does, the receiver's table apart, and it is clean exactly when
    all objects fit. -/
theorem installation_clean_iff {k k' : Kernel} {pid : Nat} {p : Process} {msg : IpcMessage} {got : Option IpcMessage}
    (hp : k.procs.get? pid = some p) (h : k.installTransferFds pid msg tf = some (got, k')) :
    (∃ k₁, k.closeObjects (closedObjects p.fdTable tf) = some k₁ ∧ k' = { k₁ with procs := k'.procs }) ∧
    ∃ t', k'.procs.get? pid = some { p with fdTable := t' } ∧
      (CleanInstall p.fdTable t' tf (closedObjects p.fdTable tf) got ↔ tf.reduceOption.length ≤ p.fdTable.room) := by
  constructor
  · obtain ⟨_, hp₁, h⟩ := of_bind h
    cases hp.symm.trans hp₁
    unfold closedObjects
    cases hloop : installLoop p.fdTable tf with
    | all t₁ fds =>
      rw [hloop] at h
      cases h
      exact ⟨k, rfl, rfl⟩
    | full t₁ fds rest =>
      rw [hloop] at h
      obtain ⟨_, h₁, h⟩ := of_bind h
      obtain ⟨_, h₂, h⟩ := of_bind h
      cases h
      exact closeFds_closes h₁ h₂
  · have hclosed := closedObjects_cases p.fdTable tf
    obtain ⟨t', hp', ⟨hroom, -, _, rfl, hi⟩ | ⟨hfull, rfl, -⟩⟩ := installTransferFds_spec hp h
    · exact ⟨t', hp', iff_of_true ⟨hi.each, hi.distinct, (hclosed.resolve_right (by omega)).2⟩ hroom⟩
    · refine ⟨t', hp', iff_of_false (fun hclean => ?_) (not_le.mpr hfull)⟩
      have hlen := hclean.2.length_eq
      omega

theorem installation_clean_one_slot :
    ∃ got k' t', (receiverWith 1).installTransferFds 1 passedMessage passedObjects = some (some got, k') ∧
    CleanInstall (List.replicate 63 (some ⟨.other 0, false⟩)) t' passedObjects [] (some got) := by
  obtain ⟨⟨_, k'⟩, h, hgot⟩ : ∃ x, (receiverWith 1).installTransferFds 1 passedMessage passedObjects = some x ∧
    x.1 = some { passedMessage with fds := [63, -1, -1, -1] } := by decide
  cases hgot
  obtain ⟨-, t', -, hiff⟩ := installation_clean_iff (p := ⟨replicate 63 (some ⟨.other 0, false⟩), false, .idle⟩) rfl h
  exact ⟨_, k', t', h, hiff.mpr (by decide)⟩

def fullReceiver : Kernel := { receiverWith 0 with channels := OrdMap.empty.insert 0 (.new 4) }

def passedChannel : TransferFds := [some (.channelSend 0), none, none, none]

/-- With a full table the end of a channel is dropped: it still counts, and nobody has it. -/
theorem full_table_drops_an_object :
    ∃ k', fullReceiver.installTransferFds 1 passedMessage passedChannel = some (none, k') ∧
    (k'.channels.get? 0).map (·.sendCount) = some 1 ∧
    ∀ p t', fullReceiver.procs.get? 1 = some p →
      ¬ CleanInstall p.fdTable t' passedChannel (closedObjects p.fdTable passedChannel) none := by
  obtain ⟨⟨_, k'⟩, h, hgot, hcount⟩ : ∃ x, fullReceiver.installTransferFds 1 passedMessage passedChannel = some x ∧
      x.1 = none ∧ (x.2.channels.get? 0).map (·.sendCount) = some 1 := by decide
  cases hgot
  refine ⟨k', h, hcount, fun p t' hp hclean => ?_⟩
  cases hp
  exact absurd hclean.2.length_eq (by decide)

end Ostoo.Fd
