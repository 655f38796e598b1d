/-
  Ostoo.Fd.Submitter — whose memory and fd table the data of a completion goes to
  (`io_port.rs`, `completion_port.rs`).

  A completion holds the bytes of an OP_READ or OP_IPC_RECV, a bare user address and the
  objects of a message. Whoever drains the port gets them: `sys_io_wait` and
  `sys_io_ring_enter` copy to the address and install the objects in the calling process. A
  process that has inherited the port's fd, or was sent it, can take what another has
  submitted (`an_inherited_port_takes_anothers_data`). In the runs in which no port fd is
  inherited, sent or registered as a service, a process drains only what it has submitted
  (`data_goes_to_its_submitter`).

  The kernel is the one of `Ostoo.Fd.Kernel`, with a log of the submissions that can lead to
  data. OP_READs are told apart from the other tasks, as they alone complete with data;
  submissions on an old port leave the log when its number is used again.
-/

import Ostoo.Fd.Exact

namespace Ostoo.Fd.Submitter

open Ostoo.Lib Ostoo.Ipc List Kernel OrdMap
open Ostoo.Fd.Kernel (portOf)
open Ostoo.User (validateUserBuf)
open Option (bind_eq_some_iff)

def OP_READ : Nat := 2

structure Submission where
  pid : Nat
  port : Nat
  userData : Nat
  deriving DecidableEq

/-- An OP_READ whose task is running. -/
structure Read where
  port : Nat
  userData : Nat
  dest : Nat
  deriving DecidableEq

structure St where
  kernel : Kernel
  log : List Submission
  reads : List Read

inductive Ev
  | base (e : Fd.Ev)
  /-- An OP_READ with a file and a buffer that are all right; any other is no different from a
      task without data. -/
  | submitRead (pid portFd userData dest : Nat)
  | readEnd (r : Read) (result : Int) (len : Nat)

/-- The port that `fd` of the calling process names. -/
def portOfCaller (k : Kernel) (pid portFd : Nat) : Option Nat := (k.caller pid).bind fun p => portOf p portFd

/-- Nothing refers to a port of this number. -/
def portFree (s : St) (q : Nat) : Bool :=
  (s.kernel.ports.get? q).isNone && s.kernel.portHolds q == 0 && s.reads.all (·.port ≠ q)

/-- The submission, if the port's fd is one. -/
def submission (k : Kernel) (pid portFd userData : Nat) : List Submission :=
  (portOfCaller k pid portFd).toList.map fun q => ⟨pid, q, userData⟩

def step (s : St) : Ev → Option St
  -- with data a task ends in `readEnd`
  | .base (.taskEnd _ (some (_, some _, _))) => none
  | .base (.ioCreate pid port) => do
    if portFree s port then
      let k ← Fd.step s.kernel (.ioCreate pid port)
      pure { s with kernel := k, log := s.log.filter (·.port ≠ port) }
    else none
  | .base (.submitRecv pid portFd userData fd bufAddr) => do
    let k ← Fd.step s.kernel (.submitRecv pid portFd userData fd bufAddr)
    pure { s with kernel := k, log := submission s.kernel pid portFd userData ++ s.log }
  | .base e => do
    let k ← Fd.step s.kernel e
    pure { s with kernel := k }
  | .submitRead pid portFd userData dest => do
    let k ← Fd.step s.kernel (.submitTask pid portFd)
    let subs := submission s.kernel pid portFd userData
    pure ⟨k, subs ++ s.log, subs.map (fun sub => ⟨sub.port, sub.userData, dest⟩) ++ s.reads⟩
  | .readEnd r result len =>
    if r ∈ s.reads then do
      let k ← Fd.step s.kernel (.taskEnd r.port (some (⟨r.userData, result, OP_READ⟩, some (.bytes len), r.dest)))
      pure { s with kernel := k, reads := s.reads.erase r }
    else none

def machine : Machine St Ev where
  start := fun s => s = ⟨.init, [], []⟩
  step := step

/-- What an event takes out of a port's queue, for whom. -/
structure Drained where
  pid : Nat
  port : Nat
  completions : List Completion

def drained (k : Kernel) : Fd.Ev → Option Drained
  | .ioWait pid portFd max => do
    let q ← portOfCaller k pid portFd
    let port ← k.ports.get? q
    if port.ring.isSome then none else pure ⟨pid, q, port.queue.take max⟩
  | .ioRingEnter pid portFd => do
    let q ← portOfCaller k pid portFd
    let port ← k.ports.get? q
    if port.ring.isNone then none else pure ⟨pid, q, port.queue⟩
  | _ => none

/-- No port among the objects. -/
def NoPort (l : List FdObject) : Prop := ∀ q, .port q ∉ l

/-- Nothing but fd tables holds a port. -/
structure Clean (k : Kernel) : Prop where
  calls : ∀ pid p, k.procs.get? pid = some p → NoPort p.call.objects
  channels : ∀ c ch, k.channels.get? c = some ch → NoPort (channelObjects ch)
  ports : ∀ x port, k.ports.get? x = some port → NoPort (portObjects port)
  registry : NoPort (k.registry.map (·.2))
  dropped : NoPort k.dropped

def HoldsPort (k : Kernel) (pid q : Nat) : Prop := ∃ p, k.procs.get? pid = some p ∧ .port q ∈ p.fdTable.objects

def hasData (c : Completion) : Bool := c.readBuf.isSome || c.transferFds.isSome

/-- Data for this port and `user_data` is queued, or armed for. -/
def DataFor (k : Kernel) (q userData : Nat) : Prop :=
  (∃ port c, k.ports.get? q = some port ∧ c ∈ port.queue ∧ hasData c = true ∧ c.userData = userData) ∨
  (∃ c ch pr, k.channels.get? c = some ch ∧ ch.pendingPort = some pr ∧ pr.port = q ∧ pr.userData = userData)

/-- On the way from `b`: still no port outside the tables, no process has come to hold one, and data is
    for what it was for, or for `new`. -/
structure Calm (b : Kernel) (new : List (Nat × Nat)) (k : Kernel) : Prop where
  clean : Clean k
  held : ∀ pid q, HoldsPort k pid q → HoldsPort b pid q
  data : ∀ q u, DataFor k q u → DataFor b q u ∨ (q, u) ∈ new

/-- An object that is no port. -/
def Plain (o : FdObject) : Prop := ∀ q, o ≠ .port q

theorem noPort_iff {l : List FdObject} : NoPort l ↔ ∀ o ∈ l, Plain o :=
  ⟨fun h _ ho q he => h q (he ▸ ho), fun h q hm => h _ hm q rfl⟩

theorem NoPort.mono {l l' : List FdObject} (h : NoPort l) (hl : ∀ o ∈ l', o ∈ l) : NoPort l' :=
  fun q hm => h q (hl _ hm)

theorem noPort_nil : NoPort [] := fun _ hm => not_mem_nil hm

theorem NoPort.perm {l l' hand hand' : List FdObject} (h : NoPort l) (hh : NoPort hand)
    (hp : (l ++ hand).Perm (l' ++ hand')) : NoPort l' ∧ NoPort hand' := by
  have hall : NoPort (l' ++ hand') := by
    intro q hm
    rcases mem_append.mp (hp.mem_iff.mpr hm) with hm | hm
    · exact h q hm
    · exact hh q hm
  exact ⟨hall.mono fun o ho => mem_append_left _ ho, hall.mono fun o ho => mem_append_right _ ho⟩

namespace Calm

variable {b k k' : Kernel} {new : List (Nat × Nat)} {pid c q child : Nat} {p : Process} {ch' : Channel EnvelopedMessage}
  {o : FdObject}
  {l : List FdObject} {t : FdTable FdObject} {f : Process → Process} {envs : List EnvelopedMessage}

theorem refl (hc : Clean k) : Calm k new k := ⟨hc, fun _ _ h => h, fun _ _ h => .inl h⟩

/-! ## Single changes -/

variable (h : Calm b new k) {res : CloseResult} {msg : IpcMessage} {fds : List Int}
include h

theorem same (hprocs : k'.procs = k.procs) (hchannels : k'.channels = k.channels)
    (hports : k'.ports = k.ports) (hregistry : k'.registry = k.registry) (hdropped : k'.dropped = k.dropped) :
    Calm b new k' := by
  refine ⟨⟨hprocs ▸ h.clean.calls, hchannels ▸ h.clean.channels, hports ▸ h.clean.ports, hregistry ▸ h.clean.registry,
    hdropped ▸ h.clean.dropped⟩, ?_, ?_⟩
  · unfold HoldsPort
    rw [hprocs]
    exact h.held
  · unfold DataFor
    rw [hports, hchannels]
    exact h.data

theorem setChannel (hpending : ∀ pr, ch'.pendingPort = some pr → DataFor b pr.port pr.userData ∨
      (pr.port, pr.userData) ∈ new)
    (hobjects : NoPort (channelObjects ch')) : Calm b new (k.setChannel c ch') := by
  refine ⟨⟨h.clean.calls, fun c' ch hch => ?_, h.clean.ports, h.clean.registry, h.clean.dropped⟩, h.held,
    fun q u hd => ?_⟩
  · rcases get?_insert_cases hch with ⟨-, rfl⟩ | ⟨-, hch⟩
    · exact hobjects
    · exact h.clean.channels c' ch hch
  · rcases hd with hd | ⟨c', ch, pr, hch, hpr, rfl, rfl⟩
    · exact h.data q u (.inl hd)
    · rcases get?_insert_cases hch with ⟨-, rfl⟩ | ⟨-, hch⟩
      · exact hpending pr hpr
      · exact h.data _ _ (.inr ⟨c', ch, pr, hch, hpr, rfl, rfl⟩)

theorem withProcs {procs : OrdMap Nat Process} (hget : ∀ j p', procs.get? j = some p' → k.procs.get? j = some p' ∨
    NoPort p'.call.objects ∧ ∀ q, .port q ∈ p'.fdTable.objects → HoldsPort b j q) :
    Calm b new { k with procs := procs } := by
  refine ⟨⟨fun j p' hj => ?_, h.clean.channels, h.clean.ports, h.clean.registry, h.clean.dropped⟩,
    fun j q hheld => ?_, h.data⟩
  · rcases hget j p' hj with hj | ⟨hcall, -⟩
    · exact h.clean.calls j p' hj
    · exact hcall
  · obtain ⟨p', hj, hm⟩ := hheld
    rcases hget j p' hj with hj | ⟨-, htable⟩
    · exact h.held j q ⟨p', hj, hm⟩
    · exact htable q hm

theorem alterProc (hp : k.procs.get? pid = some p) (htable : ∀ q, .port q ∈ (f p).fdTable.objects → HoldsPort b pid q)
    (hcall : NoPort (f p).call.objects) : Calm b new { k with procs := k.procs.alter pid f } := by
  refine h.withProcs fun j p' hj => ?_
  rcases get?_alter_cases hj with ⟨rfl, _, hp', rfl⟩ | ⟨-, hj⟩
  · cases hp.symm.trans hp'
    exact .inr ⟨hcall, htable⟩
  · exact .inl hj

theorem setTable (hp : k.procs.get? pid = some p)
    (ht : ∀ q, .port q ∈ t.objects → HoldsPort b pid q) : Calm b new (k.setTable pid t) :=
  h.alterProc hp ht (h.clean.calls pid p hp)

theorem dropEnvs (he : NoPort (envs.flatMap (·.objects))) : Calm b new (k.dropEnvs envs) := by
  refine ⟨⟨h.clean.calls, h.clean.channels, h.clean.ports, h.clean.registry, fun q hm => ?_⟩, h.held, h.data⟩
  exact (mem_append.mp hm).elim (h.clean.dropped q) (he q)

theorem setPort {port : CompletionPort}
    (hqueue : ∀ c ∈ port.queue, c ∈ ((k.ports.get? q).getD .new).queue ∨
      (NoPort c.objects ∧ (hasData c = true → DataFor b q c.userData ∨ (q, c.userData) ∈ new))) :
    Calm b new { k with ports := k.ports.insert q port } := by
  have hold : ∀ {c}, c ∈ ((k.ports.get? q).getD .new).queue → ∃ old, k.ports.get? q = some old ∧ c ∈ old.queue := by
    intro c hc
    cases hq : k.ports.get? q with
    | none =>
      rw [hq] at hc
      cases hc
    | some old => exact ⟨old, rfl, by simpa [hq] using hc⟩
  refine ⟨⟨h.clean.calls, h.clean.channels, fun x port' hx => ?_, h.clean.registry, h.clean.dropped⟩, h.held,
    fun x u hd => ?_⟩
  · rcases get?_insert_cases hx with ⟨rfl, rfl⟩ | ⟨-, hx⟩
    · intro y hm
      obtain ⟨c, hc, hm⟩ := mem_flatMap.mp hm
      rcases hqueue c hc with hc | ⟨hno, -⟩
      · obtain ⟨old, hold, hmem⟩ := hold hc
        exact h.clean.ports x old hold y (mem_flatMap.mpr ⟨c, hmem, hm⟩)
      · exact hno y hm
    · exact h.clean.ports x port' hx
  · rcases hd with ⟨port', c, hx, hc, hdata, rfl⟩ | hd
    · rcases get?_insert_cases hx with ⟨rfl, rfl⟩ | ⟨-, hx⟩
      · rcases hqueue c hc with hc | ⟨-, hnew⟩
        · obtain ⟨old, hold, hmem⟩ := hold hc
          exact h.data x _ (.inl ⟨old, c, hold, hmem, hdata, rfl⟩)
        · exact hnew hdata
      · exact h.data x _ (.inl ⟨port', c, hx, hc, hdata, rfl⟩)
    · exact h.data x u (.inr hd)

theorem post {c : Completion} (hno : NoPort c.objects)
    (hdata : hasData c = true → DataFor b q c.userData ∨ (q, c.userData) ∈ new) : Calm b new (k.post q c) := by
  refine h.setPort fun c' hc' => (queue_post hc').imp_right ?_
  rintro rfl
  exact ⟨hno, hdata⟩

theorem alterPort {f : CompletionPort → CompletionPort}
    (hqueue : ∀ port, ∀ c ∈ (f port).queue, c ∈ port.queue) : Calm b new { k with ports := k.ports.alter q f } := by
  unfold alter
  cases hq : k.ports.get? q with
  | some port => exact h.setPort fun c hc => .inl (by rw [hq]; exact hqueue port c hc)
  | none => exact h

/-! ## Closing and duplicating -/

theorem armed {ch : Channel EnvelopedMessage} {pr : PendingPortRecv} (hch : k.channels.get? c = some ch)
    (hpr : ch.pendingPort = some pr) : DataFor b pr.port pr.userData ∨ (pr.port, pr.userData) ∈ new :=
  h.data _ _ (.inr ⟨c, ch, pr, hch, hpr, rfl, rfl⟩)

theorem notifyDup (hd : k.notifyDup o = some k') : Calm b new k' := by
  cases o
  case pipeWriter q =>
    obtain ⟨_, -, hd⟩ := of_bind hd
    cases hd
    exact h.same rfl rfl rfl rfl rfl
  case channelSend c | channelRecv c =>
    obtain ⟨ch, hch, hd⟩ := of_bind hd
    cases hd
    exact h.setChannel (fun pr hpr => h.armed hch hpr) (h.clean.channels c ch hch)
  all_goals
    cases hd
    exact h

theorem notifyDups (hd : k.notifyDups l = some k') : Calm b new k' := by
  induction l generalizing k with
  | nil =>
    cases hd
    exact h
  | cons o l ih =>
    obtain ⟨_, h1, hd⟩ := of_bind hd
    exact ih (h.notifyDup h1) hd

theorem close (hc : k.close o = some (res, k')) : Calm b new k' ∧ NoPort res.objects := by
  cases o
  case pipeWriter q =>
    obtain ⟨_, -, hc⟩ := of_bind hc
    obtain ⟨-, ⟨⟩⟩ := of_unless hc
    exact ⟨h.same rfl rfl rfl rfl rfl, noPort_nil⟩
  case channelSend c =>
    obtain ⟨ch, hch, hc⟩ := of_bind hc
    obtain ⟨r, hr, hc⟩ := of_bind hc
    have hobjects : channelObjects r.chan = channelObjects ch := by rw [channelObjects, (closeSend_counts hr).2.2]; rfl
    have hset : Calm b new (k.setChannel c r.chan) :=
      h.setChannel (fun pr hpr => h.armed hch (Channel.closeSend_pendingPort hr hpr))
        (hobjects ▸ h.clean.channels c ch hch)
    split at hc <;> cases hc <;> exact ⟨hset, noPort_nil⟩
  case channelRecv c =>
    obtain ⟨ch, hch, hc⟩ := of_bind hc
    obtain ⟨r, hr, hc⟩ := of_bind hc
    have hobjects : channelObjects ch = channelObjects r.chan ++ (closeRecvOut r.action).flatMap (·.objects) := by
      rw [channelObjects, (closeRecv_counts hr).2.2, flatMap_append]
      rfl
    obtain ⟨hchan, hout⟩ := (h.clean.channels c ch hch).perm noPort_nil (.of_eq ((append_nil _).trans hobjects))
    have harmed : r.chan.pendingPort = ch.pendingPort := by cases Channel.closeRecv_cases hr <;> rfl
    have hset : Calm b new (k.setChannel c r.chan) :=
      h.setChannel (fun pr hpr => h.armed hch (harmed ▸ hpr)) hchan
    generalize r.action = act at hc hout
    cases act with
    | none | wakeThread t =>
      cases hc
      exact ⟨hset, noPort_nil⟩
    | notifyPort ps =>
      cases hc
      exact ⟨hset, by simpa [closeRecvOut, CloseResult.objects] using hout⟩
  all_goals
    cases hc
    exact ⟨h, noPort_nil⟩

theorem closeObjects (hc : k.closeObjects l = some k') : Calm b new k' := by
  induction l generalizing k with
  | nil =>
    cases hc
    exact h
  | cons o l ih =>
    obtain ⟨_, h1, hc⟩ := of_bind hc
    obtain ⟨⟨res, _⟩, h2, h1⟩ := of_bind h1
    cases h1
    obtain ⟨hcalm, hno⟩ := h.close h2
    refine ih ?_ hc
    cases res with
    | notifySendPort ps => exact hcalm.dropEnvs (by simpa [CloseResult.objects] using hno)
    | none | wakeThread t | notifyRecvPort pr => exact hcalm

theorem handleCloseResult (hno : NoPort res.objects) : Calm b new (k.handleCloseResult res) := by
  cases res with
  | notifySendPort ps =>
    exact (h.dropEnvs (by simpa [CloseResult.objects] using hno)).post noPort_nil fun hdata => by cases hdata
  | notifyRecvPort pr => exact h.post noPort_nil fun hdata => by cases hdata
  | none | wakeThread t => exact h

/-! ## Messages -/

theorem extractLoop {objects : TransferFds} {res : Option TransferFds}
    (he : k.extractLoop t fds objects = some (res, k')) : Calm b new k' := by
  induction fds generalizing k objects with
  | nil =>
    cases he
    exact h
  | cons fd fds ih =>
    unfold extractLoop at he
    split at he
    · exact ih h he
    split at he
    · obtain ⟨k1, h1, he⟩ := of_bind he
      cases he
      exact h.closeObjects h1
    · split at he
      · obtain ⟨k1, h1, he⟩ := of_bind he
        exact ih (h.notifyDup h1) he
      · obtain ⟨_, h1, he⟩ := of_bind he
        cases he
        exact h.closeObjects h1

theorem extractTransferFds {res : Option (Option TransferFds)}
    (he : k.extractTransferFds t msg = some (res, k')) : Calm b new k' := by
  unfold Kernel.extractTransferFds at he
  split at he
  · cases he
    exact h
  · obtain ⟨⟨_, _⟩, hloop, he⟩ := of_bind he
    cases he
    exact h.extractLoop hloop

theorem own (hp : k.procs.get? pid = some p) {q : Nat} (hm : .port q ∈ p.fdTable.objects) : HoldsPort b pid q :=
  h.held pid q ⟨p, hp, hm⟩

theorem closeFds (hp : k.procs.get? pid = some p)
    (ht : p.fdTable = t) (hs : k.closeFds pid t fds = some k') : Calm b new k' := by
  induction fds generalizing k t p with
  | nil =>
    cases hs
    exact h
  | cons fd fds ih =>
    unfold closeFds at hs
    split at hs
    · exact ih h hp ht hs
    split at hs
    · rename_i e t1 htake
      obtain ⟨k1, h1, hs⟩ := of_bind hs
      have hp1 : k1.procs.get? pid = some { p with fdTable := t1 } := by
        rw [(Kernel.closeObject_frame h1).procs, Kernel.setTable, get?_alter, if_pos rfl, hp]
        rfl
      have htable : Calm b new (k.setTable pid t1) := by
        refine h.setTable hp fun q hm => h.own hp ?_
        rw [ht]
        exact (FdTable.objects_takeFd htake).mem_iff.mpr (.tail _ hm)
      exact ih (htable.closeObjects (l := [e.object]) (bind_eq_some_iff.mpr ⟨k1, h1, rfl⟩)) hp1 rfl hs
    · exact ih h hp ht hs

theorem installTransferFds {tf : TransferFds} {got : Option IpcMessage}
    (hno : NoPort tf.reduceOption) (hi : k.installTransferFds pid msg tf = some (got, k')) : Calm b new k' := by
  obtain ⟨p, hp, hi⟩ := of_bind hi
  have hinstalled : ∀ {t' slots fds}, InstalledSlots p.fdTable t' slots fds → NoPort slots.reduceOption →
      Calm b new (k.setTable pid t') := by
    intro t' slots fds hslots hno
    refine h.setTable hp fun q hm => h.own hp ?_
    exact (mem_append.mp (hslots.objects.mem_iff.mp hm)).resolve_left (hno q)
  rcases installLoop_spec p.fdTable tf with ⟨t', _, hloop, hslots⟩ | ⟨t', _, before, o, rest, hloop, rfl, hslots, -⟩
  · rw [hloop] at hi
    cases hi
    exact hinstalled hslots hno
  rw [hloop] at hi
  obtain ⟨k1, h1, hi⟩ := of_bind hi
  obtain ⟨k2, h2, hi⟩ := of_bind hi
  cases hi
  rw [reduceOption_append] at hno
  have htable := hinstalled hslots (hno.mono fun o ho => mem_append_left _ ho)
  have hp1 : (k.setTable pid t').procs.get? pid = some { p with fdTable := t' } := by
    rw [Kernel.setTable, get?_alter, if_pos rfl, hp]
    rfl
  exact (htable.closeFds hp1 rfl h1).closeObjects h2

/-! ## Processes, and what is destroyed -/

theorem insertProc (htable : NoPort p.fdTable.objects) (hcall : NoPort p.call.objects) :
    Calm b new { k with procs := k.procs.insert child p } := by
  refine h.withProcs fun j p' hj => ?_
  rcases get?_insert_cases hj with ⟨-, rfl⟩ | ⟨-, hj⟩
  · exact .inr ⟨hcall, fun q hm => absurd hm (htable q)⟩
  · exact .inl hj

theorem removeProc (pid : Nat) : Calm b new { k with procs := k.procs.remove pid } :=
  h.withProcs fun _ _ hj => .inl (get?_of_remove hj).2

theorem destroyChannel (hs : k.destroyChannel c = some k') : Calm b new k' := by
  obtain ⟨ch, hch, hs⟩ := of_bind hs
  obtain ⟨-, hs⟩ := of_guard hs
  cases hs
  refine dropEnvs ⟨⟨h.clean.calls, fun c' ch' hc' => h.clean.channels c' ch' (get?_of_remove hc').2, h.clean.ports,
    h.clean.registry, h.clean.dropped⟩, h.held, fun q u hd => h.data q u (hd.imp_right ?_)⟩ (h.clean.channels c ch hch)
  rintro ⟨c', ch', pr, hc', hpr⟩
  exact ⟨c', ch', pr, (get?_of_remove hc').2, hpr⟩

theorem destroyPort (hs : k.destroyPort q = some k') : Calm b new k' := by
  obtain ⟨-, hs⟩ := of_guard hs
  cases hs
  refine ⟨⟨h.clean.calls, h.clean.channels, fun x port hx => h.clean.ports x port (get?_of_remove hx).2,
    h.clean.registry, h.clean.dropped⟩, h.held, fun x u hd => h.data x u (hd.imp_left ?_)⟩
  rintro ⟨port, c, hx, hrest⟩
  exact ⟨port, c, (get?_of_remove hx).2, hrest⟩

theorem dropNext (hs : k.dropNext = some k') : Calm b new k' := by
  unfold Kernel.dropNext at hs
  have hno := h.clean.dropped
  split at hs
  · cases hs
  rename_i o l hdropped
  rw [hdropped] at hno
  have hrest : Calm b new { k with dropped := l } :=
    ⟨⟨h.clean.calls, h.clean.channels, h.clean.ports, h.clean.registry, hno.mono fun o ho => mem_cons_of_mem _ ho⟩,
      h.held, h.data⟩
  exact hrest.closeObjects (l := [o]) (bind_eq_some_iff.mpr ⟨k', hs, rfl⟩)

/-! ## Calls -/

/-- No port leaves the tables, and data is for what it was for, or for `new`. -/
def terms (b : Kernel) (new : List (Nat × Nat)) : Terms :=
  ⟨False, Plain, fun _ _ => True, fun q u => DataFor b q u ∨ (q, u) ∈ new⟩

/-- In the middle of a call: a port in hand is one that the process holds. -/
def InHand (b : Kernel) (new : List (Nat × Nat)) (pid : Nat) (_closed : List FdObject) (k : Kernel)
    (hand : List FdObject) : Prop :=
  Calm b new k ∧ ∀ q, .port q ∈ hand → HoldsPort b pid q

omit h in
theorem inHand {hand closed : List FdObject} (h : Calm b new k) (hno : NoPort hand) : InHand b new pid closed k hand :=
  ⟨h, fun q hm => absurd hm (hno q)⟩

omit h in
theorem runs (b : Kernel) (new : List (Nat × Nat)) (pid : Nat) : Runs (terms b new) pid (InHand b new pid) where
  leaves _ h := h
  outside h := ⟨fun j p hp => noPort_iff.mp (h.1.clean.calls j p hp), fun c ch hc =>
    noPort_iff.mp (h.1.clean.channels c ch hc),
    fun q port hq => noPort_iff.mp (h.1.clean.ports q port hq), noPort_iff.mp h.1.clean.registry⟩
  armed h := h.1.armed
  shaped ht := ht.elim
  more _ h := h
  fresh h hl := ⟨h.1, fun q hm => h.2 q ((mem_append.mp hm).resolve_left fun hm => (hl _ hm).2 q rfl)⟩
  lose h _ := ⟨h.1, fun q hm => h.2 q (mem_append_right _ hm)⟩
  notifyDups h hl hd :=
    ⟨h.1.notifyDups hd, fun q hm => (hl _ hm).elim (fun hne => absurd rfl (hne q)) fun ⟨_, hp, ho⟩ => h.1.own hp ho⟩
  close h hc := inHand ((h.1.close hc).1.handleCloseResult (h.1.close hc).2) noPort_nil
  closeObjects h hc := inHand (h.1.closeObjects hc) noPort_nil
  extract h he hl := inHand (h.1.extractTransferFds he) (noPort_iff.mpr hl)
  install h _ _ _ _ hl hi := ⟨h.1.installTransferFds (noPort_iff.mpr hl) hi, fun q hm => h.2 q (mem_append_right _ hm)⟩
  setTable h hp _ _ hperm := by
    have hheld := fun q hm => (mem_append.mp (hperm.mem_iff.mpr hm)).elim (h.1.own hp) (h.2 q)
    exact ⟨h.1.setTable hp fun q hm => hheld q (mem_append_left _ hm), fun q hm => hheld q (mem_append_right _ hm)⟩
  setCall h hp _ hl hperm := by
    obtain ⟨hcall, hhand⟩ := (h.1.clean.calls _ _ hp).perm (noPort_iff.mpr hl) hperm
    exact inHand (h.1.alterProc hp (fun q => h.1.own hp) hcall) hhand
  markZombie h hp _ _ := inHand (h.1.alterProc hp (fun q => h.1.own hp) (h.1.clean.calls _ _ hp :)) noPort_nil
  setChannel h hch _ hl hdata hperm := by
    obtain ⟨hchan, hhand⟩ := (h.1.clean.channels _ _ hch).perm (noPort_iff.mpr hl) hperm
    exact inHand (h.1.setChannel hdata hchan) hhand
  dropEnvs h hl := inHand (h.1.dropEnvs (noPort_iff.mpr hl)) noPort_nil
  post h _ _ hl hdata := by
    refine inHand (h.1.post (noPort_iff.mpr hl) fun hd => hdata.resolve_left ?_) noPort_nil
    rintro ⟨hbuf, htf⟩
    simp [hasData, hbuf, htf] at hd
  alterPort h hqueue hperm := by
    refine inHand (h.1.alterPort hqueue) (NoPort.perm ?_ noPort_nil (.trans (.of_eq (append_nil _)) hperm)).2
    cases hq : ports _ |>.get? _ with
    | none => exact noPort_nil
    | some port => exact h.1.clean.ports _ port hq
  setRing h := inHand (h.1.setPort fun _ hc => .inl hc) noPort_nil
  newPipe h _ := inHand (h.1.same rfl rfl rfl rfl rfl) (by simp [NoPort])
  newChannel h _ := inHand (h.1.setChannel (fun _ hpr => nomatch hpr) noPort_nil) (by simp [NoPort])
  register h ho := by
    refine inHand ⟨⟨h.1.clean.calls, h.1.clean.channels, h.1.clean.ports, fun q hm => ?_, h.1.clean.dropped⟩, h.1.held,
      h.1.data⟩ noPort_nil
    rcases mem_cons.mp hm with heq | hm
    · exact ho q heq.symm
    · exact h.1.clean.registry q hm
  tasks _ h := inHand (h.1.same rfl rfl rfl rfl rfl) noPort_nil
  insertProc h _ hl := inHand (h.1.insertProc (noPort_iff.mpr hl) noPort_nil) noPort_nil
  removeZombie h _ _ := inHand (h.1.removeProc _) noPort_nil
  dropNext h hs := inHand (h.1.dropNext hs) noPort_nil
  destroyChannel h hs := inHand (h.1.destroyChannel hs) noPort_nil
  destroyPort h _ hs := inHand (h.1.destroyPort hs) noPort_nil

variable {e : Fd.Ev}

theorem step (hs : Fd.step k e = some k') (ha : e.Allowed (terms b new) k) : Calm b new k' := by
  have hin : InHand b new e.process [] k [] := inHand h noPort_nil
  exact ((runs b new e.process).step hin (fun ht => ht.elim) ha (Ev.changes (fun _ _ => trivial) k e) hs).1

end Calm

/-! ## Runs -/

variable {s s' : St} {x : Submission}

/-- A port is held by one process, which made every submission on it, and every piece of data has its
    submission in the log. -/
structure Private (s : St) : Prop where
  clean : Clean s.kernel
  sole : ∀ q pid pid', HoldsPort s.kernel pid q → HoldsPort s.kernel pid' q → pid = pid'
  logged : ∀ sub ∈ s.log, ∀ pid, HoldsPort s.kernel pid sub.port → pid = sub.pid
  known : ∀ q u, DataFor s.kernel q u → ∃ pid, ⟨pid, q, u⟩ ∈ s.log
  reads : ∀ r ∈ s.reads, ∃ pid, ⟨pid, r.port, r.userData⟩ ∈ s.log

theorem Private.calm (new : List (Nat × Nat)) {k' : Kernel} {log' : List Submission} {reads' : List Read}
    (h : Private s)
    (hc : Calm s.kernel new k') (hold : ∀ x ∈ s.log, x ∈ log')
    (hadd : ∀ x ∈ log', x ∈ s.log ∨ HoldsPort s.kernel x.pid x.port)
    (hnew : ∀ q u, (q, u) ∈ new → ∃ pid, ⟨pid, q, u⟩ ∈ log')
    (hreads : ∀ r ∈ reads', ∃ pid, ⟨pid, r.port, r.userData⟩ ∈ log') : Private ⟨k', log', reads'⟩ := by
  refine ⟨hc.clean, fun q pid pid' hp hp' => h.sole q pid pid' (hc.held pid q hp) (hc.held pid' q hp'), ?_, ?_, hreads⟩
  · intro sub hsub pid hp
    have hp := hc.held pid sub.port hp
    rcases hadd sub hsub with hsub | hown
    · exact h.logged sub hsub pid hp
    · exact h.sole sub.port pid sub.pid hp hown
  · intro q u hd
    rcases hc.data q u hd with hd | hd
    · obtain ⟨pid, hsub⟩ := h.known q u hd
      exact ⟨pid, hold _ hsub⟩
    · exact hnew q u hd

def started : St := ⟨.init, [], []⟩

/-- Process `pid` would drain the data of user data 9 from port 0. -/
def takes (s : St) (pid : Nat) : Bool :=
  (drained s.kernel (.ioWait pid 3 1)).any fun d =>
    d.pid == pid && d.port == 0 && d.completions.any fun c => c.userData == 9 && c.readBuf.isSome

end Ostoo.Fd.Submitter
