/-
  Ostoo.Fd.Calls — every call of `Ostoo.Fd.Kernel` as a sequence of moves.

  A call takes objects into its hand (`notify_dup`, a message that is received, what a drained
  port held), puts them into a table, a channel, a port, the registry or a message to be
  dropped, and closes what it takes out of a table. `Moves` lists these moves as what a
  property of the kernel and the objects in hand has to survive. One walk over the calls then
  carries any such property through all of them (`Runs.step`): that the reference counts
  balance, that no port is held outside the tables, how a table may change.
-/

import Ostoo.Fd.Counts

namespace Ostoo.Fd

open Ostoo.Lib Ostoo.Ipc List Kernel FdTable Channel
open Ostoo.User (validateUserBuf)
open Option (bind_eq_some_iff)

/-- Only a completion with a message carries objects, or they would not be installed. -/
def Completion.Shaped (c : Completion) : Prop := c.transferFds = none ∨ ∃ msg, c.readBuf = some (.message msg)

/-- A completion queue that takes one more. -/
def PortRoom (k : Kernel) (q : Nat) : Prop := ((k.ports.get? q).getD .new).queue.length < MAX_QUEUED

/-- Where an armed OP_IPC_RECV gets the next message: its port has room, or there is no object to
    lose, neither in the channel nor in the message to be sent. -/
def SendFits (k : Kernel) (ch : Channel EnvelopedMessage) (bare : Prop) : Prop :=
  ∀ pr, ch.pendingPort = some pr → PortRoom k pr.port ∨ (channelObjects ch = [] ∧ bare)

variable {k k' : Kernel} {t t' : FdTable FdObject} {msg : IpcMessage} {fds : Option (Nat × Nat)}
  {env : EnvelopedMessage} {tf : Option TransferFds} {e : FdEntry FdObject}

theorem SendFits.out {ch ch' : Channel EnvelopedMessage} {env' : EnvelopedMessage} {pr : PendingPortRecv}
    (h : SendFits k ch (env.objects = [])) (hpr : ch.pendingPort = some pr)
    (hout : (env :: envelopes ch).Perm (envelopes ch' ++ [env'])) : PortRoom k pr.port ∨ env'.objects = [] := by
  refine (h pr hpr).imp_right ?_
  rintro ⟨hch, henv⟩
  rcases mem_cons.mp (hout.mem_iff.mpr (mem_append_right _ (mem_singleton_self env'))) with rfl | hm
  · exact henv
  · exact flatMap_eq_nil_iff.mp hch env' hm

/-- As many fds left as the next message has objects. -/
def RecvFits (p : Process) (ch : Channel EnvelopedMessage) : Prop :=
  ∀ env, nextMessage ch = some env → env.objects.length ≤ p.fdTable.room

theorem Kernel.caller_spec {pid : Nat} {p : Process} (h : k.caller pid = some p) :
    k.procs.get? pid = some p ∧ p.zombie = false ∧ p.call = .idle := by
  obtain ⟨_, hp, h⟩ := of_bind h
  split at h
  · rename_i hz hc
    cases h
    exact ⟨hp, hz, hc⟩
  · cases h

theorem Kernel.caller_bind {α : Type} {pid : Nat} {f : Process → Option α} {a : α}
    (h : (k.caller pid).bind f = some a) :
    ∃ p, k.procs.get? pid = some p ∧ p.zombie = false ∧ p.call = .idle ∧ f p = some a := by
  obtain ⟨p, hc, h⟩ := of_bind h
  obtain ⟨hp, hz, hidle⟩ := caller_spec hc
  exact ⟨p, hp, hz, hidle, h⟩

/-- Nothing is lost: what the calls put into tables and queues finds room, a name to be
    registered is free, and a process killed by a fault or a port nobody holds has no counted end. -/
def Tight (k : Kernel) : Ev → Prop
  | .faultKill pid => ∀ p, k.procs.get? pid = some p → ∀ o ∈ p.fdTable.objects, o.counted = false
  | .ipcSend pid fd _ msg _ | .submitSend pid _ _ fd _ msg => ∀ p c ch, k.procs.get? pid = some p →
    p.fdTable.getObject fd = some (.channelSend c) → k.channels.get? c = some ch →
      SendFits k ch (∀ fd ∈ msg.fds, fd = -1)
  | .ipcRecv pid fd _ _ => ∀ p c ch, k.procs.get? pid = some p →
    p.fdTable.getObject fd = some (.channelRecv c) → k.channels.get? c = some ch → RecvFits p ch
  | .resume pid => ∀ p, k.procs.get? pid = some p → match p.call with
    | .sendFull c env => ∀ ch, k.channels.get? c = some ch → SendFits k ch (env.objects = [])
    | .recvWait c => ∀ ch, k.channels.get? c = some ch → RecvFits p ch
    | _ => True
  | .submitRecv pid portFd _ fd _ => ∀ p q c ch, k.procs.get? pid = some p → Kernel.portOf p portFd = some q →
    p.fdTable.getObject fd = some (.channelRecv c) → k.channels.get? c = some ch →
    PortRoom k q ∨ ∀ env, nextMessage ch = some env → env.objects = []
  | .ioWait pid portFd max => ∀ p q, k.procs.get? pid = some p → Kernel.portOf p portFd = some q →
    ((((k.ports.get? q).getD .new).queue.take max).flatMap (·.objects)).length ≤ p.fdTable.room
  | .ioRingEnter pid portFd => ∀ p q, k.procs.get? pid = some p → Kernel.portOf p portFd = some q →
    (portObjects ((k.ports.get? q).getD .new)).length ≤ p.fdTable.room
  | .svcRegister pid name fd => k.registry.lookup name = none ∨
    ∀ p e, k.procs.get? pid = some p → p.fdTable.getFd fd = some e → e.object.counted = false
  | .svcLookup pid name => ∀ p o, k.procs.get? pid = some p → k.registry.lookup name = some o →
    0 < p.fdTable.room ∨ o.counted = false
  | .destroyPort q => ∀ p, k.ports.get? q = some p → ∀ o ∈ portObjects p, o.counted = false
  | _ => True

/-- The objects an event closes, apart from those it has taken references to itself. -/
def closing (k : Kernel) : Ev → List FdObject
  | .execve pid => (k.procs.get? pid).elim [] (·.fdTable.cloexecObjects)
  | .exit pid => (k.procs.get? pid).elim [] (·.fdTable.objects)
  | .close pid fd => (k.procs.get? pid).elim [] fun p => (p.fdTable.getObject fd).toList
  | .dup2 pid oldfd newfd => (k.procs.get? pid).elim [] fun p =>
    if oldfd = newfd ∨ (p.fdTable.getFd oldfd).isNone then [] else (p.fdTable.getObject newfd).toList
  | .dropNext => k.dropped.take 1
  | _ => []

/-- A message to be sent, in the kernel as it is after its objects were taken out. -/
theorem SendFits.extracted {c : Nat}
    (hfits : ∀ ch, k.channels.get? c = some ch → SendFits k ch (∀ fd ∈ msg.fds, fd = -1))
    (he : k.extractTransferFds t msg = some (some tf, k')) (ch' : Channel EnvelopedMessage)
    (hch : k'.channels.get? c = some ch') : SendFits k' ch' (EnvelopedMessage.objects ⟨msg, tf⟩ = []) := by
  obtain ⟨ch, -, -, hc, rfl⟩ := extractTransferFds_channels he c ch' hch
  intro pr hpr
  rcases hfits ch hc pr hpr with hroom | ⟨hempty, hbare⟩
  · refine .inl ?_
    unfold PortRoom
    rw [(extractTransferFds_frame he).ports]
    exact hroom
  · refine .inr ⟨hempty, ?_⟩
    have hall : msg.fds.all (· = -1) = true := by simpa using hbare
    rw [extractTransferFds, if_pos hall] at he
    cases he
    rfl

theorem queue_post {port : CompletionPort} {c c' : Completion} (hc : c' ∈ (port.post c).queue) :
    c' ∈ port.queue ∨ c' = c := by
  have henqueue : ∀ {c'}, c' ∈ (port.enqueue c).queue → c' ∈ port.queue ∨ c' = c := by
    intro c' hc
    unfold CompletionPort.enqueue at hc
    split at hc
    · simpa using hc
    · exact .inl hc
  unfold CompletionPort.post at hc
  split at hc
  · split at hc
    · exact .inl hc
    · exact henqueue hc
  · exact henqueue hc

/-! ## Moves -/

/-- What an invariant has to allow for. -/
structure Terms where
  /-- No counted object is lost. -/
  tight : Prop
  /-- The objects that leave the fd tables. -/
  leaves : FdObject → Prop
  /-- The changes of the table of the process. -/
  table : FdTable FdObject → FdTable FdObject → Prop
  /-- The ports and `user_data` that data is posted for. -/
  data : Nat → Nat → Prop

/-- The process may allocate fds. -/
def Terms.Allocates (w : Terms) : Prop := ∀ t t', FdTable.Filled t t' → w.table t t'

/-- What a message takes along may leave. -/
def Terms.Sendable (w : Terms) (k : Kernel) (pid : Nat) (msg : IpcMessage) : Prop :=
  ∀ p, k.procs.get? pid = some p → ∀ fd ∈ msg.fds, 0 ≤ fd → ∀ o, p.fdTable.getObject fd.toNat = some o → w.leaves o

/-- What is held outside the fd tables. -/
structure Outside (P : FdObject → Prop) (k : Kernel) : Prop where
  calls : ∀ pid p, k.procs.get? pid = some p → ∀ o ∈ p.call.objects, P o
  channels : ∀ c ch, k.channels.get? c = some ch → ∀ o ∈ channelObjects ch, P o
  ports : ∀ q port, k.ports.get? q = some port → ∀ o ∈ portObjects port, P o
  registry : ∀ o ∈ k.registry.map (·.2), P o

/-- `I closed k hand` survives every move of a call by process `pid`: `closed` is what was closed so far,
    `hand` the objects in hand. -/
structure Moves (w : Terms) (pid : Nat) (I : List FdObject → Kernel → List FdObject → Prop) : Prop where
  /-- Only ports may be kept from leaving. -/
  leaves : ∀ o, (∀ q, o ≠ .port q) → w.leaves o
  outside : ∀ {cl k hand}, I cl k hand → Outside w.leaves k
  armed : ∀ {cl k hand c ch pr}, I cl k hand → k.channels.get? c = some ch → ch.pendingPort = some pr →
    w.data pr.port pr.userData
  shaped : ∀ {cl k hand q port}, w.tight → I cl k hand → k.ports.get? q = some port → ∀ c ∈ port.queue, c.Shaped
  more : ∀ {cl k hand} l, I cl k hand → I (l ++ cl) k hand
  fresh : ∀ {cl k hand l}, I cl k hand → (∀ o ∈ l, o.counted = false ∧ w.leaves o) → I cl k (l ++ hand)
  lose : ∀ {cl k hand l}, I cl k (l ++ hand) → (w.tight → ∀ o ∈ l, o.counted = false) → I cl k hand
  notifyDups : ∀ {cl k k' l}, I cl k [] →
    (∀ o ∈ l, w.leaves o ∨ ∃ p, k.procs.get? pid = some p ∧ o ∈ p.fdTable.objects) →
    k.notifyDups l = some k' → I cl k' l
  close : ∀ {cl k k' o res}, I cl k [o] → k.close o = some (res, k') → I ([o] ++ cl) (k'.handleCloseResult res) []
  closeObjects : ∀ {cl k k' l}, I cl k l → k.closeObjects l = some k' → I (l ++ cl) k' []
  extract : ∀ {cl k k' t msg res}, I cl k [] → k.extractTransferFds t msg = some (res, k') →
    (∀ o ∈ objectsOf res.join, w.leaves o) → I cl k' (objectsOf res.join)
  install : ∀ {cl k k' hand p msg tf got}, I cl k (tf.reduceOption ++ hand) → k.procs.get? pid = some p →
    p.zombie = false →
    w.Allocates → (w.tight → tf.reduceOption.length ≤ p.fdTable.room) → (∀ o ∈ tf.reduceOption, w.leaves o) →
    k.installTransferFds pid msg tf = some (got, k') → I cl k' hand
  setTable : ∀ {cl k hand hand' p t}, I cl k hand → k.procs.get? pid = some p → p.zombie = false → w.table p.fdTable t →
    (p.fdTable.objects ++ hand).Perm (t.objects ++ hand') → I cl (k.setTable pid t) hand'
  setCall : ∀ {cl k hand hand' p c}, I cl k hand → k.procs.get? pid = some p → p.zombie = false →
    (∀ o ∈ hand, w.leaves o) → (p.call.objects ++ hand).Perm (c.objects ++ hand') → I cl (k.setCall pid c) hand'
  markZombie : ∀ {cl k p}, I cl k [] → k.procs.get? pid = some p → p.call = .idle →
    (w.tight → ∀ o ∈ p.fdTable.objects, o.counted = false) → I cl (k.markZombie pid) []
  setChannel : ∀ {cl k hand hand' c ch ch'}, I cl k hand → k.channels.get? c = some ch → SameCounts ch ch' →
    (∀ o ∈ hand, w.leaves o) → (∀ pr, ch'.pendingPort = some pr → w.data pr.port pr.userData) →
    (channelObjects ch ++ hand).Perm (channelObjects ch' ++ hand') → I cl (k.setChannel c ch') hand'
  dropEnvs : ∀ {cl k envs}, I cl k (envs.flatMap (·.objects)) → (∀ o ∈ envs.flatMap (·.objects), w.leaves o) →
    I cl (k.dropEnvs envs) []
  post : ∀ {cl k q c}, I cl k c.objects → c.Shaped → (w.tight → PortRoom k q ∨ c.objects = []) →
    (∀ o ∈ c.objects, w.leaves o) →
    ((c.readBuf = none ∧ c.transferFds = none) ∨ w.data q c.userData) → I cl (k.post q c) []
  alterPort : ∀ {cl k hand q f}, I cl k [] → (∀ port, ∀ c ∈ (f port).queue, c ∈ port.queue) →
    (portObjects ((k.ports.get? q).getD .new)).Perm (portObjects (f ((k.ports.get? q).getD .new)) ++ hand) →
    I cl { k with ports := k.ports.alter q f } hand
  setRing : ∀ {cl k q r}, I cl k [] →
    I cl { k with ports := k.ports.insert q { (k.ports.get? q).getD .new with ring := r } } []
  newPipe : ∀ {cl k q}, I cl k [] → k.pipes.get? q = none →
    I cl { k with pipes := k.pipes.insert q ⟨1, false⟩ } [.pipeWriter q]
  newChannel : ∀ {cl k c capacity}, I cl k [] → k.channels.get? c = none →
    I cl (k.setChannel c (.new capacity)) [.channelSend c, .channelRecv c]
  register : ∀ {cl k o name}, I cl k [o] → w.leaves o → I cl { k with registry := (name, o) :: k.registry } []
  tasks : ∀ {cl k} l, I cl k [] → I cl { k with tasks := l } []

/-- The moves that are no process's own come in, and those that make or unmake one. -/
structure Runs (w : Terms) (pid : Nat) (I : List FdObject → Kernel → List FdObject → Prop) : Prop
      extends Moves w pid I where
  insertProc : ∀ {cl k t child}, I cl k t.objects → k.procs.get? child = none → (∀ o ∈ t.objects, w.leaves o) →
    I cl { k with procs := k.procs.insert child ⟨t, false, .idle⟩ } []
  removeZombie : ∀ {cl k p child}, I cl k [] → k.procs.get? child = some p → p.zombie = true →
    I cl { k with procs := k.procs.remove child } []
  dropNext : ∀ {cl k k'}, I cl k [] → k.dropNext = some k' → I (k.dropped.take 1 ++ cl) k' []
  destroyChannel : ∀ {cl k k' c}, I cl k [] → k.destroyChannel c = some k' → I cl k' []
  destroyPort : ∀ {cl k k' q}, I cl k [] → (w.tight → Tight k (.destroyPort q)) → k.destroyPort q = some k' → I cl k' []

theorem allocPair_objects {o o' : FdObject} {cloexec : Bool}
    (h : allocPair t o o' cloexec = (fds, t')) : (t.objects ++ if fds.isSome then [o, o'] else []).Perm t'.objects := by
  unfold allocPair at h
  split at h
  · cases h
    exact .of_eq (append_nil _)
  rename_i h1
  have h1' := objects_allocFd h1
  split at h
  · cases h
    have hslot := (allocFd_fresh h1).2.1
    rw [Option.isSome_none, if_neg Bool.false_ne_true, append_nil]
    exact (perm_cons _).mp (h1'.symm.trans (objects_empty (getFd_eq_some.mp hslot)))
  · rename_i h2
    cases h
    refine perm_append_comm.trans (.trans (.swap ..) ?_)
    exact (h1'.symm.cons _).trans (objects_allocFd h2).symm

theorem allocPair_filled {a b : FdObject} {cloexec : Bool}
    (h : allocPair t a b cloexec = (fds, t')) : Filled t t' := by
  unfold allocPair at h
  split at h
  · cases h
    exact .refl t
  rename_i fd t₁ h₁
  split at h
  · -- the first is closed again
    cases h
    obtain ⟨hfree, -, hothers⟩ := allocFd_fresh h₁
    refine .same ?_ fun j => ?_
    · rw [length_set]
      exact allocFd_length h₁
    · by_cases hj : j = fd
      · subst hj
        rw [hfree, getFd]
        by_cases hlt : j < t₁.length
        · rw [getElem?_set_self hlt]
          rfl
        · rw [getElem?_eq_none (by rw [length_set]; omega)]
          rfl
      · rw [getFd_set_ne hj, hothers j hj]
  · rename_i h₂
    cases h
    exact (Filled.alloc h₁).trans (.alloc h₂)

theorem extracted_leaves {P : FdObject → Prop}
    (hP : ∀ fd ∈ msg.fds, 0 ≤ fd → ∀ o, t.getObject fd.toNat = some o → P o)
    (he : k.extractTransferFds t msg = some (some tf, k')) : ∀ o ∈ objectsOf tf, P o := by
  rcases extractTransferFds_slots he with ⟨rfl, -⟩ | ⟨l, rfl, hl⟩
  · exact fun _ ho => nomatch ho
  intro o ho
  have ho : o ∈ l.reduceOption := ho
  obtain ⟨hlen, heach⟩ := forall₂_iff_get.mp hl
  obtain ⟨i, hi, hslot⟩ := mem_iff_getElem.mp (reduceOption_mem_iff.mp ho)
  have hi' : i < msg.fds.length := hlen ▸ hi
  have hx := heach i hi' hi
  rw [get_eq_getElem, get_eq_getElem, hslot] at hx
  exact hP _ (getElem_mem hi') hx.1 o hx.2

theorem mem_objects_of_getFd {fd : Nat} (h : t.getFd fd = some e) : e.object ∈ t.objects :=
  (objects_empty (getFd_eq_some.mp h)).mem_iff.mpr mem_cons_self

namespace Moves

variable {w : Terms} {pid : Nat} {I : List FdObject → Kernel → List FdObject → Prop} {cl : List FdObject}
  {k k' : Kernel} {p : Process} {rc : Int} {ret : Option Int}

variable {o : FdObject} {c fd portFd q userData : Nat} {cloexec nonblock : Bool}

variable (M : Moves w pid I) (h : I cl k []) {bufAddr msgPtr : Nat} {name : String}
include M h

theorem notifyDup
    (ho : w.leaves o ∨ ∃ p, k.procs.get? pid = some p ∧ o ∈ p.fdTable.objects) (hd : k.notifyDup o = some k') :
    I cl k' [o] :=
  M.notifyDups h (by simpa using ho) (bind_eq_some_iff.mpr ⟨k', hd, rfl⟩)

omit h in
theorem closeObject (h : I cl k [o]) (hc : k.closeObject o = some k') : I ([o] ++ cl) k' [] :=
  M.closeObjects h (bind_eq_some_iff.mpr ⟨k', hc, rfl⟩)

theorem post_plain {opcode : Nat} {result : Int} : I cl (k.post q (.plain userData result opcode)) [] :=
  M.post (c := .plain userData result opcode) h (.inl rfl) (fun _ => .inr rfl) (fun _ ho => nomatch ho)
    (.inl ⟨rfl, rfl⟩)

omit h in
theorem post_message {dest : Nat} (h : I cl k env.objects)
    (hfits : w.tight → PortRoom k q ∨ env.objects = []) (hleaves : ∀ o ∈ env.objects, w.leaves o)
    (hdata : w.data q userData) : I cl (k.post q (.ofMessage userData dest env)) [] :=
  M.post (c := .ofMessage userData dest env) h (.inr ⟨_, rfl⟩) hfits hleaves (.inr hdata)

omit h in
theorem allocFd {t : FdTable FdObject} (hF : w.Allocates) (h : I cl k [o]) (hp : k.procs.get? pid = some p)
    (hz : p.zombie = false) (ha : p.fdTable.allocFd ⟨o, cloexec⟩ = some (fd, t)) : I cl (k.setTable pid t) [] := by
  refine M.setTable h hp hz (hF _ _ (.alloc ha)) ?_
  rw [append_nil]
  exact (perm_append_singleton _ _).trans (objects_allocFd ha).symm

omit h in
theorem allocPair {t : FdTable FdObject} {o' : FdObject}
    (hF : w.Allocates) (hp : k.procs.get? pid = some p) (hz : p.zombie = false)
    (ha : allocPair p.fdTable o o' cloexec = (fds, t))
    (h : I cl k (if fds.isSome then [o, o'] else [])) : I cl (k.setTable pid t) [] :=
  M.setTable h hp hz (hF _ _ (allocPair_filled ha)) (by rw [append_nil]; exact allocPair_objects ha)

omit h in
theorem through {ch ch' : Channel EnvelopedMessage} (ins : List EnvelopedMessage) {outs : List EnvelopedMessage}
    (h : I cl k (ins.flatMap (·.objects))) (hins : ∀ o ∈ ins.flatMap (·.objects), w.leaves o)
    (hch : k.channels.get? c = some ch)
    (hcounts : SameCounts ch ch') (hdata : ∀ pr, ch'.pendingPort = some pr → w.data pr.port pr.userData)
    (hperm : (ins ++ envelopes ch).Perm (envelopes ch' ++ outs)) :
    I cl (k.setChannel c ch') (outs.flatMap (·.objects)) ∧ ∀ o ∈ outs.flatMap (·.objects), w.leaves o := by
  have hflat := hperm.flatMap_right (·.objects)
  rw [flatMap_append, flatMap_append] at hflat
  refine ⟨M.setChannel h hch hcounts hins hdata (perm_append_comm.trans hflat), fun o ho => ?_⟩
  rcases mem_append.mp (hflat.mem_iff.mpr (mem_append_right _ ho)) with ho | ho
  · exact hins o ho
  · exact (M.outside h).channels c ch hch o ho

/-! ## Processes and fds -/

theorem sysExecve (hR : ∀ p, k.procs.get? pid = some p → w.table p.fdTable p.fdTable.dropCloexec)
    (hs : k.sysExecve pid = some k') : I (closing k (.execve pid) ++ cl) k' [] := by
  obtain ⟨p, hp, hz, -, hs⟩ := caller_bind hs
  rw [closing, hp]
  refine M.closeObjects (M.setTable h hp hz (hR p hp) ?_) hs
  rw [append_nil]
  exact (objects_dropCloexec p.fdTable).trans perm_append_comm

theorem terminateProcess (hR : ∀ t : FdTable FdObject, w.table t t.dropAll)
    (hs : k.terminateProcess pid = some k') : I (closing k (.exit pid) ++ cl) k' [] := by
  obtain ⟨p, hp, hz, hidle, hs⟩ := caller_bind hs
  obtain ⟨k1, hclose, hs⟩ := of_bind hs
  cases hs
  have hp1 : k1.procs.get? pid = some { p with fdTable := p.fdTable.dropAll } := by
    rw [(Kernel.closeObjects_frame hclose).procs, Kernel.setTable, OrdMap.get?_alter, if_pos rfl, hp]
    rfl
  rw [closing, hp]
  refine M.markZombie (M.closeObjects (M.setTable h hp hz (hR _) ?_) hclose) hp1 hidle fun _ => ?_
  · rw [objects_dropAll, nil_append, append_nil]
    exact .refl _
  · simp [objects_dropAll]

theorem killUserProcess (hg : w.tight → Tight k (.faultKill pid)) (hs : k.killUserProcess pid = some k') :
    I cl k' [] := by
  obtain ⟨p, hp, -, hidle, hs⟩ := caller_bind hs
  cases hs
  exact M.markZombie h hp hidle fun ht => hg ht p hp

theorem sysOpen (hF : w.Allocates) (ho : o.counted = false ∧ w.leaves o)
    (hs : k.sysOpen pid o cloexec = some (rc, k')) : I cl k' [] := by
  obtain ⟨_, hp, hz, -, hs⟩ := caller_bind hs
  split at hs
  · rename_i ha
    cases hs
    exact M.allocFd hF (M.fresh (l := [o]) h (by simpa using ho)) hp hz ha
  · cases hs
    exact h

theorem sysClose (hR : ∀ t : FdTable FdObject, w.table t (t.set fd none))
    (hs : k.sysClose pid fd = some (rc, k')) : I (closing k (.close pid fd) ++ cl) k' [] := by
  obtain ⟨p, hp, hz, -, hs⟩ := caller_bind hs
  split at hs
  · cases hs
    exact M.more _ h
  rename_i t ht
  obtain ⟨⟨_, _⟩, hclose, hs⟩ := of_bind hs
  cases hs
  have htable : w.table p.fdTable t := by
    obtain ⟨_, -, he⟩ := of_map ht
    cases he
    exact hR _
  rw [closing, hp, Option.elim, getObject_takeFd ht]
  refine M.close (M.setTable h hp hz htable ?_) hclose
  rw [append_nil]
  exact (objects_takeFd ht).trans (perm_append_singleton _ _).symm

omit h in
theorem setFd (h : I cl k [e.object])
    (hR : ∀ t : FdTable FdObject, w.table t ((t.extend fd).set fd (some e))) (hp : k.procs.get? pid = some p)
    (hz : p.zombie = false)
    (hs : k.setFd pid fd p.fdTable e = some k') : I ((p.fdTable.getObject fd).toList ++ cl) k' [] := by
  unfold Kernel.setFd at hs
  split at hs
  · rename_i t ht
    have htable : w.table p.fdTable (t.set fd (some e)) := by
      obtain ⟨_, -, he⟩ := of_map ht
      cases he
      rw [set_set]
      exact hR _
    rw [← getObject_extend p.fdTable fd, getObject_takeFd ht]
    refine M.closeObject (M.setTable h hp hz htable ?_) hs
    exact (perm_append_singleton _ _).trans ((objects_replaceFd ht e).symm.trans (perm_append_singleton _ _).symm)
  · rename_i hfree
    cases hs
    refine M.setTable (M.more _ h) hp hz (hR _) ?_
    rw [append_nil]
    exact (perm_append_singleton _ _).trans (objects_fillFd hfree e).symm

theorem sysDup2 {oldfd newfd : Nat} (hR : ∀ (t : FdTable FdObject) e, w.table t ((t.extend newfd).set newfd (some e)))
    (hs : k.sysDup2 pid oldfd newfd = some (rc, k')) : I (closing k (.dup2 pid oldfd newfd) ++ cl) k' [] := by
  obtain ⟨p, hp, hz, -, hs⟩ := caller_bind hs
  split at hs
  · cases hs
    exact M.more _ h
  rename_i e he
  split at hs
  · cases hs
    exact M.more _ h
  rename_i hne
  obtain ⟨_, hd, hs⟩ := of_bind hs
  obtain ⟨_, hset, hs⟩ := of_bind hs
  cases hs
  rw [closing, hp, Option.elim, if_neg (by simp [hne, he])]
  have hown := mem_objects_of_getFd he
  exact M.setFd (e := ⟨e.object, false⟩) (M.notifyDup h (.inr ⟨p, hp, hown⟩) hd) (hR · _)
    (by rw [(notifyDup_frame hd).procs]; exact hp) hz hset

theorem setFdFlags
    (hR : ∀ (t : FdTable FdObject) e, w.table t (t.set fd (some e)))
    (hs : k.setFdFlags pid fd cloexec = some (rc, k')) : I cl k' [] := by
  obtain ⟨_, hp, hz, -, hs⟩ := caller_bind hs
  split at hs
  · cases hs
    exact h
  rename_i e he
  cases hs
  refine M.setTable h hp hz (hR _ _) ?_
  rw [append_nil, append_nil]
  exact ((perm_cons _).mp (objects_replace (getFd_eq_some.mp he) { e with cloexec := cloexec })).symm

theorem sysPipe2 {pipe fdsPtr : Nat} (hF : w.Allocates) (hs : k.sysPipe2 pid pipe fdsPtr cloexec = some (rc, k')) :
    I cl k' [] := by
  obtain ⟨_, hp, hz, -, hs⟩ := caller_bind hs
  split at hs
  · cases hs
    exact h
  split at hs
  · cases hs
  rename_i hnew
  split at hs
  · rename_i ha
    cases hs
    exact M.allocPair hF hp hz ha h
  · rename_i ha
    cases hs
    refine M.allocPair (k := { k with pipes := k.pipes.insert pipe ⟨1, false⟩ }) hF hp hz ha ?_
    exact M.fresh (l := [.pipeReader pipe]) (M.newPipe h hnew) (by simpa [FdObject.counted] using M.leaves _ (by simp))

theorem sysIpcCreate {chan fdsPtr capacity : Nat} {flags : BitVec 32} (hF : w.Allocates)
    (hs : k.sysIpcCreate pid chan fdsPtr capacity flags = some (rc, k')) : I cl k' [] := by
  obtain ⟨_, hp, hz, -, hs⟩ := caller_bind hs
  split at hs
  · cases hs
    exact h
  split at hs
  · cases hs
    exact h
  split at hs
  · cases hs
  rename_i hnew
  split at hs
  · rename_i ha
    cases hs
    exact M.allocPair hF hp hz ha h
  · rename_i ha
    cases hs
    exact M.allocPair (k := k.setChannel chan (.new capacity)) hF hp hz ha (M.newChannel h hnew)

/-! ## Messages -/

omit h in
theorem deliverToUser {got : Option IpcMessage} (hF : w.Allocates) (h : I cl k env.objects)
    (hleaves : ∀ o ∈ env.objects, w.leaves o) (hp : k.procs.get? pid = some p) (hz : p.zombie = false)
    (hroom : w.tight → env.objects.length ≤ p.fdTable.room) (hd : k.deliverToUser pid env = some (rc, got, k')) :
    I cl k' [] := by
  unfold Kernel.deliverToUser at hd
  unfold EnvelopedMessage.objects at h hroom hleaves
  split at hd
  · rename_i hnone
    rw [hnone] at h
    cases hd
    exact h
  · rename_i hsome
    rw [hsome] at h hroom hleaves
    obtain ⟨⟨res, k1⟩, hi, hd⟩ := of_bind hd
    obtain rfl : k1 = k' := by
      cases res <;> cases hd <;> rfl
    exact M.install (by rw [append_nil]; exact h) hp hz hF hroom hleaves hi

omit h in
theorem send (env : EnvelopedMessage) (h : I cl k env.objects)
    (hleaves : ∀ o ∈ env.objects, w.leaves o) (hp : k.procs.get? pid = some p) (hz : p.zombie = false)
    (hidle : p.call = .idle) (hfits : w.tight → ∀ ch, k.channels.get? c = some ch → SendFits k ch (env.objects = []))
    (hs : k.send pid c env nonblock = some (ret, k')) : I cl k' [] := by
  obtain ⟨ch, hch, hs⟩ := of_bind hs
  have henv := trySend_envelopes ch pid env nonblock
  obtain ⟨hout, houts⟩ := M.through [env] (by simpa using h) (by simpa using hleaves) hch
    (trySend_counts ch pid env nonblock)
    (fun pr hpr => M.armed h hch (trySend_pendingPort hpr)) henv
  have hpost : ∀ {pr env'}, (ch.trySend pid env nonblock).action = .postToPort pr env' →
      (w.tight → PortRoom k pr.port ∨ env'.objects = []) ∧ w.data pr.port pr.userData := by
    intro pr env' ha
    have hpr := trySend_postToPort ha
    rw [ha] at henv
    exact ⟨fun ht => (hfits ht ch hch).out hpr henv, M.armed h hch hpr⟩
  generalize ch.trySend pid env nonblock = r at hs hout houts hpost
  obtain ⟨act, _, _⟩ := r
  cases act <;> cases hs
  case done => exact hout
  case donated => exact M.dropEnvs hout houts
  case block => exact M.setCall (M.dropEnvs hout houts) hp hz (fun _ ho => nomatch ho) (by rw [hidle]; rfl)
  case blockWithMsg env' => exact M.setCall hout hp hz houts (by simp [hidle, sendOut, Call.objects])
  case wouldBlock => exact M.dropEnvs hout houts
  case peerClosed => exact M.dropEnvs hout houts
  case postToPort pr env' =>
    obtain ⟨hroom, hdata⟩ := hpost rfl
    exact M.post_message (by simpa [sendOut] using hout) hroom (by simpa [sendOut] using houts) hdata

theorem recv (hF : w.Allocates) (hp : k.procs.get? pid = some p) (hz : p.zombie = false) (hidle : p.call = .idle)
    (hfits : w.tight → ∀ ch, k.channels.get? c = some ch → RecvFits p ch)
    (hs : k.recv pid c nonblock = some (ret, k')) : I cl k' [] := by
  obtain ⟨ch, hch, hs⟩ := of_bind hs
  obtain ⟨hout, houts⟩ := M.through [] h (fun _ ho => nomatch ho) hch (tryRecv_counts ch pid nonblock)
    (fun pr hpr => M.armed h hch (ch.tryRecv_pendingPort pid nonblock ▸ hpr)) (tryRecv_envelopes ch pid nonblock)
  have hnext := recvOut_tryRecv ch pid nonblock
  generalize ch.tryRecv pid nonblock = r at hs hout houts hnext
  obtain ⟨act, chan, _⟩ := r
  have hdeliver : ∀ {env rc got k1}, recvOut act = [env] →
      (k.setChannel c chan).deliverToUser pid env = some (rc, got, k1) → I cl k1 [] := by
    intro env rc got k1 he hd
    rw [he] at hout houts hnext
    refine M.deliverToUser (k := k.setChannel c chan) hF (by simpa using hout) (by simpa using houts) hp hz
      (fun ht => ?_) hd
    exact hfits ht ch hch env (Option.toList_eq_singleton_iff.mp hnext.symm)
  cases act
  case message env =>
    obtain ⟨⟨rc1, got, k1⟩, hd, hs⟩ := of_bind hs
    cases hs
    exact hdeliver rfl hd
  case messageAndNotifySendPort env port userData =>
    obtain ⟨⟨_, got, k1⟩, hd, hs⟩ := of_bind hs
    cases hs
    exact M.post_plain (hdeliver rfl hd)
  case block =>
    cases hs
    exact M.setCall hout hp hz houts (by rw [hidle]; rfl)
  all_goals
    cases hs
    exact hout

theorem sysIpcSend (hg : w.tight → Tight k (.ipcSend pid fd msgPtr msg nonblock))
    (hsend : w.Sendable k pid msg) (hs : k.sysIpcSend pid fd msgPtr msg nonblock = some (ret, k')) : I cl k' [] := by
  obtain ⟨p, hp, hz, hidle, hs⟩ := caller_bind hs
  split at hs
  · cases hs
    exact h
  split at hs
  · rename_i c hobject
    obtain ⟨⟨res, k1⟩, he, hs⟩ := of_bind hs
    have hp1 : k1.procs.get? pid = some p := by rw [(extractTransferFds_frame he).procs]; exact hp
    cases res with
    | none =>
      cases hs
      exact M.extract h he fun _ ho => nomatch ho
    | some tf =>
      have hleaves := extracted_leaves (hsend p hp) he
      exact M.send ⟨msg, tf⟩ (M.extract h he hleaves) hleaves hp1 hz hidle
        (fun ht => SendFits.extracted (fun ch hch => hg ht p c ch hp hobject hch) he) hs
  · cases hs
    exact h

theorem sysIpcRecv (hF : w.Allocates)
    (hg : w.tight → Tight k (.ipcRecv pid fd msgPtr nonblock))
    (hs : k.sysIpcRecv pid fd msgPtr nonblock = some (ret, k')) : I cl k' [] := by
  obtain ⟨p, hp, hz, hidle, hs⟩ := caller_bind hs
  split at hs
  · cases hs
    exact h
  split at hs
  · rename_i c hobject
    exact M.recv h hF hp hz hidle (fun ht ch hch => hg ht p c ch hp hobject hch) hs
  · cases hs
    exact h

theorem resume (hF : w.Allocates) (hg : w.tight → Tight k (.resume pid)) (hs : k.resume pid = some (ret, k')) :
    I cl k' [] := by
  obtain ⟨p, hp, hs⟩ := of_bind hs
  obtain ⟨hz, hs⟩ := of_unless hs
  rw [Bool.not_eq_true] at hz
  have hp1 : (k.setCall pid .idle).procs.get? pid = some { p with call := .idle } := by
    rw [Kernel.setCall, OrdMap.get?_alter, if_pos rfl, hp]
    rfl
  have hidle : I cl (k.setCall pid .idle) p.call.objects :=
    M.setCall h hp hz (fun _ ho => nomatch ho) (by rw [append_nil]; rfl)
  have hleaves := (M.outside h).calls pid p hp
  have hgp := fun ht => hg ht p hp
  cases hcall : p.call with
  | idle =>
    rw [hcall] at hs
    cases hs
  | sendWait c =>
    rw [hcall] at hs hidle
    obtain ⟨_, -, hs⟩ := of_bind hs
    cases hs
    exact hidle
  | sendFull c env =>
    rw [hcall] at hs hgp hidle hleaves
    exact M.send env hidle hleaves hp1 hz rfl hgp hs
  | recvWait c =>
    rw [hcall] at hs hgp hidle
    exact M.recv hidle hF hp1 hz rfl hgp hs

/-! ## Completion ports -/

theorem submitSend (hg : w.tight → Tight k (.submitSend pid portFd userData fd bufAddr msg))
    (hsend : w.Sendable k pid msg) (hs : k.submitSend pid portFd userData fd bufAddr msg = some k') : I cl k' [] := by
  obtain ⟨p, hp, -, -, hs⟩ := caller_bind hs
  split at hs
  · cases hs
    exact h
  rename_i q _
  split at hs
  · rename_i c hobject
    split at hs
    · cases hs
      exact M.post_plain h
    obtain ⟨⟨res, k1⟩, he, hs⟩ := of_bind hs
    cases res with
    | none =>
      cases hs
      exact M.post_plain (M.extract h he fun _ ho => nomatch ho)
    | some tf =>
      have hleaves := extracted_leaves (hsend p hp) he
      have h1 := M.extract h he hleaves
      obtain ⟨ch, hch, hs⟩ := of_bind hs
      have henv := armSend_envelopes ch ⟨q, userData, ⟨msg, tf⟩⟩
      obtain ⟨hout, houts⟩ := M.through [⟨msg, tf⟩] (by simpa [EnvelopedMessage.objects] using h1)
        (by simpa [EnvelopedMessage.objects] using hleaves) hch (armSend_counts ch ⟨q, userData, ⟨msg, tf⟩⟩)
        (fun pr hpr => M.armed h1 hch (armSend_pendingPort hpr)) henv
      have hpost : ∀ {pr env'}, (ch.armSend ⟨q, userData, ⟨msg, tf⟩⟩).action = .readyToRecvPort pr env' →
          (w.tight → PortRoom k1 pr.port ∨ env'.objects = []) ∧ w.data pr.port pr.userData := by
        intro pr env' ha
        have hpr := armSend_readyToRecvPort ha
        rw [ha] at henv
        exact ⟨fun ht => (SendFits.extracted (fun ch hch => hg ht p c ch hp hobject hch) he ch hch).out hpr henv,
          M.armed h1 hch hpr⟩
      generalize ch.armSend ⟨q, userData, ⟨msg, tf⟩⟩ = r at hs hout houts hpost
      obtain ⟨act, chan, _⟩ := r
      cases act with
      | ready =>
        cases hs
        exact M.post_plain hout
      | readyToRecvPort pr env' =>
        obtain ⟨hroom, hdata⟩ := hpost rfl
        cases hs
        have hout : I cl (k1.setChannel c chan) env'.objects := by simpa [armSendOut] using hout
        exact M.post_plain (M.post_message hout hroom (by simpa [armSendOut] using houts) hdata)
      | armed =>
        cases hs
        exact M.dropEnvs hout houts
      | readyDonate | peerClosed =>
        cases hs
        exact M.post_plain (M.dropEnvs hout houts)
  · cases hs
    exact M.post_plain h

theorem submitRecv (hg : w.tight → Tight k (.submitRecv pid portFd userData fd bufAddr))
    (hdata : ∀ p q, k.caller pid = some p → portOf p portFd = some q → w.data q userData)
    (hs : k.submitRecv pid portFd userData fd bufAddr = some k') : I cl k' [] := by
  obtain ⟨p, hc, hs⟩ := of_bind hs
  obtain ⟨hp, -, -⟩ := caller_spec hc
  split at hs
  · cases hs
    exact h
  rename_i q hq
  have hd := hdata p q hc hq
  split at hs
  · rename_i c hobject
    split at hs
    · cases hs
      exact M.post_plain h
    obtain ⟨ch, hch, hs⟩ := of_bind hs
    have hpending : ∀ pr, (ch.armRecv ⟨q, userData, bufAddr⟩).chan.pendingPort = some pr →
        w.data pr.port pr.userData := by
      intro pr hpr
      rcases armRecv_pendingPort hpr with hold | rfl
      · exact M.armed h hch hold
      · exact hd
    obtain ⟨hout, houts⟩ := M.through [] h (fun _ ho => nomatch ho) hch (armRecv_counts ch _) hpending
      (armRecv_envelopes ch ⟨q, userData, bufAddr⟩)
    have hnext := armRecvOut_armRecv ch ⟨q, userData, bufAddr⟩
    generalize ch.armRecv ⟨q, userData, bufAddr⟩ = r at hs hout houts hnext
    obtain ⟨act, chan, _⟩ := r
    have hpost : ∀ {env}, armRecvOut act = [env] →
        I cl ((k.setChannel c chan).post q (.ofMessage userData bufAddr env)) [] := by
      intro env he
      rw [he] at hout houts hnext
      refine M.post_message (by simpa using hout) (fun ht => ?_) (by simpa using houts) hd
      exact (hg ht p q c ch hp hq hobject hch).imp_right fun hempty =>
        hempty env (Option.toList_eq_singleton_iff.mp hnext.symm)
    cases act with
    | ready env =>
      cases hs
      exact hpost rfl
    | readyAndNotifySendPort =>
      cases hs
      exact M.post_plain (hpost rfl)
    | armed =>
      cases hs
      exact hout
    | peerClosed =>
      cases hs
      exact M.post_plain hout
  · cases hs
    exact M.post_plain h

theorem submitTask (hs : k.submitTask pid portFd = some k') : I cl k' [] := by
  obtain ⟨_, -, hs⟩ := of_bind hs
  split at hs
  · cases hs
    exact h
  · cases hs
    exact M.tasks _ h

theorem taskEnd {result : Option (IoCompletion × Option ReadBuf × Nat)}
    (hdata : ∀ c buf dest, result = some (c, some buf, dest) → w.data q c.userData)
    (hs : k.taskEnd q result = some k') : I cl k' [] := by
  obtain ⟨-, hs⟩ := of_guard hs
  cases result with
  | none =>
    cases hs
    exact M.tasks _ h
  | some x =>
    obtain ⟨c, buf, dest⟩ := x
    cases hs
    refine M.post (c := ⟨c, buf, dest, none⟩) (M.tasks _ h) (.inl rfl) (fun _ => .inr rfl) (fun _ ho => nomatch ho) ?_
    cases buf with
    | none => exact .inl ⟨rfl, rfl⟩
    | some buf => exact .inr (hdata c buf dest rfl)

theorem drainPort (q n : Nat) :
    I cl (k.drainPort q n) ((((k.ports.get? q).getD .new).queue.take n).flatMap (·.objects)) := by
  refine M.alterPort h (fun port c => mem_of_mem_drop) ?_
  refine .trans (.of_eq ?_) perm_append_comm
  rw [portObjects, portObjects, ← flatMap_append, take_append_drop]

omit h in
theorem deliverCompletions {l : List Completion} (hF : w.Allocates) (h : I cl k (l.flatMap (·.objects)))
    (hleaves : ∀ o ∈ l.flatMap (·.objects), w.leaves o) (hshaped : w.tight → ∀ c ∈ l, c.Shaped)
    (hp : k.procs.get? pid = some p)
    (hz : p.zombie = false) (hroom : w.tight → (l.flatMap (·.objects)).length ≤ p.fdTable.room)
    (hd : k.deliverCompletions pid l = some k') : I cl k' [] := by
  induction l generalizing k p with
  | nil =>
    cases hd
    exact h
  | cons c l ih =>
    obtain ⟨⟨_, _⟩, h1, hlater⟩ := of_bind hd
    simp only [flatMap_cons, mem_append, length_append] at h hleaves hroom
    have hrest : w.tight → ∀ c ∈ l, c.Shaped := fun ht c' hc => hshaped ht c' (.tail _ hc)
    rcases deliverCompletion_cases h1 with ⟨rfl, hnone⟩ | ⟨tf, msg, res, htf, hbuf, hi⟩
    · have hempty : w.tight → c.objects = [] := by
        intro ht
        have htf : c.transferFds = none := hnone.elim id fun hmsg =>
          (hshaped ht c mem_cons_self).elim id fun ⟨msg, h⟩ => absurd h (hmsg msg)
        rw [Completion.objects, htf]
        rfl
      refine ih (M.lose h fun ht o ho => ?_) (fun o ho => hleaves o (.inr ho)) hrest hp hz (fun ht => ?_) hlater
      · rw [hempty ht] at ho
        cases ho
      · exact Nat.le_trans (Nat.le_add_left ..) (hroom ht)
    · have htf' : c.objects = tf.reduceOption := by
        rw [Completion.objects, htf]
        rfl
      rw [htf'] at h hleaves hroom
      obtain ⟨t', hp', hspec⟩ := installTransferFds_spec hp hi
      refine ih (M.install h hp hz hF (fun ht => by have := hroom ht; omega) (fun o ho => hleaves o (.inl ho)) hi)
        (fun o ho => hleaves o (.inr ho)) hrest hp' hz (fun ht => ?_) hlater
      have hfits := hroom ht
      rcases hspec with ⟨-, -, fds, -, hslots⟩ | ⟨hfull, -⟩
      · have := hslots.room
        dsimp only
        omega
      · omega

theorem queue (q : Nat) :
    (w.tight → ∀ c ∈ ((k.ports.get? q).getD .new).queue, c.Shaped) ∧
      ∀ o ∈ portObjects ((k.ports.get? q).getD .new), w.leaves o := by
  cases hq : k.ports.get? q with
  | none => exact ⟨fun _ _ hc => (nomatch hc), fun _ ho => nomatch ho⟩
  | some port => exact ⟨fun ht => M.shaped ht h hq, (M.outside h).ports q port hq⟩

theorem sysIoWait {max : Nat} (hF : w.Allocates)
    (hg : w.tight → Tight k (.ioWait pid portFd max)) (hs : k.sysIoWait pid portFd max = some (rc, k')) :
    I cl k' [] := by
  obtain ⟨p, hp, hz, -, hs⟩ := caller_bind hs
  split at hs
  · cases hs
    exact h
  split at hs
  · cases hs
    exact h
  rename_i q hq
  dsimp only at hs
  split at hs
  · cases hs
    exact h
  obtain ⟨_, hd, hs⟩ := of_bind hs
  cases hs
  obtain ⟨hshaped, hleaves⟩ := M.queue h q
  refine M.deliverCompletions hF (M.drainPort h q max) (fun o ho => ?_)
    (fun ht c hc => hshaped ht c (mem_of_mem_take hc)) hp hz (fun ht => hg ht p q hp hq) hd
  obtain ⟨c, hc, ho⟩ := mem_flatMap.mp ho
  exact hleaves o (mem_flatMap.mpr ⟨c, mem_of_mem_take hc, ho⟩)

theorem alterRing {f : CqRing → CqRing} :
    I cl { k with ports := k.ports.alter q fun p => { p with ring := p.ring.map f } } [] :=
  M.alterPort h (fun _ _ hc => hc) (.of_eq (append_nil _).symm)

theorem sysIoRingEnter (hF : w.Allocates)
    (hg : w.tight → Tight k (.ioRingEnter pid portFd)) (hs : k.sysIoRingEnter pid portFd = some k') : I cl k' [] := by
  obtain ⟨p, hp, hz, -, hs⟩ := caller_bind hs
  split at hs
  · cases hs
    exact h
  rename_i q hq
  dsimp only at hs
  split at hs
  · cases hs
    exact h
  obtain ⟨_, hd, hs⟩ := of_bind hs
  cases hs
  obtain ⟨hshaped, hleaves⟩ := M.queue h q
  have hdrain := M.drainPort h q ((k.ports.get? q).getD .new).queue.length
  rw [take_length] at hdrain
  exact M.alterRing (M.deliverCompletions hF hdrain hleaves hshaped hp hz (fun ht => hg ht p q hp hq) hd)

theorem sysIoSetupRings {cqEntries sq cq : Nat} (hF : w.Allocates)
    (hs : k.sysIoSetupRings pid portFd cqEntries sq cq = some (rc, k')) : I cl k' [] := by
  obtain ⟨_, hp, hz, -, hs⟩ := caller_bind hs
  split at hs
  · cases hs
    exact h
  split at hs
  · cases hs
    exact h
  split at hs
  · rename_i ha
    cases hs
    exact M.allocPair hF hp hz ha h
  · rename_i t ha
    cases hs
    refine M.setRing (k := k.setTable pid t)
      (M.allocPair hF hp hz ha (M.fresh (l := [.other sq, .other cq]) h fun o ho => ?_))
    rcases mem_pair.mp ho with rfl | rfl <;> exact ⟨rfl, M.leaves _ (by simp)⟩

/-! ## The service registry -/

theorem sysSvcRegister (hg : w.tight → Tight k (.svcRegister pid name fd))
    (hleaves : ∀ p, k.procs.get? pid = some p → ∀ o, p.fdTable.getObject fd = some o → w.leaves o)
    (hs : k.sysSvcRegister pid name fd = some (rc, k')) : I cl k' [] := by
  obtain ⟨p, hp, -, -, hs⟩ := caller_bind hs
  split at hs
  · cases hs
    exact h
  split at hs
  · cases hs
    exact h
  rename_i e he
  obtain ⟨_, hd, hs⟩ := of_bind hs
  have h1 := M.notifyDup h (.inr ⟨p, hp, mem_objects_of_getFd he⟩) hd
  split at hs
  · rename_i hname
    cases hs
    refine M.lose (l := [e.object]) h1 fun ht => ?_
    rw [(notifyDup_frame hd).registry] at hname
    rcases hg ht with hfree | hun
    · rw [hfree] at hname
      cases hname
    · simpa using hun p e hp he
  · cases hs
    exact M.register h1 (hleaves p hp _ (by rw [getObject, he]; rfl))

theorem sysSvcLookup (hF : w.Allocates) (hg : w.tight → Tight k (.svcLookup pid name))
    (hs : k.sysSvcLookup pid name = some (rc, k')) : I cl k' [] := by
  obtain ⟨p, hp, hz, -, hs⟩ := caller_bind hs
  split at hs
  · cases hs
    exact h
  split at hs
  · cases hs
    exact h
  rename_i o hname
  obtain ⟨_, hd, hs⟩ := of_bind hs
  obtain ⟨l, _, hl, -⟩ := lookup_eq_some_iff.mp hname
  have h1 := M.notifyDup h (.inl ((M.outside h).registry o (by rw [hl]; simp))) hd
  split at hs
  · rename_i ha
    cases hs
    exact M.allocFd hF h1 (by rw [(notifyDup_frame hd).procs]; exact hp) hz ha
  rename_i hfull
  cases hs
  refine M.lose (l := [o]) h1 fun ht => ?_
  rcases hg ht p o hp hname with hroom | hun
  · rw [← allocFd_isSome p.fdTable ⟨o, false⟩, hfull] at hroom
    cases hroom
  · simpa using hun

end Moves

/-! ## Steps -/

/-- The process that makes a call. -/
def Ev.process : Ev → Nat
  | .spawn pid | .clone pid _ | .execve pid | .exit pid | .faultKill pid | .reap pid | .openOther pid _ _ | .close pid _
  | .dup2 pid _ _ | .setFdFlags pid _ _ | .pipe2 pid _ _ _ | .ipcCreate pid _ _ _ _ | .ipcSend pid _ _ _ _
  | .ipcRecv pid _ _ _
  | .resume pid | .ioCreate pid _ | .ioSetupRings pid _ _ _ _ | .submitSend pid _ _ _ _ _ | .submitRecv pid _ _ _ _
  | .submitTask pid _ | .ioWait pid _ _ | .ioRingEnter pid _ | .svcRegister pid _ _ | .svcLookup pid _ => pid
  | _ => 0

/-- What leaves the tables may leave, and data is posted for what it may be. -/
def Ev.Allowed (w : Terms) (k : Kernel) : Ev → Prop
  | .clone pid _ => ∀ p, k.procs.get? pid = some p → ∀ o ∈ p.fdTable.objects, w.leaves o
  | .ipcSend pid _ _ msg _ | .submitSend pid _ _ _ _ msg => w.Sendable k pid msg
  | .svcRegister pid _ fd => ∀ p, k.procs.get? pid = some p → ∀ o, p.fdTable.getObject fd = some o → w.leaves o
  | .ioCreate _ port => w.leaves (.port port)
  | .submitRecv pid portFd userData _ _ => ∀ p q, k.caller pid = some p → Kernel.portOf p portFd = some q →
      w.data q userData
  | .taskEnd q result => ∀ c buf dest, result = some (c, some buf, dest) → w.data q c.userData
  | _ => True

theorem Ev.allowed {w : Terms} (hl : ∀ o, w.leaves o) (hd : ∀ q u, w.data q u) (k : Kernel) (e : Ev) :
    e.Allowed w k := by
  cases e <;> simp [Allowed, Terms.Sendable, hl, hd]

/-- The calls that may allocate fds for process `q`. -/
def Ev.Allocates (q : Nat) : Ev → Prop
  | .openOther pid _ _ | .pipe2 pid _ _ _ | .ipcCreate pid _ _ _ _ | .ipcRecv pid _ _ _ | .resume pid | .ioCreate pid _
  | .ioSetupRings pid _ _ _ _ | .ioWait pid _ _ | .ioRingEnter pid _ | .svcLookup pid _ => q = pid
  | _ => False

/-- What a call makes of the table of its process is allowed for. -/
def Ev.Changes (w : Terms) (k : Kernel) : Ev → Prop
  | .execve pid => ∀ p, k.procs.get? pid = some p → w.table p.fdTable p.fdTable.dropCloexec
  | .exit _ => ∀ t : FdTable FdObject, w.table t t.dropAll
  | .close _ fd => ∀ t : FdTable FdObject, w.table t (t.set fd none)
  | .dup2 _ _ newfd => ∀ (t : FdTable FdObject) e, w.table t ((t.extend newfd).set newfd (some e))
  | .setFdFlags _ fd _ => ∀ (t : FdTable FdObject) e, w.table t (t.set fd (some e))
  | e => e.Allocates e.process → w.Allocates

theorem Ev.changes {w : Terms} (ht : ∀ t t', w.table t t') (k : Kernel) (e : Ev) : e.Changes w k := by
  cases e <;> simp [Changes, Terms.Allocates, ht]

/-- The calls of a process and what the kernel does for them; the others make or unmake something. -/
def Ev.own : Ev → Bool
  | .spawn _ | .clone _ _ | .reap _ | .dropNext | .destroyChannel _ | .destroyPort _ => false
  | _ => true

section Step

variable {w : Terms} {I : List FdObject → Kernel → List FdObject → Prop} {cl : List FdObject} {e : Ev}

theorem Moves.step (M : Moves w e.process I) (h : I cl k []) (hg : w.tight → Tight k e) (ha : e.Allowed w k)
    (hT : e.Changes w k) (hown : e.own = true) (hs : Fd.step k e = some k') : I (closing k e ++ cl) k' [] := by
  cases e with
  | spawn | clone | reap | dropNext | destroyChannel | destroyPort => cases hown
  | execve pid => exact M.sysExecve h hT hs
  | exit pid => exact M.terminateProcess h hT hs
  | faultKill pid => exact M.killUserProcess h hg hs
  | submitSend pid portFd userData fd bufAddr msg => exact M.submitSend h hg ha hs
  | submitRecv pid portFd userData fd bufAddr => exact M.submitRecv h hg ha hs
  | submitTask pid portFd => exact M.submitTask h hs
  | taskEnd q result => exact M.taskEnd h ha hs
  | ioRingEnter pid portFd => exact M.sysIoRingEnter h (hT rfl) hg hs
  | takeCqes port n =>
    cases hs
    exact M.alterRing h
  | ioCreate pid port =>
    obtain ⟨-, hs⟩ := of_guard hs
    obtain ⟨_, hcall, rfl⟩ := of_map hs
    exact M.sysOpen h (hT rfl) ⟨rfl, ha⟩ hcall
  | openOther pid obj cloexec =>
    obtain ⟨_, hcall, rfl⟩ := of_map hs
    exact M.sysOpen h (hT rfl) ⟨rfl, M.leaves _ (by simp)⟩ hcall
  | close pid fd =>
    obtain ⟨_, hcall, rfl⟩ := of_map hs
    exact M.sysClose h hT hcall
  | dup2 pid oldfd newfd =>
    obtain ⟨_, hcall, rfl⟩ := of_map hs
    exact M.sysDup2 h hT hcall
  | setFdFlags pid fd cloexec =>
    obtain ⟨_, hcall, rfl⟩ := of_map hs
    exact M.setFdFlags h hT hcall
  | pipe2 pid pipe fdsPtr cloexec =>
    obtain ⟨_, hcall, rfl⟩ := of_map hs
    exact M.sysPipe2 h (hT rfl) hcall
  | ipcCreate pid chan fdsPtr capacity flags =>
    obtain ⟨_, hcall, rfl⟩ := of_map hs
    exact M.sysIpcCreate h (hT rfl) hcall
  | ipcSend pid fd msgPtr msg nonblock =>
    obtain ⟨_, hcall, rfl⟩ := of_map hs
    exact M.sysIpcSend h hg ha hcall
  | ipcRecv pid fd msgPtr nonblock =>
    obtain ⟨_, hcall, rfl⟩ := of_map hs
    exact M.sysIpcRecv h (hT rfl) hg hcall
  | resume pid =>
    obtain ⟨_, hcall, rfl⟩ := of_map hs
    exact M.resume h (hT rfl) hg hcall
  | ioSetupRings pid portFd cqEntries sq cq =>
    obtain ⟨_, hcall, rfl⟩ := of_map hs
    exact M.sysIoSetupRings h (hT rfl) hcall
  | ioWait pid portFd max =>
    obtain ⟨_, hcall, rfl⟩ := of_map hs
    exact M.sysIoWait h (hT rfl) hg hcall
  | svcRegister pid name fd =>
    obtain ⟨_, hcall, rfl⟩ := of_map hs
    exact M.sysSvcRegister h hg ha hcall
  | svcLookup pid name =>
    obtain ⟨_, hcall, rfl⟩ := of_map hs
    exact M.sysSvcLookup h (hT rfl) hg hcall

theorem Runs.step (M : Runs w e.process I) (h : I cl k []) (hg : w.tight → Tight k e) (ha : e.Allowed w k)
    (hT : e.Changes w k) (hs : Fd.step k e = some k') : I (closing k e ++ cl) k' [] := by
  cases hown : e.own with
  | true => exact M.toMoves.step h hg ha hT hown hs
  | false =>
    cases e with
    | spawn pid =>
      simp only [Fd.step, spawn] at hs
      split at hs
      · cases hs
      rename_i hp
      cases hs
      have hdefault : ∀ o ∈ defaultFdTable.objects, o.counted = false ∧ w.leaves o := by
        simp [defaultFdTable, FdObject.counted, M.leaves]
      have hfresh : I cl k defaultFdTable.objects := by simpa using M.fresh h hdefault
      exact M.insertProc hfresh hp fun o ho => (hdefault o ho).2
    | clone pid child =>
      obtain ⟨p, hc, hs⟩ := of_bind hs
      obtain ⟨_, hd, hs⟩ := of_bind hs
      have hleaves := ha p (caller_spec hc).1
      split at hs
      · cases hs
      · rename_i hchild
        cases hs
        exact M.insertProc (M.notifyDups h (fun o ho => .inl (hleaves o ho)) hd) hchild hleaves
    | reap pid =>
      obtain ⟨_, hp, hs⟩ := of_bind hs
      obtain ⟨hz, ⟨⟩⟩ := of_guard hs
      exact M.removeZombie h hp hz
    | dropNext => exact M.dropNext h hs
    | destroyChannel chan => exact M.destroyChannel h hs
    | destroyPort port => exact M.destroyPort h hg hs
    | _ => cases hown

end Step

end Ostoo.Fd
