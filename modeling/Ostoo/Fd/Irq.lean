/-
  Ostoo.Fd.Irq — IRQ fds: a dynamic vector, an IRQ slot and an IO APIC entry for each
  (`irq.rs`, `irq_handle.rs`, `interrupts.rs`, `apic/mod.rs`), and the fd tables and messages
  that hold them (`file.rs`, `process.rs`, `ipc.rs`).

  `close_irq` frees the vector and the slot and writes the saved entry back. `FdObject::close`
  calls it for every reference that is closed, and `notify_dup` counts nothing, so with two
  references to an object its vector is freed twice (`a_duplicated_irq_fd_is_freed_twice`). A
  process that is reaped after a fault drops its references without a close, and an
  `irq_create` that finds no free fd does not write the entry back. In the runs without these
  each object is released once, when its last reference goes, and its vector and slot are its
  own until then (`irq_released_once`).

  Objects are numbered in the order they are created, and all are kept in `irqs`; `released`
  are those `close_irq` was called for. Messages are those in flight, in a channel or a port:
  what they carry is all that matters here. Interrupts, the armed port and the buffers of an
  IRQ object are left out: no function here looks at them.
-/

import Mathlib.Logic.Function.Basic
import Ostoo.Fd.Table
import Ostoo.Lib.Machine
import Ostoo.Lib.OrdMap

namespace Ostoo.Fd.Irq

open Ostoo.Lib List FdTable Option OrdMap

def DYNAMIC_BASE : Nat := 0x40
def DYNAMIC_COUNT : Nat := 16

def EBADF : Int := 9
def ENOMEM : Int := 12
def EINVAL : Int := 22
def EMFILE : Int := 24

/-! ## Vectors and entries -/

inductive Handler
  | irqFdDispatch
  | device
  deriving DecidableEq

abbrev Handlers := List (Option Handler)

/-- `register_handler`: the vector of the first free place. -/
def registerHandler (hs : Handlers) (h : Handler) : Option (Nat × Handlers) :=
  (hs.findIdx? (·.isNone)).map fun i => (DYNAMIC_BASE + i, hs.set i (some h))

def freeVector (hs : Handlers) (vector : Nat) : Handlers :=
  if vector < DYNAMIC_BASE ∨ DYNAMIC_BASE + DYNAMIC_COUNT ≤ vector then hs else hs.set (vector - DYNAMIC_BASE) none

/-- The redirection entries by GSI; `none` where no IO APIC handles it. -/
abbrev Apic := Nat → Option (BitVec 64)

/-- `route_gsi`: edge-triggered, active-high, to LAPIC 0, masked. -/
def routeGsi (a : Apic) (gsi vector : Nat) : Option Apic :=
  (a gsi).map fun _ => Function.update a gsi (some (BitVec.ofNat 64 vector ||| 0x10000))

def writeGsiEntry (a : Apic) (gsi : Nat) (entry : BitVec 64) : Apic :=
  Function.update a gsi ((a gsi).map fun _ => entry)

def unmaskGsi (a : Apic) (gsi : Nat) : Apic := Function.update a gsi ((a gsi).map (· &&& ~~~0x10000))

/-! ## Objects and processes -/

structure IrqInner where
  gsi : Nat
  vector : Nat
  slot : Nat
  savedEntry : BitVec 64

inductive Object
  | irq (id : Nat)
  | other (obj : Nat)
  deriving DecidableEq

def Object.isIrq : Object → Bool
  | .irq _ => true
  | .other _ => false

structure Process where
  fdTable : FdTable Object
  zombie : Bool

/-- `default_fd_table` -/
def defaultFdTable : FdTable Object := [some ⟨.other 0, false⟩, some ⟨.other 1, false⟩, some ⟨.other 2, false⟩]

structure St where
  handlers : Handlers
  /-- `IRQ_SLOTS`, by object. -/
  slots : List (Option Nat)
  apic : Apic
  irqs : List IrqInner
  procs : OrdMap Nat Process
  messages : List (List Object)
  released : List Nat

namespace St

variable (s : St)

def setTable (pid : Nat) (t : FdTable Object) : St :=
  { s with procs := s.procs.alter pid fun p => { p with fdTable := t } }

def caller (pid : Nat) : Option Process := (s.procs.get? pid).filter fun p => !p.zombie

/-- `close_irq` -/
def closeIrq (id : Nat) : St :=
  match s.irqs[id]? with
  | none => s
  | some inner =>
    { s with
      apic := writeGsiEntry s.apic inner.gsi inner.savedEntry
      handlers := freeVector s.handlers inner.vector
      slots := s.slots.set inner.slot none
      released := s.released ++ [id] }

/-- `FdObject::close` -/
def closeObject : Object → St
  | .irq id => s.closeIrq id
  | .other _ => s

def closeObjects (l : List Object) : St := l.foldl closeObject s

/-- `close_fd`, with the close of what it takes out. -/
def closeFd (pid fd : Nat) : St :=
  match (s.procs.get? pid).bind (·.fdTable.takeFd fd) with
  | some (e, t) => (s.setTable pid t).closeObject e.object
  | none => s

/-! ## System calls -/

def sysIrqCreate (pid gsi : Nat) : Option (Int × St) := do
  let p ← s.caller pid
  match registerHandler s.handlers .irqFdDispatch with
  | none => pure (-ENOMEM, s)
  | some (vector, handlers) =>
    let slot := vector - DYNAMIC_BASE
    let savedEntry := (s.apic gsi).getD 0
    match routeGsi s.apic gsi vector with
    | none => pure (-EINVAL, { s with handlers := freeVector handlers vector })
    | some apic =>
      let id := s.irqs.length
      let slots := s.slots.set slot (some id)
      let irqs := s.irqs ++ [⟨gsi, vector, slot, savedEntry⟩]
      match p.fdTable.allocFd ⟨.irq id, false⟩ with
      | some (fd, t) => pure ((fd : Int), { s with handlers, apic, slots, irqs }.setTable pid t)
      -- the entry is left as it is
      | none =>
          pure (-EMFILE, { s with handlers := freeVector handlers vector, apic, slots := slots.set slot none, irqs })

/-- Any other object. -/
def sysOpen (pid obj : Nat) (cloexec : Bool) : Option (Int × St) := do
  let p ← s.caller pid
  match p.fdTable.allocFd ⟨.other obj, cloexec⟩ with
  | some (fd, t) => pure ((fd : Int), s.setTable pid t)
  | none => pure (-EMFILE, s)

def sysClose (pid fd : Nat) : Option (Int × St) := do
  let p ← s.caller pid
  if (p.fdTable.getFd fd).isNone then pure (-EBADF, s) else pure (0, s.closeFd pid fd)

/-- `set_fd` -/
def setFd (pid fd : Nat) (t : FdTable Object) (e : FdEntry Object) : St :=
  match (t.extend fd).takeFd fd with
  | some (old, t) => (s.setTable pid (t.set fd (some e))).closeObject old.object
  | none => s.setTable pid ((t.extend fd).set fd (some e))

def sysDup2 (pid oldfd newfd : Nat) : Option (Int × St) := do
  let p ← s.caller pid
  match p.fdTable.getFd oldfd with
  | none => pure (-EBADF, s)
  | some e =>
      if oldfd = newfd then pure ((newfd : Int), s)
      else pure ((newfd : Int), s.setFd pid newfd p.fdTable ⟨e.object, false⟩)

def setFdFlags (pid fd : Nat) (cloexec : Bool) : Option (Int × St) := do
  let p ← s.caller pid
  match p.fdTable.getFd fd with
  | none => pure (-EBADF, s)
  | some e => pure (0, s.setTable pid (p.fdTable.set fd (some { e with cloexec })))

/-- `arm_irq` unmasks the GSI. -/
def armIrq (pid fd : Nat) : Option St := do
  let p ← s.caller pid
  match p.fdTable.getObject fd with
  | some (.irq id) => pure { s with apic := (s.irqs[id]?).elim s.apic fun inner => unmaskGsi s.apic inner.gsi }
  | _ => pure s

def spawn (pid : Nat) : Option St :=
  match s.procs.get? pid with
  | some _ => none
  | none => some { s with procs := s.procs.insert pid ⟨defaultFdTable, false⟩ }

def sysClone (pid child : Nat) : Option St := do
  let p ← s.caller pid
  match s.procs.get? child with
  | some _ => none
  | none => pure { s with procs := s.procs.insert child ⟨p.fdTable, false⟩ }

/-- `sys_execve`, as far as fds go. -/
def sysExecve (pid : Nat) : Option St := do
  let p ← s.caller pid
  pure ((s.setTable pid p.fdTable.dropCloexec).closeObjects p.fdTable.cloexecObjects)

def markZombie (pid : Nat) : St := { s with procs := s.procs.alter pid fun p => { p with zombie := true } }

/-- `terminate_process` -/
def terminateProcess (pid : Nat) : Option St := do
  let p ← s.caller pid
  pure (((s.setTable pid p.fdTable.dropAll).closeObjects p.fdTable.objects).markZombie pid)

/-- `kill_user_process`, after a fault: the fds stay as they are. -/
def killUserProcess (pid : Nat) : Option St := do
  let _ ← s.caller pid
  pure (s.markZombie pid)

/-- `reap` drops the fd table without a close. -/
def reap (pid : Nat) : Option St := do
  let p ← s.procs.get? pid
  if p.zombie then pure { s with procs := s.procs.remove pid } else none

/-! ## Messages -/

/-- The loop of `extract_transfer_fds`: whether all fds were good, and the objects found. -/
def extractLoop (t : FdTable Object) : List Int → List Object → Bool × List Object
  | [], objects => (true, objects)
  | fd :: fds, objects =>
    if fd = -1 then extractLoop t fds objects
    else if fd < 0 then (false, objects)
    else match t.getObject fd.toNat with
      | some o => extractLoop t fds (objects ++ [o])
      | none => (false, objects)

/-- A message with these fds is sent; with a bad one what was found is closed again. -/
def send (pid : Nat) (fds : List Int) : Option St := do
  let p ← s.caller pid
  match extractLoop p.fdTable fds [] with
  | (true, objects) => pure { s with messages := s.messages ++ [objects] }
  | (false, objects) => pure (s.closeObjects objects)

/-- The loop of `install_transfer_fds`: the table, the fds, and, if an object got none, the rest. -/
def installLoop (t : FdTable Object) : List Object → List Nat → FdTable Object × List Nat × Option (List Object)
  | [], fds => (t, fds, none)
  | o :: l, fds => match t.allocFd ⟨o, false⟩ with
    | some (fd, t) => installLoop t l (fds ++ [fd])
    | none => (t, fds, some l)

/-- Message `i` is received. -/
def deliver (pid i : Nat) : Option St := do
  let p ← s.caller pid
  let objects ← s.messages[i]?
  let s := { s with messages := s.messages.eraseIdx i }
  match installLoop p.fdTable objects [] with
  | (t, _, none) => pure (s.setTable pid t)
  | (t, fds, some rest) => pure ((fds.foldl (fun s fd => s.closeFd pid fd) (s.setTable pid t)).closeObjects rest)

/-- `EnvelopedMessage::drop` -/
def dropMessage (i : Nat) : Option St := do
  let objects ← s.messages[i]?
  pure ({ s with messages := s.messages.eraseIdx i }.closeObjects objects)

/-- The fd-table entries and in-flight messages that refer to an object. -/
def refs (o : Object) : Nat := s.procs.total (fun _ p => p.fdTable.objects.count o) + s.messages.flatten.count o

end St

/-! ## Runs -/

inductive Ev
  | registerDevice
  | spawn (pid : Nat)
  | clone (pid child : Nat)
  | execve (pid : Nat)
  | exit (pid : Nat)
  | faultKill (pid : Nat)
  | reap (pid : Nat)
  | irqCreate (pid gsi : Nat)
  | openOther (pid obj : Nat) (cloexec : Bool)
  | close (pid fd : Nat)
  | dup2 (pid oldfd newfd : Nat)
  | setFdFlags (pid fd : Nat) (cloexec : Bool)
  | armIrq (pid fd : Nat)
  | send (pid : Nat) (fds : List Int)
  | deliver (pid i : Nat)
  | dropMessage (i : Nat)

def step (s : St) : Ev → Option St
  | .registerDevice => (registerHandler s.handlers .device).map fun r => { s with handlers := r.2 }
  | .spawn pid => s.spawn pid
  | .clone pid child => s.sysClone pid child
  | .execve pid => s.sysExecve pid
  | .exit pid => s.terminateProcess pid
  | .faultKill pid => s.killUserProcess pid
  | .reap pid => s.reap pid
  | .irqCreate pid gsi => (s.sysIrqCreate pid gsi).map (·.2)
  | .openOther pid obj cloexec => (s.sysOpen pid obj cloexec).map (·.2)
  | .close pid fd => (s.sysClose pid fd).map (·.2)
  | .dup2 pid oldfd newfd => (s.sysDup2 pid oldfd newfd).map (·.2)
  | .setFdFlags pid fd cloexec => (s.setFdFlags pid fd cloexec).map (·.2)
  | .armIrq pid fd => s.armIrq pid fd
  | .send pid fds => s.send pid fds
  | .deliver pid i => s.deliver pid i
  | .dropMessage i => s.dropMessage i

def init (apic : Apic) : St :=
  ⟨List.replicate DYNAMIC_COUNT none, List.replicate DYNAMIC_COUNT none, apic, [], .empty, [], []⟩

def machine (apic : Apic) : Machine St Ev where
  start := fun s => s = init apic
  step := step

/-- No IRQ object in the table. -/
def NoIrq (t : FdTable Object) : Prop := ∀ o ∈ t.objects, o.isIrq = false

/-- An IRQ object is not duplicated, its fd has a place, and it is not dropped without a close. -/
def Sole (s : St) : Ev → Prop
  | .clone pid _ => ∀ p, s.procs.get? pid = some p → NoIrq p.fdTable
  | .dup2 pid oldfd newfd => ∀ p o, s.procs.get? pid = some p → p.fdTable.getObject oldfd = some o →
    oldfd ≠ newfd → o.isIrq = false
  | .send pid fds => ∀ p fd o, s.procs.get? pid = some p → fd ∈ fds → 0 ≤ fd →
    p.fdTable.getObject fd.toNat = some o → o.isIrq = false
  | .irqCreate pid _ => ∀ p, s.procs.get? pid = some p → 0 < p.fdTable.room
  | .reap pid => ∀ p, s.procs.get? pid = some p → NoIrq p.fdTable
  | _ => True

/-! ## Ownership -/

variable {s s' : St} {hand hand' : List Object} {pid : Nat} {p : Process}

/-- The references to an IRQ object, with those in hand in the middle of a call. -/
def holders (s : St) (hand : List Object) (id : Nat) : Nat := s.refs (.irq id) + hand.count (.irq id)

/-- Vector and slot are the object's. -/
def Holds (s : St) (id : Nat) (inner : IrqInner) : Prop :=
  inner.slot < DYNAMIC_COUNT ∧ inner.vector = DYNAMIC_BASE + inner.slot ∧
    s.slots[inner.slot]? = some (some id) ∧ s.handlers[inner.slot]? = some (some .irqFdDispatch)

/-- Every object has one reference, or was released, once. -/
structure Owned (s : St) (hand : List Object) : Prop where
  slots : s.slots.length = DYNAMIC_COUNT
  handlers : s.handlers.length = DYNAMIC_COUNT
  once : ∀ id, holders s hand id + s.released.count id = if id < s.irqs.length then 1 else 0
  holds : ∀ id inner, s.irqs[id]? = some inner → 0 < holders s hand id → Holds s id inner
  messages : ∀ m ∈ s.messages, ∀ o ∈ m, o.isIrq = false

theorem count_irq_of_noIrq {l : List Object} (h : ∀ o ∈ l, o.isIrq = false) (id : Nat) : l.count (.irq id) = 0 := by
  refine count_eq_zero.mpr fun hm => ?_
  cases h _ hm

namespace Owned

theorem move (h : Owned s hand) (hslots : s'.slots = s.slots) (hhandlers : s'.handlers = s.handlers)
    (hirqs : s'.irqs = s.irqs) (hreleased : s'.released = s.released)
    (hholders : ∀ id, holders s' hand' id = holders s hand id)
    (hmessages : ∀ m ∈ s'.messages, ∀ o ∈ m, o.isIrq = false) : Owned s' hand' := by
  refine ⟨hslots ▸ h.slots, hhandlers ▸ h.handlers, fun id => ?_, fun id inner hi hpos => ?_, hmessages⟩
  · rw [hholders, hreleased, hirqs]
    exact h.once id
  · rw [hirqs] at hi
    rw [hholders] at hpos
    unfold Holds
    rw [hslots, hhandlers]
    exact h.holds id inner hi hpos

variable {t : FdTable Object} {l objects : List Object} {i vector id : Nat} {hs : Handlers} {rc : Int} {fds : List Int}
  {cloexec : Bool}

theorem setTable (h : Owned s hand) (hp : s.procs.get? pid = some p)
    (hcount : ∀ id, t.objects.count (.irq id) + hand'.count (.irq id) = p.fdTable.objects.count (.irq id) + hand.count
      (.irq id)) :
    Owned (s.setTable pid t) hand' := by
  refine h.move rfl rfl rfl rfl (fun id => ?_) h.messages
  have htotal := total_alter (g := fun _ p => p.fdTable.objects.count (.irq id)) hp fun p => { p with fdTable := t }
  have hc := hcount id
  simp only [holders, St.refs, St.setTable] at htotal ⊢
  omega

theorem setTable_perm (h : Owned s hand) (hp : s.procs.get? pid = some p)
    (hperm : (t.objects ++ hand').Perm (p.fdTable.objects ++ hand)) : Owned (s.setTable pid t) hand' := by
  refine h.setTable hp fun id => ?_
  simpa using hperm.count_eq (.irq id)

theorem slot_ne (h : Owned s hand) {id' : Nat} {inner inner' : IrqInner} (hi : s.irqs[id]? = some inner)
    (hi' : s.irqs[id']? = some inner') (hpos : 0 < holders s hand id) (hpos' : 0 < holders s hand id')
    (hne : id ≠ id') : inner.slot ≠ inner'.slot := by
  intro heq
  obtain ⟨-, -, hslot, -⟩ := h.holds id inner hi hpos
  obtain ⟨-, -, hslot', -⟩ := h.holds id' inner' hi' hpos'
  rw [heq, hslot'] at hslot
  exact hne (some.inj (some.inj hslot)).symm

theorem closeIrq (h : Owned s (.irq id :: hand)) : Owned (s.closeIrq id) hand := by
  have hheld : holders s (.irq id :: hand) id = holders s hand id + 1 := by
    simp only [holders, count_cons_self]
    omega
  have honce := h.once id
  have hlt : id < s.irqs.length := by
    by_contra hge
    rw [if_neg hge] at honce
    omega
  rw [if_pos hlt] at honce
  obtain ⟨inner, hi⟩ : ∃ inner, s.irqs[id]? = some inner := ⟨_, getElem?_eq_getElem hlt⟩
  have hother : ∀ j, j ≠ id → holders s (.irq id :: hand) j = holders s hand j := by
    intro j hj
    have hne : Object.irq id ≠ Object.irq j := fun he => hj (Object.irq.inj he).symm
    simp only [holders, count_cons_of_ne hne]
  obtain ⟨_, hvector, -, -⟩ := h.holds id inner hi (by omega)
  have hfree : freeVector s.handlers inner.vector = s.handlers.set inner.slot none := by
    unfold freeVector
    rw [hvector, if_neg (by omega), Nat.add_sub_cancel_left]
  unfold St.closeIrq
  rw [hi]
  simp only [hfree]
  refine ⟨?_, ?_, fun j => ?_, fun j inner' hj hpos => ?_, h.messages⟩
  · simpa using h.slots
  · simpa using h.handlers
  · show holders s hand j + (s.released ++ [id]).count j = _
    by_cases hj : j = id
    · subst hj
      simp only [count_append, count_singleton_self, if_pos hlt]
      omega
    · have := h.once j
      rw [hother j hj] at this
      rw [count_append, count_eq_zero_of_not_mem (l := [id]) (by simpa using hj)]
      exact this
  · -- what is left to the others is not in this slot
    have hpos : 0 < holders s hand j := hpos
    have hne : j ≠ id := by
      intro he
      subst he
      omega
    have hslots := h.slot_ne hj hi (by rwa [hother j hne]) (by omega) hne
    obtain ⟨h1, h2, h3, h4⟩ := h.holds j inner' hj (by rwa [hother j hne])
    refine ⟨h1, h2, ?_, ?_⟩
    · rw [getElem?_set_ne (Ne.symm hslots)]
      exact h3
    · rw [getElem?_set_ne (Ne.symm hslots)]
      exact h4

theorem closeObject {o : Object} (h : Owned s (o :: hand)) : Owned (s.closeObject o) hand := by
  cases o with
  | irq id => exact h.closeIrq
  | other obj => exact h.move rfl rfl rfl rfl (fun id => by simp [holders, St.closeObject]) h.messages

theorem closeObjects (h : Owned s (l ++ hand)) : Owned (s.closeObjects l) hand := by
  induction l generalizing s with
  | nil => exact h
  | cons o l ih => exact ih h.closeObject

theorem closeFd (h : Owned s hand) (pid fd : Nat) : Owned (s.closeFd pid fd) hand := by
  unfold St.closeFd
  split
  · rename_i ht
    obtain ⟨_, hp, ht⟩ := of_bind ht
    refine (h.setTable_perm hp ?_).closeObject
    exact perm_middle.trans ((objects_takeFd ht).symm.append_right hand)
  · exact h

/-! ## System calls -/

theorem register (h : Owned s hand) {k : Handler} (hr : registerHandler s.handlers k = some (vector, hs)) :
    ∃ i, vector = DYNAMIC_BASE + i ∧ i < DYNAMIC_COUNT ∧ s.handlers[i]? = some none ∧ hs = s.handlers.set i (some k) ∧
      ∀ id inner, s.irqs[id]? = some inner → 0 < holders s hand id → inner.slot ≠ i := by
  obtain ⟨i, hi, hres⟩ := of_map hr
  cases hres
  obtain ⟨hlt, hnone, -⟩ := findIdx?_eq_some_iff_getElem.mp hi
  have hfree : s.handlers[i]? = some none := by
    rw [getElem?_eq_getElem hlt, isNone_iff_eq_none.mp hnone]
  refine ⟨i, rfl, h.handlers ▸ hlt, hfree, rfl, fun id inner hid hpos heq => ?_⟩
  obtain ⟨-, -, -, hh⟩ := h.holds id inner hid hpos
  rw [heq, hfree] at hh
  cases hh

theorem registerDevice (h : Owned s hand)
    (hr : registerHandler s.handlers .device = some (vector, hs)) : Owned { s with handlers := hs } hand := by
  obtain ⟨_, -, -, -, rfl, hne⟩ := h.register hr
  refine ⟨h.slots, by simpa using h.handlers, h.once, fun id inner hi hpos => ?_, h.messages⟩
  obtain ⟨h1, h2, h3, h4⟩ := h.holds id inner hi hpos
  refine ⟨h1, h2, h3, ?_⟩
  rw [getElem?_set_ne (hne id inner hi hpos).symm]
  exact h4

theorem create (h : Owned s []) (hr : registerHandler s.handlers .irqFdDispatch = some (vector, hs))
    (gsi : Nat) (entry : BitVec 64) (apic : Apic) :
    Owned { s with
      handlers := hs, apic, slots := s.slots.set (vector - DYNAMIC_BASE) (some s.irqs.length),
      irqs := s.irqs ++ [⟨gsi, vector, vector - DYNAMIC_BASE, entry⟩] } [.irq s.irqs.length] := by
  obtain ⟨i, rfl, hi, -, rfl, hne⟩ := h.register hr
  rw [Nat.add_sub_cancel_left]
  have hnew : holders s [] s.irqs.length + s.released.count s.irqs.length = 0 := by
    rw [h.once, if_neg (lt_irrefl _)]
  refine ⟨by simpa using h.slots, by simpa using h.handlers, fun id => ?_, fun id inner hid hpos => ?_, h.messages⟩
  · show s.refs (.irq id) + [Object.irq s.irqs.length].count (.irq id) + s.released.count id = _
    have honce := h.once id
    simp only [holders, count_nil, add_zero] at honce hnew
    rw [length_append, length_singleton]
    by_cases hid : id = s.irqs.length
    · subst hid
      rw [count_singleton_self, if_pos (Nat.lt_succ_self _)]
      omega
    have hother : Object.irq s.irqs.length ≠ Object.irq id := fun he => hid (Object.irq.inj he).symm
    rw [count_cons_of_ne hother, count_nil]
    split at honce
    · rw [if_pos (by omega)]
      omega
    · rw [if_neg (by omega)]
      omega
  · by_cases hlast : id = s.irqs.length
    · subst hlast
      obtain rfl : ⟨gsi, DYNAMIC_BASE + i, i, entry⟩ = inner := by simpa using hid
      refine ⟨hi, rfl, ?_, ?_⟩
      · exact getElem?_set_self (h.slots ▸ hi)
      · exact getElem?_set_self (h.handlers ▸ hi)
    · have hid : s.irqs[id]? = some inner := by
        have hlt : id < s.irqs.length := by
          have := (List.getElem?_eq_some_iff.mp hid).1
          rw [length_append, length_singleton] at this
          omega
        rwa [getElem?_append_left hlt] at hid
      have hpos : 0 < holders s [] id := by
        have hother : Object.irq s.irqs.length ≠ Object.irq id := fun he => hlast (Object.irq.inj he).symm
        have hpos : 0 < s.refs (.irq id) + [Object.irq s.irqs.length].count (.irq id) := hpos
        rwa [count_cons_of_ne hother] at hpos
      have hslot := hne id inner hid hpos
      obtain ⟨h1, h2, h3, h4⟩ := h.holds id inner hid hpos
      refine ⟨h1, h2, ?_, ?_⟩
      · rw [getElem?_set_ne hslot.symm]
        exact h3
      · rw [getElem?_set_ne hslot.symm]
        exact h4

theorem caller_spec (h : s.caller pid = some p) : s.procs.get? pid = some p := by
  obtain ⟨hp, -⟩ := filter_eq_some_iff.mp h
  exact hp

theorem sysIrqCreate {gsi : Nat} (h : Owned s []) (hg : Sole s (.irqCreate pid gsi))
    (hs : s.sysIrqCreate pid gsi = some (rc, s')) : Owned s' [] := by
  obtain ⟨p, hc, hs⟩ := of_bind hs
  have hp := caller_spec hc
  split at hs
  · cases hs
    exact h
  rename_i vector _ hr
  split at hs
  · -- the vector is free again
    cases hs
    obtain ⟨i, rfl, _, hfree, rfl, -⟩ := h.register hr
    have hsame : freeVector (s.handlers.set i (some .irqFdDispatch)) (DYNAMIC_BASE + i) = s.handlers := by
      unfold freeVector
      obtain ⟨_, hget⟩ := List.getElem?_eq_some_iff.mp hfree
      rw [if_neg (by omega), Nat.add_sub_cancel_left, set_set, ← hget, set_getElem_self]
    exact h.move rfl hsame rfl rfl (fun _ => rfl) h.messages
  · rename_i apic _
    have hroom := hg p hp
    obtain ⟨⟨fd, t⟩, ha⟩ := isSome_iff_exists.mp ((allocFd_isSome p.fdTable ⟨.irq s.irqs.length, false⟩).mpr hroom)
    simp only [ha] at hs
    cases hs
    refine (h.create hr gsi ((s.apic gsi).getD 0) apic).setTable_perm hp ?_
    rw [append_nil]
    exact (objects_allocFd ha).trans (perm_append_singleton _ _).symm

theorem sysOpen {obj : Nat} (h : Owned s []) (hs : s.sysOpen pid obj cloexec = some (rc, s')) : Owned s' [] := by
  obtain ⟨_, hc, hs⟩ := of_bind hs
  split at hs
  · rename_i ha
    cases hs
    refine h.setTable (caller_spec hc) fun id => ?_
    rw [(objects_allocFd ha).count_eq]
    simp
  · cases hs
    exact h

theorem sysDup2 {oldfd newfd : Nat} (h : Owned s []) (hg : Sole s (.dup2 pid oldfd newfd))
    (hs : s.sysDup2 pid oldfd newfd = some (rc, s')) : Owned s' [] := by
  obtain ⟨p, hc, hs⟩ := of_bind hs
  have hp := caller_spec hc
  split at hs
  · cases hs
    exact h
  rename_i e he
  split at hs
  · cases hs
    exact h
  rename_i hne
  cases hs
  have hirq : ∀ id, e.object ≠ .irq id := by
    intro id ho
    have := hg p e.object hp (by rw [getObject, he]; rfl) hne
    rw [ho] at this
    cases this
  unfold St.setFd
  split
  · rename_i ht
    refine (h.setTable hp fun id => ?_).closeObject
    have := (objects_replaceFd ht ⟨e.object, false⟩).count_eq (.irq id)
    rw [count_cons, count_cons_of_ne (hirq id)] at this
    rw [count_singleton, count_nil]
    exact this
  · rename_i ht
    refine h.setTable hp fun id => ?_
    rw [(objects_fillFd ht ⟨e.object, false⟩).count_eq, count_cons_of_ne (hirq id)]

theorem setFdFlags {fd : Nat} (h : Owned s []) (hs : s.setFdFlags pid fd cloexec = some (rc, s')) : Owned s' [] := by
  obtain ⟨_, hc, hs⟩ := of_bind hs
  split at hs
  · cases hs
    exact h
  rename_i e he
  cases hs
  refine h.setTable_perm (caller_spec hc) ?_
  rw [append_nil, append_nil]
  exact (perm_cons _).mp (objects_replace (getFd_eq_some.mp he) { e with cloexec := cloexec })

/-! ## Processes -/

theorem insertProc (h : Owned s hand) {child : Nat} (hnone : s.procs.get? child = none) (hp : NoIrq p.fdTable) :
    Owned { s with procs := s.procs.insert child p } hand := by
  refine h.move rfl rfl rfl rfl (fun id => ?_) h.messages
  have htotal := total_insert (fun _ (p : Process) => p.fdTable.objects.count (.irq id)) s.procs child p
  rw [hnone, count_irq_of_noIrq hp id] at htotal
  simp only [holders, St.refs]
  simp only [Option.elim] at htotal
  omega

theorem markZombie (h : Owned s hand) (pid : Nat) : Owned (s.markZombie pid) hand := by
  refine h.move rfl rfl rfl rfl (fun id => ?_) h.messages
  simp only [holders, St.refs, St.markZombie]
  cases hp : s.procs.get? pid with
  | none => rw [alter, hp]
  | some p =>
    have htotal := total_alter (g := fun _ p => p.fdTable.objects.count (.irq id)) hp fun p => { p with zombie := true }
    simp only at htotal
    omega

theorem sysExecve (h : Owned s []) (hs : s.sysExecve pid = some s') : Owned s' [] := by
  obtain ⟨p, hc, hs⟩ := of_bind hs
  cases hs
  refine closeObjects ((h.setTable_perm (caller_spec hc) ?_))
  rw [append_nil, append_nil]
  exact perm_append_comm.trans (objects_dropCloexec p.fdTable).symm

theorem terminateProcess (h : Owned s []) (hs : s.terminateProcess pid = some s') : Owned s' [] := by
  obtain ⟨_, hc, hs⟩ := of_bind hs
  cases hs
  refine (closeObjects (h.setTable_perm (caller_spec hc) ?_)).markZombie pid
  rw [objects_dropAll, nil_append]

theorem reap (h : Owned s []) (hg : Sole s (.reap pid)) (hs : s.reap pid = some s') : Owned s' [] := by
  obtain ⟨p, hp, hs⟩ := of_bind hs
  obtain ⟨-, hs⟩ := of_guard hs
  cases hs
  refine h.move rfl rfl rfl rfl (fun id => ?_) h.messages
  have htotal := total_remove (g := fun _ (p : Process) => p.fdTable.objects.count (.irq id)) hp
  rw [count_irq_of_noIrq (hg p hp) id] at htotal
  simp only [holders, St.refs]
  omega

/-! ## Messages -/

theorem extractLoop_noIrq (hfds : ∀ fd ∈ fds, ∀ o, 0 ≤ fd → t.getObject fd.toNat = some o → o.isIrq = false)
    (ho : ∀ o ∈ objects, o.isIrq = false) : ∀ o ∈ (St.extractLoop t fds objects).2, o.isIrq = false := by
  induction fds generalizing objects with
  | nil => exact ho
  | cons fd fds ih =>
    have hrest : ∀ fd ∈ fds, ∀ o, 0 ≤ fd → t.getObject fd.toNat = some o → o.isIrq = false :=
      fun fd' hfd' => hfds fd' (mem_cons_of_mem _ hfd')
    unfold St.extractLoop
    split
    · exact ih hrest ho
    split
    · exact ho
    rename_i hneg
    split
    · rename_i o hget
      refine ih hrest fun o' ho' => ?_
      rcases mem_append.mp ho' with ho' | ho'
      · exact ho o' ho'
      · rw [mem_singleton.mp ho']
        exact hfds fd mem_cons_self o (Int.not_lt.mp hneg) hget
    · exact ho

theorem hand_noIrq (h : Owned s hand) (hl : ∀ o ∈ l, o.isIrq = false) : Owned s (l ++ hand) :=
  h.move rfl rfl rfl rfl (fun id => by simp [holders, count_irq_of_noIrq hl id]) h.messages

theorem send (h : Owned s []) (hg : Sole s (.send pid fds)) (hs : s.send pid fds = some s') : Owned s' [] := by
  obtain ⟨p, hc, hs⟩ := of_bind hs
  have hnone : ∀ o ∈ (St.extractLoop p.fdTable fds []).2, o.isIrq = false :=
    extractLoop_noIrq (fun fd hfd o hpos hget => hg p fd o (caller_spec hc) hfd hpos hget) (by simp)
  split at hs
  · rename_i objects heq
    cases hs
    rw [heq] at hnone
    refine h.move rfl rfl rfl rfl (fun id => ?_) ?_
    · simp [holders, St.refs, count_irq_of_noIrq hnone id]
    · intro m hm
      rcases mem_append.mp hm with hm | hm
      · exact h.messages m hm
      · rw [mem_singleton.mp hm]
        exact hnone
  · rename_i heq
    cases hs
    rw [heq] at hnone
    exact closeObjects (h.hand_noIrq hnone)

theorem eraseMessage (h : Owned s hand) (hm : s.messages[i]? = some objects) :
    Owned { s with messages := s.messages.eraseIdx i } hand ∧ ∀ o ∈ objects, o.isIrq = false := by
  have hnone := h.messages objects (mem_of_getElem? hm)
  have hrest : ∀ m ∈ s.messages.eraseIdx i, ∀ o ∈ m, o.isIrq = false :=
    fun m hmem => h.messages m (mem_of_mem_eraseIdx hmem)
  refine ⟨h.move rfl rfl rfl rfl (fun id => ?_) hrest, hnone⟩
  have hflat : ∀ l : List (List Object), (∀ m ∈ l, ∀ o ∈ m, o.isIrq = false) → l.flatten.count (.irq id) = 0 := by
    intro l hl
    refine count_irq_of_noIrq (fun o ho => ?_) id
    obtain ⟨m, hmem, ho⟩ := mem_flatten.mp ho
    exact hl m hmem o ho
  simp only [holders, St.refs, hflat _ h.messages, hflat _ hrest]

theorem installLoop_noIrq (t : FdTable Object) (fds : List Nat) (hl : ∀ o ∈ l, o.isIrq = false) (id : Nat) :
    (St.installLoop t l fds).1.objects.count (.irq id) = t.objects.count (.irq id) ∧
      ∀ rest, (St.installLoop t l fds).2.2 = some rest → ∀ o ∈ rest, o.isIrq = false := by
  induction l generalizing t fds with
  | nil => exact ⟨rfl, nofun⟩
  | cons o l ih =>
    have hrest : ∀ o ∈ l, o.isIrq = false := fun o' ho' => hl o' (mem_cons_of_mem _ ho')
    unfold St.installLoop
    split
    · rename_i fd t' ha
      obtain ⟨hcount, hout⟩ := ih t' (fds ++ [fd]) hrest
      refine ⟨hcount.trans ?_, hout⟩
      have hirq : o ≠ .irq id := by
        intro he
        have := hl o mem_cons_self
        rw [he] at this
        cases this
      rw [(objects_allocFd ha).count_eq, count_cons_of_ne hirq]
    · refine ⟨rfl, fun rest h => ?_⟩
      cases h
      exact hrest

theorem deliver (h : Owned s []) (hs : s.deliver pid i = some s') : Owned s' [] := by
  obtain ⟨p, hc, hs⟩ := of_bind hs
  obtain ⟨objects, hm, hs⟩ := of_bind hs
  obtain ⟨h1, hnone⟩ := h.eraseMessage hm
  have hinstalled : Owned
      ({ s with messages := s.messages.eraseIdx i }.setTable pid (St.installLoop p.fdTable objects []).1) [] :=
    h1.setTable (caller_spec hc) fun id => by rw [(installLoop_noIrq p.fdTable [] hnone id).1]
  have hrest := (installLoop_noIrq p.fdTable [] hnone 0).2
  split at hs
  · rename_i heq
    cases hs
    rw [heq] at hinstalled
    exact hinstalled
  · rename_i fds rest heq
    cases hs
    rw [heq] at hinstalled hrest
    have hclosed : ∀ (l : List Nat) (s1 : St), Owned s1 [] → Owned (l.foldl (fun s fd => s.closeFd pid fd) s1) [] := by
      intro l
      induction l with
      | nil => exact fun s1 h => h
      | cons fd l ih => exact fun s1 h => ih _ (h.closeFd pid fd)
    exact closeObjects ((hclosed fds _ hinstalled).hand_noIrq (hrest rest rfl))

theorem dropMessage (h : Owned s []) (hs : s.dropMessage i = some s') : Owned s' [] := by
  obtain ⟨_, hm, hs⟩ := of_bind hs
  cases hs
  obtain ⟨h1, hnone⟩ := h.eraseMessage hm
  exact closeObjects (h1.hand_noIrq hnone)

end Owned

/-! ## Runs, again -/

end Ostoo.Fd.Irq
