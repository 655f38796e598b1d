/-
  Ostoo.Memory.Objects — the kernel objects that hold frames, and who refers to them: ports with
  their rings (`completion_port.rs`), shared memory (`shmem.rs`), the fd tables and address spaces
  of all processes.

  An object lives as long as its `Arc` is referred to: by fd tables, and by what the kernel keeps
  meanwhile (messages under way, armed operations, tasks), here the list `held`. The last reference
  to go runs `Drop`. A `SharedMemInner` made by `new` owns its frames and releases them; one made
  by `from_existing` over the pages of a ring does not, since the `IoRing` does.

  A process that a fault kills keeps its table until it is reaped, and its address space for good.
  The pages of the framebuffer are not the frame allocator's; `framebuffer_open` is left out.
-/

import Ostoo.Fd.Table
import Ostoo.Memory.Holdings

namespace Ostoo.Memory

open Ostoo.Lib Ostoo.Fd Elf

structure SharedMemInner where
  frames : List Nat
  size : Nat
  /-- Whether `Drop` releases the frames. -/
  owned : Bool
  deriving DecidableEq

/-- The pages of an `IoRing`. -/
structure IoRing where
  sqPhys : List Nat
  cqPhys : List Nat
  deriving DecidableEq

def IoRing.frames (ring : IoRing) : List Nat := ring.sqPhys ++ ring.cqPhys

/-- A page each. When there is none for the CQ, the one for the SQ is lost. -/
def IoRing.new {τ : Type} (m : Mem τ) : Option IoRing × Mem τ :=
  match m.frames.allocate with
  | (none, a) => (none, { m with frames := a })
  | (some sq, a) => match a.allocate with
    | (none, a) => (none, { m with frames := a })
    | (some cq, a) => (some ⟨[sq], [cq]⟩, { m with frames := a })

inductive Object
  | shmem (inner : SharedMemInner)
  | port (ring : Option IoRing)
  deriving DecidableEq

namespace Object

/-- The frames that the object's `Drop` releases. -/
def owns : Object → List Nat
  | shmem inner => if inner.owned then inner.frames else []
  | port (some ring) => ring.frames
  | port none => []

/-- The shared-memory object borrows pages of the port's ring. -/
def Borrows : Object → Object → Prop
  | shmem inner, port (some ring) => inner.owned = false ∧ ∃ f ∈ inner.frames, f ∈ ring.frames
  | _, _ => False

instance : DecidableRel Borrows := fun x y => by
  unfold Borrows
  split <;> infer_instance

end Object

/-- What an fd stands for; ports and shared memory by the number of the object. -/
inductive Handle
  | object (i : Nat)
  | file (content : Option Nat)
  | other
  deriving DecidableEq

def Handle.ref : Handle → Option Nat
  | .object i => some i
  | _ => none

/-- The objects that fds refer to. -/
def refsOf (hs : List Handle) : List Nat := hs.filterMap Handle.ref

structure Process where
  proc : Proc
  fds : FdTable Handle
  zombie : Bool
  pml4Shared : Bool

/-- `Process::new`: the console on the first three fds. -/
def Process.new (pml4 brkBase : Nat) : Process :=
  let console : FdEntry Handle := ⟨.file none, false⟩
  ⟨⟨pml4, brkBase, brkBase, .empty⟩, [some console, some console, some console], false, false⟩

def Process.refs (p : Process) : List Nat := refsOf p.fds.objects

structure Sys (τ : Type) where
  mem : Mem τ
  procs : OrdMap Nat Process
  objects : OrdMap Nat Object
  /-- The references that are not in an fd table. -/
  held : List Nat
  nextPid : Nat
  nextObject : Nat

/-- The calls on a process's own memory. -/
inductive MemCall
  | brk (addr : Nat)
  | mmap (addr length prot flags a5 r9 : Nat)
  | munmap (addr length : Nat)
  | mprotect (addr length prot : Nat)

def MemCall.ev (fds : Nat → FdView) : MemCall → Ev
  | brk addr => .brk addr
  | mmap addr length prot flags a5 r9 => .mmap fds addr length prot flags a5 r9
  | munmap addr length => .munmap addr length
  | mprotect addr length prot => .mprotect addr length prot

/-- The address space is left out of the calls: each is of the process `pid`. -/
inductive SysEv
  | spawn (imageLen : Nat) (info : ElfInfo)
  | clone (pid : Nat)
  | execve (pid imageLen : Nat) (info : ElfInfo)
  | exit (pid : Nat)
  /-- A fault kills the process. -/
  | fault (pid : Nat)
  | reap (pid : Nat)
  | openFile (pid : Nat) (content : Option Nat)
  /-- An fd of a kind that holds no frames. -/
  | openOther (pid : Nat) (cloexec : Bool)
  | ioCreate (pid flags : Nat)
  | ioSetupRings (pid portFd : Nat)
  | shmemCreate (pid size : Nat) (flags : BitVec 32)
  | close (pid fd : Nat)
  | dup2 (pid oldfd newfd : Nat)
  | setFdFlags (pid fd : Nat) (cloexec : Bool)
  /-- The kernel takes a reference through an fd: for a message, an armed operation or a task. -/
  | hold (pid fd : Nat)
  /-- A held reference gets an fd, as a message that is received. -/
  | install (pid i : Nat)
  | release (i : Nat)
  | call (pid : Nat) (c : MemCall)

namespace Sys

variable {τ : Type}

/-! ## References -/

def strongCount (s : Sys τ) (i : Nat) : Nat := s.procs.total (fun _ p => p.refs.count i) + s.held.count i

/-- The last reference is gone. -/
def dropObject (s : Sys τ) (i : Nat) : Sys τ :=
  match s.objects.get? i with
  | some o => { s with mem := o.owns.foldl Mem.releaseFrame s.mem, objects := s.objects.remove i }
  | none => s

/-- References are given up one after the other; those to come still count. -/
def dropRefs (s : Sys τ) : List Nat → Sys τ
  | [] => s
  | i :: rest => dropRefs (if s.strongCount i + rest.count i = 0 then s.dropObject i else s) rest

/-! ## Processes -/

/-- A process that can make a step. -/
def caller (s : Sys τ) (pid : Nat) : Option Process := (s.procs.get? pid).filter fun p => !p.zombie

def setProc (s : Sys τ) (pid : Nat) (p : Process) : Sys τ := { s with procs := s.procs.insert pid p }

variable (M : Mapper τ)

/-- `spawn_process_full`, for an image that parses. -/
def spawn (s : Sys τ) (imageLen : Nat) (info : ElfInfo) : Option (Sys τ) :=
  if info.segments.isEmpty then some s
  else do
    match ← loadElfAddressSpace (Mem.loader M) imageLen info s.mem with
    | .error _ => pure s
    | .ok (pml4, _, mem) =>
      let brkBase ← computeBrkBase info
      pure { s with mem := mem, procs := s.procs.insert s.nextPid (.new pml4 brkBase), nextPid := s.nextPid + 1 }

/-- `sys_clone`: the child runs in the parent's address space. -/
def sysClone (s : Sys τ) (pid : Nat) : Option (Sys τ) := do
  let p ← s.caller pid
  pure { s with procs := s.procs.insert s.nextPid { p with pml4Shared := true }, nextPid := s.nextPid + 1 }

/-- The old address space is freed, unless it is the parent's. -/
def cleanup (s : Sys τ) (p : Process) : Option (Sys τ) :=
  if p.pml4Shared ∨ p.proc.pml4 = 0 then some s
  else (s.mem.cleanupUserAddressSpace M p.proc.pml4).map fun mem => { s with mem := mem }

/-- `sys_execve`, for an image that parses. -/
def sysExecve (s : Sys τ) (pid imageLen : Nat) (info : ElfInfo) : Option (Sys τ) := do
  let p ← s.caller pid
  if info.segments.isEmpty then pure s
  else
    match ← loadElfAddressSpace (Mem.loader M) imageLen info s.mem with
    | .error _ => pure s
    | .ok (pml4, _, mem) =>
      let brkBase ← computeBrkBase info
      let p' : Process :=
        { p with proc := ⟨pml4, brkBase, brkBase, .empty⟩, pml4Shared := false, fds := p.fds.dropCloexec }
      let s := (Sys.setProc { s with mem := mem } pid p').dropRefs (refsOf p.fds.cloexecObjects)
      s.cleanup M p

/-- `terminate_process` -/
def terminate (s : Sys τ) (pid : Nat) : Option (Sys τ) := do
  let p ← s.caller pid
  let p' : Process := { p with proc := { p.proc with vmaMap := .empty }, fds := p.fds.dropAll, zombie := true }
  ((s.setProc pid p').dropRefs p.refs).cleanup M p

/-- `kill_user_process` -/
def killUserProcess (s : Sys τ) (pid : Nat) : Option (Sys τ) := do
  let p ← s.caller pid
  pure (s.setProc pid { p with zombie := true })

/-- `reap`: the table goes with the process. -/
def reap (s : Sys τ) (pid : Nat) : Option (Sys τ) := do
  let p ← s.procs.get? pid
  if p.zombie then pure (dropRefs { s with procs := s.procs.remove pid } p.refs) else none

/-! ## Objects and fds -/

/-- A new object gets an fd, or is dropped again. -/
def newObject (s : Sys τ) (pid : Nat) (p : Process) (o : Object) (cloexec : Bool) : Sys τ :=
  match p.fds.allocFd ⟨.object s.nextObject, cloexec⟩ with
  | some (_, fds) =>
    { s with procs := s.procs.insert pid { p with fds := fds }, objects := s.objects.insert s.nextObject o,
             nextObject := s.nextObject + 1 }
  | none => { s with mem := o.owns.foldl Mem.releaseFrame s.mem }

/-- An fd that refers to no object. -/
def openFd (s : Sys τ) (pid : Nat) (e : FdEntry Handle) : Option (Sys τ) := do
  let p ← s.caller pid
  match p.fds.allocFd e with
  | some (_, fds) => pure (s.setProc pid { p with fds := fds })
  | none => pure s

def sysIoCreate (s : Sys τ) (pid flags : Nat) : Option (Sys τ) := do
  let p ← s.caller pid
  if flags ≠ 0 then pure s else pure (s.newObject pid p (.port none) false)

def sysShmemCreate (s : Sys τ) (pid size : Nat) (flags : BitVec 32) : Option (Sys τ) := do
  let p ← s.caller pid
  if size = 0 then pure s
  else if flags &&& ~~~SHM_CLOEXEC ≠ 0 then pure s
  else
    match ← s.mem.sharedMemNew size with
    | (none, mem) => pure { s with mem := mem }
    | (some frames, mem) =>
      pure (Sys.newObject { s with mem := mem } pid p (.shmem ⟨frames, size, true⟩) (flags &&& SHM_CLOEXEC ≠ 0))

/-- The ring's two pages get a non-owning object each. Without fds for both, the ring is dropped,
    and with it its pages. -/
def installRing (s : Sys τ) (pid port : Nat) (p : Process) (ring : IoRing) : Sys τ :=
  let dropped : Mem τ := ring.frames.foldl Mem.releaseFrame s.mem
  match p.fds.allocFd ⟨.object s.nextObject, false⟩ with
  | none => { s with mem := dropped }
  | some (sqFd, fds) => match fds.allocFd ⟨.object (s.nextObject + 1), false⟩ with
    | none => { s with mem := dropped, procs := s.procs.insert pid { p with fds := fds.set sqFd none } }
    | some (_, fds) =>
      { s with procs := s.procs.insert pid { p with fds := fds }
               objects := ((s.objects.insert port (.port (some ring))).insert s.nextObject
                 (.shmem ⟨ring.sqPhys, PAGE_SIZE, false⟩)).insert (s.nextObject + 1)
                   (.shmem ⟨ring.cqPhys, PAGE_SIZE, false⟩)
               nextObject := s.nextObject + 2 }

def sysIoSetupRings (s : Sys τ) (pid portFd : Nat) : Option (Sys τ) := do
  let p ← s.caller pid
  match p.fds.getObject portFd with
  | some (.object i) => match s.objects.get? i with
    | some (.port none) => match IoRing.new s.mem with
      | (none, mem) => pure { s with mem := mem }
      | (some ring, mem) => pure (installRing { s with mem := mem } pid i p ring)
    | _ => pure s
  | _ => pure s

def sysClose (s : Sys τ) (pid fd : Nat) : Option (Sys τ) := do
  let p ← s.caller pid
  match p.fds.takeFd fd with
  | some (e, fds) => pure ((s.setProc pid { p with fds := fds }).dropRefs (refsOf [e.object]))
  | none => pure s

def sysDup2 (s : Sys τ) (pid oldfd newfd : Nat) : Option (Sys τ) := do
  let p ← s.caller pid
  match p.fds.getFd oldfd with
  | none => pure s
  | some e =>
    if oldfd = newfd then pure s
    else match (p.fds.extend newfd).takeFd newfd with
      | some (old, fds) =>
        pure ((s.setProc pid { p with fds := fds.set newfd (some ⟨e.object, false⟩) }).dropRefs (refsOf [old.object]))
      | none => pure (s.setProc pid { p with fds := (p.fds.extend newfd).set newfd (some ⟨e.object, false⟩) })

/-- `sys_fcntl` with F_SETFD. -/
def setFdFlags (s : Sys τ) (pid fd : Nat) (cloexec : Bool) : Option (Sys τ) := do
  let p ← s.caller pid
  match p.fds.getFd fd with
  | none => pure s
  | some e => pure (s.setProc pid { p with fds := p.fds.set fd (some { e with cloexec := cloexec }) })

def hold (s : Sys τ) (pid fd : Nat) : Option (Sys τ) := do
  let p ← s.caller pid
  match p.fds.getObject fd with
  | some (.object i) => pure { s with held := i :: s.held }
  | _ => pure s

def install (s : Sys τ) (pid i : Nat) : Option (Sys τ) := do
  let p ← s.caller pid
  if i ∈ s.held then
    match p.fds.allocFd ⟨.object i, false⟩ with
    | some (_, fds) => pure { s with procs := s.procs.insert pid { p with fds := fds }, held := s.held.erase i }
    | none => pure (dropRefs { s with held := s.held.erase i } [i])
  else none

def release (s : Sys τ) (i : Nat) : Option (Sys τ) :=
  if i ∈ s.held then some (dropRefs { s with held := s.held.erase i } [i]) else none

/-! ## Memory -/

/-- What `mmap` finds under an fd. -/
def fdView (s : Sys τ) (p : Process) (fd : Nat) : FdView :=
  match p.fds.getObject fd with
  | none => .absent
  | some (.file content) => .file content
  | some .other => .other
  | some (.object i) => match s.objects.get? i with
    | some (.shmem inner) => .shmem inner.size inner.frames
    | _ => .other

def memCall (s : Sys τ) (pid : Nat) (c : MemCall) : Option (Sys τ) := do
  let p ← s.caller pid
  let (_, proc, mem) ← Memory.call (Mem.services M) p.proc s.mem (c.ev (s.fdView p))
  pure { s with mem := mem, procs := s.procs.insert pid { p with proc := proc } }

def step (s : Sys τ) : SysEv → Option (Sys τ)
  | .spawn imageLen info => s.spawn M imageLen info
  | .clone pid => s.sysClone pid
  | .execve pid imageLen info => s.sysExecve M pid imageLen info
  | .exit pid => s.terminate M pid
  | .fault pid => s.killUserProcess pid
  | .reap pid => s.reap pid
  | .openFile pid content => s.openFd pid ⟨.file content, false⟩
  | .openOther pid cloexec => s.openFd pid ⟨.other, cloexec⟩
  | .ioCreate pid flags => s.sysIoCreate pid flags
  | .ioSetupRings pid portFd => s.sysIoSetupRings pid portFd
  | .shmemCreate pid size flags => s.sysShmemCreate pid size flags
  | .close pid fd => s.sysClose pid fd
  | .dup2 pid oldfd newfd => s.sysDup2 pid oldfd newfd
  | .setFdFlags pid fd cloexec => s.setFdFlags pid fd cloexec
  | .hold pid fd => s.hold pid fd
  | .install pid i => s.install pid i
  | .release i => s.release i
  | .call pid c => s.memCall M pid c

/-- Before the first process: some frames are in use by the kernel itself, none is free again. -/
def booted (usable : List Nat) (next : Nat) : Sys τ := ⟨⟨⟨usable, next, []⟩, .empty, .empty⟩, .empty, .empty, [], 1, 0⟩

def machine : Machine (Sys τ) SysEv where
  start := fun s => ∃ usable next, usable.Nodup ∧ s = booted usable next
  step := fun s e => s.step M e

end Sys

end Ostoo.Memory
