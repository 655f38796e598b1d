/-
  Ostoo.User.Access — the system calls that read or write user memory through pointers
  they were passed: `user_mem.rs`, `sys_writev` (`syscalls/io.rs`) and `sys_fstat`
  (`syscalls/fs.rs`).

  Addresses are computed with checked 64-bit arithmetic and a sum that overflows panics;
  pointer offsets (`ptr.add`) are not checked, an address beyond 2^64 stands for a wrapped
  one. Results are kept apart as value and error, before both go into one `i64`.
  Not modelled: page faults of an access to memory that is not mapped, and other threads
  that write the same memory during a call.
-/

import Ostoo.Lib.Traced
import Ostoo.Memory.Page

namespace Ostoo.User

open Ostoo.Lib.Traced Ostoo.Memory

abbrev U64 := BitVec 64

/-- End of the user half. -/
def USER_LIMIT : Nat := 0x0000_8000_0000_0000

/-- The error numbers these calls return. -/
inductive Errno
  | EINTR
  | EBADF
  | EFAULT
  | EISDIR
  | EINVAL
  | EMFILE
  | ENOTTY
  deriving DecidableEq, Repr

def validateUserBuf (ptr len : Nat) : Bool :=
  ptr ≠ 0 ∧ len ≤ USER_LIMIT ∧ (addU64 ptr len).any (· ≤ USER_LIMIT)

/-! ## Strings -/

/-- The loop of `read_user_string`: the length of the string, looking at no more than
    `n` further bytes. -/
def stringLen (ptr : Nat) : (n len : Nat) → Prog (Except Errno Nat)
  | 0, len => pure (.ok len)
  | n + 1, len => do
    let addr ← orStop (addU64 ptr len)
    if USER_LIMIT ≤ addr then
      pure (.error .EFAULT)
    else do
      let b ← load8 addr
      if b = 0 then pure (.ok len) else stringLen ptr n (len + 1)

/-- `core::str::from_utf8` -/
def fromUtf8 (bytes : List UInt8) : Except Errno (List UInt8) :=
  if (ByteArray.mk bytes.toArray).validateUTF8 then .ok bytes else .error .EINVAL

def readUserString (ptr maxLen : Nat) : Prog (Except Errno (List UInt8)) :=
  if ptr = 0 ∨ USER_LIMIT ≤ ptr then
    pure (.error .EFAULT)
  else do
    match ← stringLen ptr maxLen 0 with
    | .error e => pure (.error e)
    | .ok len => do
      let bytes ← load ptr len
      pure (fromUtf8 bytes)

/-- The loop of `read_user_string_array`, which gives up after `n` further strings. -/
def stringArray (ptr : Nat) : (n i : Nat) → List (List UInt8) → Prog (Except Errno (List (List UInt8)))
  | 0, _, _ => pure (.error .EINVAL)
  | n + 1, i, result => do
    let entryAddr ← orStop (addU64 ptr (i * 8))
    let entryEnd ← orStop (addU64 entryAddr 8)
    if USER_LIMIT < entryEnd then
      pure (.error .EFAULT)
    else do
      let strPtr ← load64 entryAddr
      if strPtr = 0 then
        pure (.ok result)
      else
        match ← readUserString strPtr.toNat 4096 with
        | .error e => pure (.error e)
        | .ok s => stringArray ptr n (i + 1) (result ++ [s])

def readUserStringArray (ptr : Nat) : Prog (Except Errno (List (List UInt8))) :=
  if ptr = 0 then pure (.ok []) else stringArray ptr 257 0 []

/-! ## writev and fstat -/

/-- `FileError` -/
inductive FileError
  | badFd
  | isDirectory
  | notATty
  | tooManyOpenFiles
  | interrupted
  deriving DecidableEq, Repr

def fileErrno : FileError → Errno
  | .badFd => .EBADF
  | .isDirectory => .EISDIR
  | .notATty => .ENOTTY
  | .tooManyOpenFiles => .EMFILE
  | .interrupted => .EINTR

/-- The kinds of `FileHandle`. -/
inductive FileHandle
  | console
  | pipeReader
  | pipeWriter
  | vfsFile
  | dir
  deriving DecidableEq, Repr

/-- `FileHandle::write`: the console and the write end of a pipe take all the bytes, the
    others refuse without looking at them. -/
def FileHandle.write (handle : FileHandle) (base len : Nat) : Prog (Except FileError Nat) :=
  match handle with
  | .console | .pipeWriter => do
    let bytes ← load base len
    pure (.ok bytes.length)
  | .pipeReader | .vfsFile | .dir => pure (.error .badFd)

/-- The loop of `sys_writev`, with `n` entries left. -/
def writevLoop (handle : FileHandle) (iovPtr : Nat) : (n i total : Nat) → Prog (Except Errno Nat)
  | 0, _, total => pure (.ok total)
  | n + 1, i, total => do
    let off ← orStop (if i * 16 < 2 ^ 64 then some (i * 16) else none)
    let iovAddr ← orStop (addU64 iovPtr off)
    let iovBase ← load64 iovAddr
    let lenAddr ← orStop (addU64 iovAddr 8)
    let iovLen ← load64 lenAddr
    if iovLen = 0 then
      writevLoop handle iovPtr n (i + 1) total
    else
      match ← handle.write iovBase.toNat iovLen.toNat with
      | .ok k => do
        let total ← orStop (addU64 total k)
        writevLoop handle iovPtr n (i + 1) total
      | .error e => pure (.error (fileErrno e))

/-- `handle` is what `get_fd_file(fd)` finds. -/
def sysWritev (handle : Option FileHandle) (iovPtr iovcnt : U64) : Prog (Except Errno Nat) :=
  match handle with
  | none => pure (.error .EBADF)
  | some h => writevLoop h iovPtr.toNat iovcnt.toNat 0 0

def STAT_SIZE : Nat := 144

/-- `S_IFCHR | 0o666`, as bytes -/
def statMode : List UInt8 := [0xb6, 0x21, 0, 0]

def sysFstat (buf : U64) : Prog (Except Errno Nat) := do
  store buf.toNat (List.replicate STAT_SIZE 0)
  store (buf.toNat + 24) statMode
  pure (.ok 0)

end Ostoo.User
