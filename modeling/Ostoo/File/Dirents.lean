/-
  Ostoo.File.Dirents — the directory handle of `osl/src/file.rs` and `sys_getdents64`
  (`syscalls/io.rs`).

  A call writes records of whole entries into the caller's buffer while they fit and moves
  the cursor past them. `getdents_streams`: over any calls the bytes returned read as records
  of the first entries in order, and a call stops only before a record that does not fit.
  When not even the next one fits the call returns 0, as at the end of the directory
  (`zero_is_the_end_iff`, `a_small_buffer_reads_as_the_end`).

  The descriptor is taken to be the directory's: a call through another one does not reach it.
-/

import Ostoo.Lib.LittleEndian
import Ostoo.User.Access

namespace Ostoo.File

open List Ostoo.Lib Ostoo.User

/-- `VfsDirEntry`, the name as its bytes; `size` is not read here. -/
structure VfsDirEntry where
  name : List UInt8
  isDir : Bool

/-- The fixed fields, the name and its NUL, aligned to 8 bytes. -/
def VfsDirEntry.reclen (entry : VfsDirEntry) : Nat := (8 + 8 + 2 + 1 + entry.name.length + 1 + 7) / 8 * 8

/-- The `reclen` bytes that one round writes, for the entry at `cursor`. -/
def record : VfsDirEntry × Nat → List UInt8
  | (entry, cursor) =>
    toLeBytes 8 (cursor + 1) ++ (toLeBytes 8 (cursor + 1) ++ (toLeBytes 2 entry.reclen ++
      ((if entry.isDir then 4 else 8) :: (entry.name ++ replicate (entry.reclen - (19 + entry.name.length)) 0))))

/-- The loop of `getdents64` over the entries from the cursor on: cursor, offset and buffer. -/
def copyEntries : List VfsDirEntry → (cursor offset : Nat) → (buf : List UInt8) → Nat × Nat × List UInt8
  | [], cursor, offset, buf => (cursor, offset, buf)
  | entry :: rest, cursor, offset, buf =>
    if offset + entry.reclen > buf.length then (cursor, offset, buf)
    else copyEntries rest (cursor + 1) (offset + entry.reclen)
      (buf.take offset ++ (record (entry, cursor) ++ buf.drop (offset + entry.reclen)))

structure DirHandle where
  entries : List VfsDirEntry
  cursor : Nat := 0

def DirHandle.getdents64 (d : DirHandle) (buf : List UInt8) : Nat × DirHandle × List UInt8 :=
  let (cursor, offset, buf) := copyEntries (d.entries.drop d.cursor) d.cursor 0 buf
  (offset, { d with cursor }, buf)

/-- A buffer of the caller: its address and what it holds. -/
structure UserBuf where
  ptr : Nat
  bytes : List UInt8

def sysGetdents64 (d : DirHandle) (buf : UserBuf) : Except Errno Nat × DirHandle × List UInt8 :=
  if !validateUserBuf buf.ptr buf.bytes.length then (.error .EFAULT, d, buf.bytes)
  else
    let (n, d, bytes) := d.getdents64 buf.bytes
    (.ok n, d, bytes)

/-- The bytes that calls return, one behind the other, and the handle after them. -/
def runCalls : DirHandle → List UserBuf → List UInt8 × DirHandle
  | d, [] => ([], d)
  | d, buf :: bufs =>
    let (ret, d, bytes) := sysGetdents64 d buf
    let (out, d) := runCalls d bufs
    ((ret.toOption.elim [] bytes.take) ++ out, d)

/-! ## Reading the records -/

/-- A `linux_dirent64`; `name` is all of `d_name`. -/
structure Dirent where
  ino : Nat
  off : Nat
  reclen : Nat
  type : UInt8
  name : List UInt8

def readDirent (bytes : List UInt8) : Dirent :=
  let reclen := field bytes 16 2
  ⟨field bytes 0 8, field bytes 8 8, reclen, bytes.getD 18 0, (bytes.take reclen).drop 19⟩

/-- Reads `n` records that fill the bytes, each aligned and with its name ended by a NUL. -/
def readDirents : (n : Nat) → List UInt8 → Option (List Dirent)
  | 0, bytes => if bytes = [] then some [] else none
  | n + 1, bytes =>
    let d := readDirent bytes
    if d.reclen ≤ bytes.length ∧ 8 ∣ d.reclen ∧ d.name.getLast? = some 0 then
      (readDirents n (bytes.drop d.reclen)).map (d :: ·)
    else none

/-- The record of the entry at `cursor` as it is read. -/
def dirent : VfsDirEntry × Nat → Dirent
  | (entry, cursor) =>
    ⟨(cursor + 1) % 2 ^ 64, (cursor + 1) % 2 ^ 64, entry.reclen, if entry.isDir then 4 else 8,
      entry.name ++ replicate (entry.reclen - (19 + entry.name.length)) 0⟩

variable {entry : VfsDirEntry} {entries : List VfsDirEntry} {cursor : Nat} {bufs : List UserBuf} {out : List UInt8}
  {d : DirHandle}

theorem VfsDirEntry.name_lt_reclen : 19 + entry.name.length < entry.reclen := by
  unfold reclen
  omega

theorem length_record : (record (entry, cursor)).length = entry.reclen := by
  have h := entry.name_lt_reclen
  simp only [record, length_append, length_toLeBytes, length_cons, length_replicate]
  omega

theorem readDirent_record (hn : entry.name.length < 65000) (rest : List UInt8) :
    readDirent (record (entry, cursor) ++ rest) = dirent (entry, cursor) := by
  have hlt : entry.reclen < 65536 := by
    unfold VfsDirEntry.reclen
    omega
  have hr : field (record (entry, cursor) ++ rest) 16 2 = entry.reclen := by
    simp [field, record, drop_append, drop_eq_nil_of_le, leBytes_toLeBytes, Nat.mod_eq_of_lt hlt]
  simp only [readDirent, hr, take_left' length_record]
  simp [field, record, dirent, drop_append, drop_eq_nil_of_le, getElem?_append, leBytes_toLeBytes]

theorem readDirents_records (hn : ∀ e ∈ entries, e.name.length < 65000) :
    readDirents entries.length
      ((entries.zipIdx cursor).flatMap record) = some ((entries.zipIdx cursor).map dirent) := by
  induction entries generalizing cursor with
  | nil => rfl
  | cons entry entries ih =>
    obtain ⟨hname, hn⟩ := forall_mem_cons.mp hn
    have hpos := entry.name_lt_reclen
    have hz : entry.reclen - (19 + entry.name.length) ≠ 0 := by omega
    simp only [zipIdx_cons, flatMap_cons, map_cons, length_cons, readDirents, readDirent_record hname]
    rw [if_pos, show (dirent (entry, cursor)).reclen = entry.reclen from rfl, drop_left' length_record, ih hn]
    · rfl
    · refine ⟨?_, ⟨_, mul_comm _ 8⟩, ?_⟩
      · simp [dirent, length_record]
      · simp [dirent, getLast?_append, getLast?_replicate, hz]

/-! ## What a call does -/

/-- `n` entries were copied, as many as fit. -/
structure Copied (entries : List VfsDirEntry) (cursor : Nat) (buf : List UInt8) (n : Nat) (out : List UInt8) :
    Prop where
  count : n ≤ entries.length
  records : out = ((entries.take n).zipIdx cursor).flatMap record
  fits : out.length ≤ buf.length
  full : ∀ e ∈ entries[n]?, buf.length < out.length + e.reclen

theorem copyEntries_copied (entries cursor) (before buf : List UInt8) :
    ∃ n out, Copied entries cursor buf n out ∧ copyEntries entries cursor before.length (before ++ buf) =
      (cursor + n, before.length + out.length, before ++ (out ++ buf.drop out.length)) := by
  induction entries generalizing cursor before buf with
  | nil => exact ⟨0, [], ⟨Nat.zero_le _, rfl, Nat.zero_le _, nofun⟩, by simp [copyEntries]⟩
  | cons entry entries ih =>
    by_cases hfit : before.length + entry.reclen > (before ++ buf).length
    · refine ⟨0, [], ⟨Nat.zero_le _, rfl, Nat.zero_le _, ?_⟩, ?_⟩
      · rintro e ⟨⟩
        simpa using hfit
      · rw [copyEntries, if_pos hfit]
        rfl
    · have hlen : entry.reclen ≤ buf.length := by simpa using hfit
      obtain ⟨n, out, h, he⟩ := ih (cursor + 1) (before ++ record (entry, cursor)) (buf.drop entry.reclen)
      refine ⟨n + 1, record (entry, cursor) ++ out, ⟨Nat.succ_le_succ h.count, ?_, ?_, ?_⟩, ?_⟩
      · simp [h.records]
      · have := h.fits
        simp [length_record] at this ⊢
        omega
      · intro e hm
        have := h.full e hm
        simp [length_record] at this ⊢
        omega
      · rw [copyEntries, if_neg hfit, take_left, drop_append, drop_eq_nil_of_le (Nat.le_add_right _ _), nil_append,
          Nat.add_sub_cancel_left, ← append_assoc]
        rw [length_append, length_record] at he
        rw [he, length_append, length_record, drop_drop, append_assoc, append_assoc, add_assoc, add_assoc, add_comm 1]

theorem sysGetdents64_copied (d : DirHandle) {buf : UserBuf} (hv : validateUserBuf buf.ptr buf.bytes.length) :
    ∃ n out, Copied (d.entries.drop d.cursor) d.cursor buf.bytes n out ∧
      sysGetdents64 d buf = (.ok out.length, { d with cursor := d.cursor + n }, out ++ buf.bytes.drop out.length) := by
  obtain ⟨n, out, h, he⟩ := copyEntries_copied (d.entries.drop d.cursor) d.cursor [] buf.bytes
  refine ⟨n, out, h, ?_⟩
  rw [nil_append, length_nil] at he
  simp [sysGetdents64, hv, DirHandle.getdents64, he]

/-- Nothing is copied when there is no entry, and when the next one does not fit. -/
theorem Copied.eq_nil_iff {buf : List UInt8} {n : Nat} (h : Copied entries cursor buf n out) :
    out = [] ↔ ∀ e ∈ entries.head?, buf.length < e.reclen := by
  cases entries with
  | nil => simp [h.records]
  | cons entry entries =>
    cases n with
    | zero => simpa [h.records] using h.full
    | succ n =>
      have hlen : out.length = entry.reclen + ((take n entries).zipIdx (cursor + 1) |>.flatMap record).length := by
        simp only [h.records, take_succ_cons, zipIdx_cons, flatMap_cons, length_append, length_record]
      have hpos := entry.name_lt_reclen
      have hfits := h.fits
      simp only [← length_eq_zero_iff, head?_cons, Option.mem_some_iff, forall_eq']
      omega

/-! ## Runs -/

/-- The bytes returned so far are the records of the entries before the cursor. -/
structure Returned (entries : List VfsDirEntry) (out : List UInt8) (d : DirHandle) : Prop where
  same : d.entries = entries
  cursor_le : d.cursor ≤ entries.length
  records : out = (entries.take d.cursor).zipIdx.flatMap record

theorem Returned.call (h : Returned entries out d) (buf : UserBuf) :
    Returned entries (out ++ (sysGetdents64 d buf).1.toOption.elim [] (sysGetdents64 d buf).2.2.take)
      (sysGetdents64 d buf).2.1 := by
  obtain ⟨rfl, hc, rfl⟩ := h
  by_cases hv : validateUserBuf buf.ptr buf.bytes.length
  · obtain ⟨n, out, h, he⟩ := sysGetdents64_copied d hv
    have hn : d.cursor + n ≤ d.entries.length := by
      have := h.count
      rw [length_drop] at this
      omega
    rw [he]
    refine ⟨rfl, hn, ?_⟩
    show _ ++ (out ++ _).take out.length = _
    rw [take_left, h.records, take_add, zipIdx_append, flatMap_append, length_take, min_eq_left hc, zero_add]
  · simpa [sysGetdents64, hv, Except.toOption] using ⟨rfl, hc, rfl⟩

theorem Returned.runCalls (h : Returned entries out d) (bufs : List UserBuf) :
    Returned entries (out ++ (File.runCalls d bufs).1) (File.runCalls d bufs).2 := by
  induction bufs generalizing out d with
  | nil => simpa [File.runCalls] using h
  | cons buf bufs ih => simpa [File.runCalls] using ih (h.call buf)

theorem returned_runCalls (entries : List VfsDirEntry) (bufs : List UserBuf) :
    Returned entries (runCalls { entries } bufs).1 (runCalls { entries } bufs).2 :=
  @Returned.runCalls entries [] { entries } ⟨rfl, Nat.zero_le _, rfl⟩ bufs

theorem getdents_streams (hn : ∀ e ∈ entries, e.name.length < 65000) (bufs : List UserBuf) :
    let out := (runCalls { entries } bufs).1
    let d := (runCalls { entries } bufs).2
    readDirents d.cursor out = some ((entries.take d.cursor).zipIdx.map dirent) ∧
    ∀ buf : UserBuf, (¬ validateUserBuf buf.ptr buf.bytes.length →
      sysGetdents64 d buf = (.error .EFAULT, d, buf.bytes)) ∧ (validateUserBuf buf.ptr buf.bytes.length →
        ∃ n ret bytes, sysGetdents64 d buf = (.ok ret, { d with cursor := d.cursor + n }, bytes) ∧
          readDirents n (bytes.take ret) = some ((((entries.drop d.cursor).take n).zipIdx d.cursor).map dirent) ∧
          (∀ e ∈ entries[d.cursor + n]?, buf.bytes.length < ret + e.reclen) ∧
          ret ≤ buf.bytes.length ∧ bytes.length = buf.bytes.length ∧ bytes.drop ret = buf.bytes.drop ret) := by
  intro out d
  obtain ⟨hd, hc, ho⟩ : Returned entries out d := returned_runCalls entries bufs
  refine ⟨?_, fun buf => ⟨fun hv => by simp [sysGetdents64, hv], fun hv => ?_⟩⟩
  · have h := @readDirents_records (entries.take d.cursor) 0 fun e he => hn e (mem_of_mem_take he)
    rwa [length_take, min_eq_left hc, ← ho] at h
  · obtain ⟨n, copied, h, he⟩ := sysGetdents64_copied d hv
    rw [hd] at h
    have hr := @readDirents_records ((entries.drop d.cursor).take n) d.cursor fun e he =>
      hn e (mem_of_mem_drop (mem_of_mem_take he))
    refine ⟨n, copied.length, _, he, ?_, ?_, h.fits, ?_, drop_left⟩
    · rw [take_left, h.records]
      rwa [length_take, min_eq_left h.count] at hr
    · intro e hm
      exact h.full e (by rwa [getElem?_drop])
    · have := h.fits
      simp
      omega

def threeEntries : List VfsDirEntry := [⟨[97], true⟩, ⟨[98, 98], false⟩, ⟨[99, 99, 99], false⟩]

/-- Calls with room for two records and for none, and one with an address of the kernel; then room for all. -/
theorem getdents_streams_three_entries :
    let calls := runCalls { entries := threeEntries }
      [⟨4096, replicate 50 1⟩, ⟨4096, replicate 8 1⟩, ⟨2 ^ 63, replicate 60 1⟩]
    calls.2.cursor = 2 ∧ readDirents 2 calls.1 = some ((threeEntries.take 2).zipIdx.map dirent) ∧
    sysGetdents64 calls.2 ⟨2 ^ 63, replicate 60 1⟩ = (.error .EFAULT, calls.2, replicate 60 1) ∧
    ∃ bytes, sysGetdents64 calls.2 ⟨4096, replicate 60 1⟩ = (.ok 24, { calls.2 with cursor := 3 }, bytes) ∧
      readDirents 1 (bytes.take 24) = some [dirent (⟨[99, 99, 99], false⟩, 2)] ∧ bytes.drop 24 = replicate 36 1 := by
  obtain ⟨hall, hnext⟩ := @getdents_streams threeEntries (by decide) [⟨4096, replicate 50 1⟩, ⟨4096, replicate 8 1⟩,
    ⟨2 ^ 63, replicate 60 1⟩]
  refine ⟨rfl, hall, (hnext ⟨2 ^ 63, replicate 60 1⟩).1 (by decide), ?_⟩
  obtain ⟨n, ret, bytes, he, hr, -, -, -, hdrop⟩ := (hnext ⟨4096, replicate 60 1⟩).2 (by decide)
  obtain rfl : 24 = ret := Except.ok.inj (congrArg Prod.fst he)
  obtain rfl : 1 = n := Nat.add_left_cancel (congrArg (fun r => r.2.1.cursor) he)
  exact ⟨bytes, he, hr, hdrop⟩

theorem zero_is_the_end_iff (bufs : List UserBuf) {buf : UserBuf} (hv : validateUserBuf buf.ptr buf.bytes.length) :
    let out := (runCalls { entries } bufs).1
    let d := (runCalls { entries } bufs).2
    ((sysGetdents64 d buf).1 = .ok 0 → out = entries.zipIdx.flatMap record) ↔
      ∀ e ∈ entries[d.cursor]?, e.reclen ≤ buf.bytes.length := by
  intro out d
  obtain ⟨hd, hc, ho⟩ : Returned entries out d := returned_runCalls entries bufs
  obtain ⟨n, copied, h, he⟩ := sysGetdents64_copied d hv
  have hz : (sysGetdents64 d buf).1 = .ok 0 ↔ copied = [] := by simp [he]
  have hall : entries.zipIdx.flatMap record = out ++ ((entries.drop d.cursor).zipIdx d.cursor).flatMap record := by
    conv_lhs => rw [← take_append_drop d.cursor entries]
    rw [zipIdx_append, flatMap_append, length_take, min_eq_left hc, zero_add, ho]
  rw [hz, h.eq_nil_iff, hd, hall, ← head?_drop]
  cases entries.drop d.cursor with
  | nil => simp
  | cons entry rest =>
    have hpos : record (entry, d.cursor) ≠ [] :=
      ne_nil_of_length_pos (length_record ▸ by have := entry.name_lt_reclen; omega)
    simp [hpos]

/-- Two calls return all entries, and the third 0. -/
theorem zero_is_the_end_iff_at_the_end :
    let calls := runCalls { entries := threeEntries } [⟨4096, replicate 50 1⟩, ⟨4096, replicate 24 1⟩]
    calls.2.cursor = 3 ∧ (sysGetdents64 calls.2 ⟨4096, replicate 24 1⟩).1 = .ok 0 ∧
        calls.1 = threeEntries.zipIdx.flatMap record :=
  ⟨rfl, rfl, (@zero_is_the_end_iff threeEntries [⟨4096, replicate 50 1⟩, ⟨4096, replicate 24 1⟩]
    ⟨4096, replicate 24 1⟩ (by decide)).mpr nofun rfl⟩

/-- The record of `a` takes 24 bytes; with room for 8 the first call returns 0. -/
theorem a_small_buffer_reads_as_the_end :
    (sysGetdents64 (runCalls { entries := [⟨[97], true⟩] } []).2 ⟨4096, replicate 8 1⟩).1 = .ok 0 ∧
      (runCalls { entries := [⟨[97], true⟩] } []).1 ≠ [⟨[97], true⟩].zipIdx.flatMap record :=
  ⟨rfl, by decide⟩

end Ostoo.File
