/-
  Ostoo.Memory.Elf — the ELF64 parser (`elf.rs`), over any byte string.

  Fields are read little-endian at their offsets in the C layout; `parse` has checked the
  length before each read. `none` is a panic: the offset of a program header and the
  fallback address of the header table are sums without a check.

  Proved: the file part of every accepted segment lies in the image, and its fields are
  64-bit numbers (`parse_segment`).
-/

import Mathlib.Data.List.Basic
import Ostoo.Lib.LittleEndian
import Ostoo.Memory.Page

namespace Ostoo.Memory.Elf

open Ostoo.Lib Option

def ELF_MAGIC : List UInt8 := [0x7F, 0x45, 0x4C, 0x46]
def ELFCLASS64 : UInt8 := 2
def ELFDATA2LSB : UInt8 := 1
def ET_EXEC : Nat := 2
def EM_X86_64 : Nat := 62
def PT_LOAD : Nat := 1
def PT_PHDR : Nat := 6
def PF_X : Nat := 1
def PF_W : Nat := 2

/-- `size_of::<Elf64Ehdr>()` -/
def EHDR_SIZE : Nat := 64

/-- `size_of::<Elf64Phdr>()` -/
def PHDR_SIZE : Nat := 56

inductive ElfError
  | tooSmall
  | badMagic
  | not64Bit
  | notLittleEndian
  | notExec
  | notX86_64
  | badPhdr
  deriving DecidableEq, Repr

structure LoadSegment where
  vaddr : Nat
  offset : Nat
  filesz : Nat
  memsz : Nat
  flags : Nat
  deriving DecidableEq, Repr

structure ElfInfo where
  entry : Nat
  segments : List LoadSegment
  phdrVaddr : Nat
  phnum : Nat
  phentsize : Nat
  deriving DecidableEq, Repr

/-! ## Headers -/

structure Ehdr where
  ident : List UInt8
  type : Nat
  machine : Nat
  entry : Nat
  phoff : Nat
  phentsize : Nat
  phnum : Nat

def readEhdr (data : List UInt8) : Ehdr where
  ident := data.take 16
  type := field data 16 2
  machine := field data 18 2
  entry := field data 24 8
  phoff := field data 32 8
  phentsize := field data 54 2
  phnum := field data 56 2

structure Phdr where
  type : Nat
  flags : Nat
  offset : Nat
  vaddr : Nat
  filesz : Nat
  memsz : Nat

def readPhdr (data : List UInt8) (off : Nat) : Phdr where
  type := field data off 4
  flags := field data (off + 4) 4
  offset := field data (off + 8) 8
  vaddr := field data (off + 16) 8
  filesz := field data (off + 32) 8
  memsz := field data (off + 40) 8

/-! ## The parser -/

/-- The loop over the program headers from the `i`th on. -/
def parsePhdrs (data : List UInt8) (ehdr : Ehdr) : Nat → Nat → List LoadSegment → Option Nat →
    Option (Except ElfError (List LoadSegment × Option Nat))
  | 0, _, segments, phdrVaddr => some (.ok (segments, phdrVaddr))
  | n + 1, i, segments, phdrVaddr => do
    let off ← addU64 ehdr.phoff (i * ehdr.phentsize)
    let stop ← addU64 off PHDR_SIZE
    if stop > data.length then pure (.error .badPhdr)
    else
      let phdr := readPhdr data off
      let phdrVaddr := if phdr.type = PT_PHDR then some phdr.vaddr else phdrVaddr
      if phdr.type ≠ PT_LOAD then parsePhdrs data ehdr n (i + 1) segments phdrVaddr
      else match addU64 phdr.offset phdr.filesz with
        -- `checked_add`
        | none => pure (.error .badPhdr)
        | some stop =>
          if stop > data.length then pure (.error .badPhdr)
          else
            let seg : LoadSegment := ⟨phdr.vaddr, phdr.offset, phdr.filesz, phdr.memsz, phdr.flags⟩
            parsePhdrs data ehdr n (i + 1) (segments ++ [seg]) phdrVaddr

/-- Without a PT_PHDR: the address of the header table in the segment that holds it. -/
def fallbackPhdrVaddr (phoff : Nat) : List LoadSegment → Option Nat
  | [] => some 0
  | seg :: rest => do
    -- `&&` leaves the sum out when the first test fails
    if phoff ≥ seg.offset then
      let stop ← addU64 seg.offset seg.filesz
      if phoff < stop then addU64 seg.vaddr (phoff - seg.offset) else fallbackPhdrVaddr phoff rest
    else fallbackPhdrVaddr phoff rest

def parse (data : List UInt8) : Option (Except ElfError ElfInfo) :=
  if data.length < EHDR_SIZE then some (.error .tooSmall)
  else
    let ehdr := readEhdr data
    if ehdr.ident.take 4 ≠ ELF_MAGIC then some (.error .badMagic)
    else if ehdr.ident[4]? ≠ some ELFCLASS64 then some (.error .not64Bit)
    else if ehdr.ident[5]? ≠ some ELFDATA2LSB then some (.error .notLittleEndian)
    else if ehdr.type ≠ ET_EXEC then some (.error .notExec)
    else if ehdr.machine ≠ EM_X86_64 then some (.error .notX86_64)
    else do
      match ← parsePhdrs data ehdr ehdr.phnum 0 [] none with
      | .error e => pure (.error e)
      | .ok (segments, phdrVaddr) =>
        let phdrVaddr ← phdrVaddr.elim (fallbackPhdrVaddr ehdr.phoff segments) some
        pure (.ok ⟨ehdr.entry, segments, phdrVaddr, ehdr.phnum, ehdr.phentsize⟩)

/-! ## What is accepted -/

/-- A segment the parser lets through: its file part is in the image. -/
structure LoadSegment.InImage (len : Nat) (seg : LoadSegment) : Prop where
  vaddr : seg.vaddr < 2 ^ 64
  memsz : seg.memsz < 2 ^ 64
  file : seg.offset + seg.filesz < 2 ^ 64
  image : seg.offset + seg.filesz ≤ len

theorem parsePhdrs_inImage {data : List UInt8} {ehdr : Ehdr} {n i : Nat} {segments segments' : List LoadSegment}
    {v v' : Option Nat} (hs : ∀ seg ∈ segments, seg.InImage data.length)
    (h : parsePhdrs data ehdr n i segments v = some (.ok (segments', v'))) :
    ∀ seg ∈ segments', seg.InImage data.length := by
  induction n generalizing i segments v with
  | zero =>
    cases h
    exact hs
  | succ n ih =>
    obtain ⟨_, -, h⟩ := bind_eq_some_iff.mp h
    obtain ⟨stop, -, h⟩ := bind_eq_some_iff.mp h
    simp only at h
    split at h
    · cases h
    split at h
    · exact ih hs h
    split at h
    · cases h
    rename_i hstop
    obtain ⟨hlt, rfl⟩ := addU64_eq_some.mp hstop
    split at h
    · cases h
    rename_i hle
    refine ih (fun seg hseg => ?_) h
    rcases List.mem_append.mp hseg with hseg | hseg
    · exact hs seg hseg
    · obtain rfl := List.mem_singleton.mp hseg
      exact ⟨field_lt _ _ _, field_lt _ _ _, hlt, Nat.le_of_not_lt hle⟩

theorem parse_segment {data : List UInt8} {info : ElfInfo} (h : parse data = some (.ok info)) :
    ∀ seg ∈ info.segments, seg.InImage data.length := by
  simp only [parse] at h
  repeat' split at h
  all_goals try cases h
  obtain ⟨_, hr, h⟩ := bind_eq_some_iff.mp h
  split at h
  · cases h
  · obtain ⟨_, -, h⟩ := bind_eq_some_iff.mp h
    cases h
    exact parsePhdrs_inImage (by simp) hr

end Ostoo.Memory.Elf
