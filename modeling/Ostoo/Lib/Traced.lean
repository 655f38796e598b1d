/-
  Ostoo.Lib.Traced — programs over a byte memory that may stop, with a trace of the
  ranges they touch.

  A program that stops half-way keeps its trace: what it touched before counts. The
  rules say when every access of a program has a property (`Keeps`), and how the result
  of a sequence comes about.
-/

import Mathlib.Data.List.Basic

namespace Ostoo.Lib.Traced

open List

abbrev Bytes := Nat → UInt8

/-- One load or store of `len` bytes at `addr`. -/
structure Access where
  isStore : Bool
  addr : Nat
  len : Nat
  deriving DecidableEq, Repr

/-- How a program ended: `val = none` when it stopped. -/
structure Outcome (α : Type) where
  val : Option α
  mem : Bytes
  trace : List Access

structure Prog (α : Type) where
  run : Bytes → Outcome α

variable {α β : Type}

instance : Monad Prog where
  pure a := ⟨fun m => ⟨some a, m, []⟩⟩
  bind p f := ⟨fun m =>
    match (p.run m).val with
    | none => ⟨none, (p.run m).mem, (p.run m).trace⟩
    | some a =>
      let r := (f a).run (p.run m).mem
      ⟨r.val, r.mem, (p.run m).trace ++ r.trace⟩⟩

/-- Continue with the value, or stop. -/
def orStop (o : Option α) : Prog α := ⟨fun m => ⟨o, m, []⟩⟩

def bytesAt (m : Bytes) (addr len : Nat) : List UInt8 := (List.range len).map fun i => m (addr + i)

/-- The little-endian word at an address. -/
def wordAt (m : Bytes) (addr : Nat) : BitVec 64 :=
  (m (addr + 7)).toBitVec ++ (m (addr + 6)).toBitVec ++ (m (addr + 5)).toBitVec ++ (m (addr + 4)).toBitVec ++
    (m (addr + 3)).toBitVec ++ (m (addr + 2)).toBitVec ++ (m (addr + 1)).toBitVec ++ (m addr).toBitVec

def wordBytes (w : BitVec 64) : List UInt8 := (List.range 8).map fun i => ⟨w.extractLsb' (8 * i) 8⟩

def load (addr len : Nat) : Prog (List UInt8) := ⟨fun m => ⟨some (bytesAt m addr len), m, [⟨false, addr, len⟩]⟩⟩

def load8 (addr : Nat) : Prog UInt8 := ⟨fun m => ⟨some (m addr), m, [⟨false, addr, 1⟩]⟩⟩

def load64 (addr : Nat) : Prog (BitVec 64) := ⟨fun m => ⟨some (wordAt m addr), m, [⟨false, addr, 8⟩]⟩⟩

def storeBytes (m : Bytes) (addr : Nat) (bytes : List UInt8) : Bytes := fun a =>
  if addr ≤ a then (bytes[a - addr]?).getD (m a) else m a

def store (addr : Nat) (bytes : List UInt8) : Prog Unit :=
  ⟨fun m => ⟨some (), storeBytes m addr bytes, [⟨true, addr, bytes.length⟩]⟩⟩

def store64 (addr : Nat) (w : BitVec 64) : Prog Unit := store addr (wordBytes w)

/-! ## Sequences -/

variable (m : Bytes)
include m

@[simp] theorem run_pure (a : α) : (pure a : Prog α).run m = ⟨some a, m, []⟩ := rfl

theorem run_bind (p : Prog α) (f : α → Prog β) :
    (p >>= f).run m = match (p.run m).val with
      | none => ⟨none, (p.run m).mem, (p.run m).trace⟩
      | some a =>
        let r := (f a).run (p.run m).mem
        ⟨r.val, r.mem, (p.run m).trace ++ r.trace⟩ := rfl

@[simp] theorem run_orStop (o : Option α) : (orStop o).run m = ⟨o, m, []⟩ := rfl

@[simp] theorem run_load (addr len : Nat) :
    (load addr len).run m = ⟨some (bytesAt m addr len), m, [⟨false, addr, len⟩]⟩ := rfl

@[simp] theorem run_load8 (addr : Nat) : (load8 addr).run m = ⟨some (m addr), m, [⟨false, addr, 1⟩]⟩ := rfl

@[simp] theorem run_load64 (addr : Nat) : (load64 addr).run m = ⟨some (wordAt m addr), m, [⟨false, addr, 8⟩]⟩ := rfl

@[simp] theorem run_store (addr : Nat) (bytes : List UInt8) :
    (store addr bytes).run m = ⟨some (), storeBytes m addr bytes, [⟨true, addr, bytes.length⟩]⟩ := rfl

@[simp] theorem run_some_bind (a : α) (f : α → Prog β) : (orStop (some a) >>= f).run m = (f a).run m := rfl

@[simp] theorem val_load64_bind (addr : Nat) (f : BitVec 64 → Prog β) :
    ((load64 addr >>= f).run m).val = ((f (wordAt m addr)).run m).val := rfl

omit m

variable {p : Prog α} {f : α → Prog β} {addr a : Nat} {bytes : List UInt8} {o : Option α} {b : β}

/-- After a program that did not stop, the value is that of the continuation. -/
theorem bind_val_of {m : Bytes} {a : α} (h : (p.run m).val = some a) :
    ((p >>= f).run m).val = ((f a).run (p.run m).mem).val := by
  rw [run_bind, h]

/-- A sequence that yields a value passed through a value of its first part. -/
theorem bind_val {m : Bytes} (h : ((p >>= f).run m).val = some b) :
    ∃ a, (p.run m).val = some a ∧ ((f a).run (p.run m).mem).val = some b := by
  cases ha : (p.run m).val with
  | none => rw [run_bind, ha] at h; cases h
  | some a => exact ⟨a, rfl, by rw [← h, bind_val_of ha]⟩

theorem orStop_bind_val {m : Bytes} (h : ((orStop o >>= f).run m).val = some b) :
    ∃ a, o = some a ∧ ((f a).run m).val = some b := bind_val h

theorem bind_mem_of {m : Bytes} {a : α} (h : (p.run m).val = some a) :
    ((p >>= f).run m).mem = ((f a).run (p.run m).mem).mem := by
  rw [run_bind, h]

/-! ## Stores -/

theorem storeBytes_of_outside {m : Bytes} (h : a < addr ∨ addr + bytes.length ≤ a) :
    storeBytes m addr bytes a = m a := by
  unfold storeBytes
  split
  · rw [getElem?_eq_none (by omega), Option.getD_none]
  · rfl

theorem wordAt_storeBytes {m : Bytes} (h : a + 8 ≤ addr ∨ addr + bytes.length ≤ a) :
    wordAt (storeBytes m addr bytes) a = wordAt m a := by
  simp only [wordAt]
  iterate 8 rw [storeBytes_of_outside (by omega)]

theorem storeBytes_wordBytes (m : Bytes) (addr : Nat) (w : BitVec 64) {i : Nat} (hi : i < 8) :
    storeBytes m addr (wordBytes w) (addr + i) = ⟨w.extractLsb' (8 * i) 8⟩ := by
  unfold storeBytes wordBytes
  rw [if_pos (Nat.le_add_right _ _), Nat.add_sub_cancel_left]
  simp [hi]

theorem wordAt_wordBytes (m : Bytes) (addr : Nat) (w : BitVec 64) :
    wordAt (storeBytes m addr (wordBytes w)) addr = w := by
  have hbyte := fun i (hi : i < 8) => storeBytes_wordBytes m addr w hi
  have h0 := hbyte 0 (by decide)
  simp only [wordAt, hbyte 1 (by decide), hbyte 2 (by decide), hbyte 3 (by decide), hbyte 4 (by decide),
    hbyte 5 (by decide), hbyte 6 (by decide), hbyte 7 (by decide)]
  refine BitVec.eq_of_getLsbD_eq fun i hi => ?_
  simp only [BitVec.getLsbD_append, BitVec.getLsbD_extractLsb']
  grind

/-! ## Accesses -/

/-- Every access of the program on this memory has the property. -/
def Keeps (P : Access → Prop) (p : Prog α) (m : Bytes) : Prop := ∀ a ∈ (p.run m).trace, P a

variable {P : Access → Prop} {m : Bytes}

theorem keeps_pure (a : α) : Keeps P (pure a) m := nofun

theorem keeps_load {len : Nat} : Keeps P (load addr len) m ↔ P ⟨false, addr, len⟩ := by
  simp [Keeps, load]

theorem keeps_store : Keeps P (store addr bytes) m ↔ P ⟨true, addr, bytes.length⟩ := by
  simp [Keeps, store]

theorem keeps_store64 {w : BitVec 64} : Keeps P (store64 addr w) m ↔ P ⟨true, addr, 8⟩ := keeps_store

theorem keeps_bind (hp : Keeps P p m) (hf : ∀ a, (p.run m).val = some a → Keeps P (f a) (p.run m).mem) :
    Keeps P (p >>= f) m := by
  intro x hx
  rw [run_bind] at hx
  cases ha : (p.run m).val with
  | none => rw [ha] at hx; exact hp x hx
  | some a =>
    rw [ha] at hx
    rcases mem_append.mp hx with hx | hx
    · exact hp x hx
    · exact hf a ha x hx

theorem keeps_orStop_bind : Keeps P (orStop o >>= f) m ↔ ∀ a, o = some a → Keeps P (f a) m := by
  cases o with
  | none => exact ⟨fun _ _ h => (nomatch h), fun _ => nofun⟩
  | some a => exact ⟨fun h _ ha => Option.some.inj ha ▸ h, fun h => h a rfl⟩

theorem keeps_load64_bind {f : BitVec 64 → Prog β} :
    Keeps P (load64 addr >>= f) m ↔ P ⟨false, addr, 8⟩ ∧ Keeps P (f (wordAt m addr)) m :=
  forall_mem_cons

end Ostoo.Lib.Traced
