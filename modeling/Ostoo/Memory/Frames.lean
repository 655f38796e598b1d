/-
  Ostoo.Memory.Frames — the physical frame allocator (`frame_allocator.rs`).

  A frame is its physical address. The allocator hands out frames from the list of freed
  ones first, then the next usable frame of the boot memory map. The links of the free
  list live in the freed frames themselves; here it is the list they make. What is on it
  was handed out before, each frame once (`Frames.Sound`), so an allocated frame is one
  that nobody has.
-/

import Mathlib.Data.List.Nodup

namespace Ostoo.Memory

open List

structure Frames where
  /-- The usable frames of the memory map, in order. -/
  usable : List Nat
  next : Nat
  freeList : List Nat

namespace Frames

/-- `allocate_frame_sequential`: the cursor moves on even when no frame is left. -/
def allocateSequential (a : Frames) : Option Nat × Frames := (a.usable[a.next]?, { a with next := a.next + 1 })

/-- `allocate_frame` -/
def allocate (a : Frames) : Option Nat × Frames :=
  match a.freeList with
  | f :: l => (some f, { a with freeList := l })
  | [] => a.allocateSequential

/-- `deallocate_frame` -/
def deallocate (a : Frames) (f : Nat) : Frames := { a with freeList := f :: a.freeList }

/-- The frames handed out so far. -/
def Issued (a : Frames) (f : Nat) : Prop := f ∈ a.usable.take a.next

structure Sound (a : Frames) : Prop where
  usable : a.usable.Nodup
  free : a.freeList.Nodup
  issued : ∀ f ∈ a.freeList, a.Issued f

variable {a b : Frames} {f g : Nat}

/-- What changes when the frames `l` are handed out. -/
structure Took (a : Frames) (l : List Nat) (b : Frames) : Prop where
  sound : Sound b
  nodup : l.Nodup
  /-- Each was free, or is handed out for the first time. -/
  fresh : ∀ g ∈ l, g ∈ a.freeList ∨ ¬ a.Issued g
  taken : ∀ g ∈ l, b.Issued g ∧ g ∉ b.freeList
  free : ∀ g ∈ b.freeList, g ∈ a.freeList
  issued : ∀ g, a.Issued g → b.Issued g

variable {l : List Nat} {o : Option Nat} {c : Frames}

theorem Took.not_mem (h : Took a l b) (hi : a.Issued g) (hf : g ∉ a.freeList) : g ∉ l := by
  intro hg
  rcases h.fresh g hg with h | h
  · exact hf h
  · exact h hi

theorem Took.append {l' : List Nat} (h : Took a l b) (h' : Took b l' c) : Took a (l ++ l') c where
  sound := h'.sound
  nodup := by
    refine nodup_append.mpr ⟨h.nodup, h'.nodup, ?_⟩
    intro x hx y hy he
    obtain ⟨hi, hf⟩ := h.taken x hx
    exact h'.not_mem hi hf (he ▸ hy)
  fresh g hg := by
    rcases mem_append.mp hg with hg | hg
    · exact h.fresh g hg
    · exact (h'.fresh g hg).imp (h.free g) fun hn hi => hn (h.issued g hi)
  taken g hg := by
    rcases mem_append.mp hg with hg | hg
    · obtain ⟨hi, hf⟩ := h.taken g hg
      exact ⟨h'.issued g hi, fun hm => hf (h'.free g hm)⟩
    · exact h'.taken g hg
  free g hg := h.free g (h'.free g hg)
  issued g hg := h'.issued g (h.issued g hg)

theorem issued_succ (h : a.usable[a.next]? = some f) : Issued { a with next := a.next + 1 } g ↔ a.Issued g ∨ g = f := by
  unfold Issued
  rw [take_add_one, h, Option.toList_some, mem_append, mem_singleton]

theorem issued_succ_none (h : a.usable[a.next]? = none) : Issued { a with next := a.next + 1 } g ↔ a.Issued g := by
  unfold Issued
  rw [take_add_one, h, Option.toList_none, append_nil]

theorem not_issued_next (hn : a.usable.Nodup) (h : a.usable[a.next]? = some f) : ¬ a.Issued f := by
  intro hf
  obtain ⟨_, hi⟩ := mem_iff_getElem?.mp hf
  rw [getElem?_take] at hi
  split at hi
  · have := (List.getElem?_inj (List.getElem?_eq_some_iff.mp hi).1 hn).mp (hi.trans h.symm)
    omega
  · cases hi

theorem allocateSequential_took (hs : Sound a) (h : a.allocateSequential = (o, b)) : Took a o.toList b := by
  obtain ⟨h1, rfl⟩ := Prod.mk.inj h
  cases o with
  | none =>
    exact ⟨⟨hs.usable, hs.free, fun g hg => (issued_succ_none h1).mpr (hs.issued g hg)⟩, .nil, by simp, by simp,
      fun g hg => hg, fun g hg => (issued_succ_none h1).mpr hg⟩
  | some f =>
    have hnew := not_issued_next hs.usable h1
    have hmono : ∀ g, a.Issued g → Issued { a with next := a.next + 1 } g := fun g hg => (issued_succ h1).mpr (.inl hg)
    refine ⟨⟨hs.usable, hs.free, fun g hg => hmono g (hs.issued g hg)⟩, by simp, ?_, ?_, fun g hg => hg, hmono⟩
    · intro g hg
      obtain rfl := mem_singleton.mp hg
      exact .inr hnew
    · intro g hg
      obtain rfl := mem_singleton.mp hg
      exact ⟨(issued_succ h1).mpr (.inr rfl), fun hf => hnew (hs.issued g hf)⟩

theorem allocate_took (hs : Sound a) (h : a.allocate = (o, b)) : Took a o.toList b := by
  unfold allocate at h
  split at h
  · rename_i f l hl
    obtain ⟨rfl, rfl⟩ := Prod.mk.inj h
    have hn : f ∉ l ∧ l.Nodup := nodup_cons.mp (hl ▸ hs.free)
    have hmem : ∀ g, g ∈ a.freeList ↔ g = f ∨ g ∈ l := by
      intro g
      rw [hl, mem_cons]
    refine ⟨⟨hs.usable, hn.2, fun g hg => hs.issued g ((hmem g).mpr (.inr hg))⟩, by simp, ?_, ?_, ?_, fun g hg => hg⟩
    · intro g hg
      exact .inl ((hmem g).mpr (.inl (mem_singleton.mp hg)))
    · intro g hg
      obtain rfl := mem_singleton.mp hg
      exact ⟨hs.issued g ((hmem g).mpr (.inl rfl)), hn.1⟩
    · intro g hg
      exact (hmem g).mpr (.inr hg)
  · exact allocateSequential_took hs h

theorem Sound.deallocate (hs : Sound a) (hi : a.Issued f) (hf : f ∉ a.freeList) : Sound (a.deallocate f) where
  usable := hs.usable
  free := nodup_cons.mpr ⟨hf, hs.free⟩
  issued := by
    intro g hg
    rcases mem_cons.mp hg with rfl | hg
    · exact hi
    · exact hs.issued g hg

/-- Calls of `allocate_frame` one after the other: the frames they gave, in order. -/
inductive Takes : Frames → List Nat → Frames → Prop
  | nil (a : Frames) : Takes a [] a
  | got {a a' b : Frames} {f : Nat} {l : List Nat} : a.allocate = (some f, a') → Takes a' l b → Takes a (f :: l) b
  | missed {a a' b : Frames} {l : List Nat} : a.allocate = (none, a') → Takes a' l b → Takes a l b

theorem Takes.append {m : List Nat} (h : a.Takes l b) (h' : b.Takes m c) : a.Takes (l ++ m) c := by
  induction h with
  | nil => exact h'
  | got ha _ ih => exact .got ha (ih h')
  | missed ha _ ih => exact .missed ha (ih h')

theorem Takes.took (hs : a.Sound) (h : a.Takes l b) : Took a l b := by
  induction h with
  | nil a => exact ⟨hs, .nil, by simp, by simp, fun g hg => hg, fun g hg => hg⟩
  | got ha _ ih | missed ha _ ih =>
    have h1 := allocate_took hs ha
    exact h1.append (ih h1.sound)

theorem allocate_usable (a : Frames) : a.allocate.2.usable = a.usable := by
  unfold allocate
  split <;> rfl

theorem Takes.usable (h : a.Takes l b) : b.usable = a.usable := by
  induction h with
  | nil => rfl
  | @got a _ _ _ _ ha _ ih => rw [ih, ← allocate_usable a, ha]
  | @missed a _ _ _ ha _ ih => rw [ih, ← allocate_usable a, ha]

/-- The allocator will not hand the frame out: it is not free, and was handed out before or
    is none of the allocator's. -/
def Out (a : Frames) (f : Nat) : Prop := f ∉ a.freeList ∧ (f ∈ a.usable → a.Issued f)

theorem Takes.out (hs : a.Sound) (h : a.Takes l b) (hg : g ∈ l ∨ a.Out g) : b.Out g := by
  have ht := h.took hs
  rcases hg with hg | hg
  · obtain ⟨hi, hf⟩ := ht.taken g hg
    exact ⟨hf, fun _ => hi⟩
  · exact ⟨fun hf => hg.1 (ht.free g hf), fun hu => ht.issued g (hg.2 (h.usable ▸ hu))⟩

theorem Takes.not_out (hs : a.Sound) (h : a.Takes l b) (hg : g ∈ l) : ¬ a.Out g := by
  intro ho
  have ht := h.took hs
  have hu : g ∈ a.usable := h.usable ▸ mem_of_mem_take (ht.taken g hg).1
  exact ht.not_mem (ho.2 hu) ho.1 hg

/-! ## How many are left -/

/-- The frames that can still be handed out: those on the free list and those not issued yet. -/
def available (a : Frames) : Nat := a.freeList.length + (a.usable.length - a.next)

theorem allocate_some_available (h : a.allocate = (some f, b)) : a.available = b.available + 1 := by
  unfold allocate at h
  split at h
  · rename_i hl
    cases h
    simp only [available, hl, length_cons]
    omega
  · rename_i hl
    obtain ⟨h1, rfl⟩ := Prod.mk.inj h
    have := (List.getElem?_eq_some_iff.mp h1).1
    simp only [available, hl, length_nil]
    omega

theorem allocate_none_available (h : a.allocate = (none, b)) : a.available = 0 ∧ b.available = 0 := by
  unfold allocate at h
  split at h
  · cases h
  rename_i hl
  obtain ⟨h1, rfl⟩ := Prod.mk.inj h
  have := getElem?_eq_none_iff.mp h1
  simp only [available, hl, length_nil]
  omega

theorem allocate_isSome (a : Frames) : a.allocate.1.isSome ↔ 0 < a.available := by
  cases h : a.allocate with
  | mk o b =>
    cases o with
    | none => simp [(allocate_none_available h).1]
    | some f => simp [allocate_some_available h]

theorem Takes.available (h : a.Takes l b) : a.available = b.available + l.length := by
  induction h with
  | nil => rfl
  | got ha _ ih =>
    rw [allocate_some_available ha, ih, length_cons]
    omega
  | missed ha _ ih =>
    have h0 := allocate_none_available ha
    omega

theorem deallocate_available (a : Frames) (f : Nat) : (a.deallocate f).available = a.available + 1 := by
  simp only [deallocate, Frames.available, length_cons]
  omega

end Frames

end Ostoo.Memory
