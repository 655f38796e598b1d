/-
  Ostoo.Fd.Table — a process's fd table (`process.rs`), over any kind of object.

  A table is a vector of optional entries. `alloc_fd` takes the lowest empty slot, or adds
  one while there are fewer than 64; only `set_fd` goes past that. What a table holds is the
  list of its objects, up to order: each operation adds or takes out one of them.
-/

import Mathlib.Data.List.ReduceOption
import Mathlib.Data.List.Perm.Basic

namespace Ostoo.Fd

open List Option

def MAX_FDS : Nat := 64

/-- An object with the one flag the kernel looks at, FD_CLOEXEC. -/
structure FdEntry (α : Type) where
  object : α
  cloexec : Bool
  deriving DecidableEq, Repr

abbrev FdTable (α : Type) := List (Option (FdEntry α))

namespace FdTable

variable {α : Type}

section

variable (t : FdTable α)

/-- `alloc_fd_with_flags`: `none` is `TooManyOpenFiles`. -/
def allocFd (e : FdEntry α) : Option (Nat × FdTable α) :=
  match t.findIdx? (·.isNone) with
  | some i => some (i, t.set i (some e))
  | none => if t.length < MAX_FDS then some (t.length, t ++ [some e]) else none

/-- `get_fd_entry` -/
def getFd (fd : Nat) : Option (FdEntry α) := t[fd]?.join

/-- `get_fd` -/
def getObject (fd : Nat) : Option α := (t.getFd fd).map (·.object)

/-- The part of `close_fd` that empties the slot. -/
def takeFd (fd : Nat) : Option (FdEntry α × FdTable α) := (t.getFd fd).map fun e => (e, t.set fd none)

/-- `set_fd` extends the table so that it has the slot. -/
def extend (fd : Nat) : FdTable α := t ++ List.replicate (fd + 1 - t.length) none

/-- The objects the table holds, in slot order. -/
def objects : List α := t.reduceOption.map (·.object)

/-- How many more objects `alloc_fd` takes. -/
def room : Nat := (t.filter (·.isNone)).length + (MAX_FDS - t.length)

/-- The objects of `close_cloexec_fds`, and the table it leaves. -/
def cloexecObjects : List α := (t.reduceOption.filter (·.cloexec)).map (·.object)

def dropCloexec : FdTable α := t.map fun slot => slot.filter fun e => !e.cloexec

/-- The table after `close_all_fds`. -/
def dropAll : FdTable α := t.map fun _ => none

end

variable {t t' : FdTable α} {e : FdEntry α} {fd : Nat}

theorem getFd_eq_some : t.getFd fd = some e ↔ t[fd]? = some (some e) := by
  unfold getFd
  cases t[fd]? <;> simp

theorem objects_append (t u : FdTable α) : objects (t ++ u) = objects t ++ objects u := by
  simp [objects, reduceOption_append]

@[simp] theorem objects_nil : objects ([] : FdTable α) = [] := rfl

@[simp] theorem objects_cons_none (t : FdTable α) : objects (none :: t) = objects t := by
  simp [objects, reduceOption_cons_of_none]

@[simp] theorem objects_cons_some (e : FdEntry α) (t : FdTable α) : objects (some e :: t) = e.object :: objects t := by
  simp [objects, reduceOption_cons_of_some]

variable {i : Nat}

theorem objects_cons (slot : Option (FdEntry α)) (t : FdTable α) :
    objects (slot :: t) = (slot.map (·.object)).toList ++ objects t := by
  cases slot <;> simp

theorem objects_set {old : Option (FdEntry α)} (h : t[i]? = some old) (slot : Option (FdEntry α)) :
    ((old.map (·.object)).toList ++ objects (t.set i slot)).Perm ((slot.map (·.object)).toList ++ objects t) := by
  obtain ⟨hlt, hold⟩ := List.getElem?_eq_some_iff.mp h
  obtain ⟨l₁, l₂, ht, -, hset⟩ := @exists_of_set _ i slot t hlt
  rw [hset, ht, hold, objects_append, objects_append, objects_cons, objects_cons]
  refine (perm_append_comm_assoc ..).trans (.trans ?_ (perm_append_comm_assoc ..))
  exact (perm_append_comm_assoc ..).append_left _

theorem objects_fill (h : t[i]? = some none) (e : FdEntry α) :
    (objects (t.set i (some e))).Perm (e.object :: objects t) :=
  objects_set h (some e)

theorem objects_empty (h : t[i]? = some (some e)) : (objects t).Perm (e.object :: objects (t.set i none)) :=
  (objects_set h none).symm

theorem objects_replace (h : t[i]? = some (some e)) (e' : FdEntry α) :
    (e.object :: objects (t.set i (some e'))).Perm (e'.object :: objects t) := objects_set h (some e')

variable (h : t.takeFd fd = some (e, t'))
include h

theorem objects_takeFd : (objects t).Perm (e.object :: objects t') := by
  obtain ⟨_, hd, hres⟩ := map_eq_some_iff.mp h
  cases hres
  exact objects_empty (getFd_eq_some.mp hd)

theorem getFd_takeFd (n : Nat) : t'.getFd n = if n = fd then none else t.getFd n := by
  obtain ⟨_, hd, hres⟩ := map_eq_some_iff.mp h
  cases hres
  obtain ⟨hlt, -⟩ := List.getElem?_eq_some_iff.mp (getFd_eq_some.mp hd)
  unfold getFd
  by_cases hn : n = fd
  · simp [hn, hlt]
  · rw [getElem?_set_ne (Ne.symm hn), if_neg hn]

omit h in
theorem takeFd_eq_none : t.takeFd fd = none ↔ t.getFd fd = none := map_eq_none_iff

theorem getObject_takeFd : t.getObject fd = some e.object := by
  obtain ⟨_, hd, hres⟩ := map_eq_some_iff.mp h
  cases hres
  rw [getObject, hd]
  rfl

omit h

theorem getFd_extend (t : FdTable α) (fd n : Nat) : (t.extend fd).getFd n = t.getFd n := by
  unfold getFd extend
  rw [getElem?_append]
  split
  · rfl
  · rename_i hlt
    rw [getElem?_replicate, getElem?_eq_none (Nat.not_lt.mp hlt)]
    split <;> rfl

theorem getObject_extend (t : FdTable α) (fd : Nat) : (t.extend fd).getObject fd = t.getObject fd := by
  rw [getObject, getFd_extend, getObject]

theorem objects_extend (t : FdTable α) (fd : Nat) : objects (t.extend fd) = objects t := by
  have hnone : ∀ n, objects (replicate n none : FdTable α) = [] := by
    intro n
    induction n with
    | zero => rfl
    | succ n ih => rw [replicate_succ, objects_cons_none, ih]
  rw [extend, objects_append, hnone, append_nil]

theorem objects_replaceFd (h : (t.extend fd).takeFd fd = some (e, t')) (e' : FdEntry α) :
    (e.object :: objects (t'.set fd (some e'))).Perm (e'.object :: objects t) := by
  obtain ⟨_, hd, hres⟩ := map_eq_some_iff.mp h
  cases hres
  have hreplace := objects_replace (getFd_eq_some.mp hd) e'
  rw [objects_extend] at hreplace
  rw [set_set]
  exact hreplace

theorem objects_fillFd (h : (t.extend fd).takeFd fd = none) (e : FdEntry α) :
    (objects ((t.extend fd).set fd (some e))).Perm (e.object :: objects t) := by
  have hlen : fd < (t.extend fd).length := by
    simp [extend]
    omega
  have hnone : (t.extend fd)[fd]? = some none := by
    have := takeFd_eq_none.mp h
    rw [getFd, getElem?_eq_getElem hlen, join_some] at this
    rw [getElem?_eq_getElem hlen, this]
  rw [← objects_extend t fd]
  exact objects_fill hnone e

theorem objects_dropAll (t : FdTable α) : objects t.dropAll = [] := by
  induction t with
  | nil => rfl
  | cons slot t ih => simpa [dropAll] using ih

theorem objects_dropCloexec (t : FdTable α) : (objects t).Perm (t.cloexecObjects ++ objects t.dropCloexec) := by
  induction t with
  | nil => exact .nil
  | cons slot t ih =>
    unfold dropCloexec cloexecObjects at ih ⊢
    cases slot with
    | none => simpa [reduceOption_cons_of_none] using ih
    | some e =>
      cases hc : e.cloexec with
      | true =>
        have hgone : Option.filter (fun e => !e.cloexec) (some e) = none := by simp [Option.filter, hc]
        rw [map_cons, hgone]
        simpa [reduceOption_cons_of_some, hc] using ih
      | false =>
        have hstays : Option.filter (fun e => !e.cloexec) (some e) = some e := by simp [Option.filter, hc]
        rw [map_cons, hstays]
        simpa [reduceOption_cons_of_some, hc] using (ih.cons e.object).trans perm_middle.symm

/-! ## Allocation -/

theorem allocFd_cases (h : t.allocFd e = some (i, t')) :
    (t[i]? = some none ∧ t' = t.set i (some e)) ∨ (i = t.length ∧ t.length < MAX_FDS ∧ (∀ slot ∈ t, slot ≠ none) ∧
      t' = t ++ [some e]) := by
  unfold allocFd at h
  split at h
  · rename_i hj
    cases h
    obtain ⟨hlt, hnone, -⟩ := findIdx?_eq_some_iff_getElem.mp hj
    refine .inl ⟨?_, rfl⟩
    rw [getElem?_eq_getElem hlt, isNone_iff_eq_none.mp hnone]
  · rename_i hnone
    split at h
    · rename_i hlt
      cases h
      refine .inr ⟨rfl, hlt, fun slot hs he => ?_, rfl⟩
      have := findIdx?_eq_none_iff.mp hnone slot hs
      rw [he] at this
      cases this
    · cases h

/-- The slot was empty or not there, and holds the entry now; every other slot is as it was. -/
theorem allocFd_fresh (h : t.allocFd e = some (i, t')) :
    t.getFd i = none ∧ t'.getFd i = some e ∧ ∀ j ≠ i, t'.getFd j = t.getFd j := by
  rcases allocFd_cases h with ⟨hi, rfl⟩ | ⟨rfl, -, -, rfl⟩
  · obtain ⟨hlt, -⟩ := List.getElem?_eq_some_iff.mp hi
    refine ⟨by simp [getFd, hi], by simp [getFd, hlt], fun j hj => ?_⟩
    simp [getFd, getElem?_set_ne (Ne.symm hj)]
  refine ⟨by simp [getFd], by simp [getFd], fun j hj => ?_⟩
  unfold getFd
  rcases Nat.lt_or_gt_of_ne hj with hlt | hgt
  · rw [getElem?_append_left hlt]
  · rw [getElem?_eq_none (l := t) (Nat.le_of_lt hgt), getElem?_eq_none]
    simp
    omega

theorem objects_allocFd (h : t.allocFd e = some (i, t')) : (objects t').Perm (e.object :: objects t) := by
  rcases allocFd_cases h with ⟨hi, rfl⟩ | ⟨-, -, -, rfl⟩
  · exact objects_fill hi e
  · rw [objects_append]
    exact perm_append_comm

theorem filter_isNone_set (h : t[i]? = some none) (e : FdEntry α) :
    ((t.set i (some e)).filter (·.isNone)).length + 1 = (t.filter (·.isNone)).length := by
  induction t generalizing i with
  | nil => cases h
  | cons slot t ih =>
    cases i with
    | zero =>
      obtain rfl : slot = none := some.inj h
      simp
    | succ i =>
      have ht := ih (i := i) (by simpa using h)
      cases slot <;> simpa using ht

theorem allocFd_isSome (t : FdTable α) (e : FdEntry α) : (t.allocFd e).isSome ↔ 0 < t.room := by
  unfold allocFd room
  split
  · rename_i i hi
    obtain ⟨hlt, hnone, -⟩ := findIdx?_eq_some_iff_getElem.mp hi
    have hmem : t[i] ∈ t.filter (·.isNone) := mem_filter.mpr ⟨getElem_mem hlt, hnone⟩
    have := length_pos_of_mem hmem
    simp only [isSome_some, true_iff]
    omega
  · rename_i hnone
    have hempty : t.filter (·.isNone) = [] :=
      filter_eq_nil_iff.mpr fun slot hs => by simp [findIdx?_eq_none_iff.mp hnone slot hs]
    rw [hempty]
    split
    · simp
      omega
    · simp
      omega

theorem allocFd_room (h : t.allocFd e = some (i, t')) : t'.room + 1 = t.room := by
  unfold room
  rcases allocFd_cases h with ⟨hi, rfl⟩ | ⟨-, _, -, rfl⟩
  · have := filter_isNone_set hi e
    rw [length_set]
    omega
  · simp
    omega

theorem getFd_set_ne {j : Nat} (h : j ≠ i) (slot : Option (FdEntry α)) :
    FdTable.getFd (t.set i slot) j = t.getFd j := by
  unfold getFd
  rw [getElem?_set_ne (Ne.symm h)]

theorem allocFd_least (h : t.allocFd e = some (fd, t')) : ∀ j < fd, t.getFd j ≠ none := by
  intro j hj
  unfold allocFd at h
  split at h
  · rename_i hi
    cases h
    obtain ⟨hlt, -, hbefore⟩ := findIdx?_eq_some_iff_getElem.mp hi
    have hsome := hbefore j hj
    rw [getFd, getElem?_eq_getElem (Nat.lt_trans hj hlt), join_some]
    exact fun hnone => hsome (by rw [hnone]; rfl)
  · rename_i hnone
    split at h
    · cases h
      have hsome := findIdx?_eq_none_iff.mp hnone _ (getElem_mem hj)
      rw [getFd, getElem?_eq_getElem hj, join_some]
      exact fun hn => by rw [hn] at hsome; cases hsome
    · cases h

theorem allocFd_length (h : t.allocFd e = some (fd, t')) : t'.length ≤ max t.length MAX_FDS := by
  rcases allocFd_cases h with ⟨-, rfl⟩ | ⟨-, hlt, -, rfl⟩
  · rw [length_set]
    exact Nat.le_max_left _ _
  · rw [length_append, length_singleton]
    exact Nat.le_trans hlt (Nat.le_max_right _ _)

/-- What allocations do to a table: they fill free slots, each the first one that was left. -/
structure Filled (t t' : FdTable α) : Prop where
  length : t'.length ≤ max t.length MAX_FDS
  kept : ∀ fd e, t.getFd fd = some e → t'.getFd fd = some e
  least : ∀ fd, t.getFd fd = none → t'.getFd fd ≠ none → ∀ j < fd, t'.getFd j ≠ none

namespace Filled

theorem same (hlen : t'.length ≤ max t.length MAX_FDS) (h : ∀ fd, t'.getFd fd = t.getFd fd) : Filled t t' :=
  ⟨hlen, fun fd _ he => (h fd).trans he, fun fd hnone hsome => absurd ((h fd).trans hnone) hsome⟩

theorem refl (t : FdTable α) : Filled t t := same (Nat.le_max_left _ _) fun _ => rfl

theorem trans {t'' : FdTable α} (h : Filled t t') (h' : Filled t' t'') : Filled t t'' := by
  refine ⟨?_, fun fd e he => h'.kept fd e (h.kept fd e he), fun fd hnone hsome j hj => ?_⟩
  · have h₁ := h.length
    have h₂ := h'.length
    omega
  · cases hmid : t'.getFd fd with
    | none => exact h'.least fd hmid hsome j hj
    | some e =>
      obtain ⟨e', he'⟩ := ne_none_iff_exists'.mp (h.least fd hnone (by rw [hmid]; exact some_ne_none _) j hj)
      rw [h'.kept j e' he']
      exact some_ne_none _

theorem alloc (h : t.allocFd e = some (fd, t')) : Filled t t' := by
  obtain ⟨hfree, -, hothers⟩ := allocFd_fresh h
  refine ⟨allocFd_length h, fun n d hn => ?_, fun n hnone hsome j hj => ?_⟩
  · rw [hothers n (by rintro rfl; rw [hfree] at hn; cases hn), hn]
  · have hn : n = fd := by
      by_contra hne
      rw [hothers n hne] at hsome
      exact hsome hnone
    subst hn
    rw [hothers j (Nat.ne_of_lt hj)]
    exact allocFd_least h j hj

end Filled

end FdTable

end Ostoo.Fd
