/-
  Ostoo.Lib.OrdMap — maps kept in key order, as Rust's `BTreeMap`: a list of entries
  with strictly increasing keys. What a map holds is which entries are in it
  (`mem_insert`, `mem_remove`), and a key holds at most one value (`eq_of_key`).
  A quantity summed over the entries changes with one entry (`total_insert`).
-/

import Mathlib.Algebra.GroupWithZero.Nat
import Mathlib.Order.Lattice
import Mathlib.Data.List.Nodup
import Mathlib.Data.List.Perm.Basic

namespace Ostoo.Lib

open List Option

universe u v

theorem update_eq_some {ι : Type u} [DecidableEq ι] {α : Type v} {f : ι → Option α} {i j : ι} {o : Option α} {a : α}
    (h : Function.update f i o j = some a) : (j = i ∧ o = some a) ∨ (j ≠ i ∧ f j = some a) := by
  rw [Function.update_apply] at h
  split at h
  · rename_i he
    exact .inl ⟨he, h⟩
  · rename_i hne
    exact .inr ⟨hne, h⟩

theorem of_update_none {ι : Type u} [DecidableEq ι] {α : Type v} {f : ι → Option α} {i j : ι} {a : α}
    (h : Function.update f i none j = some a) : j ≠ i ∧ f j = some a :=
  (update_eq_some h).resolve_left fun e => nomatch e.2

/-- A map whose entries stand in key order, each key once. -/
structure OrdMap (κ : Type u) [LinearOrder κ] (α : Type v) where
  entries : List (κ × α)
  sorted : entries.Pairwise fun a b => a.1 < b.1

namespace OrdMap

variable {κ : Type u} [LinearOrder κ] {α : Type v}

def empty : OrdMap κ α := ⟨[], .nil⟩

instance : Membership (κ × α) (OrdMap κ α) := ⟨fun m x => x ∈ m.entries⟩

variable {m : OrdMap κ α} {x : κ × α} {j k : κ} {v w : α} {l : List (κ × α)} {g : κ → α → Nat}

theorem mem_def : x ∈ m ↔ x ∈ m.entries := Iff.rfl

section

variable (m : OrdMap κ α)

def values : List α := m.entries.map (·.2)

def get? (k : κ) : Option α := (m.entries.find? (·.1 == k)).map (·.2)

def insertEntry (k : κ) (v : α) : List (κ × α) → List (κ × α)
  | [] => [(k, v)]
  | x :: l => if k < x.1 then (k, v) :: x :: l else if x.1 < k then x :: insertEntry k v l else (k, v) :: l

theorem mem_insertEntry_imp (h : x ∈ insertEntry k v l) : x = (k, v) ∨ x ∈ l := by
  induction l with
  | nil => simpa [insertEntry] using h
  | cons y l ih =>
    simp only [insertEntry] at h
    split at h
    · simpa using h
    split at h
    · rcases mem_cons.mp h with rfl | h
      · exact .inr mem_cons_self
      · exact (ih h).imp id (mem_cons_of_mem _)
    · rcases mem_cons.mp h with h | h
      · exact .inl h
      · exact .inr (.tail _ h)

theorem insertEntry_sorted (k : κ) (v : α) (h : l.Pairwise fun a b => a.1 < b.1) :
    (insertEntry k v l).Pairwise fun a b => a.1 < b.1 := by
  induction l with
  | nil => simp [insertEntry]
  | cons y l ih =>
    obtain ⟨hy, hl⟩ := pairwise_cons.mp h
    simp only [insertEntry]
    split
    · rename_i hk
      refine pairwise_cons.mpr ⟨fun x hx => ?_, h⟩
      rcases mem_cons.mp hx with rfl | hx
      · exact hk
      · exact lt_trans hk (hy x hx)
    · split
      · rename_i hk
        refine pairwise_cons.mpr ⟨fun x hx => ?_, ih hl⟩
        rcases mem_insertEntry_imp hx with rfl | hx
        · exact hk
        · exact hy x hx
      · rename_i h1 h2
        have he : k = y.1 := le_antisymm (not_lt.mp h2) (not_lt.mp h1)
        exact pairwise_cons.mpr ⟨fun x hx => he ▸ hy x hx, hl⟩

def insert (k : κ) (v : α) : OrdMap κ α := ⟨insertEntry k v m.entries, insertEntry_sorted k v m.sorted⟩

def remove (k : κ) : OrdMap κ α := ⟨m.entries.filter (·.1 ≠ k), m.sorted.filter _⟩

/-- The entries with a key below `hi`, in order: `range(..hi)`. -/
def rangeTo (hi : κ) : List (κ × α) := m.entries.filter (·.1 < hi)

theorem keys_nodup : (m.entries.map (·.1)).Nodup :=
  pairwise_map.mpr (m.sorted.imp fun h => ne_of_lt h)

end

theorem eq_of_key {y : κ × α} (hx : x ∈ m) (hy : y ∈ m) (h : x.1 = y.1) : x = y :=
  inj_on_of_nodup_map m.keys_nodup hx hy h

@[simp] theorem not_mem_empty (x : κ × α) : x ∉ (empty : OrdMap κ α) := by simp [mem_def, empty]

@[simp] theorem mem_remove : x ∈ m.remove k ↔ x ∈ m ∧ x.1 ≠ k := by
  simp [mem_def, remove]

@[simp] theorem mem_rangeTo {hi : κ} : x ∈ m.rangeTo hi ↔ x ∈ m ∧ x.1 < hi := by
  simp [mem_def, rangeTo]

theorem mem_values : v ∈ m.values ↔ ∃ k, (k, v) ∈ m := by
  simp [mem_def, values]

theorem mem_insertEntry (hl : l.Pairwise fun a b => a.1 < b.1) :
    x ∈ insertEntry k v l ↔ x = (k, v) ∨ (x ∈ l ∧ x.1 ≠ k) := by
  induction l with
  | nil => simp [insertEntry]
  | cons y l ih =>
    obtain ⟨hy, hl'⟩ := pairwise_cons.mp hl
    simp only [insertEntry]
    split
    · rename_i hk
      have hne : ∀ z ∈ y :: l, z.1 ≠ k := by
        intro z hz
        rcases mem_cons.mp hz with rfl | hz
        · exact ne_of_gt hk
        · exact ne_of_gt (lt_trans hk (hy z hz))
      rw [mem_cons]
      exact or_congr_right ⟨fun h => ⟨h, hne x h⟩, fun h => h.1⟩
    · split
      · rename_i hk
        rw [mem_cons, ih hl', mem_cons]
        constructor
        · rintro (rfl | h | h)
          · exact .inr ⟨.inl rfl, ne_of_lt hk⟩
          · exact .inl h
          · exact .inr ⟨.inr h.1, h.2⟩
        · rintro (h | ⟨h | h, hne⟩)
          · exact .inr (.inl h)
          · exact .inl h
          · exact .inr (.inr ⟨h, hne⟩)
      · rename_i h1 h2
        have he : y.1 = k := le_antisymm (not_lt.mp h1) (not_lt.mp h2)
        rw [mem_cons, mem_cons]
        constructor
        · rintro (h | h)
          · exact .inl h
          · exact .inr ⟨.inr h, fun hx => absurd (hy x h) (by rw [he, hx]; exact lt_irrefl k)⟩
        · rintro (h | ⟨rfl | h, hne⟩)
          · exact .inl h
          · exact absurd he hne
          · exact .inr h

@[simp] theorem mem_insert : x ∈ m.insert k v ↔ x = (k, v) ∨ (x ∈ m ∧ x.1 ≠ k) := mem_insertEntry m.sorted

theorem get?_eq_some : m.get? k = some v ↔ (k, v) ∈ m := by
  simp only [get?, map_eq_some_iff]
  constructor
  · rintro ⟨x, hx, rfl⟩
    have hk : x.1 = k := by simpa using find?_some hx
    rw [← hk]
    exact mem_of_find?_eq_some hx
  · intro h
    cases hf : m.entries.find? (·.1 == k) with
    | none => exact absurd (find?_eq_none.mp hf _ h) (by simp)
    | some x =>
      have hk : x.1 = k := by simpa using find?_some hf
      have := eq_of_key (m := m) (mem_of_find?_eq_some hf) h hk
      exact ⟨x, rfl, by rw [this]⟩

theorem get?_eq_none : m.get? k = none ↔ ∀ v, (k, v) ∉ m := by
  rw [eq_none_iff_forall_ne_some]
  exact forall_congr' fun v => not_congr get?_eq_some

@[simp] theorem get?_empty (k : κ) : (empty : OrdMap κ α).get? k = none := rfl

theorem get?_insert (m : OrdMap κ α) (k : κ) (v : α) (j : κ) :
    (m.insert k v).get? j = if j = k then some v else m.get? j := by
  apply ext
  intro w
  rw [get?_eq_some, mem_insert]
  by_cases h : j = k
  · simp [h, eq_comm]
  · simp [h, get?_eq_some]

theorem get?_insert_eq (m : OrdMap κ α) (k : κ) (v : α) : (m.insert k v).get? = Function.update m.get? k (some v) := by
  funext j
  rw [get?_insert, Function.update_apply]

theorem get?_insert_cases (h : (m.insert k v).get? j = some w) : (j = k ∧ w = v) ∨ (j ≠ k ∧ m.get? j = some w) :=
  (update_eq_some (get?_insert_eq m k v ▸ h)).imp_left (And.imp_right fun he => (some.inj he).symm)

theorem get?_remove (m : OrdMap κ α) (k j : κ) : (m.remove k).get? j = if j = k then none else m.get? j := by
  apply ext
  intro w
  rw [get?_eq_some, mem_remove]
  by_cases h : j = k
  · simp [h]
  · simp [h, get?_eq_some]

theorem get?_remove_eq (m : OrdMap κ α) (k : κ) : (m.remove k).get? = Function.update m.get? k none := by
  funext j
  rw [get?_remove, Function.update_apply]

/-- Rewrite the value of a key, if it has one: `get_mut(k).map(f)`. -/
def alter (m : OrdMap κ α) (k : κ) (f : α → α) : OrdMap κ α :=
  match m.get? k with
  | some v => m.insert k (f v)
  | none => m

theorem get?_of_remove (h : (m.remove k).get? j = some v) : j ≠ k ∧ m.get? j = some v :=
  of_update_none (get?_remove_eq m k ▸ h)

theorem get?_alter (m : OrdMap κ α) (k : κ) (f : α → α) (j : κ) :
    (m.alter k f).get? j = if j = k then (m.get? j).map f else m.get? j := by
  unfold alter
  split
  · rename_i hv
    rw [get?_insert]
    by_cases h : j = k
    · simp [h, hv]
    · simp [h]
  · rename_i hv
    by_cases h : j = k
    · simp [h, hv]
    · simp [h]

theorem get?_alter_cases {f : α → α} (h : (m.alter k f).get? j = some w) :
    (j = k ∧ ∃ v, m.get? k = some v ∧ w = f v) ∨ (j ≠ k ∧ m.get? j = some w) := by
  rw [get?_alter] at h
  split at h
  · rename_i he
    obtain ⟨v, hv, rfl⟩ := map_eq_some_iff.mp h
    exact .inl ⟨he, v, he ▸ hv, rfl⟩
  · rename_i hne
    exact .inr ⟨hne, h⟩

theorem mem_values_alter {f : α → α} (h : w ∈ (m.alter k f).values) : ∃ v ∈ m.values, w = v ∨ w = f v := by
  obtain ⟨j, hj⟩ := mem_values.mp h
  rw [← get?_eq_some, get?_alter] at hj
  split at hj
  · obtain ⟨v, hv, rfl⟩ := map_eq_some_iff.mp hj
    exact ⟨v, mem_values.mpr ⟨j, get?_eq_some.mp hv⟩, .inr rfl⟩
  · exact ⟨w, mem_values.mpr ⟨j, get?_eq_some.mp hj⟩, .inl rfl⟩

/-- Insert a list of entries, in order. -/
def insertAll (m : OrdMap κ α) (l : List (κ × α)) : OrdMap κ α := l.foldl (fun m x => m.insert x.1 x.2) m

/-- Remove a list of keys. -/
def removeAll (m : OrdMap κ α) (l : List κ) : OrdMap κ α := l.foldl remove m

theorem mem_insertAll (hl : l.Pairwise fun a b => a.1 ≠ b.1) :
    ∀ {m : OrdMap κ α} {x : κ × α}, x ∈ m.insertAll l ↔ x ∈ l ∨ (x ∈ m ∧ ∀ y ∈ l, x.1 ≠ y.1) := by
  induction l with
  | nil => intro m x; simp [insertAll]
  | cons y l ih =>
    intro m x
    obtain ⟨hy, hl'⟩ := pairwise_cons.mp hl
    have hc : m.insertAll (y :: l) = (m.insert y.1 y.2).insertAll l := rfl
    rw [hc, ih hl', mem_insert]
    constructor
    · rintro (h | ⟨rfl | ⟨h, hne⟩, hall⟩)
      · exact .inl (.tail _ h)
      · exact .inl mem_cons_self
      · exact .inr ⟨h, fun z hz => by
          rcases mem_cons.mp hz with rfl | hz
          · exact hne
          · exact hall z hz⟩
    · rintro (h | ⟨h, hall⟩)
      · rcases mem_cons.mp h with rfl | h
        · exact .inr ⟨.inl rfl, fun z hz => hy z hz⟩
        · exact .inl h
      · exact .inr ⟨.inr ⟨h, hall y mem_cons_self⟩, fun z hz => hall z (.tail _ hz)⟩

theorem mem_removeAll {l : List κ} : ∀ {m : OrdMap κ α} {x : κ × α}, x ∈ m.removeAll l ↔ x ∈ m ∧ x.1 ∉ l := by
  induction l with
  | nil => intro m x; simp [removeAll]
  | cons k l ih =>
    intro m x
    have hc : m.removeAll (k :: l) = (m.remove k).removeAll l := rfl
    rw [hc, ih, mem_remove, mem_cons, not_or, and_assoc]

/-! ## Totals -/

/-- The sum of a quantity over the entries. -/
def total (g : κ → α → Nat) (m : OrdMap κ α) : Nat := (m.entries.map fun x => g x.1 x.2).sum

theorem entries_nodup (m : OrdMap κ α) : m.entries.Nodup := m.keys_nodup.of_map

theorem insert_perm (m : OrdMap κ α) (k : κ) (v : α) :
    (m.insert k v).entries.Perm ((k, v) :: (m.remove k).entries) := by
  refine (perm_ext_iff_of_nodup (m.insert k v).entries_nodup ?_).mpr ?_
  · refine nodup_cons.mpr ⟨?_, (m.remove k).entries_nodup⟩
    intro h
    exact (mem_remove.mp h).2 rfl
  · intro x
    rw [mem_cons]
    exact mem_insert.trans (or_congr_right mem_remove.symm)

theorem remove_perm (h : m.get? k = some v) : m.entries.Perm ((k, v) :: (m.remove k).entries) := by
  have hm := get?_eq_some.mp h
  refine (perm_ext_iff_of_nodup m.entries_nodup ?_).mpr ?_
  · refine nodup_cons.mpr ⟨?_, (m.remove k).entries_nodup⟩
    intro h
    exact (mem_remove.mp h).2 rfl
  · intro x
    rw [mem_cons]
    by_cases hk : x.1 = k
    · constructor
      · intro hx
        exact .inl (eq_of_key hx hm hk)
      · intro hx
        rcases hx with rfl | hx
        · exact hm
        · exact (mem_remove.mp hx).1
    · constructor
      · intro hx
        exact .inr (mem_remove.mpr ⟨hx, hk⟩)
      · intro hx
        rcases hx with rfl | hx
        · exact absurd rfl hk
        · exact (mem_remove.mp hx).1

theorem remove_of_get?_eq_none (h : m.get? k = none) : (m.remove k).entries = m.entries := by
  refine filter_eq_self.mpr ?_
  intro x hx
  have hne : x.1 ≠ k := by
    intro he
    exact get?_eq_none.mp h x.2 (he ▸ hx)
  simpa using hne

@[simp] theorem total_empty (g : κ → α → Nat) : (empty : OrdMap κ α).total g = 0 := rfl

theorem total_remove (h : m.get? k = some v) : (m.remove k).total g + g k v = m.total g := by
  have := ((remove_perm h).map fun x => g x.1 x.2).sum_nat
  simp only [map_cons, sum_cons] at this
  unfold total
  omega

/-- Inserting exchanges what the key stood for with what it stands for now. -/
theorem total_insert (g : κ → α → Nat) (m : OrdMap κ α) (k : κ) (v : α) :
    (m.insert k v).total g + (m.get? k).elim 0 (g k) = m.total g + g k v := by
  have hi := ((insert_perm m k v).map fun x => g x.1 x.2).sum_nat
  simp only [map_cons, sum_cons] at hi
  cases h : m.get? k with
  | none =>
    rw [remove_of_get?_eq_none h] at hi
    simp only [Option.elim, total]
    omega
  | some w =>
    have hr := total_remove (g := g) h
    simp only [total] at hr
    simp only [Option.elim, total]
    omega

theorem total_alter (h : m.get? k = some v) (f : α → α) : (m.alter k f).total g + g k v = m.total g + g k (f v) := by
  have := total_insert g m k (f v)
  rw [h] at this
  unfold alter
  rw [h]
  exact this

theorem le_total (h : m.get? k = some v) : g k v ≤ m.total g := by
  have := total_remove (g := g) h
  omega

/-! ## Entries by group -/

/-- Going through the groups one by one meets every entry of every group. -/
theorem flatMap_groups_perm {ι β γ : Type} [DecidableEq ι] {keys : List ι} (hn : keys.Nodup) {l : List β} (h : β → ι)
    (hc : ∀ x ∈ l, h x ∈ keys) (g : β → List γ) :
    (keys.flatMap fun i => (l.filter fun x => h x = i).flatMap g).Perm (l.flatMap g) := by
  induction l with
  | nil => simp
  | cons x l ih =>
    have hx : h x ∈ keys := hc x mem_cons_self
    have hl := ih fun y hy => hc y (.tail _ hy)
    rw [flatMap_cons]
    refine Perm.trans ?_ (hl.append_left (g x))
    obtain ⟨before, after, rfl⟩ := append_of_mem hx
    obtain ⟨hb, ha⟩ : h x ∉ before ∧ h x ∉ after := by
      rw [nodup_append] at hn
      exact ⟨fun hm => hn.2.2 _ hm _ mem_cons_self rfl, (nodup_cons.mp hn.2.1).1⟩
    have hskip : ∀ ks : List ι, h x ∉ ks →
        (ks.flatMap fun i => ((x :: l).filter fun y => h y = i).flatMap g) =
          ks.flatMap fun i => (l.filter fun y => h y = i).flatMap g := by
      intro ks hks
      refine flatMap_congr fun i hi => ?_
      rw [filter_cons_of_neg]
      simp only [decide_eq_true_eq]
      intro he
      exact hks (he ▸ hi)
    simp only [flatMap_append, flatMap_cons, hskip before hb, hskip after ha]
    rw [filter_cons_of_pos (by simp), flatMap_cons, append_assoc]
    exact perm_append_comm_assoc _ _ _

end OrdMap

end Ostoo.Lib
