/-
  Ostoo.Memory.Mapper — one address space's page tables.

  The tables are changed by the x86_64 crate's mapper, which is not part of the
  repository: it is a parameter here (`Mapper`), and `Mapper.Lawful` is what is assumed of
  it on user-half pages. `map_to` refuses a leaf word that is not zero, takes the frames of
  missing tables from the allocator one by one and keeps those it linked when it fails;
  `unmap` answers with a frame only if it cleared the leaf that held it; `update_flags`
  never touches the frame of a leaf.

  `Tree` is a mapper that has these properties: the tables of each level under the address
  bits that lead to them.
-/

import Mathlib.Order.Nat
import Ostoo.Lib.OrdMap
import Ostoo.Memory.Frames
import Ostoo.Memory.Page

namespace Ostoo.Memory

open Ostoo.Lib List OrdMap

/-- A leaf word that is not zero. -/
abbrev Entry := Nat × PtFlags

/-- What the walk of `cleanup_user_address_space` frees. -/
inductive Met where
  | leaf (frame : Nat)
  | table (frame : Nat)
  deriving DecidableEq, Repr

/-- The addresses of the user half: PML4 entries 0 to 255. -/
def USER_END : Nat := 2 ^ 47

/-- An aligned address and a length that end in the user half do so in whole pages. -/
theorem pages_le_userEnd {addr len : Nat} (ha : Aligned addr) (h : addr + len ≤ USER_END) :
    addr + pagesOf len * PAGE_SIZE ≤ USER_END := by
  obtain ⟨_, rfl⟩ := aligned_iff.mp ha
  simp only [pagesOf, PAGE_SIZE, PAGE_MASK, USER_END] at *
  omega

/-- Page tables under one PML4, and the mapper's operations on them. -/
structure Mapper (τ : Type) where
  /-- The tables of a PML4 whose user half is zero. -/
  fresh : τ
  /-- The user half's leaf words that are not zero, by page address. -/
  leaves : τ → OrdMap Nat Entry
  /-- The frames of the user half's PDPTs, PDs and PTs. -/
  tables : τ → List Nat
  /-- `map_to`: whether it succeeded; `none` is a panic. -/
  mapTo : τ → Frames → (vaddr frame : Nat) → PtFlags → Option (Bool × τ × Frames)
  /-- `unmap`: the frame, if the page was mapped. -/
  unmap : τ → (vaddr : Nat) → Option (Nat × τ)
  /-- `update_flags` -/
  updateFlags : τ → (vaddr : Nat) → PtFlags → τ
  /-- The frames met by a walk over the user half that visits the children of a table before it. -/
  walk : τ → List Met

structure Mapper.Lawful {τ : Type} (M : Mapper τ) : Prop where
  fresh_leaves : M.leaves M.fresh = .empty
  fresh_tables : M.tables M.fresh = []
  mapTo_tables : ∀ {t t' : τ} {a a' : Frames} {v f : Nat} {fl : PtFlags} {ok : Bool}, v < USER_END →
    M.mapTo t a v f fl = some (ok, t', a') → ∃ l, a.Takes l a' ∧ (M.tables t').Perm (l ++ M.tables t)
  mapTo_leaves : ∀ {t t' : τ} {a a' : Frames} {v f : Nat} {fl : PtFlags} {ok : Bool}, v < USER_END →
    M.mapTo t a v f fl = some (ok, t', a') →
      if ok then (M.leaves t).get? v = none ∧ M.leaves t' = (M.leaves t).insert v (f, fl) else M.leaves t' = M.leaves t
  unmap_leaf : ∀ {t t' : τ} {v f : Nat}, v < USER_END → M.unmap t v = some (f, t') →
    (∃ fl, (M.leaves t).get? v = some (f, fl)) ∧ M.leaves t' = (M.leaves t).remove v ∧ M.tables t' = M.tables t
  updateFlags_leaf : ∀ {t : τ} {v : Nat} {fl : PtFlags}, v < USER_END →
    M.leaves (M.updateFlags t v fl) = (M.leaves t).alter v (fun e => (e.1, fl)) ∧
      M.tables (M.updateFlags t v fl) = M.tables t
  walk_perm : ∀ t, (M.walk t).Perm ((M.leaves t).values.map (fun e => .leaf e.1) ++ (M.tables t).map .table)

/-- How many tables on the way to `w` are not on the way to `v`. -/
def apart (v w : Nat) : Nat := [39, 30, 21].countP fun b => v / 2 ^ b ≠ w / 2 ^ b

/-- How many of the three tables on the way to a page are missing. -/
structure Descent {τ : Type} (M : Mapper τ) where
  missing : τ → (vaddr : Nat) → Nat

/-- When the mapper's operations succeed. -/
structure Descent.Lawful {τ : Type} {M : Mapper τ} (D : Descent M) : Prop where
  of_leaf : ∀ {t : τ} {v : Nat} {e : Entry}, v < USER_END → (M.leaves t).get? v = some e →
    ∀ w, D.missing t w ≤ apart v w
  /-- `map_to` panics only where it creates a table for a leaf without PRESENT. -/
  mapTo_returns : ∀ {t : τ} {a : Frames} {v f : Nat} {fl : PtFlags}, v < USER_END →
    fl.present = true ∨ D.missing t v = 0 → (M.mapTo t a v f fl).isSome
  mapTo_fails : ∀ {t t' : τ} {a a' : Frames} {v f : Nat} {fl : PtFlags}, v < USER_END →
    M.mapTo t a v f fl = some (false, t', a') → (M.leaves t).get? v ≠ none ∨ a.available < D.missing t v
  mapTo_takes : ∀ {t t' : τ} {a a' : Frames} {v f : Nat} {fl : PtFlags}, v < USER_END →
    M.mapTo t a v f fl = some (true, t', a') → a.available = a'.available + D.missing t v
  mapTo_missing : ∀ {t t' : τ} {a a' : Frames} {v f : Nat} {fl : PtFlags} {ok : Bool}, v < USER_END →
    M.mapTo t a v f fl = some (ok, t', a') → ∀ w, D.missing t' w ≤ D.missing t w
  unmap_present : ∀ {t : τ} {v f : Nat} {fl : PtFlags}, v < USER_END → (M.leaves t).get? v = some (f, fl) →
    fl.present = true → (M.unmap t v).isSome
  unmap_missing : ∀ {t t' : τ} {v f : Nat}, v < USER_END → M.unmap t v = some (f, t') → D.missing t' = D.missing t
  updateFlags_missing : ∀ {t : τ} {v : Nat} {fl : PtFlags}, v < USER_END →
    D.missing (M.updateFlags t v fl) = D.missing t

/-! ## A mapper -/

/-- The tables by the address bits above them: 39 and up for a PDPT, 30 for a PD, 21 for a PT. -/
structure Tables where
  pdpts : OrdMap Nat Nat
  pds : OrdMap Nat Nat
  pts : OrdMap Nat Nat
  leaves : OrdMap Nat Entry

namespace Tables

/-- Every node hangs below one of the level above. -/
structure Linked (t : Tables) : Prop where
  pd : ∀ x ∈ t.pds, ∃ f, (x.1 / 512, f) ∈ t.pdpts
  pt : ∀ x ∈ t.pts, ∃ f, (x.1 / 512, f) ∈ t.pds
  leaf : ∀ x ∈ t.leaves, ∃ f, (x.1 / 2 ^ 21, f) ∈ t.pts

/-- `create_next_table`: an entry that is zero gets a new table. The parent's flags are
    those of the leaf, and a table that is not present is a panic. -/
def createNextTable (nodes : OrdMap Nat Nat) (a : Frames) (k : Nat) (present : Bool) :
    Option (Bool × OrdMap Nat Nat × Frames) :=
  match nodes.get? k with
  | some _ => some (true, nodes, a)
  | none => match a.allocate with
    | (none, a) => some (false, nodes, a)
    | (some f, a) => if present then some (true, nodes.insert k f, a) else none

section

variable (t : Tables)

/-- The page's PT is there: the leaf word is set if it is zero. -/
def setLeaf (v f : Nat) (fl : PtFlags) : Bool × Tables :=
  match t.leaves.get? v with
  | some _ => (false, t)
  | none => (true, { t with leaves := t.leaves.insert v (f, fl) })

def mapTo (a : Frames) (v f : Nat) (fl : PtFlags) : Option (Bool × Tables × Frames) := do
  let (ok, pdpts, a) ← createNextTable t.pdpts a (v / 2 ^ 39) fl.present
  let t := { t with pdpts := pdpts }
  if !ok then pure (false, t, a) else
  let (ok, pds, a) ← createNextTable t.pds a (v / 2 ^ 30) fl.present
  let t := { t with pds := pds }
  if !ok then pure (false, t, a) else
  let (ok, pts, a) ← createNextTable t.pts a (v / 2 ^ 21) fl.present
  let t := { t with pts := pts }
  if !ok then pure (false, t, a) else
  let (ok, t) := t.setLeaf v f fl
  pure (ok, t, a)

/-- A leaf that is not present counts as not mapped, and stays. -/
def unmap (v : Nat) : Option (Nat × Tables) :=
  match t.leaves.get? v with
  | some (f, fl) => if fl.present then some (f, { t with leaves := t.leaves.remove v }) else none
  | none => none

def updateFlags (v : Nat) (fl : PtFlags) : Tables :=
  { t with leaves := t.leaves.alter v fun e => (e.1, fl) }

def ptWalk (x : Nat × Nat) : List Met :=
  (t.leaves.entries.filter fun y => y.1 / 2 ^ 21 = x.1).map (fun y => .leaf y.2.1) ++ [.table x.2]

def pdWalk (x : Nat × Nat) : List Met :=
  (t.pts.entries.filter fun y => y.1 / 512 = x.1).flatMap t.ptWalk ++ [.table x.2]

def pdptWalk (x : Nat × Nat) : List Met :=
  (t.pds.entries.filter fun y => y.1 / 512 = x.1).flatMap t.pdWalk ++ [.table x.2]

def walk : List Met := t.pdpts.entries.flatMap t.pdptWalk

def frames : List Nat := t.pdpts.values ++ (t.pds.values ++ t.pts.values)

end

variable {t t' : Tables} {a a' : Frames} {v f k : Nat} {fl : PtFlags} {ok present : Bool}
  {nodes nodes' : OrdMap Nat Nat} {α : Type}

/-- The node is there if it succeeded, and at most the node is new, for a present leaf. -/
theorem createNextTable_nodes (h : createNextTable nodes a k present = some (ok, nodes', a')) :
    (ok = true → ∃ f, (k, f) ∈ nodes') ∧ (∀ x ∈ nodes, x ∈ nodes') ∧
      ∀ x ∈ nodes', x ∈ nodes ∨ (x.1 = k ∧ present = true) := by
  unfold createNextTable at h
  split at h
  · rename_i f hf
    cases h
    exact ⟨fun _ => ⟨f, get?_eq_some.mp hf⟩, fun x hx => hx, fun x hx => .inl hx⟩
  rename_i hn
  split at h
  · cases h
    exact ⟨nofun, fun x hx => hx, fun x hx => .inl hx⟩
  rename_i f _ _
  split at h
  · rename_i hpresent
    cases h
    refine ⟨fun _ => ⟨f, mem_insert.mpr (.inl rfl)⟩, ?_, ?_⟩
    · intro x hx
      refine mem_insert.mpr (.inr ⟨hx, ?_⟩)
      intro he
      exact get?_eq_none.mp hn x.2 (he ▸ hx)
    · intro x hx
      rcases mem_insert.mp hx with rfl | ⟨hx, -⟩
      · exact .inr ⟨rfl, hpresent⟩
      · exact .inl hx
  · cases h

theorem createNextTable_takes (h : createNextTable nodes a k present = some (ok, nodes', a')) :
    ∃ l, a.Takes l a' ∧ nodes'.values.Perm (l ++ nodes.values) := by
  unfold createNextTable at h
  split at h
  · cases h
    exact ⟨[], .nil a, .rfl⟩
  rename_i hn
  split at h
  · rename_i a1 ha
    cases h
    exact ⟨[], .missed ha (.nil _), .rfl⟩
  rename_i f _ ha
  split at h
  · cases h
    refine ⟨[f], .got ha (.nil _), ?_⟩
    have hp := (insert_perm nodes k f).map (·.2)
    rw [remove_of_get?_eq_none hn] at hp
    exact hp
  · cases h

/-- `map_to` as its three descents and the leaf. -/
theorem mapTo_cases (h : t.mapTo a v f fl = some (ok, t', a')) :
    ∃ ok1 pdpts a1, createNextTable t.pdpts a (v / 2 ^ 39) fl.present = some (ok1, pdpts, a1) ∧
      ((ok1 = false ∧ ok = false ∧ t' = { t with pdpts := pdpts } ∧ a' = a1) ∨
      (ok1 = true ∧ ∃ ok2 pds a2, createNextTable t.pds a1 (v / 2 ^ 30) fl.present = some (ok2, pds, a2) ∧
        ((ok2 = false ∧ ok = false ∧ t' = { t with pdpts := pdpts, pds := pds } ∧ a' = a2) ∨
        (ok2 = true ∧ ∃ ok3 pts, createNextTable t.pts a2 (v / 2 ^ 21) fl.present = some (ok3, pts, a') ∧
          ((ok3 = false ∧ ok = false ∧ t' = { t with pdpts := pdpts, pds := pds, pts := pts }) ∨
          (ok3 = true ∧ setLeaf { t with pdpts := pdpts, pds := pds, pts := pts } v f fl = (ok, t'))))))) := by
  obtain ⟨⟨ok1, pdpts, a1⟩, h1, h⟩ := Option.bind_eq_some_iff.mp h
  refine ⟨ok1, pdpts, a1, h1, ?_⟩
  cases ok1 with
  | false =>
    cases h
    exact .inl ⟨rfl, rfl, rfl, rfl⟩
  | true =>
    obtain ⟨⟨ok2, pds, a2⟩, h2, h⟩ := Option.bind_eq_some_iff.mp h
    refine .inr ⟨rfl, ok2, pds, a2, h2, ?_⟩
    cases ok2 with
    | false =>
      cases h
      exact .inl ⟨rfl, rfl, rfl, rfl⟩
    | true =>
      obtain ⟨⟨ok3, pts, _⟩, h3, h⟩ := Option.bind_eq_some_iff.mp h
      cases ok3 with
      | false =>
        cases h
        exact .inr ⟨rfl, false, pts, h3, .inl ⟨rfl, rfl, rfl⟩⟩
      | true =>
        cases h
        exact .inr ⟨rfl, true, pts, h3, .inr ⟨rfl, rfl⟩⟩

theorem Linked.pdpts (h : t.Linked) (hm : ∀ x ∈ t.pdpts, x ∈ nodes) : Linked { t with pdpts := nodes } where
  pd x hx := (h.pd x hx).imp fun _ hf => hm _ hf
  pt := h.pt
  leaf := h.leaf

theorem Linked.pds (h : t.Linked) (hm : ∀ x ∈ t.pds, x ∈ nodes) (hk : ∀ x ∈ nodes, x ∈ t.pds ∨ x.1 = k)
    (hp : ∃ f, (k / 512, f) ∈ t.pdpts) : Linked { t with pds := nodes } where
  pd x hx := by
    rcases hk x hx with hx | rfl
    · exact h.pd x hx
    · exact hp
  pt x hx := (h.pt x hx).imp fun _ hf => hm _ hf
  leaf := h.leaf

theorem Linked.pts (h : t.Linked) (hm : ∀ x ∈ t.pts, x ∈ nodes) (hk : ∀ x ∈ nodes, x ∈ t.pts ∨ x.1 = k)
    (hp : ∃ f, (k / 512, f) ∈ t.pds) : Linked { t with pts := nodes } where
  pd := h.pd
  pt x hx := by
    rcases hk x hx with hx | rfl
    · exact h.pt x hx
    · exact hp
  leaf x hx := (h.leaf x hx).imp fun _ hf => hm _ hf

theorem Linked.setLeaf (h : t.Linked) (hp : ∃ f, (v / 2 ^ 21, f) ∈ t.pts) (hs : t.setLeaf v f fl = (ok, t')) :
    t'.Linked := by
  unfold Tables.setLeaf at hs
  split at hs
  · cases hs
    exact h
  cases hs
  refine ⟨h.pd, h.pt, ?_⟩
  intro x hx
  rcases mem_insert.mp hx with rfl | ⟨hx, -⟩
  · exact hp
  · exact h.leaf x hx

theorem div_pow_30 (v : Nat) : v / 2 ^ 30 / 512 = v / 2 ^ 39 := Nat.div_div_eq_div_mul ..

theorem div_pow_21 (v : Nat) : v / 2 ^ 21 / 512 = v / 2 ^ 30 := Nat.div_div_eq_div_mul ..

variable (h : t.mapTo a v f fl = some (ok, t', a'))
include h

theorem Linked.mapTo (hl : t.Linked) : t'.Linked := by
  obtain ⟨_, pdpts, _, h1, h⟩ := mapTo_cases h
  obtain ⟨hk1, hm1, -⟩ := createNextTable_nodes h1
  have hl := hl.pdpts hm1
  rcases h with ⟨-, -, rfl, -⟩ | ⟨hok1, ok2, pds, a2, h2, h⟩
  · exact hl
  obtain ⟨hk2, hm2, hn2⟩ := createNextTable_nodes h2
  have hl := hl.pds hm2 (fun x hx => (hn2 x hx).imp_right And.left) (by rw [div_pow_30]; exact hk1 hok1)
  rcases h with ⟨-, -, rfl, -⟩ | ⟨hok2, ok3, pts, h3, h⟩
  · exact hl
  obtain ⟨hk3, hm3, hn3⟩ := createNextTable_nodes h3
  have hl := hl.pts hm3 (fun x hx => (hn3 x hx).imp_right And.left) (by rw [div_pow_21]; exact hk2 hok2)
  rcases h with ⟨-, -, rfl⟩ | ⟨hok3, h⟩
  · exact hl
  · exact hl.setLeaf (hk3 hok3) h

theorem mapTo_leaves :
    if ok then t.leaves.get? v = none ∧ t'.leaves = t.leaves.insert v (f, fl) else t'.leaves = t.leaves := by
  obtain ⟨_, _, a1, -, h⟩ := mapTo_cases h
  rcases h with ⟨-, rfl, rfl, -⟩ | ⟨-, ok2, pds, a2, -, h⟩
  · rfl
  rcases h with ⟨-, rfl, rfl, -⟩ | ⟨-, ok3, pts, -, h⟩
  · rfl
  rcases h with ⟨-, rfl, rfl⟩ | ⟨-, h⟩
  · rfl
  unfold setLeaf at h
  split at h
  · cases h
    rfl
  · rename_i hn
    cases h
    exact ⟨hn, rfl⟩

omit h in
theorem setLeaf_frames (h : t.setLeaf v f fl = (ok, t')) : t'.frames = t.frames := by
  unfold setLeaf at h
  split at h <;> cases h <;> rfl

theorem mapTo_takes : ∃ l, a.Takes l a' ∧ t'.frames.Perm (l ++ t.frames) := by
  obtain ⟨_, pdpts, _, h1, h⟩ := mapTo_cases h
  obtain ⟨l1, ht1, hp1⟩ := createNextTable_takes h1
  rcases h with ⟨-, -, rfl, rfl⟩ | ⟨-, ok2, pds, a2, h2, h⟩
  · refine ⟨l1, ht1, ?_⟩
    have hp := hp1.append_right (t.pds.values ++ t.pts.values)
    rwa [append_assoc] at hp
  obtain ⟨l2, ht2, hp2⟩ := createNextTable_takes h2
  rcases h with ⟨-, -, rfl, rfl⟩ | ⟨-, ok3, pts, h3, h⟩
  · refine ⟨l1 ++ l2, ht1.append ht2, perm_iff_count.mpr fun x => ?_⟩
    have := hp1.count_eq x
    have := hp2.count_eq x
    simp only [frames, count_append] at *
    omega
  obtain ⟨l3, ht3, hp3⟩ := createNextTable_takes h3
  have hp : (frames { t with pdpts := pdpts, pds := pds, pts := pts }).Perm ((l1 ++ (l2 ++ l3)) ++ t.frames) := by
    refine perm_iff_count.mpr fun x => ?_
    have := hp1.count_eq x
    have := hp2.count_eq x
    have := hp3.count_eq x
    simp only [frames, count_append] at *
    omega
  refine ⟨l1 ++ (l2 ++ l3), ht1.append (ht2.append ht3), ?_⟩
  rcases h with ⟨-, -, rfl⟩ | ⟨-, h⟩
  · exact hp
  · rw [setLeaf_frames h]
    exact hp

/-- The tables that the entries of the PML4, the PDPTs and the PDs point to. -/
def level (t : Tables) : Fin 3 → OrdMap Nat Nat
  | 0 => t.pdpts
  | 1 => t.pds
  | 2 => t.pts

/-- The address bits that lead to a page's table of a level. -/
def key (v : Nat) : Fin 3 → Nat
  | 0 => v / 2 ^ 39
  | 1 => v / 2 ^ 30
  | 2 => v / 2 ^ 21

omit h in
theorem setLeaf_level (h : t.setLeaf v f fl = (ok, t')) : t'.level = t.level := by
  unfold setLeaf at h
  split at h <;> cases h <;> rfl

/-- Tables stay, only those that lead to the page are new, and all are there on success. -/
theorem mapTo_level (i : Fin 3) :
    (ok = true → ∃ f, (key v i, f) ∈ t'.level i) ∧ (∀ x ∈ t.level i, x ∈ t'.level i) ∧
      ∀ x ∈ t'.level i, x ∈ t.level i ∨ (x.1 = key v i ∧ fl.present = true) := by
  obtain ⟨_, _, a1, h1, h⟩ := mapTo_cases h
  have n1 := createNextTable_nodes h1
  have same : ∀ {nodes : OrdMap Nat Nat} {k : Nat}, (∀ x ∈ nodes, x ∈ nodes) ∧
      ∀ x ∈ nodes, x ∈ nodes ∨ (x.1 = k ∧ fl.present = true) := ⟨fun _ hx => hx, fun _ hx => .inl hx⟩
  rcases h with ⟨-, rfl, rfl, -⟩ | ⟨hok1, ok2, pds, a2, h2, h⟩
  · refine ⟨nofun, ?_⟩
    match i with
    | 0 => exact n1.2
    | 1 | 2 => exact same
  have n2 := createNextTable_nodes h2
  rcases h with ⟨-, rfl, rfl, -⟩ | ⟨hok2, ok3, pts, h3, h⟩
  · refine ⟨nofun, ?_⟩
    match i with
    | 0 => exact n1.2
    | 1 => exact n2.2
    | 2 => exact same
  have n3 := createNextTable_nodes h3
  rcases h with ⟨-, rfl, rfl⟩ | ⟨hok3, h⟩
  · refine ⟨nofun, ?_⟩
    match i with
    | 0 => exact n1.2
    | 1 => exact n2.2
    | 2 => exact n3.2
  · rw [setLeaf_level h]
    match i with
    | 0 => exact ⟨fun _ => n1.1 hok1, n1.2⟩
    | 1 => exact ⟨fun _ => n2.1 hok2, n2.2⟩
    | 2 => exact ⟨fun _ => n3.1 hok3, n3.2⟩

/-- 1 for a table that is missing. -/
def lacks (nodes : OrdMap Nat Nat) (k : Nat) : Nat := if (nodes.get? k).isSome then 0 else 1

def missing (t : Tables) (v : Nat) : Nat :=
  lacks t.pdpts (v / 2 ^ 39) + (lacks t.pds (v / 2 ^ 30) + lacks t.pts (v / 2 ^ 21))

omit h in
theorem lacks_le (nodes : OrdMap Nat Nat) (k : Nat) : lacks nodes k ≤ 1 := by
  unfold lacks
  split <;> decide

omit h in
theorem lacks_of_mem (h : (k, f) ∈ nodes) : lacks nodes k = 0 := by
  rw [lacks, get?_eq_some.mpr h]
  rfl

omit h in
theorem lacks_mono (h : ∀ x ∈ nodes, x ∈ nodes') (k : Nat) : lacks nodes' k ≤ lacks nodes k := by
  cases hk : nodes.get? k with
  | none =>
    rw [lacks, lacks, hk]
    split <;> decide
  | some f =>
    rw [lacks_of_mem (h _ (get?_eq_some.mp hk))]
    exact Nat.zero_le _

omit h in
theorem createNextTable_available (h : createNextTable nodes a k present = some (ok, nodes', a')) :
    if ok then a.available = a'.available + lacks nodes k else lacks nodes k = 1 ∧ a.available = 0 := by
  unfold createNextTable at h
  split at h
  · rename_i f hf
    cases h
    rw [if_pos rfl, lacks, hf]
    rfl
  · rename_i hn
    split at h
    · rename_i a1 ha
      cases h
      rw [if_neg (by simp), lacks, hn]
      exact ⟨rfl, (Frames.allocate_none_available ha).1⟩
    · rename_i ha
      split at h
      · cases h
        rw [if_pos rfl, lacks, hn]
        exact Frames.allocate_some_available ha
      · cases h

omit h in
theorem createNextTable_returns (h : present = true ∨ lacks nodes k = 0) :
    ∃ x, createNextTable nodes a k present = some x := by
  unfold createNextTable
  split
  · exact ⟨_, rfl⟩
  rename_i hn
  split
  · exact ⟨_, rfl⟩
  rcases h with rfl | h
  · exact ⟨_, if_pos rfl⟩
  · rw [lacks, hn] at h
    cases h

omit h in
theorem mapTo_returns (h : fl.present = true ∨ t.missing v = 0) : ∃ x, t.mapTo a v f fl = some x := by
  have h1 : fl.present = true ∨ lacks t.pdpts (v / 2 ^ 39) = 0 := h.imp_right (by unfold missing; omega)
  have h2 : fl.present = true ∨ lacks t.pds (v / 2 ^ 30) = 0 := h.imp_right (by unfold missing; omega)
  have h3 : fl.present = true ∨ lacks t.pts (v / 2 ^ 21) = 0 := h.imp_right (by unfold missing; omega)
  unfold mapTo
  obtain ⟨⟨ok1, _, a1⟩, e1⟩ := createNextTable_returns (a := a) h1
  rw [e1, Option.bind_eq_bind, Option.bind_some]
  cases ok1 with
  | false => exact ⟨_, rfl⟩
  | true =>
    obtain ⟨⟨ok2, _, a2⟩, e2⟩ := createNextTable_returns (a := a1) h2
    simp only [Bool.not_true, Bool.false_eq_true, if_false, e2, Option.bind_some]
    cases ok2 with
    | false => exact ⟨_, rfl⟩
    | true =>
      obtain ⟨⟨ok3, pts, a3⟩, e3⟩ := createNextTable_returns (a := a2) h3
      simp only [Bool.not_true, Bool.false_eq_true, if_false, e3, Option.bind_some]
      cases ok3 <;> exact ⟨_, rfl⟩

theorem mapTo_available :
    if ok then a.available = a'.available + t.missing v else t.leaves.get? v ≠ none ∨ a.available < t.missing v := by
  obtain ⟨_, _, a1, h1, h⟩ := mapTo_cases h
  have n1 := createNextTable_available h1
  unfold missing
  rcases h with ⟨rfl, rfl, -, -⟩ | ⟨rfl, ok2, pds, a2, h2, h⟩
  · rw [if_neg (by simp)] at n1 ⊢
    exact .inr (by omega)
  have n2 := createNextTable_available h2
  rw [if_pos rfl] at n1
  rcases h with ⟨rfl, rfl, -, -⟩ | ⟨rfl, ok3, pts, h3, h⟩
  · rw [if_neg (by simp)] at n2 ⊢
    exact .inr (by omega)
  have n3 := createNextTable_available h3
  rw [if_pos rfl] at n2
  rcases h with ⟨rfl, rfl, -⟩ | ⟨rfl, h⟩
  · rw [if_neg (by simp)] at n3 ⊢
    exact .inr (by omega)
  rw [if_pos rfl] at n3
  unfold setLeaf at h
  split at h
  · rename_i e he
    cases h
    rw [if_neg (by simp)]
    exact .inl (by rw [he]; simp)
  · cases h
    rw [if_pos rfl]
    omega

theorem mapTo_missing (w : Nat) : t'.missing w ≤ t.missing w :=
  Nat.add_le_add (lacks_mono (mapTo_level h 0).2.1 _)
    (Nat.add_le_add (lacks_mono (mapTo_level h 1).2.1 _) (lacks_mono (mapTo_level h 2).2.1 _))

omit h

theorem Linked.missing_of_leaf {e : Entry} (h : t.Linked) (he : t.leaves.get? v = some e) (w : Nat) :
    t.missing w ≤ apart v w := by
  obtain ⟨_, h3⟩ := h.leaf _ (get?_eq_some.mp he)
  obtain ⟨_, h2⟩ := h.pt _ h3
  obtain ⟨_, h1⟩ := h.pd _ h2
  rw [div_pow_21] at h2 h1
  rw [div_pow_30] at h1
  have hlacks : ∀ {nodes : OrdMap Nat Nat} {b f}, (v / 2 ^ b, f) ∈ nodes →
      lacks nodes (w / 2 ^ b) ≤ if v / 2 ^ b = w / 2 ^ b then 0 else 1 := by
    intro nodes b f hm
    split
    · rename_i he
      rw [← he, lacks_of_mem hm]
    · exact lacks_le ..
  have := hlacks h1
  have := hlacks h2
  have := hlacks h3
  simp only [missing, apart, List.countP_cons, List.countP_nil, decide_not, Bool.not_eq_true', decide_eq_false_iff_not,
    ite_not]
  omega

/-- One level of the walk: what hangs below the parents, then the parents' own frames. -/
theorem level_perm {c : List (Nat × α)} {n : Nat} (hc : ∀ x ∈ c, ∃ f, (x.1 / n, f) ∈ nodes) (g : Nat × α → List Met) :
    (nodes.entries.flatMap fun x => (c.filter fun y => y.1 / n = x.1).flatMap g ++ [.table x.2]).Perm
      (c.flatMap g ++ nodes.values.map .table) := by
  refine (flatMap_append_perm _ _ _).symm.trans (Perm.append ?_ ?_)
  · have hp := flatMap_groups_perm nodes.keys_nodup (fun x : Nat × α => x.1 / n) (l := c) (fun x hx => by
      obtain ⟨_, hf⟩ := hc x hx
      exact mem_map.mpr ⟨_, hf, rfl⟩) g
    rwa [flatMap_map] at hp
  · rw [values, map_map]
    exact Perm.of_eq map_eq_flatMap.symm

theorem walk_perm (h : t.Linked) : t.walk.Perm (t.leaves.values.map (fun e => .leaf e.1) ++ t.frames.map .table) := by
  have h3 : t.walk.Perm (t.pds.entries.flatMap t.pdWalk ++ t.pdpts.values.map .table) := level_perm h.pd t.pdWalk
  have h2 : (t.pds.entries.flatMap t.pdWalk).Perm (t.pts.entries.flatMap t.ptWalk ++ t.pds.values.map .table) :=
    level_perm h.pt t.ptWalk
  have h1 : (t.pts.entries.flatMap t.ptWalk).Perm
      (t.leaves.values.map (fun e => .leaf e.1) ++ t.pts.values.map .table) := by
    have hp := level_perm h.leaf fun y => [Met.leaf y.2.1]
    simp only [← map_eq_flatMap] at hp
    rw [values, map_map]
    exact hp
  refine perm_iff_count.mpr fun x => ?_
  have c1 := h1.count_eq x
  have c2 := h2.count_eq x
  have c3 := h3.count_eq x
  simp only [frames, map_append, count_append] at *
  omega

end Tables

/-- Page tables whose nodes are linked. -/
def Tree : Type := { t : Tables // t.Linked }

namespace Tree

def fresh : Tree := ⟨⟨.empty, .empty, .empty, .empty⟩, ⟨by simp, by simp, by simp⟩⟩

def mapTo (t : Tree) (a : Frames) (v f : Nat) (fl : PtFlags) : Option (Bool × Tree × Frames) :=
  match h : t.1.mapTo a v f fl with
  | some (ok, t', a') => some (ok, ⟨t', t.2.mapTo h⟩, a')
  | none => none

variable {f v : Nat} {fl : PtFlags} {t : Tree}

theorem unmap_linked {t t' : Tables} (hl : t.Linked) (h : t.unmap v = some (f, t')) : t'.Linked := by
  unfold Tables.unmap at h
  split at h
  · split at h
    · cases h
      exact ⟨hl.pd, hl.pt, fun x hx => hl.leaf x (mem_remove.mp hx).1⟩
    · cases h
  · cases h

def unmap (t : Tree) (v : Nat) : Option (Nat × Tree) :=
  match h : t.1.unmap v with
  | some (f, t') => some (f, ⟨t', unmap_linked t.2 h⟩)
  | none => none

theorem updateFlags_linked {t : Tables} (hl : t.Linked) : (t.updateFlags v fl).Linked := by
  refine ⟨hl.pd, hl.pt, ?_⟩
  intro x hx
  have hg := get?_eq_some.mpr hx
  rw [Tables.updateFlags, get?_alter] at hg
  split at hg
  · obtain ⟨e, he, -⟩ := Option.map_eq_some_iff.mp hg
    exact hl.leaf (x.1, e) (get?_eq_some.mp he)
  · exact hl.leaf x (get?_eq_some.mp hg)

def updateFlags (t : Tree) (v : Nat) (fl : PtFlags) : Tree := ⟨t.1.updateFlags v fl, updateFlags_linked t.2⟩

def mapper : Mapper Tree where
  fresh := fresh
  leaves t := t.1.leaves
  tables t := t.1.frames
  mapTo := mapTo
  unmap := unmap
  updateFlags := updateFlags
  walk t := t.1.walk

theorem mapTo_eq_some {t' : Tree} {a a' : Frames} {ok : Bool}
    (h : t.mapTo a v f fl = some (ok, t', a')) : t.1.mapTo a v f fl = some (ok, t'.1, a') := by
  unfold mapTo at h
  split at h
  · rename_i h1
    cases h
    exact h1
  · cases h

theorem mapTo_of_eq {a : Frames} {x : Bool × Tables × Frames} (h : t.1.mapTo a v f fl = some x) :
    (t.mapTo a v f fl).isSome := by
  unfold mapTo
  split
  · rfl
  · rename_i hn
    rw [hn] at h
    cases h

theorem unmap_eq_some {t' : Tree} (h : t.unmap v = some (f, t')) :
    (∃ fl, t.1.leaves.get? v = some (f, fl)) ∧ t'.1 = { t.1 with leaves := t.1.leaves.remove v } := by
  unfold unmap at h
  split at h
  · rename_i h1
    cases h
    unfold Tables.unmap at h1
    split at h1
    · rename_i fl hg
      split at h1
      · cases h1
        exact ⟨⟨fl, hg⟩, rfl⟩
      · cases h1
    · cases h1
  · cases h

theorem unmap_of_present (h : t.1.leaves.get? v = some (f, fl)) (hp : fl.present = true) : (t.unmap v).isSome := by
  unfold unmap
  split
  · rfl
  rename_i hn
  rw [Tables.unmap, h] at hn
  simp only [hp, if_true] at hn
  cases hn

theorem mapper_lawful : mapper.Lawful where
  fresh_leaves := rfl
  fresh_tables := rfl
  mapTo_tables _ h := Tables.mapTo_takes (mapTo_eq_some h)
  mapTo_leaves _ h := Tables.mapTo_leaves (mapTo_eq_some h)
  unmap_leaf := by
    intro t t' v f _ h
    obtain ⟨hleaf, ht⟩ := unmap_eq_some h
    refine ⟨hleaf, congrArg Tables.leaves ht, ?_⟩
    show t'.1.frames = t.1.frames
    rw [ht]
    rfl
  updateFlags_leaf _ := ⟨rfl, rfl⟩
  walk_perm t := Tables.walk_perm t.2

def descent : Descent mapper where
  missing t v := t.1.missing v

theorem descent_lawful : descent.Lawful where
  of_leaf {t} {_} {_} _ he := t.2.missing_of_leaf he
  mapTo_returns _ h := by
    obtain ⟨_, hx⟩ := Tables.mapTo_returns h
    exact mapTo_of_eq hx
  mapTo_fails _ h := Tables.mapTo_available (mapTo_eq_some h)
  mapTo_takes _ h := Tables.mapTo_available (mapTo_eq_some h)
  mapTo_missing _ h := Tables.mapTo_missing (mapTo_eq_some h)
  unmap_present _ he hp := unmap_of_present he hp
  unmap_missing := by
    intro t t' v f _ h
    obtain ⟨-, ht⟩ := unmap_eq_some h
    show (fun w => t'.1.missing w) = fun w => t.1.missing w
    rw [ht]
    rfl
  updateFlags_missing _ := rfl

end Tree

end Ostoo.Memory
