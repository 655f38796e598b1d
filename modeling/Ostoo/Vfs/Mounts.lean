/-
  Ostoo.Vfs.Mounts — the mount table (`devices/src/vfs/mod.rs`).

  `mount` takes out what was mounted at the same mountpoint, appends the new entry and sorts
  by the length of the mountpoint, longest first; `resolve` takes the first entry whose
  mountpoint matches. Both compare bytes.

  The table holds, for each mountpoint, the filesystem of the last call that named it
  (`mem_table_iff`). Over normal paths the byte test is the test on whole components
  (`relative_cases`), and of two mountpoints that lead to one path the longer string has
  more components (`length_le_of_leads`), so the first match is the innermost one
  (`mounts_resolve`).
-/

import Mathlib.Data.List.Induction
import Ostoo.Vfs.Path

namespace Ostoo.Vfs

open Ostoo.Lib Option List

variable {φ : Type}

abbrev Mounts (φ : Type) := List (Str × φ)

/-- The comparison of `sort_by`, which is stable. -/
def longerFirst (a b : Str × φ) : Bool := b.1.length ≤ a.1.length

def mount (mounts : Mounts φ) (mountpoint : Str) (fs : φ) : Mounts φ :=
  (mounts.filter (·.1 ≠ mountpoint) ++ [(mountpoint, fs)]).mergeSort longerFirst

/-- What `resolve` makes of one entry: the path inside the filesystem, if the mountpoint matches. -/
def relative (mp path : Str) : Option Str :=
  if mp = [slash] then some path
  else if path = mp then some [slash]
  else if mp <+: path ∧ path[mp.length]? = some slash then some (path.drop mp.length)
  else none

def Mounts.resolve (mounts : Mounts φ) (path : Str) : Option (φ × Str) :=
  mounts.findSome? fun e => (relative e.1 path).map fun rel => (e.2, rel)

/-- `str::strip_prefix` -/
def stripPrefix (s p : Str) : Option Str := if p <+: s then some (s.drop p.length) else none

/-- The rest of a mountpoint after the directory and a slash. -/
def childTail (dir mp : Str) : Option Str :=
  if dir = [slash] then stripPrefix mp [slash]
  else (stripPrefix mp dir).bind fun s => stripPrefix s [slash]

def Mounts.childMountNames (mounts : Mounts φ) (dir : Str) : List Str :=
  mounts.filterMap fun e =>
    if e.1 = dir then none
    else (childTail dir e.1).filter fun name => slash ∉ name ∧ name ≠ []

/-- The table after the calls, in order. -/
def table (calls : List (Str × φ)) : Mounts φ := calls.foldl (fun mounts call => mount mounts call.1 call.2) []

/-! ## What the table holds -/

/-- The filesystem that was mounted last at the mountpoint. -/
def lastMounted (calls : List (Str × φ)) (mp : Str) : Option φ := (calls.reverse.find? (·.1 = mp)).map (·.2)

variable {mounts : Mounts φ} {dir mp name path : Str} {e : Str × φ} {fs : φ}

theorem mem_mount : e ∈ mount mounts mp fs ↔ e = (mp, fs) ∨ e ∈ mounts ∧ e.1 ≠ mp := by
  rw [mount, (mergeSort_perm _ _).mem_iff, mem_append, mem_filter, mem_singleton, or_comm,
    decide_eq_true_eq]

theorem mount_sorted (mounts : Mounts φ) (mp : Str) (fs : φ) :
    (mount mounts mp fs).Pairwise fun a b => b.1.length ≤ a.1.length := by
  have htrans : ∀ a b c : Str × φ, longerFirst a b → longerFirst b c → longerFirst a c := by
    intro a b c hab hbc
    exact decide_eq_true (Nat.le_trans (of_decide_eq_true hbc) (of_decide_eq_true hab))
  have htotal : ∀ a b : Str × φ, longerFirst a b || longerFirst b a := by
    intro a b
    rw [Bool.or_eq_true]
    exact (Nat.le_total b.1.length a.1.length).imp decide_eq_true decide_eq_true
  exact (pairwise_mergeSort htrans htotal _).imp of_decide_eq_true

variable (calls : List (Str × φ))
include calls

theorem table_append (mp : Str) (fs : φ) : table (calls ++ [(mp, fs)]) = mount (table calls) mp fs := by
  rw [table, foldl_append]
  rfl

theorem lastMounted_append (mp mp' : Str) (fs : φ) :
    lastMounted (calls ++ [(mp, fs)]) mp' = if mp = mp' then some fs else lastMounted calls mp' := by
  rw [lastMounted, reverse_append, reverse_singleton, singleton_append, find?_cons]
  by_cases h : mp = mp'
  · rw [if_pos h, decide_eq_true h]
    rfl
  · rw [if_neg h, decide_eq_false h]
    rfl

theorem mem_table_iff (mp : Str) (fs : φ) : (mp, fs) ∈ table calls ↔ lastMounted calls mp = some fs := by
  induction calls using reverseRecOn with
  | nil => exact ⟨nofun, nofun⟩
  | append_singleton calls call ih =>
    rw [table_append, mem_mount, lastMounted_append, ih, Prod.mk.injEq]
    split
    · rename_i h
      constructor
      · rintro (⟨-, rfl⟩ | ⟨-, hne⟩)
        · rfl
        · exact absurd h.symm hne
      · intro hfs
        exact .inl ⟨h.symm, (some.inj hfs).symm⟩
    · rename_i h
      constructor
      · rintro (⟨rfl, -⟩ | ⟨hm, -⟩)
        · exact absurd rfl h
        · exact hm
      · intro hm
        exact .inr ⟨hm, fun he => h he.symm⟩

theorem table_sorted : (table calls).Pairwise fun a b => b.1.length ≤ a.1.length := by
  rcases eq_nil_or_concat calls with rfl | ⟨-, -, rfl⟩
  · exact List.Pairwise.nil
  · rw [concat_eq_append, table_append]
    exact mount_sorted _ _ _

theorem lastMounted_isSome_iff (mp : Str) : (lastMounted calls mp).isSome ↔ mp ∈ calls.map (·.1) := by
  rw [lastMounted, isSome_map, find?_isSome]
  simp only [mem_reverse, decide_eq_true_eq, List.mem_map]

omit calls

/-! ## Byte tests over normal paths -/

/-- The mountpoint leads to the path, component by component. -/
def Leads (mp path : Str) : Prop := namesOf mp <+: namesOf path

theorem Normal.spell_namesOf (h : Normal path) : spell (namesOf path) = path := by
  obtain ⟨_, hnames, rfl⟩ := h.eq_spell
  rw [namesOf_spell hnames]

theorem Normal.joined_namesOf (h : Normal path) (hroot : path ≠ [slash]) : joined slash (namesOf path) = path := by
  have hspell := h.spell_namesOf
  rw [spell] at hspell
  split at hspell
  · exact absurd hspell.symm hroot
  · exact hspell

theorem isPiece_namesOf (path : Str) : ∀ c ∈ namesOf path, IsPiece slash c :=
  fun c hc => (isName_namesOf path c hc).piece

theorem namesOf_root : namesOf [slash] = [] := rfl

/-- A path goes on from a mountpoint at a slash exactly if the mountpoint leads to it. -/
theorem leads_iff (hmp : Normal mp) (hpath : Normal path) (hroot : mp ≠ [slash]) :
    Leads mp path ↔ path = mp ∨ ∃ rest, path = mp ++ slash :: rest := by
  have hne : namesOf mp ≠ [] := by
    intro h
    have hspell := hmp.spell_namesOf
    rw [h] at hspell
    exact hroot hspell.symm
  rw [Leads, ← joined_boundary_iff (isPiece_namesOf mp) (isPiece_namesOf path), hmp.joined_namesOf hroot]
  by_cases hp : path = [slash]
  · -- neither side: the root has no components, and no mountpoint but `/` starts it
    subst hp
    have hlen : mp.length ≠ 0 ∧ mp.length ≠ 1 := by
      obtain ⟨c, _, hc⟩ := exists_cons_of_ne_nil hne
      have hlong := hmp.joined_namesOf hroot
      have hpos := length_pos_of_ne_nil (isPiece_namesOf mp c (hc ▸ mem_cons_self)).1
      rw [← hlong, hc, joined_cons, length_cons, length_append]
      omega
    rw [namesOf_root, joined_nil]
    refine iff_of_false ?_ ?_
    all_goals
      rintro (h | ⟨_, h⟩)
      all_goals
        have hlen' := congrArg length h
        simp only [length_nil, length_cons, length_append] at hlen'
        omega
  · rw [hpath.joined_namesOf hp]

/-- What `relative` gives, for a mountpoint that leads to the path. -/
structure RelativeTo (mp path rel : Str) : Prop where
  root : mp = [slash] → rel = path
  exact_ : mp ≠ [slash] → path = mp → rel = [slash]
  rest : mp ≠ [slash] → path ≠ mp → mp ++ rel = path

theorem relative_cases (hmp : Normal mp) (hpath : Normal path) :
    (¬ Leads mp path ∧ relative mp path = none) ∨ Leads mp path ∧ ∃ rel, relative mp path = some rel ∧
      RelativeTo mp path rel := by
  unfold relative
  by_cases hroot : mp = [slash]
  · refine .inr ⟨?_, path, if_pos hroot, fun _ => rfl, fun h => absurd hroot h, fun h => absurd hroot h⟩
    rw [Leads, hroot, namesOf_root]
    exact nil_prefix
  rw [if_neg hroot, leads_iff hmp hpath hroot]
  by_cases heq : path = mp
  · exact .inr ⟨.inl heq, [slash], if_pos heq, fun h => absurd h hroot, fun _ _ => rfl, fun _ h => absurd heq h⟩
  rw [if_neg heq]
  by_cases hrest : ∃ rest, path = mp ++ slash :: rest
  · obtain ⟨rest, rfl⟩ := hrest
    refine .inr ⟨.inr ⟨rest, rfl⟩, slash :: rest, ?_, fun h => absurd h hroot, fun _ h => absurd h heq, fun _ _ => rfl⟩
    rw [if_pos ⟨prefix_append _ _, by simp⟩, drop_left]
  refine .inl ⟨fun h => h.elim heq hrest, if_neg ?_⟩
  rintro ⟨⟨rest, rfl⟩, hbyte⟩
  rw [getElem?_append_right (Nat.le_refl _), Nat.sub_self] at hbyte
  cases rest with
  | nil => cases hbyte
  | cons a rest =>
    exact hrest ⟨rest, by rw [some.inj hbyte]⟩

theorem spell_length_lt (names : List Str) {more : List Str} (hmore : more ≠ [])
    (hpiece : ∀ c ∈ more, IsPiece slash c) : (spell names).length < (spell (names ++ more)).length := by
  obtain ⟨c, _, rfl⟩ := exists_cons_of_ne_nil hmore
  have hpos := length_pos_of_ne_nil (hpiece c mem_cons_self).1
  rw [spell, spell, if_neg (append_ne_nil_of_right_ne_nil _ hmore), joined_append, joined_cons]
  split
  · simp only [length_cons, length_append, length_nil]
    omega
  · rw [length_append, length_cons]
    omega

/-- Of two mountpoints that lead to one path, the longer string has at least as many components. -/
theorem length_le_of_leads {mp' : Str} (hmp : Normal mp) (hmp' : Normal mp') (h : Leads mp path) (h' : Leads mp' path)
    (hle : mp'.length ≤ mp.length) : (namesOf mp').length ≤ (namesOf mp).length := by
  by_contra hlt
  obtain ⟨more, hmore⟩ := prefix_of_prefix_length_le h h' (by omega)
  have hne : more ≠ [] := by
    rintro rfl
    rw [append_nil] at hmore
    exact hlt (hmore ▸ Nat.le_refl _)
  have hlen := spell_length_lt (namesOf mp) hne fun c hc =>
    isPiece_namesOf mp' c (hmore ▸ mem_append_right _ hc)
  rw [hmore, hmp.spell_namesOf, hmp'.spell_namesOf] at hlen
  omega

/-! ## Lookup -/

/-- The answer of `resolve`: the filesystem mounted last at the innermost mountpoint that leads to the path. -/
def Answer (calls : List (Str × φ)) (path : Str) (fs : φ) (rel : Str) : Prop :=
  ∃ mp, lastMounted calls mp = some fs ∧ Leads mp path ∧ RelativeTo mp path rel ∧
    ∀ mp' ∈ calls.map (·.1), Leads mp' path → (namesOf mp').length ≤ (namesOf mp).length

theorem resolve_eq_some {rel : Str} (hn : ∀ e ∈ mounts, Normal e.1) (hpath : Normal path)
    (hs : mounts.Pairwise fun a b => b.1.length ≤ a.1.length) (h : mounts.resolve path = some (fs, rel)) :
    ∃ mp, (mp, fs) ∈ mounts ∧ Leads mp path ∧ RelativeTo mp path rel ∧
      ∀ e ∈ mounts, Leads e.1 path → (namesOf e.1).length ≤ (namesOf mp).length := by
  induction mounts with
  | nil => cases h
  | cons e mounts ih =>
    obtain ⟨hhead, htail⟩ := pairwise_cons.mp hs
    have hne := hn e mem_cons_self
    have hnt : ∀ e ∈ mounts, Normal e.1 := fun e' he' => hn e' (mem_cons_of_mem _ he')
    rw [Mounts.resolve, findSome?_cons] at h
    rcases relative_cases hne hpath with ⟨hnot, hrel⟩ | ⟨hleads, _, hrel, hto⟩
    · rw [hrel] at h
      obtain ⟨mp, hm, hl, ht, hlong⟩ := ih hnt htail h
      refine ⟨mp, mem_cons_of_mem _ hm, hl, ht, fun e' he' hl' => ?_⟩
      rcases mem_cons.mp he' with rfl | he'
      · exact absurd hl' hnot
      · exact hlong e' he' hl'
    · rw [hrel] at h
      cases h
      refine ⟨e.1, mem_cons_self, hleads, hto, fun e' he' hl' => ?_⟩
      rcases mem_cons.mp he' with rfl | he'
      · exact Nat.le_refl _
      · exact length_le_of_leads hne (hnt e' he') hleads hl' (hhead e' he')

theorem resolve_eq_none_iff (hn : ∀ e ∈ mounts, Normal e.1) (hpath : Normal path) :
    mounts.resolve path = none ↔ ∀ e ∈ mounts, ¬ Leads e.1 path := by
  rw [Mounts.resolve, findSome?_eq_none_iff]
  refine forall₂_congr fun e he => ?_
  rcases relative_cases (hn e he) hpath with ⟨hnot, hrel⟩ | ⟨hleads, _, hrel, -⟩
  · exact ⟨fun _ => hnot, fun _ => by rw [hrel]; rfl⟩
  · refine ⟨fun h => ?_, fun h => absurd hleads h⟩
    rw [hrel] at h
    cases h

/-! ## Child mounts -/

theorem stripPrefix_eq_some {s p t : Str} : stripPrefix s p = some t ↔ s = p ++ t := by
  unfold stripPrefix
  constructor
  · intro h
    split at h
    · rename_i hp
      obtain ⟨_, rfl⟩ := hp
      rw [drop_left] at h
      rw [some.inj h]
    · cases h
  · rintro rfl
    rw [if_pos (prefix_append _ _), drop_left]

theorem childTail_eq_some :
    childTail dir mp = some name ↔ if dir = [slash] then mp = slash :: name else mp = dir ++ slash :: name := by
  unfold childTail
  split
  · exact stripPrefix_eq_some
  rw [bind_eq_some_iff]
  simp only [stripPrefix_eq_some]
  constructor
  · rintro ⟨-, rfl, rfl⟩
    rfl
  · intro h
    exact ⟨_, h, rfl⟩

/-- The directory is the mountpoint's parent, and the name its last component. -/
def ChildOf (dir mp name : Str) : Prop := ∃ names, namesOf mp = names ++ [name] ∧ spell names = dir

theorem Normal.eq_append {names : List Str} (h : Normal mp) (hn : namesOf mp = names ++ [name]) :
    mp = joined slash names ++ slash :: name := by
  have hspell := h.spell_namesOf
  rw [hn, spell, if_neg (append_ne_nil_of_right_ne_nil _ (cons_ne_nil _ _)), joined_append] at hspell
  rw [← hspell, joined_cons, joined_nil, append_nil]

theorem childTail_iff (hmp : Normal mp) (hdir : dir ≠ []) :
    (mp ≠ dir ∧ childTail dir mp = some name ∧ slash ∉ name ∧ name ≠ []) ↔ ChildOf dir mp name := by
  rw [childTail_eq_some]
  constructor
  · rintro ⟨-, htail, hsep, hname⟩
    have hpieces : pieces slash name = [name] := by
      unfold pieces
      rw [splitOn_eq_singleton hsep]
      exact filter_cons_of_pos (decide_eq_true hname)
    have hroot : mp ≠ [slash] := by
      rintro rfl
      split at htail
      · exact hname (tail_eq_of_cons_eq htail).symm
      have hlen := congrArg length htail
      have hpos := length_pos_of_ne_nil hdir
      simp only [length_append, length_cons, length_nil] at hlen
      omega
    have hnames := pieces_joined (isPiece_namesOf mp)
    rw [hmp.joined_namesOf hroot] at hnames
    split at htail
    · rename_i hd
      rw [htail, pieces_cons_sep, hpieces, ← htail] at hnames
      exact ⟨[], hnames.symm, hd.symm⟩
    rw [htail, pieces_append_sep, hpieces, ← htail] at hnames
    refine ⟨pieces slash dir, hnames.symm, ?_⟩
    have hjoin : joined slash (pieces slash dir) = dir :=
      append_cancel_right ((hmp.eq_append hnames.symm).symm.trans htail)
    rw [spell, if_neg, hjoin]
    intro hnil
    rw [hnil] at hjoin
    exact hdir hjoin.symm
  · rintro ⟨names, hnames, rfl⟩
    have hmem : name ∈ namesOf mp := hnames ▸ mem_append_right _ (mem_singleton.mpr rfl)
    obtain ⟨hname, hsep⟩ := isPiece_namesOf mp name hmem
    have heq := hmp.eq_append hnames
    refine ⟨?_, ?_, hsep, hname⟩
    · intro h
      have hlt := spell_length_lt names (cons_ne_nil name []) fun c hc => by
        rw [mem_singleton.mp hc]
        exact ⟨hname, hsep⟩
      rw [← hnames, hmp.spell_namesOf, ← h] at hlt
      exact Nat.lt_irrefl _ hlt
    · rw [spell]
      by_cases hn : names = []
      · rw [if_pos hn, if_pos rfl, heq, hn]
        rfl
      rw [if_neg hn, if_neg, heq]
      obtain ⟨c, _, rfl⟩ := exists_cons_of_ne_nil hn
      have hc := (isPiece_namesOf mp c (hnames ▸ mem_append_left _ mem_cons_self)).1
      intro h
      have hlen := congrArg length h
      have hpos := length_pos_of_ne_nil hc
      rw [joined_cons, length_cons, length_append, length_singleton] at hlen
      omega

theorem mem_childMountNames (hn : ∀ e ∈ mounts, Normal e.1) (hdir : dir ≠ []) :
    name ∈ mounts.childMountNames dir ↔ ∃ e ∈ mounts, ChildOf dir e.1 name := by
  rw [Mounts.childMountNames, mem_filterMap]
  refine exists_congr fun e => and_congr_right fun he => ?_
  rw [← childTail_iff (hn e he) hdir]
  split
  · rename_i h
    exact iff_of_false nofun fun hc => hc.1 h
  · rename_i h
    rw [filter_eq_some_iff, decide_eq_true_eq]
    exact (and_iff_right h).symm

/-- Every lookup in the table after the calls. The directory is any path but the empty string. -/
structure MountResolution (calls : List (Str × φ)) : Prop where
  answer : ∀ path, Normal path → ∀ fs rel, (table calls).resolve path = some (fs, rel) → Answer calls path fs rel
  noAnswer : ∀ path, Normal path → ((table calls).resolve path = none ↔ ∀ mp ∈ calls.map (·.1), ¬ Leads mp path)
  children : ∀ dir, dir ≠ [] → ∀ name,
    name ∈ (table calls).childMountNames dir ↔ ∃ mp ∈ calls.map (·.1), ChildOf dir mp name

theorem exists_mem_table {calls : List (Str × φ)} (h : mp ∈ calls.map (·.1)) : ∃ fs, (mp, fs) ∈ table calls := by
  obtain ⟨fs, hfs⟩ := isSome_iff_exists.mp ((lastMounted_isSome_iff calls mp).mpr h)
  exact ⟨fs, (mem_table_iff calls mp fs).mpr hfs⟩

theorem mem_calls_of_mem_table {calls : List (Str × φ)} (h : e ∈ table calls) : e.1 ∈ calls.map (·.1) := by
  rw [← lastMounted_isSome_iff, (mem_table_iff calls e.1 e.2).mp h]
  rfl

theorem mounts_resolve {calls : List (Str × φ)} (h : ∀ mp ∈ calls.map (·.1), Normal mp) : MountResolution calls := by
  have hn : ∀ e ∈ table calls, Normal e.1 := fun e he => h e.1 (mem_calls_of_mem_table he)
  refine ⟨fun path hpath fs rel hr => ?_, fun path hpath => ?_, fun dir hdir name => ?_⟩
  · obtain ⟨mp, hm, hleads, hrel, hlong⟩ := resolve_eq_some hn hpath (table_sorted calls) hr
    refine ⟨mp, (mem_table_iff calls mp fs).mp hm, hleads, hrel, fun mp' hmp' hl => ?_⟩
    obtain ⟨fs', hm'⟩ := exists_mem_table hmp'
    exact hlong (mp', fs') hm' hl
  · rw [resolve_eq_none_iff hn hpath]
    constructor
    · intro hnone mp hmp
      obtain ⟨fs, hm⟩ := exists_mem_table hmp
      exact hnone (mp, fs) hm
    · exact fun hnone e he => hnone e.1 (mem_calls_of_mem_table he)
  · rw [mem_childMountNames hn hdir]
    constructor
    · rintro ⟨e, he, hc⟩
      exact ⟨e.1, mem_calls_of_mem_table he, hc⟩
    · rintro ⟨mp, hmp, hc⟩
      obtain ⟨fs, hm⟩ := exists_mem_table hmp
      exact ⟨(mp, fs), hm, hc⟩

/-- `/host`, `/proc` and `/`, as the kernel mounts them when it boots. -/
def bootMounts : List (Str × Nat) :=
  [([0x2F, 0x68, 0x6F, 0x73, 0x74], 0), ([0x2F, 0x70, 0x72, 0x6F, 0x63], 1), ([0x2F], 2)]

theorem boot_mounts_resolve : (∀ mp ∈ bootMounts.map (·.1), Normal mp) ∧ MountResolution bootMounts := by
  have hn : ∀ mp ∈ bootMounts.map (·.1), Normal mp := by decide
  exact ⟨hn, mounts_resolve hn⟩

/-- Whatever a process passes, and wherever it stands, a filesystem is asked for normal paths only. -/
theorem lookups_are_normal {calls : List (Str × φ)} (hn : ∀ mp ∈ calls.map (·.1), Normal mp) {cwd rel : Str} {fs : φ}
    (h : (table calls).resolve (resolve cwd path) = some (fs, rel)) : Normal rel := by
  have hpath : Normal (resolve cwd path) := normal_normalize _
  have htable : ∀ e ∈ table calls, Normal e.1 := fun e he => hn e.1 (mem_calls_of_mem_table he)
  obtain ⟨mp, hm, ⟨more, hmore⟩, hrel, -⟩ := resolve_eq_some htable hpath (table_sorted calls) h
  have hmp : Normal mp := htable _ hm
  by_cases hroot : mp = [slash]
  · exact hrel.root hroot ▸ hpath
  by_cases heq : resolve cwd path = mp
  · rw [hrel.exact_ hroot heq]
    decide
  -- the components after the mountpoint's are the relative path's
  have hwhole := hpath.spell_namesOf
  rw [← hmore] at hwhole
  have hne : more ≠ [] := by
    rintro rfl
    rw [append_nil, hmp.spell_namesOf] at hwhole
    exact heq hwhole.symm
  rw [spell, if_neg (append_ne_nil_of_right_ne_nil _ hne), joined_append, hmp.joined_namesOf hroot,
    ← hrel.rest hroot heq] at hwhole
  have hspell : spell more = rel := (if_neg hne).trans (append_cancel_left hwhole)
  exact hspell ▸ normal_spell fun c hc => isName_namesOf _ c (hmore ▸ mem_append_right _ hc)

/-- `../p/x` from the root, with a filesystem at `/p`. -/
theorem lookups_are_normal_above_root : ∃ rel, (table [([slash, 112], 1)]).resolve
    (resolve [slash] (dotdot ++ [slash, 112, slash, 120])) = some (1, rel) ∧ Normal rel := by
  refine ⟨[slash, 120], ?h, lookups_are_normal (by decide) ?h⟩
  rw [table, foldl_cons, mount, filter_nil, nil_append, mergeSort_singleton]
  decide

end Ostoo.Vfs
