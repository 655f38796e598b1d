/-
  Ostoo.Vfs.Path — paths as strings (`path.rs`).

  A `str` is the list of its bytes. `/` is a byte that occurs in UTF-8 only as itself, so
  cutting at it and comparing strings is the same on bytes as on characters; what is proved
  holds of every list of bytes.

  The meaning of a path is a walk: a stack of the names passed so far, which `..` pops
  and any other name pushes. `normalize` spells the stack the walk ends with
  (`normalize_eq_spell`), and one walk goes on where another ended, so relative lookups
  compose (`path_semantics`).
-/

import Ostoo.Lib.Pieces

namespace Ostoo.Vfs

open Ostoo.Lib List

abbrev Str := List UInt8

def slash : UInt8 := 0x2F

def dot : Str := [0x2E]

def dotdot : Str := [0x2E, 0x2E]

/-- One turn of the loop of `normalize`. -/
def push (parts : List Str) (seg : Str) : List Str :=
  if seg = [] ∨ seg = dot then parts
  else if seg = dotdot then parts.dropLast
  else parts ++ [seg]

def normalize (path : Str) : Str :=
  let parts := (path.splitOn slash).foldl push []
  if parts = [] then [slash]
  else parts.foldl (fun out p => out ++ [slash] ++ p) []

def IsAbsolute (path : Str) : Prop := path.head? = some slash

deriving instance Decidable for IsAbsolute

/-- The string that `resolve` normalises. -/
def raw (cwd path : Str) : Str :=
  if IsAbsolute path then path
  else if path = [] then cwd
  else (if cwd.getLast? = some slash then cwd else cwd ++ [slash]) ++ path

def resolve (cwd path : Str) : Str := normalize (raw cwd path)

/-! ## Walks -/

/-- The stack after the components, innermost name first. At the root `..` leads nowhere else. -/
def walk : List Str → List Str → List Str
  | stack, [] => stack
  | stack, c :: cs =>
    if c = [] ∨ c = dot then walk stack cs
    else if c = dotdot then walk stack.tail cs
    else walk (c :: stack) cs

/-- The names from the root to a directory, as a path. -/
def spell (names : List Str) : Str := if names = [] then [slash] else joined slash names

/-- What the walk can leave on the stack. -/
structure IsName (c : Str) : Prop where
  piece : IsPiece slash c
  notDot : c ≠ dot
  notDotdot : c ≠ dotdot

/-- An absolute path with no empty, `.` or `..` component and no slash at its end, or `/`. -/
@[mk_iff] structure Normal (path : Str) : Prop where
  absolute : IsAbsolute path
  components : path ≠ [slash] → ∀ c ∈ path.tail.splitOn slash, c ≠ [] ∧ c ≠ dot ∧ c ≠ dotdot
  trailing : path.getLast? = some slash → path = [slash]

instance (path : Str) : Decidable (Normal path) := decidable_of_iff' _ (normal_iff path)

theorem walk_append (stack cs ds : List Str) : walk stack (cs ++ ds) = walk (walk stack cs) ds := by
  induction cs generalizing stack with
  | nil => rfl
  | cons c cs ih =>
    rw [cons_append, walk, walk]
    split
    · exact ih _
    · split <;> exact ih _

variable {names : List Str} {cwd path : Str}

theorem walk_names (h : ∀ c ∈ names, IsName c) (stack : List Str) : walk stack names = names.reverse ++ stack := by
  induction names generalizing stack with
  | nil => rfl
  | cons c cs ih =>
    have hc := h c mem_cons_self
    rw [walk, if_neg (not_or.mpr ⟨hc.piece.1, hc.notDot⟩), if_neg hc.notDotdot, ih fun d hd => h d (.tail _ hd),
      reverse_cons, append_assoc, singleton_append]

/-- Every name on the stack was there before or is a component with a name's spelling. -/
theorem isName_of_mem_walk {cs stack : List Str} (hcs : ∀ c ∈ cs, slash ∉ c) (hstack : ∀ c ∈ stack, IsName c) :
    ∀ c ∈ walk stack cs, IsName c := by
  induction cs generalizing stack with
  | nil => exact hstack
  | cons d cs ih =>
    have hrest : ∀ c ∈ cs, slash ∉ c := fun c hc => hcs c (.tail _ hc)
    rw [walk]
    split
    · exact ih hrest hstack
    rename_i hd
    obtain ⟨hne, hdot⟩ := not_or.mp hd
    split
    · exact ih hrest fun c hc => hstack c (mem_of_mem_tail hc)
    rename_i hdotdot
    refine ih hrest fun c hc => ?_
    rcases mem_cons.mp hc with rfl | hc
    · exact ⟨⟨hne, hcs c mem_cons_self⟩, hdot, hdotdot⟩
    · exact hstack c hc

/-! ## Normal paths -/

theorem normal_spell (h : ∀ c ∈ names, IsName c) : Normal (spell names) := by
  cases names with
  | nil => exact ⟨rfl, fun hne => absurd rfl hne, fun _ => rfl⟩
  | cons c cs =>
    rw [spell, if_neg (cons_ne_nil _ _)]
    refine ⟨rfl, fun _ d hd => ?_, fun hlast => absurd hlast (getLast?_joined fun d hd => (h d hd).piece)⟩
    have hsplit : [] :: (c ++ joined slash cs).splitOn slash = [] :: c :: cs :=
      (splitOn_append_cons_self_of_not_mem not_mem_nil _).symm.trans (splitOn_joined fun d hd => (h d hd).piece.2)
    rw [joined_cons, tail_cons, tail_eq_of_cons_eq hsplit] at hd
    have hname := h d hd
    exact ⟨hname.piece.1, hname.notDot, hname.notDotdot⟩

theorem Normal.eq_spell (h : Normal path) : ∃ names, (∀ c ∈ names, IsName c) ∧ path = spell names := by
  by_cases hroot : path = [slash]
  · exact ⟨[], nofun, hroot⟩
  have hcomps := h.components hroot
  obtain ⟨tail, rfl⟩ : ∃ tail, path = slash :: tail := by
    cases path with
    | nil => cases h.absolute
    | cons a tail => exact ⟨tail, by rw [Option.some.inj h.absolute]⟩
  refine ⟨tail.splitOn slash, fun c hc => ?_, ?_⟩
  · obtain ⟨hne, hdot, hdotdot⟩ := hcomps c hc
    exact ⟨⟨hne, not_mem_of_mem_splitOn hc⟩, hdot, hdotdot⟩
  · rw [spell, if_neg (splitOn_ne_nil _ _), joined_splitOn]

/-! ## The code walks -/

theorem foldl_push (cs stack : List Str) : cs.foldl push stack.reverse = (walk stack cs).reverse := by
  induction cs generalizing stack with
  | nil => rfl
  | cons c cs ih =>
    rw [foldl_cons, walk, push]
    split
    · exact ih _
    split
    · rw [dropLast_reverse]
      exact ih _
    · rw [← reverse_cons]
      exact ih _

theorem foldl_spell (parts : List Str) (out : Str) :
    parts.foldl (fun out p => out ++ [slash] ++ p) out = out ++ joined slash parts := by
  induction parts generalizing out with
  | nil => exact (append_nil _).symm
  | cons p parts ih =>
    rw [foldl_cons, ih, joined_cons]
    simp only [append_assoc, cons_append, nil_append]

/-- The names that a walk from the root along the path ends with. -/
def namesOf (path : Str) : List Str := (walk [] (path.splitOn slash)).reverse

theorem isName_namesOf (path : Str) : ∀ c ∈ namesOf path, IsName c := by
  intro c hc
  exact isName_of_mem_walk (fun d hd => not_mem_of_mem_splitOn hd) (fun d hd => absurd hd not_mem_nil) c
    (mem_reverse.mp hc)

theorem normalize_eq_spell (path : Str) : normalize path = spell (namesOf path) := by
  have hparts : (path.splitOn slash).foldl push [] = namesOf path := foldl_push _ []
  simp only [normalize, hparts, foldl_spell, nil_append, spell]

theorem normal_normalize (path : Str) : Normal (normalize path) := by
  rw [normalize_eq_spell]
  exact normal_spell (isName_namesOf path)

theorem namesOf_spell (h : ∀ c ∈ names, IsName c) : namesOf (spell names) = names := by
  unfold namesOf
  cases names with
  | nil => rfl
  | cons c cs =>
    rw [spell, if_neg (cons_ne_nil _ _), splitOn_joined fun d hd => (h d hd).piece.2]
    rw [walk, if_pos (.inl rfl), walk_names h, append_nil, reverse_reverse]

theorem namesOf_normalize (path : Str) : namesOf (normalize path) = namesOf path := by
  rw [normalize_eq_spell, namesOf_spell (isName_namesOf path)]

theorem namesOf_append (path rest : Str) :
    namesOf (path ++ slash :: rest) = (walk (namesOf path).reverse (rest.splitOn slash)).reverse := by
  unfold namesOf
  rw [splitOn_append_cons_self, walk_append, reverse_reverse]

theorem namesOf_raw (hne : path ≠ []) (hrel : ¬ IsAbsolute path) :
    namesOf (raw cwd path) = (walk (namesOf cwd).reverse (path.splitOn slash)).reverse := by
  rw [raw, if_neg hrel, if_neg hne]
  split
  · rename_i hlast
    -- the slash is there already: what stands before it walks to the same place
    obtain ⟨-, rfl⟩ := getLast?_eq_some_iff.mp hlast
    rw [append_assoc, singleton_append, namesOf_append, namesOf_append]
    rw [splitOn_nil, walk, if_pos (.inl rfl), walk, reverse_reverse]
  · rw [append_assoc, singleton_append, namesOf_append]

theorem resolve_of_absolute (h : IsAbsolute path) : resolve cwd path = normalize path := by
  rw [resolve, raw, if_pos h]

theorem resolve_resolve {p q : Str} (hp : p ≠ []) (hq : q ≠ []) (hrel : ¬ IsAbsolute q) :
    resolve (resolve cwd p) q = resolve cwd (p ++ slash :: q) := by
  have habs : IsAbsolute (p ++ slash :: q) ↔ IsAbsolute p := by
    unfold IsAbsolute
    rw [head?_append_of_ne_nil _ hp]
  have hne : p ++ slash :: q ≠ [] := append_ne_nil_of_left_ne_nil hp _
  have hnames : namesOf (raw (resolve cwd p) q) = namesOf (raw cwd (p ++ slash :: q)) := by
    rw [namesOf_raw hq hrel, resolve, namesOf_normalize]
    by_cases hpabs : IsAbsolute p
    · rw [raw, if_pos hpabs, raw, if_pos (habs.mpr hpabs), namesOf_append]
    · rw [namesOf_raw hp hpabs, namesOf_raw hne (habs.not.mpr hpabs), splitOn_append_cons_self, walk_append,
        reverse_reverse]
  rw [resolve, normalize_eq_spell, hnames, ← normalize_eq_spell, resolve]

structure PathSemantics : Prop where
  normal : ∀ path, Normal (normalize path)
  idempotent : ∀ path, normalize (normalize path) = normalize path
  stack : ∀ path, normalize path = spell (walk [] (path.splitOn slash)).reverse
  absolute : ∀ cwd cwd' path, IsAbsolute path → resolve cwd path = resolve cwd' path
  compose : ∀ cwd p q, p ≠ [] → q ≠ [] → ¬ IsAbsolute q → resolve (resolve cwd p) q = resolve cwd (p ++ slash :: q)
  inside : ∀ cwd path, Normal (resolve cwd path)

theorem path_semantics : PathSemantics where
  normal := normal_normalize
  idempotent path := by rw [normalize_eq_spell (normalize path), namesOf_normalize, ← normalize_eq_spell]
  stack := normalize_eq_spell
  absolute cwd cwd' path h := by rw [resolve_of_absolute h, resolve_of_absolute h]
  compose cwd p q := resolve_resolve
  inside cwd path := normal_normalize (raw cwd path)

end Ostoo.Vfs
