/-
  Ostoo.Terminal.Vt100 — the escape-sequence parser of the terminal (`term/src/vt100.rs`).

  A stream of text and whole control sequences prints its text and nothing else exactly if the
  sequences have only digits and semicolons before their final byte (`text_only_iff`). Any other
  byte ends a sequence for the parser, and what is left of it is printed
  (`a_private_mode_prints`).
-/

import Mathlib.Data.List.Basic
import Mathlib.Logic.Function.Basic

namespace Ostoo.Terminal

open List

inductive State
  | normal | escape | csi | csiParam
  deriving DecidableEq

inductive Action
  | print (byte : UInt8)
  | newline | carriageReturn | backspace | cursorHome | clearScreen | eraseToEol
  | cursorUp (n : Nat) | cursorDown (n : Nat) | cursorRight (n : Nat) | cursorLeft (n : Nat)
  | setFg (color : Nat) | setBg (color : Nat) | resetColors | none

def Action.printed : Action → Option UInt8
  | print byte => some byte
  | _ => Option.none

structure Vt100Parser where
  state : State
  params : Fin 4 → Nat
  paramIdx : Nat

namespace Vt100Parser

def new : Vt100Parser := ⟨.normal, fun _ => 0, 0⟩

def ansiColor (idx : Nat) : Nat :=
  [0x00000000, 0x000000AA, 0x0000AA00, 0x000055AA, 0x00AA0000, 0x00AA00AA, 0x00AAAA00, 0x00AAAAAA].getD (idx % 8) 0

def dispatchSgr (p : Vt100Parser) : Action :=
  let p0 := p.params 0
  if p0 = 0 then .resetColors
  else if 30 ≤ p0 ∧ p0 ≤ 37 then .setFg (ansiColor (p0 - 30))
  else if 40 ≤ p0 ∧ p0 ≤ 47 then .setBg (ansiColor (p0 - 40))
  else .none

def dispatchCsi (p : Vt100Parser) (cmd : Char) : Action :=
  let p0 := p.params 0
  let n := if p0 = 0 then 1 else p0
  match cmd with
  | 'A' => .cursorUp n
  | 'B' => .cursorDown n
  | 'C' => .cursorRight n
  | 'D' => .cursorLeft n
  | 'H' => .cursorHome
  | 'J' => if p0 = 2 then .clearScreen else .none
  | 'K' => .eraseToEol
  | 'm' => p.dispatchSgr
  | _ => .none

/-- A byte of a control sequence. The parameters are `u16`s and saturate. -/
def csiByte (p : Vt100Parser) (byte : UInt8) : Action × Vt100Parser :=
  if 0x30 ≤ byte ∧ byte ≤ 0x39 then
    let digit i := min (min (p.params i * 10) 65535 + (byte.toNat - 0x30)) 65535
    (.none, { p with state := .csiParam, params := fun i => if i = p.paramIdx then digit i else p.params i })
  else if byte = 0x3B then (.none, if p.paramIdx < 3 then { p with paramIdx := p.paramIdx + 1 } else p)
  else (p.dispatchCsi (.ofNat byte.toNat), { p with state := .normal })

def feed (p : Vt100Parser) (byte : UInt8) : Action × Vt100Parser :=
  match p.state with
  | .normal =>
    if byte = 0x1B then (.none, { p with state := .escape })
    else if byte = 0x0A then (.newline, p)
    else if byte = 0x0D then (.carriageReturn, p)
    else if byte = 0x08 ∨ byte = 0x7F then (.backspace, p)
    else if 0x20 ≤ byte ∧ byte ≤ 0x7E then (.print byte, p)
    else (.none, p)
  | .escape => (.none, if byte = 0x5B then ⟨.csi, fun _ => 0, 0⟩ else { p with state := .normal })
  | .csi | .csiParam => p.csiByte byte

/-- What each byte of the stream prints, and the parser behind it. -/
def prints (p : Vt100Parser) : List UInt8 → List (Option UInt8) × Vt100Parser
  | [] => ([], p)
  | byte :: rest => ((p.feed byte).1.printed :: (prints (p.feed byte).2 rest).1, (prints (p.feed byte).2 rest).2)

end Vt100Parser

/-! ## Streams -/

/-- The bytes at which the parser stays in a control sequence. -/
def IsParam (byte : UInt8) : Prop := (0x30 ≤ byte ∧ byte ≤ 0x39) ∨ byte = 0x3B

inductive Item
  | text (byte : UInt8) (printable : 0x20 ≤ byte ∧ byte ≤ 0x7E)
  | control (params inters : List UInt8) (final : UInt8) (isParam : ∀ b ∈ params, 0x30 ≤ b ∧ b ≤ 0x3F)
      (isInter : ∀ b ∈ inters, 0x20 ≤ b ∧ b ≤ 0x2F) (isFinal : 0x40 ≤ final ∧ final ≤ 0x7E)

namespace Item

def bytes : Item → List UInt8
  | text byte _ => [byte]
  | control params inters final .. => 0x1B :: 0x5B :: (params ++ inters ++ [final])

/-- Text prints itself, a control sequence nothing. -/
def shows : Item → List (Option UInt8)
  | text byte _ => [some byte]
  | i => i.bytes.map fun _ => none

def Plain : Item → Prop
  | text .. => True
  | control params inters .. => ∀ b ∈ params ++ inters, IsParam b

end Item

/-- Byte by byte what the items show, and the parser is back after each of them. -/
def TextOnly (items : List Item) : Prop :=
  (Vt100Parser.new.prints (items.flatMap Item.bytes)).1 = items.flatMap Item.shows ∧
    ∀ n, (Vt100Parser.new.prints ((items.take n).flatMap Item.bytes)).2.state = .normal

variable {p : Vt100Parser} {byte final : UInt8} {bs : List UInt8}

namespace Vt100Parser

theorem prints_append (p : Vt100Parser) (a b : List UInt8) :
    p.prints (a ++ b) = ((p.prints a).1 ++ ((p.prints a).2.prints b).1, ((p.prints a).2.prints b).2) := by
  induction a generalizing p with
  | nil => rfl
  | cons x a ih => simp only [cons_append, prints, ih]

theorem length_prints (p : Vt100Parser) (bs : List UInt8) : (p.prints bs).1.length = bs.length := by
  induction bs generalizing p with
  | nil => rfl
  | cons b bs ih => exact congrArg Nat.succ (ih _)

theorem prints_text (hp : p.state = .normal) (h : ∀ b ∈ bs, 0x20 ≤ b ∧ b ≤ 0x7E) : p.prints bs = (bs.map some, p) := by
  induction bs with
  | nil => rfl
  | cons b bs ih =>
    have hb := h b mem_cons_self
    have hfeed : p.feed b = (.print b, p) := by
      unfold feed
      rw [hp]
      grind
    rw [prints, hfeed, ih fun c hc => h c (.tail _ hc)]
    rfl

theorem printed_dispatchCsi (p : Vt100Parser) (cmd : Char) : (p.dispatchCsi cmd).printed = none := by
  simp only [dispatchCsi, dispatchSgr]
  split
  case h_6 | h_8 => split_ifs <;> rfl
  all_goals rfl

theorem feed_csi (hp : p.state = .csi ∨ p.state = .csiParam) (byte : UInt8) : (p.feed byte).1.printed = none ∧
    (IsParam byte → (p.feed byte).2.state = .csi ∨ (p.feed byte).2.state = .csiParam) ∧
    (¬ IsParam byte → (p.feed byte).2.state = .normal) := by
  have hfeed : p.feed byte = p.csiByte byte := by
    unfold feed
    rcases hp with hs | hs <;> rw [hs]
  rw [hfeed, csiByte]
  split_ifs with hdigit hsep
  · exact ⟨rfl, fun _ => .inr rfl, fun h => absurd (.inl hdigit) h⟩
  · exact ⟨rfl, fun _ => hp, fun h => absurd (.inr hsep) h⟩
  · exact ⟨rfl, fun _ => hp, fun h => absurd (.inr hsep) h⟩
  · exact ⟨printed_dispatchCsi .., fun h => absurd h (not_or.mpr ⟨hdigit, hsep⟩), fun _ => rfl⟩

theorem prints_control (hp : p.state = .csi ∨ p.state = .csiParam) (h : ∀ b ∈ bs, 0x20 ≤ b ∧ b ≤ 0x3F)
    (hf : 0x40 ≤ final ∧ final ≤ 0x7E) : (p.prints (bs ++ [final])).2.state = .normal ∧
      ((p.prints (bs ++ [final])).1 = (bs ++ [final]).map (fun _ => none) ↔ ∀ b ∈ bs, IsParam b) := by
  induction bs generalizing p with
  | nil =>
    obtain ⟨hshown, -, hback⟩ := feed_csi hp final
    have hfinal : ¬ IsParam final := by
      unfold IsParam
      grind
    exact ⟨hback hfinal, iff_of_true (congrArg (· :: []) hshown) nofun⟩
  | cons b bs ih =>
    obtain ⟨hshown, hstay, hback⟩ := feed_csi hp b
    have hrest := fun c hc => h c (mem_cons_of_mem b hc)
    by_cases hb : IsParam b
    · obtain ⟨hnormal, hiff⟩ := ih (hstay hb) hrest
      refine ⟨hnormal, ?_⟩
      rw [forall_mem_cons, ← hiff, and_iff_right hb]
      simp [prints, hshown]
    -- the rest is text to the parser, the final byte at least
    have htext : ∀ c ∈ bs ++ [final], 0x20 ≤ c ∧ c ≤ 0x7E := by grind
    rw [cons_append, prints, prints_text (hback hb) htext]
    refine ⟨hback hb, iff_of_false (fun he => ?_) fun hall => hb (hall b mem_cons_self)⟩
    simp at he

theorem prints_csi (hp : p.state = .normal) (bs : List UInt8) : p.prints (0x1B :: 0x5B :: bs) =
    (none :: none :: (prints ⟨.csi, fun _ => 0, 0⟩ bs).1, (prints ⟨.csi, fun _ => 0, 0⟩ bs).2) := by
  simp [prints, feed, hp, Action.printed]

theorem prints_item (hp : p.state = .normal) (i : Item) :
    (p.prints i.bytes).2.state = .normal ∧ ((p.prints i.bytes).1 = i.shows ↔ i.Plain) := by
  cases i with
  | text byte h =>
    rw [Item.bytes, prints_text hp (by simpa using h)]
    exact ⟨hp, iff_of_true rfl trivial⟩
  | control params inters final hparam hinter hf =>
    have hbytes : ∀ b ∈ params ++ inters, 0x20 ≤ b ∧ b ≤ 0x3F := by grind
    obtain ⟨hnormal, hiff⟩ := prints_control (p := ⟨.csi, fun _ => 0, 0⟩) (.inl rfl) hbytes hf
    rw [Item.bytes, prints_csi hp]
    exact ⟨hnormal, by simpa [Item.shows, Item.bytes, Item.Plain] using hiff⟩

theorem prints_items (hp : p.state = .normal) (items : List Item) :
    (p.prints (items.flatMap Item.bytes)).2.state = .normal ∧
      ((p.prints (items.flatMap Item.bytes)).1 = items.flatMap Item.shows ↔ ∀ i ∈ items, i.Plain) := by
  induction items generalizing p with
  | nil => exact ⟨hp, iff_of_true rfl nofun⟩
  | cons i items ih =>
    obtain ⟨hi, hshown⟩ := prints_item hp i
    obtain ⟨hnormal, hrest⟩ := ih hi
    have hlen : (p.prints i.bytes).1.length = i.shows.length := by
      rw [length_prints]
      cases i <;> simp [Item.shows, Item.bytes]
    rw [flatMap_cons, flatMap_cons, prints_append, forall_mem_cons, ← hshown, ← hrest]
    exact ⟨hnormal, fun h => append_inj h hlen, fun h => congrArg₂ _ h.1 h.2⟩

theorem text_only_iff (items : List Item) : TextOnly items ↔ ∀ i ∈ items, i.Plain := by
  rw [TextOnly, (prints_items rfl items).2]
  exact and_iff_left fun n => (prints_items rfl (items.take n)).1

/-- `ESC [ ? 2 5 l`, which hides the cursor. -/
theorem a_private_mode_prints :
    (new.prints [0x1B, 0x5B, 0x3F, 0x32, 0x35, 0x6C]).1 = [none, none, none, some 0x32, some 0x35, some 0x6C] := by
  decide

end Vt100Parser

end Ostoo.Terminal
