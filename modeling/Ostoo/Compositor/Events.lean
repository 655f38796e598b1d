/-
  Ostoo.Compositor.Events — the event loop of the compositor (`compositor/src/main.rs`) and
  the operations it has armed in the kernel.

  An operation is armed with a tag, which is all that its completion brings back, and a
  receive with the address of its buffer. The loop pops completions in order, tells from the
  tag what they are (`decode`), and arms the operation again. Messages, results and what a
  mouse press hits are any (`Seen`).

  - Window ids grow with every connection, also one that fails, and from 0x1000 on the tags of a
    window are those of other sources. `tags_decode` says which connections keep tags unique.
  - `handle_connect` arms a receive into a local and then moves the local into the vector of
    windows; raising and closing move the windows behind. `receives_stay_in_place` says which
    steps leave every armed receive where the loop will read it.

  Left out: geometry and drawing, focus, and keys. A submission that fails ends the program,
  except in `handle_connect`. Ids do not wrap.
-/

import Mathlib.Data.List.Basic
import Ostoo.Lib.Machine

namespace Ostoo.Compositor

open Ostoo.Lib List

def MAX_WINDOWS : Nat := 4
def TAG_NEW_CLIENT : Nat := 0x1000
def TAG_DAMAGE_BASE : Nat := 0x2000
def TAG_CMD_BASE : Nat := 0x3000
def TAG_KEYBOARD : Nat := 0x4000
def TAG_MOUSE : Nat := 0x5000

/-- What an operation was armed for. -/
inductive Source
  | newClient | keyboard | mouse
  | damage (wid : Nat)
  | cmd (wid : Nat)
  deriving DecidableEq

/-- Where a receive buffer is. -/
inductive Place
  | regMsg | kbdMsg
  /-- The local `cmd_msg` of `handle_connect`. -/
  | stack
  /-- The field `cmd_msg` of a window, by the vector's allocation and the index. -/
  | field (vec idx : Nat)
  deriving DecidableEq

structure Op where
  tag : Nat
  source : Source
  buffer : Option Place
  deriving DecidableEq

/-- The tests on `user_data`, in their order. -/
def decode (ud : Nat) : Option Source :=
  if ud = TAG_NEW_CLIENT then some .newClient
  else if ud ≥ TAG_DAMAGE_BASE ∧ ud < TAG_CMD_BASE then some (.damage (ud - TAG_DAMAGE_BASE))
  else if ud = TAG_KEYBOARD then some .keyboard
  else if ud = TAG_MOUSE then some .mouse
  else if ud ≥ TAG_CMD_BASE then some (.cmd (ud - TAG_CMD_BASE))
  else none

structure St where
  /-- The ids of the windows, the top one last. -/
  windows : List Nat
  nextWid : Nat
  /-- The allocation that holds the vector, and its capacity. -/
  vec : Nat
  cap : Nat
  kbdRecv : Bool
  mouseIrq : Bool
  armed : List Op
  completed : List Op

/-- What a handler meets. -/
structure Seen where
  /-- `result >= 0` -/
  ok : Bool
  /-- The message is the one that connects, or closes. -/
  asked : Bool
  /-- A connection gets its buffer and is told so. -/
  granted : Bool
  armsDamage : Bool
  armsCmd : Bool
  /-- The window that is pressed, and whether on its close button. -/
  press : Option (Nat × Bool)

namespace St

variable (s : St)

def arm (op : Op) : St := { s with armed := s.armed ++ [op] }

/-- The address of the `cmd_msg` that `find` leads to. -/
def slot (wid : Nat) : Option Place := if wid ∈ s.windows then some (.field s.vec (s.windows.idxOf wid)) else none

/-- `Vec::push` -/
def push (wid : Nat) : St :=
  if s.windows.length = s.cap then { s with windows := s.windows ++ [wid], vec := s.vec + 1, cap := max (2 * s.cap) 4 }
  else { s with windows := s.windows ++ [wid] }

/-- `windows.retain` -/
def close (wid : Nat) : St := { s with windows := s.windows.filter (· ≠ wid) }

def handleConnect (seen : Seen) : St :=
  if !seen.asked ∨ s.windows.length ≥ MAX_WINDOWS then s
  else
    let wid := s.nextWid
    let s := { s with nextWid := wid + 1 }
    if !seen.granted then s
    else
      let s := if seen.armsDamage then s.arm ⟨TAG_DAMAGE_BASE + wid, .damage wid, none⟩ else s
      let s := if seen.armsCmd then s.arm ⟨TAG_CMD_BASE + wid, .cmd wid, some .stack⟩ else s
      s.push wid

/-- A press raises the window it hits, which `remove` leaves room for, and may close it. -/
def pressed : Option (Nat × Bool) → St
  | none => s
  | some (idx, closes) => match s.windows[idx]? with
    | none => s
    | some wid =>
      let s := { s with windows := s.windows.eraseIdx idx ++ [wid] }
      if closes then s.close wid else s

/-- The windows after a completion with the tag `ud` was handled, and the operations armed by then. -/
def handle (ud : Nat) (seen : Seen) : St :=
  match decode ud with
  | some .newClient => if seen.ok then s.handleConnect seen else s
  | some .mouse => if seen.ok then s.pressed seen.press else s
  | some (.cmd wid) => if wid ∈ s.windows ∧ seen.ok ∧ seen.asked then s.close wid else s
  | _ => s

/-- The operation that is armed again. -/
def rearm (ud : Nat) : List Op :=
  match decode ud with
  | some .newClient => [⟨TAG_NEW_CLIENT, .newClient, some .regMsg⟩]
  | some .keyboard => if s.kbdRecv then [⟨TAG_KEYBOARD, .keyboard, some .kbdMsg⟩] else []
  | some .mouse => if s.mouseIrq then [⟨TAG_MOUSE, .mouse, none⟩] else []
  | some (.damage wid) => if wid ∈ s.windows then [⟨TAG_DAMAGE_BASE + wid, .damage wid, none⟩] else []
  | some (.cmd wid) => (s.slot wid).toList.map fun a => ⟨TAG_CMD_BASE + wid, .cmd wid, some a⟩
  | none => []

def dispatch (ud : Nat) (seen : Seen) : St :=
  let s := s.handle ud seen
  { s with armed := s.armed ++ s.rearm ud }

end St

inductive Ev
  /-- The kernel completes the operation at this index. -/
  | complete (i : Nat)
  /-- The next completion is popped. -/
  | pop (seen : Seen)

def step (s : St) : Ev → Option St
  | .complete i => s.armed[i]?.map fun op => { s with armed := s.armed.eraseIdx i, completed := s.completed ++ [op] }
  | .pop seen => match s.completed with
    | [] => none
    | op :: rest => some ({ s with completed := rest }.dispatch op.tag seen)

def boot (kbdRecv mouseIrq : Bool) : St where
  windows := []
  nextWid := 1
  vec := 0
  cap := 0
  kbdRecv := kbdRecv
  mouseIrq := mouseIrq
  armed := (if kbdRecv then [⟨TAG_KEYBOARD, .keyboard, some .kbdMsg⟩] else []) ++
    (if mouseIrq then [⟨TAG_MOUSE, .mouse, none⟩] else []) ++ [⟨TAG_NEW_CLIENT, .newClient, some .regMsg⟩]
  completed := []

def machine : Machine St Ev := ⟨fun s => ∃ k m, s = boot k m, step⟩

/-! ## What a step arms -/

variable {s s' t : St} {e : Ev} {seen : Seen} {ud wid : Nat} {op : Op}

/-- The completion is a connection that gets its window. -/
def St.Lets (s : St) (ud : Nat) (seen : Seen) : Prop :=
  decode ud = some .newClient ∧ seen.ok = true ∧ seen.asked = true ∧ s.windows.length < MAX_WINDOWS ∧
    seen.granted = true

deriving instance Decidable for St.Lets

/-- The connection that a step lets in. -/
def St.connects (s : St) : Ev → Option Seen
  | .complete _ => none
  | .pop seen => s.completed.head?.bind fun op => if s.Lets op.tag seen then some seen else none

/-- What `handle_connect` arms. -/
def St.connectOps (s : St) (seen : Seen) : List Op :=
  (if seen.armsDamage then [⟨TAG_DAMAGE_BASE + s.nextWid, .damage s.nextWid, none⟩] else []) ++
    if seen.armsCmd then [⟨TAG_CMD_BASE + s.nextWid, .cmd s.nextWid, some .stack⟩] else []

theorem connectOps_cmd (h : op ∈ s.connectOps seen) (hsrc : op.source = .cmd wid) :
    seen.armsCmd = true ∧ wid = s.nextWid := by
  simp only [St.connectOps, mem_append, mem_ite_nil_right, mem_singleton] at h
  rcases h with ⟨-, rfl⟩ | ⟨hc, rfl⟩
  · cases hsrc
  · exact ⟨hc, (Source.cmd.inj hsrc).symm⟩

section

variable {l a b : List Nat} {x w i : Nat}

theorem split_at (h : l[i]? = some x) : ∃ a b, l = a ++ x :: b ∧ a.length = i := by
  obtain ⟨hi, rfl⟩ := List.getElem?_eq_some_iff.mp h
  exact ⟨l.take i, l.drop (i + 1), by simp, by simp [Nat.le_of_lt hi]⟩

theorem eraseIdx_split (a b : List Nat) (x : Nat) : (a ++ x :: b).eraseIdx a.length = a ++ b := by
  simp [eraseIdx_append_of_length_le]

variable (hn : l.Nodup) (hx : l[i]? = some x)
include hx

theorem raise_perm : (l.eraseIdx i ++ [x]).Perm l := by
  obtain ⟨a, b, rfl, rfl⟩ := split_at hx
  rw [eraseIdx_split, append_assoc]
  exact perm_append_comm.append_left a

include hn

theorem filter_raised : (l.eraseIdx i ++ [x]).filter (· ≠ x) = l.filter (· ≠ x) := by
  obtain ⟨a, b, rfl, rfl⟩ := split_at hx
  rw [eraseIdx_split]
  simp

theorem filter_closed : l.filter (· ≠ x) = l.eraseIdx i := by
  have herase := hn.erase_eq_filter x
  obtain ⟨a, b, rfl, rfl⟩ := split_at hx
  rw [eraseIdx_split]
  grind

/-- The windows above a closed one move. -/
theorem idxOf_closed (hw : w ∈ l) (hne : w ≠ x) : (l.filter (· ≠ x)).idxOf w = l.idxOf w ↔ w ∉ l.drop (i + 1) := by
  rw [filter_closed hn hx]
  obtain ⟨a, b, rfl, rfl⟩ := split_at hx
  have hdrop : (a ++ x :: b).drop (a.length + 1) = b := by simp [drop_append]
  rw [eraseIdx_split, hdrop]
  grind

/-- So do those above a raised one, and that one. -/
theorem idxOf_raised (hw : w ∈ l) :
    (l.eraseIdx i ++ [x]).idxOf w = l.idxOf w ↔ w ∉ if i + 1 < l.length then l.drop i else [] := by
  obtain ⟨a, b, rfl, rfl⟩ := split_at hx
  rw [eraseIdx_split]
  grind

end

/-- Windows have moved or gone. -/
structure Kept (s t : St) : Prop where
  armed : t.armed = s.armed
  completed : t.completed = s.completed
  next : s.nextWid ≤ t.nextWid
  windows : ∀ w ∈ t.windows, w ∈ s.windows
  nodup : s.windows.Nodup → t.windows.Nodup

/-- A window was let in. -/
structure Entered (s : St) (seen : Seen) (t : St) : Prop where
  armed : t.armed = s.armed ++ s.connectOps seen
  completed : t.completed = s.completed
  next : t.nextWid = s.nextWid + 1
  windows : t.windows = s.windows ++ [s.nextWid]
  vec : t.vec = s.vec ↔ s.windows.length ≠ s.cap

theorem Kept.refl (s : St) : Kept s s := ⟨rfl, rfl, Nat.le_refl _, fun _ h => h, fun h => h⟩

theorem pressed_kept (s : St) (press : Option (Nat × Bool)) : Kept s (s.pressed press) := by
  cases press with
  | none => exact .refl s
  | some hit =>
    simp only [St.pressed]
    split
    · exact .refl s
    rename_i w hw
    have hraise : (s.windows.eraseIdx hit.1 ++ [w]).Perm s.windows := raise_perm hw
    split
    · exact ⟨rfl, rfl, Nat.le_refl _, fun v hv => hraise.subset (mem_filter.mp hv).1,
        fun h => (hraise.nodup_iff.mpr h).filter _⟩
    · exact ⟨rfl, rfl, Nat.le_refl _, fun v hv => hraise.subset hv, hraise.nodup_iff.mpr⟩

/-- The new window comes last, in a new allocation if the old one is full. -/
theorem push_entered (h : t = { s with nextWid := s.nextWid + 1, armed := s.armed ++ s.connectOps seen }) :
    Entered s seen (t.push s.nextWid) := by
  subst h
  unfold St.push
  split <;> rename_i hcap
  · exact ⟨rfl, rfl, rfl, rfl, iff_of_false (Nat.succ_ne_self _) (not_not.mpr hcap)⟩
  · exact ⟨rfl, rfl, rfl, rfl, iff_of_true rfl hcap⟩

/-- Only a connection that gets its window arms something, beside what is armed again. -/
theorem handle_cases (s : St) (ud : Nat) (seen : Seen) :
    (s.Lets ud seen ∧ Entered s seen (s.handle ud seen)) ∨ (¬ s.Lets ud seen ∧ Kept s (s.handle ud seen)) := by
  by_cases hnew : decode ud = some .newClient
  · simp only [St.handle, hnew, St.handleConnect, St.Lets, true_and]
    cases hok : seen.ok with
    | false => exact .inr ⟨by simp, .refl s⟩
    | true =>
      rw [if_pos rfl]
      split
      · rename_i hno
        refine .inr ⟨fun h => ?_, .refl s⟩
        simp only [h.2.1, Bool.not_true, Bool.false_eq_true, false_or] at hno
        omega
      · rename_i hyes
        simp only [Bool.not_eq_true', not_or, Bool.not_eq_false, ge_iff_le, Nat.not_le] at hyes
        cases hg : seen.granted with
        | false => exact .inr ⟨by simp, ⟨rfl, rfl, Nat.le_succ _, fun _ h => h, fun h => h⟩⟩
        | true =>
          refine .inl ⟨⟨rfl, hyes.1, hyes.2, rfl⟩, ?_⟩
          cases hd : seen.armsDamage <;> cases hc : seen.armsCmd <;>
            exact push_entered (by simp [St.connectOps, St.arm, hd, hc])
  · refine .inr ⟨fun h => hnew h.1, ?_⟩
    unfold St.handle
    split
    · exact absurd ‹_› hnew
    · split
      · exact pressed_kept s seen.press
      · exact .refl s
    · split
      · exact ⟨rfl, rfl, Nat.le_refl _, fun w h => (mem_filter.mp h).1, fun h => h.filter _⟩
      · exact .refl s
    · exact .refl s

/-- What a step does: an operation completes, or the next completion is handled and armed again. -/
theorem step_cases (hs : step s e = some s') :
    (s.connects e = none ∧ ∃ i op, s.armed[i]? = some op ∧
      s' = { s with armed := s.armed.eraseIdx i, completed := s.completed ++ [op] }) ∨
    ∃ op t, s.completed = op :: t.completed ∧ s' = { t with armed := t.armed ++ t.rearm op.tag } ∧
      ((∃ seen, s.connects e = some seen ∧ Entered { s with completed := t.completed } seen t) ∨
        (s.connects e = none ∧ Kept { s with completed := t.completed } t)) := by
  cases e with
  | complete i =>
    obtain ⟨op, hop, rfl⟩ := of_map hs
    exact .inl ⟨rfl, i, op, hop, rfl⟩
  | pop seen =>
    cases hc : s.completed with
    | nil =>
      rw [step, hc] at hs
      cases hs
    | cons op rest =>
      simp only [step, hc, Option.some.injEq] at hs
      refine .inr ⟨op, St.handle { s with completed := rest } op.tag seen, ?_⟩
      have hlets : s.connects (.pop seen) =
          if St.Lets { s with completed := rest } op.tag seen then some seen else none := by
        rw [St.connects, hc]
        rfl
      rcases handle_cases { s with completed := rest } op.tag seen with ⟨hl, h⟩ | ⟨hl, h⟩
      · refine ⟨congrArg (op :: ·) h.completed.symm, hs.symm, .inl ⟨seen, hlets.trans (if_pos hl), ?_⟩⟩
        rwa [h.completed]
      · refine ⟨congrArg (op :: ·) h.completed.symm, hs.symm, .inr ⟨hlets.trans (if_neg hl), ?_⟩⟩
        rwa [h.completed]

/-! ## Tags -/

/-- Every completion, posted or to come, will be taken for what it is. -/
def TagsOk (s : St) : Prop := ∀ op ∈ s.armed ++ s.completed, decode op.tag = some op.source

/-- A window that is let in has an id whose tags are its own. -/
def TagsFit (s : St) (e : Ev) : Prop := ∀ seen, s.connects e = some seen →
  (seen.armsDamage → s.nextWid < 0x1000) ∧ (seen.armsCmd → s.nextWid ≠ 0x1000 ∧ s.nextWid ≠ 0x2000)

theorem decode_damage_iff (wid : Nat) : decode (TAG_DAMAGE_BASE + wid) = some (.damage wid) ↔ wid < 0x1000 := by
  constructor
  · intro h
    unfold decode at h
    split_ifs at h <;> simp only [Option.some.injEq, reduceCtorEq] at h
    simp only [TAG_DAMAGE_BASE, TAG_CMD_BASE] at *
    omega
  · intro h
    rw [decode, if_neg, if_pos, Nat.add_sub_cancel_left] <;>
      simp only [TAG_NEW_CLIENT, TAG_DAMAGE_BASE, TAG_CMD_BASE] <;> omega

theorem decode_cmd_iff (wid : Nat) : decode (TAG_CMD_BASE + wid) = some (.cmd wid) ↔ wid ≠ 0x1000 ∧ wid ≠ 0x2000 := by
  constructor
  · intro h
    unfold decode at h
    split_ifs at h <;> simp only [Option.some.injEq, reduceCtorEq] at h
    simp only [TAG_KEYBOARD, TAG_MOUSE, TAG_CMD_BASE] at *
    omega
  · intro h
    rw [decode, if_neg, if_neg, if_neg, if_neg, if_pos, Nat.add_sub_cancel_left] <;>
      simp only [TAG_NEW_CLIENT, TAG_DAMAGE_BASE, TAG_CMD_BASE, TAG_KEYBOARD, TAG_MOUSE] <;> omega

theorem decode_tag {src : Source} (h : decode ud = some src) : (match src with
    | .newClient => TAG_NEW_CLIENT
    | .damage wid => TAG_DAMAGE_BASE + wid
    | .keyboard => TAG_KEYBOARD
    | .mouse => TAG_MOUSE
    | .cmd wid => TAG_CMD_BASE + wid) = ud := by
  unfold decode at h
  split_ifs at h <;> cases h <;> simp only [TAG_DAMAGE_BASE, TAG_CMD_BASE] at * <;> omega

/-- What is armed again has the tag that came back, and is what the tag was taken for. -/
theorem rearm_tag (h : op ∈ s.rearm ud) : op.tag = ud ∧ decode ud = some op.source := by
  cases hd : decode ud with
  | none =>
    rw [St.rearm, hd] at h
    cases h
  | some src =>
    have ht := decode_tag hd
    rw [St.rearm, hd] at h
    cases src <;> simp only [mem_map, mem_ite_nil_right, mem_singleton] at h
    case newClient =>
      subst h
      exact ⟨ht, rfl⟩
    case cmd =>
      obtain ⟨-, -, rfl⟩ := h
      exact ⟨ht, rfl⟩
    all_goals
      obtain ⟨-, rfl⟩ := h
      exact ⟨ht, rfl⟩

theorem step_tagsOk_iff (h : TagsOk s) (hs : step s e = some s') : TagsOk s' ↔ TagsFit s e := by
  rcases step_cases hs with ⟨hno, _, op, hop, rfl⟩ | ⟨op, t, hc, rfl, hnew⟩
  · refine iff_of_true (fun q hq => h q ?_) (by simp [TagsFit, hno])
    simp only [mem_append, mem_singleton] at hq ⊢
    rcases hq with hq | hq | rfl
    · exact .inl (mem_of_mem_eraseIdx hq)
    · exact .inr hq
    · exact .inl (mem_of_getElem? hop)
  · -- what was there, and what is armed again, keeps its tag
    have hrest : ∀ q ∈ s.armed ++ t.rearm op.tag ++ t.completed, decode q.tag = some q.source := by
      intro q hq
      simp only [mem_append] at hq
      rcases hq with (hq | hq) | hq
      · exact h q (mem_append_left _ hq)
      · obtain ⟨htag, hsrc⟩ := rearm_tag hq
        rw [htag, hsrc]
      · exact h q (by simp [hc, hq])
    simp only [mem_append, or_imp, forall_and] at hrest
    obtain ⟨⟨harmed, hagain⟩, hdone⟩ := hrest
    unfold TagsOk
    rcases hnew with ⟨seen, hseen, he⟩ | ⟨hnone, hk⟩
    · have hfit : TagsFit s e ↔ ∀ q ∈ s.connectOps seen, decode q.tag = some q.source := by
        simp only [TagsFit, hseen, Option.some.injEq, forall_eq', ← decode_damage_iff, ← decode_cmd_iff, St.connectOps]
        cases seen.armsDamage <;> cases seen.armsCmd <;> simp
      rw [hfit, he.armed]
      simp only [mem_append, or_imp, forall_and]
      exact ⟨fun hall => hall.1.1.2, fun hnew => ⟨⟨⟨harmed, hnew⟩, hagain⟩, hdone⟩⟩
    · rw [hk.armed]
      simp only [mem_append, or_imp, forall_and]
      exact iff_of_true ⟨⟨harmed, hagain⟩, hdone⟩ (by simp [TagsFit, hnone])

/-- A step from a state whose tags are unique keeps them so exactly if a window that it lets in
    has an id below 0x1000 (for the receive alone: not 0x1000 or 0x2000); so runs of such steps
    take every completion for what it is. -/
theorem tags_decode (s : St) :
    (∀ e s', TagsOk s → step s e = some s' → (TagsOk s' ↔ TagsFit s e)) ∧ (machine.Reach TagsFit s → TagsOk s) := by
  refine ⟨fun e s' => step_tagsOk_iff, fun h => ?_⟩
  refine Machine.Reach.inv (I := TagsOk) ?_ (fun s e s' hi hg hs => (step_tagsOk_iff hi hs).mpr hg) h
  rintro - ⟨k, m, rfl⟩
  cases k <;> cases m <;> simp [TagsOk, boot, decode, TAG_NEW_CLIENT, TAG_DAMAGE_BASE, TAG_CMD_BASE,
    TAG_KEYBOARD, TAG_MOUSE]

/-- The registration receive completes with a request to connect, and both operations are armed. -/
def connecting (granted : Bool) : List Ev := [.complete 0, .pop ⟨true, true, granted, true, true, none⟩]

theorem tags_decode_first_window : ∃ s, machine.run (boot false false) (connecting true) = some s ∧
    ∀ op ∈ s.armed ++ s.completed, decode op.tag = some op.source := by
  refine ⟨_, rfl, (tags_decode _).2 (Machine.reach_of_run (boot false false) (connecting true) ⟨_, _, rfl⟩ ?_ rfl)⟩
  exact ⟨fun _ h => (nomatch h), fun _ _ => ⟨fun _ => (by decide : 1 < 0x1000), fun _ => (by decide : 1 ≠ 0x1000 ∧
    1 ≠ 0x2000)⟩, trivial⟩

theorem reachable_nextWid (n : Nat) : machine.Reachable { boot false false with nextWid := n + 1 } := by
  induction n with
  | zero => exact .start ⟨_, _, rfl⟩
  | succ n ih => exact ih.append (Machine.reachable_of_run _ (connecting false) rfl rfl)

/-- Window 0x1000 is armed with the tags of the command channel of window 0 and of the keyboard. -/
theorem window_0x1000_is_taken_for_the_keyboard : ∃ s, machine.Reachable s ∧
    (∃ op ∈ s.armed, op.source = .cmd 0x1000 ∧ decode op.tag = some .keyboard) ∧
    ∃ op ∈ s.armed, op.source = .damage 0x1000 ∧ decode op.tag = some (.cmd 0) := by
  refine ⟨_, (reachable_nextWid 0xFFF).append (Machine.reachable_of_run _ (connecting true) rfl rfl), ?_, ?_⟩
  · exact ⟨⟨0x4000, .cmd 0x1000, some .stack⟩, by decide, rfl, by decide⟩
  · exact ⟨⟨0x3000, .damage 0x1000, none⟩, by decide, rfl, by decide⟩

/-! ## Buffers -/

/-- A receive on the command channel of an open window has the address of the window's `cmd_msg`. -/
def InPlace (s : St) : Prop := ∀ op ∈ s.armed, ∀ wid a, op.source = .cmd wid → s.slot wid = some a → op.buffer = some a

/-- The windows that get another address: when the vector is full and one more is let in, all of
    them; when one below the top is pressed, that one and those above it; when one is closed,
    those above it. -/
def St.moved (s : St) (ud : Nat) (seen : Seen) : List Nat :=
  match decode ud with
  | some .newClient => if s.Lets ud seen ∧ s.windows.length = s.cap then s.windows else []
  | some .mouse => match seen.ok, seen.press with
    | true, some (idx, true) => s.windows.drop (idx + 1)
    | true, some (idx, false) => if idx + 1 < s.windows.length then s.windows.drop idx else []
    | _, _ => []
  | some (.cmd wid) => if seen.ok ∧ seen.asked then s.windows.drop (s.windows.idxOf wid + 1) else []
  | _ => []

/-- No window is let in with its receive armed, and none that moves has one. -/
def St.Stays (s : St) (ud : Nat) (seen : Seen) : Prop :=
  (s.Lets ud seen → seen.armsCmd = false) ∧ ∀ wid ∈ s.moved ud seen, ∀ op ∈ s.armed, op.source ≠ .cmd wid

deriving instance Decidable for St.Stays

def Settled (s : St) : Ev → Prop
  | .complete _ => True
  | .pop seen => ∀ op ∈ s.completed.head?, s.Stays op.tag seen

instance (s : St) (e : Ev) : Decidable (Settled s e) := by
  cases e <;> unfold Settled <;> infer_instance

/-- Ids are given out in order. -/
structure Known (s : St) : Prop where
  nodup : s.windows.Nodup
  windows : ∀ w ∈ s.windows, w < s.nextWid
  receives : ∀ op ∈ s.armed, ∀ wid, op.source = .cmd wid → wid < s.nextWid

theorem slot_eq_some {a : Place} : s.slot wid = some a ↔ wid ∈ s.windows ∧ a = .field s.vec (s.windows.idxOf wid) := by
  unfold St.slot
  split <;> simp_all [eq_comm]

theorem rearm_buffer (h : op ∈ s.rearm ud) (hsrc : op.source = .cmd wid) :
    op.buffer = s.slot wid ∧ wid ∈ s.windows := by
  obtain ⟨-, hd⟩ := rearm_tag h
  rw [St.rearm, hd, hsrc] at h
  obtain ⟨a, ha, rfl⟩ := mem_map.mp h
  have ha : s.slot wid = some a := by simpa using ha
  exact ⟨ha.symm, (slot_eq_some.mp ha).1⟩

theorem step_known (h : Known s) (hs : step s e = some s') : Known s' := by
  rcases step_cases hs with ⟨-, -, -, -, rfl⟩ | ⟨-, t, -, rfl, hnew⟩
  · exact ⟨h.nodup, h.windows, fun q hq => h.receives q (mem_of_mem_eraseIdx hq)⟩
  have hold : Known t := by
    rcases hnew with ⟨_, -, he⟩ | ⟨-, hk⟩
    · refine ⟨?_, ?_, ?_⟩ <;> simp only [he.windows, he.armed, he.next, mem_append, mem_singleton]
      · exact nodup_append.mpr ⟨h.nodup, pairwise_singleton ..,
          fun w hw v hv => mem_singleton.mp hv ▸ Nat.ne_of_lt (h.windows w hw)⟩
      · rintro w (hw | rfl)
        · exact Nat.lt_succ_of_lt (h.windows w hw)
        · exact Nat.lt_succ_self _
      · rintro q (hq | hq) wid hsrc
        · exact Nat.lt_succ_of_lt (h.receives q hq wid hsrc)
        · exact (connectOps_cmd hq hsrc).2 ▸ Nat.lt_succ_self _
    · exact ⟨hk.nodup h.nodup, fun w hw => Nat.lt_of_lt_of_le (h.windows w (hk.windows w hw)) hk.next,
        fun q hq wid hsrc => Nat.lt_of_lt_of_le (h.receives q (hk.armed ▸ hq) wid hsrc) hk.next⟩
  refine ⟨hold.nodup, hold.windows, fun q hq wid hsrc => ?_⟩
  rcases mem_append.mp hq with hq | hq
  · exact hold.receives q hq wid hsrc
  · exact hold.windows wid (rearm_buffer hq hsrc).2

theorem mem_of_moved (h : wid ∈ s.moved ud seen) : wid ∈ s.windows := by
  unfold St.moved at h
  split at h
  · exact (mem_ite_nil_right.mp h).2
  · split at h
    · exact mem_of_mem_drop h
    · exact mem_of_mem_drop (mem_ite_nil_right.mp h).2
    · cases h
  · exact mem_of_mem_drop (mem_ite_nil_right.mp h).2
  · cases h

/-- A window of `moved` stays open; one that stays open has its index, in the same allocation,
    exactly if it is not in `moved`. -/
def Shifts (s s' : St) (moved : List Nat) : Prop :=
  ∀ wid ∈ s.windows, (wid ∈ moved → wid ∈ s'.windows) ∧ (wid ∈ s'.windows →
    (s'.vec = s.vec ∧ s'.windows.idxOf wid = s.windows.idxOf wid ↔ wid ∉ moved))

theorem shifts_nil (hw : s'.windows = s.windows) (hv : s'.vec = s.vec) : Shifts s s' [] := by
  intro wid _
  simp [hw, hv]

theorem close_shifts (hn : s.windows.Nodup) {x i : Nat} (hx : s.windows[i]? = some x) :
    Shifts s (s.close x) (s.windows.drop (i + 1)) := by
  intro wid hw
  refine ⟨fun hd => mem_filter.mpr ⟨hw, ?_⟩, fun hc =>
    (and_iff_right rfl).trans (idxOf_closed hn hx hw (of_decide_eq_true (mem_filter.mp hc).2))⟩
  obtain ⟨a, b, hl, rfl⟩ := split_at hx
  have hdrop : (a ++ x :: b).drop (a.length + 1) = b := by simp [drop_append]
  rw [hl] at hn hd
  grind

theorem pressed_shifts (hn : s.windows.Nodup) (idx : Nat) (closes : Bool) :
    Shifts s (s.pressed (some (idx, closes))) (if closes then s.windows.drop (idx + 1)
      else if idx + 1 < s.windows.length then s.windows.drop idx else []) := by
  cases hx : s.windows[idx]? with
  | none =>
    have hle := getElem?_eq_none_iff.mp hx
    rw [drop_eq_nil_of_le (Nat.le_succ_of_le hle), if_neg (Nat.not_lt.mpr (Nat.le_succ_of_le hle)), ite_self]
    exact shifts_nil (by simp [St.pressed, hx]) (by simp [St.pressed, hx])
  | some x =>
    cases closes with
    | true =>
      have hclose := close_shifts hn hx
      rw [St.close, ← filter_raised hn hx] at hclose
      simp only [St.pressed, hx]
      exact hclose
    | false =>
      intro wid hw
      simp only [St.pressed, hx]
      exact ⟨fun _ => (raise_perm hx).symm.subset hw, fun _ => (and_iff_right rfl).trans (idxOf_raised hn hx hw)⟩

theorem handleConnect_shifts (hd : decode ud = some .newClient) (hl : ¬ s.Lets ud seen) :
    Shifts s (if seen.ok then s.handleConnect seen else s) [] := by
  simp only [St.Lets, hd, true_and] at hl
  unfold St.handleConnect
  split_ifs <;> first | exact shifts_nil rfl rfl | grind

theorem handle_shifts (hn : s.windows.Nodup) (ud : Nat) (seen : Seen) :
    Shifts s (s.handle ud seen) (s.moved ud seen) := by
  by_cases hl : s.Lets ud seen
  · obtain ⟨-, he⟩ := (handle_cases s ud seen).resolve_right fun h => h.1 hl
    intro wid hw
    rw [he.windows, idxOf_append_of_mem hw, he.vec, St.moved, hl.1]
    by_cases hcap : s.windows.length = s.cap <;> simp [hl, hcap, hw]
  unfold St.moved St.handle
  cases hd : decode ud with
  | none => exact shifts_nil rfl rfl
  | some src =>
    cases src with
    | newClient => simpa [hl] using handleConnect_shifts hd hl
    | mouse =>
      cases hok : seen.ok with
      | false => exact shifts_nil rfl rfl
      | true =>
        cases hp : seen.press with
        | none => exact shifts_nil rfl rfl
        | some hit =>
          obtain ⟨idx, closes⟩ := hit
          cases closes <;> exact pressed_shifts hn idx _
    | cmd v =>
      by_cases hv : v ∈ s.windows
      · simp only [hv, true_and]
        split_ifs
        · exact close_shifts hn (getElem?_idxOf hv)
        · exact shifts_nil rfl rfl
      · simpa [hv, drop_eq_nil_of_le] using shifts_nil (s := s) rfl rfl
    | keyboard | damage => exact shifts_nil rfl rfl

theorem dispatch_inPlace_iff (hk : Known s) (h : InPlace s) (ud : Nat) (seen : Seen) :
    InPlace (s.dispatch ud seen) ↔ s.Stays ud seen := by
  have hslot : ∀ {wid a}, wid ∈ s.windows → (s.handle ud seen).slot wid = some a →
      (s.slot wid = some a ↔ wid ∉ s.moved ud seen) := by
    intro wid a hw ha
    obtain ⟨ht, rfl⟩ := slot_eq_some.mp ha
    rw [← (handle_shifts hk.nodup ud seen wid hw).2 ht, slot_eq_some, and_iff_right hw, Place.field.injEq]
  have hold : ∀ q ∈ s.armed, q ∈ (s.handle ud seen).armed := by
    rcases handle_cases s ud seen with ⟨-, he⟩ | ⟨-, hkept⟩
    · exact fun q hq => he.armed ▸ mem_append_left _ hq
    · exact fun q hq => hkept.armed ▸ hq
  constructor
  · intro hp
    refine ⟨fun hl => ?_, fun wid hm q hq hsrc => ?_⟩
    · obtain ⟨-, he⟩ := (handle_cases s ud seen).resolve_right fun h => h.1 hl
      by_contra hc
      -- the buffer is the local, and the window is in the vector by now
      have hmem : ⟨TAG_CMD_BASE + s.nextWid, .cmd s.nextWid, some .stack⟩ ∈ (s.dispatch ud seen).armed := by
        simp [St.dispatch, he.armed, St.connectOps, Bool.not_eq_false _ ▸ hc]
      have hbuf := hp _ hmem s.nextWid _ rfl (slot_eq_some.mpr ⟨by simp [St.dispatch, he.windows], rfl⟩)
      cases hbuf
    · have hw := mem_of_moved hm
      have ht := (handle_shifts hk.nodup ud seen wid hw).1 hm
      have ha : (s.handle ud seen).slot wid = some _ := slot_eq_some.mpr ⟨ht, rfl⟩
      have hb : s.slot wid = some _ := slot_eq_some.mpr ⟨hw, rfl⟩
      have hsame := (hp q (mem_append_left _ (hold q hq)) wid _ hsrc ha).symm.trans (h q hq wid _ hsrc hb)
      exact (hslot hw ha).mp (hb.trans hsame.symm) hm
  · rintro ⟨harms, hstay⟩ q hq wid b hsrc hb
    rcases mem_append.mp hq with hq | hq
    swap
    · exact (rearm_buffer hq hsrc).1.trans hb
    have hin : q ∈ s.armed ∧ wid ∈ s.windows := by
      have hb := (slot_eq_some.mp hb).1
      rcases handle_cases s ud seen with ⟨hl, he⟩ | ⟨-, hkept⟩
      · have hb : wid ∈ s.windows ++ [s.nextWid] := he.windows ▸ hb
        have hq : q ∈ s.armed := (mem_append.mp (he.armed ▸ hq)).resolve_right fun hq => by
          have hc := (connectOps_cmd hq hsrc).1
          rw [harms hl] at hc
          cases hc
        refine ⟨hq, (mem_append.mp hb).resolve_right fun hv => ?_⟩
        exact Nat.ne_of_lt (hk.receives q hq wid hsrc) (mem_singleton.mp hv)
      · exact ⟨hkept.armed ▸ hq, hkept.windows wid hb⟩
    exact h q hin.1 wid b hsrc ((hslot hin.2 hb).mpr fun hm => hstay wid hm q hin.1 hsrc)

theorem step_inPlace_iff (hk : Known s) (h : InPlace s) (hs : step s e = some s') : InPlace s' ↔ Settled s e := by
  cases e with
  | complete i =>
    obtain ⟨_, -, rfl⟩ := of_map hs
    exact iff_of_true (fun q hq => h q (mem_of_mem_eraseIdx hq)) trivial
  | pop seen =>
    cases hc : s.completed with
    | nil =>
      rw [step, hc] at hs
      cases hs
    | cons op rest =>
      simp only [step, hc, Option.some.injEq] at hs
      rw [← hs, dispatch_inPlace_iff (s := { s with completed := rest }) ⟨hk.nodup, hk.windows, hk.receives⟩ h]
      simp [Settled, hc]
      rfl

/-- From a state in which every armed receive is in place, a step leads to another exactly if it
    arms no receive for a new window and moves no window whose receive is armed; so do runs of
    such steps. -/
theorem receives_stay_in_place (hk : Known s) (h : InPlace s) :
    (∀ e s', step s e = some s' → (InPlace s' ↔ Settled s e)) ∧ ∀ s', (machine.startedAt s).Reach Settled s' →
      InPlace s' := by
  refine ⟨fun e s' => step_inPlace_iff hk h, fun s' hr => ?_⟩
  exact (Machine.Reach.inv_from (I := fun s => Known s ∧ InPlace s) ⟨hk, h⟩
    (fun s e s' hi hg hs => ⟨step_known hi.1 hs, (step_inPlace_iff hi.1 hi.2 hs).mpr hg⟩) hr).2

/-- Two windows with their receives in place, and a mouse event. -/
def twoWindows : St where
  windows := [1, 2]
  nextWid := 3
  vec := 1
  cap := 4
  kbdRecv := false
  mouseIrq := true
  armed := [⟨TAG_CMD_BASE + 1, .cmd 1, some (.field 1 0)⟩, ⟨TAG_CMD_BASE + 2, .cmd 2, some (.field 1 1)⟩]
  completed := [⟨TAG_MOUSE, .mouse, none⟩]

/-- A press on the upper window, and its close request; a press on the lower one raises it instead,
    and neither receive is in place any more. -/
theorem receives_stay_in_place_close :
    (∃ s', (machine.startedAt twoWindows).Reach Settled s' ∧ s'.windows = [1] ∧ s'.armed.length = 2 ∧ InPlace s') ∧
    ¬ Settled twoWindows (.pop ⟨true, false, false, false, false, some (0, false)⟩) := by
  have hk : Known twoWindows := ⟨by decide, by decide, fun op hop wid hsrc => by
    simp only [twoWindows, mem_cons, not_mem_nil, or_false] at hop
    rcases hop with rfl | rfl <;> cases hsrc <;> decide⟩
  have hp : InPlace twoWindows := fun op hop wid a hsrc ha => by
    simp only [twoWindows, mem_cons, not_mem_nil, or_false] at hop
    rcases hop with rfl | rfl <;> cases hsrc <;> exact ha
  constructor
  · obtain ⟨s', hr, hw, hl⟩ := Machine.exists_reach (M := machine.startedAt twoWindows) (G := Settled)
      (P := fun s' => s'.windows = [1] ∧ s'.armed.length = 2) twoWindows
        [.pop ⟨true, false, false, false, false, some (1, false)⟩, .complete 1,
        .pop ⟨true, true, false, false, false, none⟩] rfl (by decide)
    exact ⟨s', hr, hw, hl, (receives_stay_in_place hk hp).2 s' hr⟩
  · intro h
    have hraised := ((receives_stay_in_place hk hp).1 _ _ rfl).mpr h
    have := hraised ⟨TAG_CMD_BASE + 1, .cmd 1, some (.field 1 0)⟩ (by decide) 1 (.field 1 1) rfl (by decide)
    cases this

/-- The receive of the first window is armed into a local of `handle_connect`, and the loop will
    read the window's field. -/
theorem connecting_arms_a_local : ∃ s, machine.Reachable s ∧ s.slot 1 = some (.field 1 0) ∧
    ∃ op ∈ s.armed, op.source = .cmd 1 ∧ op.buffer = some .stack := by
  refine ⟨_, Machine.reachable_of_run (boot false false) (connecting true) ⟨_, _, rfl⟩ rfl, by decide, ?_⟩
  exact ⟨⟨TAG_CMD_BASE + 1, .cmd 1, some .stack⟩, by decide, rfl, rfl⟩

end Ostoo.Compositor
