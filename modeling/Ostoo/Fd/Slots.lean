/-
  Ostoo.Fd.Slots — which slots of an fd table a call fills, empties or leaves alone.

  `alloc_fd` keeps a table at 64 slots; `set_fd`, and so `dup2`, makes it as long as its
  target needs (`dup2_grows_the_table`), up to a number that no memory holds. If every `dup2`
  names a target below 64, then over every run of all processes no table has more than 64
  slots, allocation gives the least free one and fails only with all 64 in use, and a call
  changes only what it names: the fds among its arguments, for `execve` the close-on-exec ones,
  and the fds it allocates (`fd_table_discipline`).
-/

import Ostoo.Fd.Exact

namespace Ostoo.Fd

open Ostoo.Lib Ostoo.Ipc Kernel List OrdMap

/-! ## One table -/

namespace FdTable

variable {α : Type} {t t' t'' : FdTable α} {e : FdEntry α}

theorem length_extend (t : FdTable α) (fd : Nat) : (t.extend fd).length = max t.length (fd + 1) := by
  rw [extend, length_append, length_replicate]
  omega

theorem getFd_dropCloexec {fd : Nat} (h : ∀ e, t.getFd fd = some e → e.cloexec = false) :
    t.dropCloexec.getFd fd = t.getFd fd := by
  unfold getFd dropCloexec at *
  rw [getElem?_map]
  cases hs : t[fd]? with
  | none => rfl
  | some slot =>
    cases slot with
    | none => rfl
    | some e =>
      have hc := h e (by rw [hs]; rfl)
      simp [Option.filter, hc]

theorem allocFd_eq_none (h : t.allocFd e = none) : ∀ j < MAX_FDS, t.getFd j ≠ none := by
  intro j hj
  unfold allocFd at h
  split at h
  · cases h
  rename_i hnone
  split at h
  · cases h
  have hlt : j < t.length := by omega
  have hsome := findIdx?_eq_none_iff.mp hnone _ (getElem_mem hlt)
  rw [getFd, getElem?_eq_getElem hlt, Option.join_some]
  exact fun hn => by rw [hn] at hsome; cases hsome

/-- Slots outside `S` are as before; `n` is the length the call asks for. -/
structure Only (n : Nat) (S : Nat → Prop) (t t' : FdTable α) : Prop where
  length : t'.length ≤ max t.length n
  others : ∀ fd, ¬ S fd → t'.getFd fd = t.getFd fd

theorem Only.refl (n : Nat) (S : Nat → Prop) (t : FdTable α) : Only n S t t := ⟨le_max_left _ _, fun _ _ => rfl⟩

variable {S : Nat → Prop}

theorem Only.trans {n : Nat} (h : Only n S t t') (h' : Only n S t' t'') : Only n S t t'' := by
  refine ⟨?_, fun fd hfd => (h'.others fd hfd).trans (h.others fd hfd)⟩
  have := h.length
  have := h'.length
  omega

theorem Only.mono {n n' : Nat} {S' : Nat → Prop} (h : Only n S t t') (hn : n ≤ n') (hS : ∀ fd, S fd → S' fd) :
    Only n' S' t t' :=
  ⟨by have := h.length; omega, fun fd hfd => h.others fd fun hs => hfd (hS fd hs)⟩

theorem Only.set (fd : Nat) (slot : Option (FdEntry α)) : Only 0 (· = fd) t (t.set fd slot) :=
  ⟨by rw [length_set]; exact le_max_left _ _, fun _ hne => getFd_set_ne hne slot⟩

theorem Only.extend_set (fd : Nat) (e : FdEntry α) : Only (fd + 1) (· = fd) t ((t.extend fd).set fd (some e)) := by
  refine ⟨?_, fun j hj => ?_⟩
  · rw [length_set, length_extend]
  · rw [getFd_set_ne hj, getFd_extend]

end FdTable

open FdTable

/-- What the loop of `install_transfer_fds` leaves. -/
def Kernel.Installed.table : Kernel.Installed → FdTable FdObject
  | .all t _ | .full t _ _ => t

theorem Installed.table_cons (fd : Int) (i : Installed) : (i.cons fd).table = i.table := by cases i <;> rfl

theorem installLoop_filled (t : FdTable FdObject) (tf : TransferFds) : Filled t (installLoop t tf).table := by
  induction tf generalizing t with
  | nil => exact .refl t
  | cons slot tf ih =>
    cases slot with
    | none =>
      rw [installLoop, Installed.table_cons]
      exact ih t
    | some o =>
      rw [installLoop]
      split
      · rename_i ha
        rw [Installed.table_cons]
        exact (Filled.alloc ha).trans (ih _)
      · exact .refl t

/-! ## All tables -/

/-- The fd table of a process. -/
def Kernel.tableOf (k : Kernel) (q : Nat) : Option (FdTable FdObject) := (k.procs.get? q).map (·.fdTable)

/-- The table of `pid` changes by `R`, and no other. -/
structure Touches (pid : Nat) (R : FdTable FdObject → FdTable FdObject → Prop) (k k' : Kernel) : Prop where
  others : ∀ q, q ≠ pid → k'.tableOf q = k.tableOf q
  own : Option.Rel R (k.tableOf pid) (k'.tableOf pid)

def SameTables (k k' : Kernel) : Prop := ∀ q, k'.tableOf q = k.tableOf q

variable {k k' k'' : Kernel} {pid q : Nat} {p : Process} {fds : List Int}

theorem SameTables.trans (h : SameTables k k') (h' : SameTables k' k'') : SameTables k k'' :=
  fun q => (h' q).trans (h q)

theorem sameTables_of_procs (h : k'.procs = k.procs) : SameTables k k' := by
  intro q
  rw [tableOf, h]
  rfl

theorem Frame.sameTables (h : Frame k k') : SameTables k k' := sameTables_of_procs h.procs

theorem sameTables_alter {f : Process → Process} (hf : ∀ p, (f p).fdTable = p.fdTable) :
    SameTables k { k with procs := k.procs.alter pid f } := by
  intro q
  rw [tableOf, get?_alter]
  split
  · rw [Option.map_map]
    exact congrArg (Option.map · _) (funext hf)
  · rfl

theorem tableOf_eq (hp : k.procs.get? pid = some p) : k.tableOf pid = some p.fdTable := by
  rw [tableOf, hp]
  rfl

theorem tableOf_setTable (hp : k.procs.get? pid = some p) (t : FdTable FdObject) :
    (k.setTable pid t).tableOf pid = some t := by
  rw [tableOf, setTable, get?_alter, if_pos rfl, hp]
  rfl

theorem tableOf_setTable_ne (hq : q ≠ pid) (t : FdTable FdObject) : (k.setTable pid t).tableOf q = k.tableOf q := by
  rw [tableOf, setTable, get?_alter, if_neg hq]
  rfl

namespace Touches

variable {R R' : FdTable FdObject → FdTable FdObject → Prop}

theorem refl (hR : ∀ t, R t t) (k : Kernel) : Touches pid R k k := by
  refine ⟨fun _ _ => rfl, ?_⟩
  cases k.tableOf pid with
  | none => exact .none
  | some t => exact .some (hR t)

theorem then_same (h : Touches pid R k k') (h' : SameTables k' k'') : Touches pid R k k'' :=
  ⟨fun q hq => (h' q).trans (h.others q hq), by rw [h' pid]; exact h.own⟩

theorem own_some {t : FdTable FdObject} (h : Touches pid R k k') (ht : k.tableOf pid = some t) :
    ∃ t', k'.tableOf pid = some t' ∧ R t t' := by
  have hown := h.own
  rw [ht] at hown
  generalize k'.tableOf pid = o at hown
  obtain (hr | -) := hown
  exact ⟨_, rfl, hr⟩

theorem of_procs (h : Touches pid R k k') (h' : k''.procs = k'.procs) : Touches pid R k k'' :=
  h.then_same (sameTables_of_procs h')

theorem trans (hR : ∀ t t' t'', R t t' → R t' t'' → R t t'') (h : Touches pid R k k') (h' : Touches pid R k' k'') :
    Touches pid R k k'' := by
  refine ⟨fun q hq => (h'.others q hq).trans (h.others q hq), ?_⟩
  have h₁ := h.own
  have h₂ := h'.own
  revert h₁ h₂
  generalize k.tableOf pid = o, k'.tableOf pid = o', k''.tableOf pid = o''
  rintro (hf | -) (hf' | -)
  · exact .some (hR _ _ _ hf hf')
  · exact .none

theorem mono (hR : ∀ t t', R t t' → R' t t') (h : Touches pid R k k') : Touches pid R' k k' := by
  refine ⟨h.others, ?_⟩
  have hown := h.own
  revert hown
  generalize k.tableOf pid = o, k'.tableOf pid = o'
  rintro (hr | -)
  · exact .some (hR _ _ hr)
  · exact .none

theorem setTable {t' : FdTable FdObject} (hp : k.procs.get? pid = some p) (hR : R p.fdTable t') :
    Touches pid R k (k.setTable pid t') := by
  refine ⟨fun q hq => tableOf_setTable_ne hq t', ?_⟩
  rw [tableOf_eq hp, tableOf_setTable hp]
  exact .some hR

end Touches

theorem closeFds_touches {t : FdTable FdObject} (hp : k.tableOf pid = some t) (h : k.closeFds pid t fds = some k') :
    Touches pid (fun t t' => t'.length = t.length) k k' := by
  induction fds generalizing k t with
  | nil =>
    cases h
    exact Touches.refl (R := fun t t' => length t' = length t) (fun _ => rfl) _
  | cons fd fds ih =>
    unfold closeFds at h
    split at h
    · exact ih hp h
    split at h
    · rename_i t₁ htake
      obtain ⟨k₁, h₁, h⟩ := of_bind h
      obtain ⟨_, hp', rfl⟩ := of_map hp
      obtain ⟨_, -, hres⟩ := of_map htake
      cases hres
      have hsame := (closeObject_frame h₁).sameTables
      have hp₁ := (hsame pid).trans (tableOf_setTable hp' _)
      exact .trans (fun _ _ _ hl hl' => hl'.trans hl) ((Touches.setTable hp' length_set).then_same hsame) (ih hp₁ h)
    · exact ih hp h

theorem installTransferFds_touches {msg : IpcMessage} {tf : TransferFds} {got : Option IpcMessage}
    (h : k.installTransferFds pid msg tf = some (got, k')) : Touches pid Filled k k' := by
  have hspec := h
  obtain ⟨p, hp, h⟩ := of_bind h
  have hfilled := installLoop_filled p.fdTable tf
  split at h
  · rename_i t fds hloop
    cases h
    rw [hloop] at hfilled
    exact .setTable hp hfilled
  · rename_i t _ _ hloop
    obtain ⟨_, h₁, h⟩ := of_bind h
    obtain ⟨k₂, h₂, h⟩ := of_bind h
    cases h
    rw [hloop] at hfilled
    have hsame := (closeObjects_frame h₂).sameTables
    have htouches := closeFds_touches (tableOf_setTable hp t) h₁
    refine ⟨fun q hq => ?_, ?_⟩
    · rw [hsame q, htouches.others q hq, tableOf_setTable_ne hq]
    · -- what was installed is closed again
      obtain ⟨t₁, ht₁, hlen⟩ := htouches.own_some (tableOf_setTable hp t)
      obtain ⟨t₂, hp₂, ⟨-, -, _, hgot, -⟩ | ⟨-, -, hget⟩⟩ := installTransferFds_spec hp hspec
      · cases hgot
      have ht₂ := tableOf_eq hp₂
      rw [hsame pid, ht₁] at ht₂
      cases ht₂
      rw [tableOf_eq hp, hsame pid, ht₁]
      exact .some (.same (by rw [hlen]; exact hfilled.length) hget)

/-! ## The calls -/

/-- On the way from `k`, whatever is closed and in hand. -/
def Underway (pid : Nat) (R : FdTable FdObject → FdTable FdObject → Prop) (k : Kernel) (_closed : List FdObject)
    (k' : Kernel) (_hand : List FdObject) : Prop := Touches pid R k k'

def touchTerms (R : FdTable FdObject → FdTable FdObject → Prop) : Terms := ⟨False, fun _ => True, R, fun _ _ => True⟩

/-- A call that changes the table of its process by steps of `R` changes it by `R`. -/
theorem touches_moves {R : FdTable FdObject → FdTable FdObject → Prop} (hR : ∀ t t' t'', R t t' → R t' t'' → R t t'')
    (k : Kernel) (pid : Nat) : Moves (touchTerms R) pid (Underway pid R k) where
  leaves _ _ := trivial
  outside _ := ⟨fun _ _ _ _ _ => trivial, fun _ _ _ _ _ => trivial, fun _ _ _ _ _ => trivial, fun _ _ => trivial⟩
  armed _ _ _ := trivial
  shaped ht := ht.elim
  more _ h := h
  fresh h _ := h
  lose h _ := h
  notifyDups h _ hd := Touches.then_same h (notifyDups_frame hd).sameTables
  close h hc := by
    refine (Touches.then_same h (close_frame hc).sameTables).of_procs ?_
    rename_i res
    cases res <;> rfl
  closeObjects h hc := Touches.then_same h (closeObjects_frame hc).sameTables
  extract h he _ := Touches.then_same h (extractTransferFds_frame he).sameTables
  install h _ _ hF _ _ hi := Touches.trans hR h ((installTransferFds_touches hi).mono hF)
  setTable h hp _ ht _ := Touches.trans hR h (.setTable hp ht)
  setCall h _ _ _ _ := Touches.then_same h (sameTables_alter fun _ => rfl)
  markZombie h _ _ _ := Touches.then_same h (sameTables_alter fun _ => rfl)
  setChannel h _ _ _ _ _ := Touches.of_procs h rfl
  dropEnvs h _ := Touches.of_procs h rfl
  post h _ _ _ _ := Touches.of_procs h rfl
  alterPort h _ _ := Touches.of_procs h rfl
  setRing h := Touches.of_procs h rfl
  newPipe h _ := Touches.of_procs h rfl
  newChannel h _ := Touches.of_procs h rfl
  register h _ := Touches.of_procs h rfl
  tasks _ h := Touches.of_procs h rfl

/-! ## Runs -/

namespace Ev

/-- The fds of process `q` that a call names: an argument, all that are closed on exec, or all. -/
def Names (t : FdTable FdObject) (q fd : Nat) : Ev → Prop
  | .close pid n | .dup2 pid _ n | .setFdFlags pid n _ => q = pid ∧ fd = n
  | .execve pid => q = pid ∧ ∃ e, t.getFd fd = some e ∧ e.cloexec = true
  | .exit pid => q = pid
  | _ => False

/-- The length a call asks for. -/
def asked : Ev → Nat
  | .dup2 _ _ newfd => newfd + 1
  | _ => 0

/-- No `dup2` names a target that `alloc_fd` could not return. -/
def InRange : Ev → Prop
  | .dup2 _ _ newfd => newfd < MAX_FDS
  | _ => True

theorem InRange.asked_le {ev : Ev} (h : ev.InRange) : ev.asked ≤ MAX_FDS := by
  cases ev
  case dup2 => exact h
  all_goals exact Nat.zero_le _

end Ev

/-- What a call makes of the table of process `q`. -/
structure Stepped (ev : Ev) (q : Nat) (t t' : FdTable FdObject) : Prop where
  length : t'.length ≤ max t.length (max MAX_FDS ev.asked)
  changed : ∀ fd, t'.getFd fd ≠ t.getFd fd →
    ev.Names t q fd ∨ ev.Allocates q ∧ t.getFd fd = none ∧ ∀ j < fd, t'.getFd j ≠ none

theorem Stepped.refl (ev : Ev) (q : Nat) (t : FdTable FdObject) : Stepped ev q t t :=
  ⟨le_max_left _ _, fun _ h => absurd rfl h⟩

theorem Stepped.of_filled {ev : Ev} {t t' : FdTable FdObject} (ha : ev.Allocates q) (h : Filled t t') :
    Stepped ev q t t' := by
  refine ⟨?_, fun fd hne => .inr ⟨ha, ?_⟩⟩
  · have := h.length
    omega
  · cases hfd : t.getFd fd with
    | some e => exact absurd ((h.kept fd e hfd).trans hfd.symm) hne
    | none => exact ⟨rfl, h.least fd hfd (by rw [← hfd]; exact hne)⟩

theorem Stepped.of_only {ev : Ev} {n : Nat} {t t' : FdTable FdObject} (hn : n ≤ ev.asked)
    (hS : ∀ fd, S fd → ev.Names t q fd) (h : Only n S t t') : Stepped ev q t t' := by
  refine ⟨?_, fun fd hne => .inl (hS fd ?_)⟩
  · have := h.length
    omega
  · by_contra hno
    exact hne (h.others fd hno)

/-- Every table after a call is one from before it, or that of a new process: the default one or a
    copy of its parent's. -/
def Tables (ev : Ev) (k k' : Kernel) : Prop :=
  ∀ q t', k'.tableOf q = some t' →
    (∃ t, k.tableOf q = some t ∧ Stepped ev q t t') ∨
      k.tableOf q = none ∧ (t' = defaultFdTable ∨ ∃ pid, k.tableOf pid = some t')

variable {ev : Ev}

theorem SameTables.tables (h : SameTables k k') : Tables ev k k' := fun q t' ht' =>
  .inl ⟨t', (h q).symm.trans ht', .refl ev q t'⟩

theorem Touches.tables {R : FdTable FdObject → FdTable FdObject → Prop} (h : Touches pid R k k')
    (hR : ∀ t t', k.tableOf pid = some t → R t t' → Stepped ev pid t t') : Tables ev k k' := by
  intro q t' ht'
  by_cases hq : q = pid
  · subst hq
    have hown := h.own
    rw [ht'] at hown
    cases hk : k.tableOf q with
    | none =>
      rw [hk] at hown
      cases hown
    | some t =>
      rw [hk] at hown
      cases hown with
      | some hr => exact .inl ⟨t, rfl, hR t t' hk hr⟩
  · exact .inl ⟨t', (h.others q hq).symm.trans ht', .refl ev q t'⟩

theorem tables_insert {child : Nat} {t : FdTable FdObject} (hnone : k.procs.get? child = none)
    (ht : t = defaultFdTable ∨ ∃ pid, k.tableOf pid = some t) :
    Tables ev k { k with procs := k.procs.insert child ⟨t, false, .idle⟩ } := by
  intro q t' ht'
  rw [tableOf, get?_insert] at ht'
  split at ht'
  · rename_i hq
    subst hq
    cases ht'
    refine .inr ⟨?_, ht⟩
    rw [tableOf, hnone]
    rfl
  · exact .inl ⟨t', ht', .refl ev q t'⟩

/-- The slots that a call names, in the table as it finds it. -/
def Named (ev : Ev) (k : Kernel) (fd : Nat) : Prop := ∀ t, k.tableOf ev.process = some t → ev.Names t ev.process fd

/-- What a call does to the table of its process: it fills free slots or changes those it names. -/
structure Alters (ev : Ev) (k : Kernel) (t t' : FdTable FdObject) : Prop where
  filled : ev.Allocates ev.process → Filled t t'
  only : ¬ ev.Allocates ev.process → Only ev.asked (Named ev k) t t'

theorem Alters.refl (ev : Ev) (k : Kernel) (t : FdTable FdObject) : Alters ev k t t :=
  ⟨fun _ => .refl t, fun _ => .refl _ _ t⟩

theorem Alters.trans {t t' t'' : FdTable FdObject} (h : Alters ev k t t') (h' : Alters ev k t' t'') :
    Alters ev k t t'' :=
  ⟨fun ha => (h.filled ha).trans (h'.filled ha), fun ha => (h.only ha).trans (h'.only ha)⟩

theorem Alters.stepped {t t' : FdTable FdObject} (ht : k.tableOf ev.process = some t) (h : Alters ev k t t') :
    Stepped ev ev.process t t' := by
  by_cases ha : ev.Allocates ev.process
  · exact .of_filled ha (h.filled ha)
  · exact .of_only le_rfl (fun _ hfd => hfd t ht) (h.only ha)

theorem changes_alters (ev : Ev) (k : Kernel) : ev.Changes (touchTerms (Alters ev k)) k := by
  cases ev with
  | execve pid =>
    refine fun p hp => ⟨False.elim, fun _ => ⟨?_, fun fd hfd => getFd_dropCloexec fun e he => ?_⟩⟩
    · rw [dropCloexec, length_map]
      exact le_max_left _ _
    · refine Bool.eq_false_iff.mpr fun hclo => hfd fun t ht => ⟨rfl, e, ?_, hclo⟩
      cases (tableOf_eq hp).symm.trans ht
      exact he
  | exit pid =>
    refine fun t => ⟨False.elim, fun _ => ⟨?_, fun fd hfd => absurd (fun _ _ => rfl) hfd⟩⟩
    rw [dropAll, length_map]
    exact le_max_left _ _
  | close pid fd => exact fun t =>
      ⟨False.elim, fun _ => (Only.set fd none).mono (Nat.zero_le _) fun _ hfd _ _ => ⟨rfl, hfd⟩⟩
  | dup2 pid oldfd fd => exact fun t e =>
      ⟨False.elim, fun _ => (Only.extend_set fd e).mono le_rfl fun _ hfd _ _ => ⟨rfl, hfd⟩⟩
  | setFdFlags pid fd _ =>
    exact fun t e => ⟨False.elim, fun _ => (Only.set fd _).mono (Nat.zero_le _) fun _ hfd _ _ => ⟨rfl, hfd⟩⟩
  | _ => exact fun ha t t' hf => ⟨fun _ => hf, fun hn => absurd ha hn⟩

theorem tables_step (h : step k ev = some k') : Tables ev k k' := by
  cases hown : ev.own with
  | true =>
    have hM := touches_moves (R := Alters ev k) (fun _ _ _ => Alters.trans) k ev.process
    have hallowed : ev.Allowed (touchTerms (Alters ev k)) k := Ev.allowed (fun _ => trivial) (fun _ _ => trivial) k ev
    have hstart : Underway ev.process (Alters ev k) k [] k [] := .refl (.refl ev k) k
    have htouches : Touches ev.process (Alters ev k) k k' :=
      hM.step hstart False.elim hallowed (changes_alters ev k) hown h
    exact htouches.tables fun _ _ ht => Alters.stepped ht
  | false =>
    cases ev with
    | spawn pid =>
      change k.spawn pid = some k' at h
      unfold spawn at h
      split at h
      · cases h
      · rename_i hnone
        cases h
        exact tables_insert hnone (.inl rfl)
    | clone pid child =>
      obtain ⟨p, hc, h⟩ := of_bind h
      obtain ⟨k₁, h₁, h⟩ := of_bind h
      have hframe := notifyDups_frame h₁
      split at h
      · cases h
      rename_i hnone
      cases h
      have htables : Tables (.clone pid child) k₁
          { k₁ with procs := k₁.procs.insert child ⟨p.fdTable, false, .idle⟩ } :=
        tables_insert hnone (.inr ⟨pid, (hframe.sameTables pid).trans (tableOf_eq (caller_spec hc).1)⟩)
      intro q t' ht'
      have hor := htables q t' ht'
      simp only [hframe.sameTables _] at hor
      exact hor
    | reap pid =>
      obtain ⟨_, -, h⟩ := of_bind h
      obtain ⟨-, ⟨⟩⟩ := of_guard h
      intro q t' ht'
      rw [tableOf, get?_remove] at ht'
      split at ht'
      · cases ht'
      · exact .inl ⟨t', ht', .refl _ q t'⟩
    | dropNext =>
      change k.dropNext = some k' at h
      unfold dropNext at h
      split at h
      · cases h
      · exact SameTables.tables (SameTables.trans (sameTables_of_procs rfl) (closeObject_frame h).sameTables)
    | destroyChannel chan =>
      obtain ⟨_, -, h⟩ := of_bind h
      obtain ⟨-, ⟨⟩⟩ := of_guard h
      exact SameTables.tables (sameTables_of_procs rfl)
    | destroyPort port =>
      obtain ⟨-, ⟨⟩⟩ := of_guard h
      exact SameTables.tables (sameTables_of_procs rfl)
    | _ => cases hown

/-- No table has more than 64 slots. -/
def Bounded (k : Kernel) : Prop := ∀ q t, k.tableOf q = some t → t.length ≤ MAX_FDS

theorem bounded_init : Bounded .init := by
  intro q t ht
  cases ht

theorem bounded_step (hev : ev.InRange) (hb : Bounded k) (h : step k ev = some k') : Bounded k' := by
  intro q t' ht'
  obtain ⟨t, ht, hs⟩ | ⟨-, rfl | ⟨pid, ht⟩⟩ := tables_step h q t' ht'
  · have hlen := hs.length
    have hle := hb q t ht
    have hasked := hev.asked_le
    omega
  · decide
  · exact hb pid t' ht

/-- What an fd table is to be in every state, and what a call may do to it. -/
structure Disciplined (k : Kernel) : Prop where
  bounded : Bounded k
  least : ∀ q t e fd t', k.tableOf q = some t → t.allocFd e = some (fd, t') → t.getFd fd = none ∧
    ∀ j < fd, t.getFd j ≠ none
  full : ∀ q t e, k.tableOf q = some t → t.allocFd e = none → ∀ j < MAX_FDS, t.getFd j ≠ none
  changed : ∀ ev k', step k ev = some k' → ∀ q t t', k.tableOf q = some t → k'.tableOf q = some t' →
    ∀ fd, t'.getFd fd ≠ t.getFd fd → ev.Names t q fd ∨ ev.Allocates q ∧ t.getFd fd = none ∧ ∀ j < fd, t'.getFd j ≠ none

theorem dup2_grows_the_table : ∃ k, machine.Reachable k ∧ (k.tableOf 1).map length = some 65 ∧ ¬ Disciplined k := by
  obtain ⟨k, hr, hlen⟩ : ∃ k, machine.Reachable k ∧ (k.tableOf 1).map length = some 65 :=
    Machine.exists_reachable init [.spawn 1, .dup2 1 0 64] rfl (by decide)
  refine ⟨k, hr, hlen, fun hd => ?_⟩
  obtain ⟨t, ht, hlen⟩ := of_map hlen
  have hle := hd.bounded 1 t ht
  rw [hlen] at hle
  exact absurd hle (by decide)

theorem fd_table_discipline (h : machine.Reach (fun _ ev => ev.InRange) k) : Disciplined k where
  bounded := by
    refine Machine.Reach.inv (I := Bounded) (fun k₀ h0 => ?_) (fun _ _ _ hb hev hs => bounded_step hev hb hs) h
    obtain rfl : k₀ = .init := h0
    exact bounded_init
  least q t e fd t' _ ha := ⟨(allocFd_fresh ha).1, allocFd_least ha⟩
  full q t e _ ha := allocFd_eq_none ha
  changed ev k' hs q t t' ht ht' fd hne := by
    obtain ⟨_, ht₀, hstep⟩ | ⟨hnone, -⟩ := tables_step hs q t' ht'
    · cases ht.symm.trans ht₀
      exact hstep.changed fd hne
    · cases ht.symm.trans hnone

instance : DecidablePred Ev.InRange := fun ev => by
  cases ev <;> unfold Ev.InRange <;> infer_instance

/-- A pipe at 3 and 4, its reader also at 63 and then only there, and an `execve`. -/
theorem fd_table_discipline_after_execve :
    ∃ k, machine.Reach (fun _ ev => ev.InRange) k ∧ (k.tableOf 1).map length = some MAX_FDS ∧ Disciplined k := by
  obtain ⟨k, hr, hk⟩ : ∃ k, machine.Reach (fun _ ev => ev.InRange) k ∧ (k.tableOf 1).map length = some MAX_FDS :=
    Machine.exists_reach init [.spawn 1, .pipe2 1 0 4096 true, .dup2 1 3 63, .close 1 3, .execve 1] rfl (by decide)
  exact ⟨k, hr, hk, fd_table_discipline hr⟩

end Ostoo.Fd
