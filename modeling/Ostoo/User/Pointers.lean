/-
  Ostoo.User.Pointers — which user pointers take the kernel out of the user half.

  For each call `outside` says that it would need an access at or above `USER_LIMIT`, or
  at a wrapped address, in terms of its arguments and of user memory. A call confines its
  accesses (`Confines`) if it makes none of those and refuses whenever it would need one.
  `read_user_string` does; `read_user_string_array` does unless its own `entry_addr + 8`
  overflows; writev, fstat, `rt_sigreturn` and signal delivery never look at their
  pointers, so they do exactly when no such access is needed.
-/

import Ostoo.User.Signals

namespace Ostoo.User

open Ostoo.Lib.Traced Ostoo.Memory List Option

/-- In the user half. -/
def Confined (a : Access) : Prop := a.addr + a.len ≤ USER_LIMIT

deriving instance Decidable for Confined

/-- The call makes no access outside the user half, and refuses if it would need one. -/
structure Confines {α : Type} (p : Prog α) (m : Bytes) (Refusal : α → Prop) (outside : Prop) : Prop where
  within : Keeps Confined p m
  refuses : outside → ∃ r, (p.run m).val = some r ∧ Refusal r

def IsFault {α : Type} (r : Except Errno α) : Prop := r = .error .EFAULT

def IsTermination : Exit → Prop
  | .terminated _ => True
  | .resumed _ _ => False

variable {m : Bytes}

/-- A call that never refuses confines its accesses only if it needs none outside. -/
theorem confines_iff {α : Type} {p : Prog α} {Refusal : α → Prop} {outside : Prop}
    (hin : ¬ outside → Keeps Confined p m)
    (hout : outside → Keeps Confined p m → ∀ r, (p.run m).val = some r → ¬ Refusal r) :
    Confines p m Refusal outside ↔ ¬ outside := by
  refine ⟨fun h ho => ?_, fun h => ⟨hin h, fun ho => absurd ho h⟩⟩
  obtain ⟨r, hr, hR⟩ := h.refuses ho
  exact hout ho h.within r hr hR

/-! ## Strings -/

/-- The terminator is not found before the end of the user half. -/
def StringOutside (m : Bytes) (ptr maxLen : Nat) : Prop :=
  ∃ k < maxLen, USER_LIMIT ≤ ptr + k ∧ ∀ j < k, m (ptr + j) ≠ 0

variable {ptr len iovPtr signum base : Nat} {handle : FileHandle} {c : Ctx}

theorem addU64_below (h : ptr + len ≤ USER_LIMIT) : addU64 ptr len = some (ptr + len) :=
  addU64_of_lt (lt_of_le_of_lt h (by decide))

theorem stringLen_succ (h : ptr + len ≤ USER_LIMIT) (n : Nat) : (stringLen ptr (n + 1) len).run m =
      if USER_LIMIT ≤ ptr + len then ⟨some (.error .EFAULT), m, []⟩
      else if m (ptr + len) = 0 then ⟨some (.ok len), m, [⟨false, ptr + len, 1⟩]⟩
      else ⟨((stringLen ptr n (len + 1)).run m).val, ((stringLen ptr n (len + 1)).run m).mem,
        ⟨false, ptr + len, 1⟩ :: ((stringLen ptr n (len + 1)).run m).trace⟩ := by
  rw [stringLen, addU64_below h, run_some_bind]
  by_cases hlim : USER_LIMIT ≤ ptr + len
  · simp [hlim]
  · by_cases hz : m (ptr + len) = 0 <;> simp [hlim, hz, run_bind]

theorem stringLen_keeps : ∀ {n len : Nat}, ptr + len ≤ USER_LIMIT →
    Keeps Confined (stringLen ptr n len) m
  | 0, _, _ => keeps_pure _
  | n + 1, len, h => by
    intro a ha
    rw [stringLen_succ h] at ha
    split at ha
    · cases ha
    rename_i hlim
    have hbyte : Confined ⟨false, ptr + len, 1⟩ := Nat.lt_of_not_le hlim
    split at ha
    · obtain rfl := mem_singleton.mp ha
      exact hbyte
    · rcases mem_cons.mp ha with rfl | ha
      · exact hbyte
      · exact stringLen_keeps (Nat.lt_of_not_le hlim) a ha

theorem stringLen_mem : ∀ {n len : Nat}, ptr + len ≤ USER_LIMIT → ((stringLen ptr n len).run m).mem = m
  | 0, _, _ => rfl
  | n + 1, len, h => by
    rw [stringLen_succ h]
    split
    · rfl
    rename_i hlim
    split
    · rfl
    · exact stringLen_mem (Nat.lt_of_not_le hlim)

/-- The loop ends with a length whose bytes are all in the user half, or with an error. -/
theorem stringLen_val : ∀ {n len : Nat}, ptr + len ≤ USER_LIMIT →
    ((stringLen ptr n len).run m).val = some (.error .EFAULT) ∨
      ∃ l, ptr + l ≤ USER_LIMIT ∧ ((stringLen ptr n len).run m).val = some (.ok l)
  | 0, len, h => .inr ⟨len, h, rfl⟩
  | n + 1, len, h => by
    rw [stringLen_succ h]
    split
    · exact .inl rfl
    rename_i hlim
    split
    · exact .inr ⟨len, h, rfl⟩
    · exact stringLen_val (Nat.lt_of_not_le hlim)

theorem stringLen_outside : ∀ {n len k : Nat}, ptr + len ≤ USER_LIMIT → len ≤ k → k < len + n →
    USER_LIMIT ≤ ptr + k → (∀ j, len ≤ j → j < k → m (ptr + j) ≠ 0) →
    ((stringLen ptr n len).run m).val = some (.error .EFAULT)
  | 0, _, _, _, h1, h2, _, _ => absurd h2 (by omega)
  | n + 1, len, k, h, h1, h2, hk, hnz => by
    rw [stringLen_succ h]
    split
    · rfl
    rename_i hlim
    have hlt : len < k := by omega
    rw [if_neg (hnz len le_rfl hlt)]
    exact stringLen_outside (Nat.lt_of_not_le hlim) hlt (by omega) hk fun j hj => hnz j (by omega)

theorem readUserString_keeps (ptr maxLen : Nat) : Keeps Confined (readUserString ptr maxLen) m := by
  rw [readUserString]
  split
  · exact keeps_pure _
  have hstart : ptr + 0 ≤ USER_LIMIT := by omega
  refine keeps_bind (stringLen_keeps hstart) fun r hr => ?_
  rcases stringLen_val (m := m) (n := maxLen) hstart with he | ⟨_, hl, he⟩
  all_goals
    rw [he] at hr
    cases hr
  · exact keeps_pure _
  · exact keeps_bind (keeps_load.mpr hl) fun _ _ => keeps_pure _

theorem readUserString_mem (ptr maxLen : Nat) : ((readUserString ptr maxLen).run m).mem = m := by
  rw [readUserString]
  split
  · rfl
  have hstart : ptr + 0 ≤ USER_LIMIT := by omega
  rcases stringLen_val (m := m) (n := maxLen) hstart with he | ⟨_, -, he⟩
  all_goals rw [bind_mem_of he, stringLen_mem hstart]
  · rfl
  · rw [bind_mem_of rfl]
    rfl

theorem readUserString_outside {maxLen : Nat} (h : StringOutside m ptr maxLen) :
    ((readUserString ptr maxLen).run m).val = some (.error .EFAULT) := by
  obtain ⟨k, _, hlim, hnz⟩ := h
  rw [readUserString]
  split
  · rfl
  have hfault : ((stringLen ptr maxLen 0).run m).val = some (.error .EFAULT) :=
    stringLen_outside (k := k) (by omega) (Nat.zero_le _) (by omega) hlim fun j _ => hnz j
  rw [bind_val_of hfault]
  rfl

theorem readUserString_confines (ptr maxLen : Nat) :
    Confines (readUserString ptr maxLen) m IsFault (StringOutside m ptr maxLen) :=
  ⟨readUserString_keeps ptr maxLen, fun h => ⟨_, readUserString_outside h, rfl⟩⟩

/-! ## Arrays of strings -/

/-- Going through the array from entry `i`, an entry or a string of it runs out of the
    user half before the end is found. -/
def ArrayOutside (m : Bytes) (ptr : Nat) : (n i : Nat) → Prop
  | 0, _ => False
  | n + 1, i => USER_LIMIT < ptr + i * 8 + 8 ∨ wordAt m (ptr + i * 8) ≠ 0 ∧
      (StringOutside m (wordAt m (ptr + i * 8)).toNat 4096 ∨
        (∃ s, ((readUserString (wordAt m (ptr + i * 8)).toNat 4096).run m).val = some (.ok s)) ∧
          ArrayOutside m ptr n (i + 1))

theorem stringArray_keeps : ∀ {n i : Nat} {result : List (List UInt8)},
    Keeps Confined (stringArray ptr n i result) m
  | 0, _, _ => keeps_pure _
  | n + 1, i, result => by
    rw [stringArray]
    refine keeps_orStop_bind.mpr fun entryAddr _ => keeps_orStop_bind.mpr fun entryEnd hend => ?_
    obtain ⟨-, rfl⟩ := addU64_eq_some.mp hend
    split
    · exact keeps_pure _
    rename_i hlim
    refine keeps_load64_bind.mpr ⟨Nat.le_of_not_lt hlim, ?_⟩
    split
    · exact keeps_pure _
    refine keeps_bind (readUserString_keeps _ _) fun r hr => ?_
    rw [readUserString_mem]
    cases r with
    | error e => exact keeps_pure _
    | ok s => exact stringArray_keeps

theorem stringArray_outside : ∀ {n i : Nat} {result : List (List UInt8)},
    ptr + i * 8 + 8 < 2 ^ 64 → ArrayOutside m ptr n i → ((stringArray ptr n i result).run m).val = some (.error .EFAULT)
  | 0, _, _, _, h => h.elim
  | n + 1, i, result, hlt, h => by
    rw [stringArray, addU64_of_lt (show ptr + i * 8 < 2 ^ 64 by omega), run_some_bind, addU64_of_lt hlt, run_some_bind]
    split
    · rfl
    rename_i hlim
    obtain ⟨hnz, hstr⟩ := h.resolve_left hlim
    rw [val_load64_bind, if_neg hnz]
    rcases hstr with hstr | ⟨⟨_, hs⟩, hrest⟩
    · rw [bind_val_of (readUserString_outside hstr)]
      rfl
    · rw [bind_val_of hs, readUserString_mem]
      refine stringArray_outside (lt_of_le_of_lt ?_ (show USER_LIMIT + 8 < 2 ^ 64 by decide)) hrest
      omega

def ArgvOutside (m : Bytes) (ptr : Nat) : Prop := ptr ≠ 0 ∧ ArrayOutside m ptr 257 0

/-- An array pointer in the last 8 bytes of the address space makes `entry_addr + 8`
    overflow; any other is handled. -/
theorem readUserStringArray_confines (ptr : U64) :
    Confines (readUserStringArray ptr.toNat) m IsFault (ArgvOutside m ptr.toNat) ↔ ptr.toNat + 8 < 2 ^ 64 := by
  rw [readUserStringArray]
  split
  · rename_i h
    exact ⟨fun _ => by omega, fun _ => ⟨keeps_pure _, fun ho => absurd h ho.1⟩⟩
  rename_i hne
  refine ⟨fun h => ?_, fun h => ⟨stringArray_keeps, fun ho => ⟨_, stringArray_outside (by omega) ho.2, rfl⟩⟩⟩
  by_contra hge
  have hlim : USER_LIMIT < ptr.toNat + 0 * 8 + 8 := lt_of_lt_of_le (show USER_LIMIT < 2 ^ 64 by decide) (by omega)
  obtain ⟨_, hr, -⟩ := h.refuses ⟨hne, .inl hlim⟩
  obtain ⟨_, hentry, hr⟩ := orStop_bind_val hr
  obtain ⟨-, rfl⟩ := addU64_eq_some.mp hentry
  obtain ⟨_, hstop, -⟩ := orStop_bind_val hr
  have := (addU64_eq_some.mp hstop).1
  omega

/-! ## writev and fstat -/

def FileHandle.takesBytes : FileHandle → Bool
  | .console | .pipeWriter => true
  | .pipeReader | .vfsFile | .dir => false

/-- Going through the entries from `i`, an entry or a buffer that is written lies outside
    the user half. A handle that takes no bytes ends the call at the first buffer. -/
def IovOutside (m : Bytes) (handle : FileHandle) (iovPtr : Nat) : (n i : Nat) → Prop
  | 0, _ => False
  | n + 1, i =>
    let entry := iovPtr + i * 16
    USER_LIMIT < entry + 16 ∨
      if wordAt m (entry + 8) = 0 then IovOutside m handle iovPtr n (i + 1)
      else handle.takesBytes ∧
        (USER_LIMIT < (wordAt m entry).toNat + (wordAt m (entry + 8)).toNat ∨ IovOutside m handle iovPtr n (i + 1))

theorem write_takes (h : handle.takesBytes) (base len : Nat) :
    (handle.write base len).run m = ⟨some (.ok len), m, [⟨false, base, len⟩]⟩ := by
  cases handle <;> cases h <;> simp [FileHandle.write, run_bind, bytesAt]

theorem write_refuses (h : ¬ handle.takesBytes) (base len : Nat) :
    (handle.write base len).run m = ⟨some (.error .badFd), m, []⟩ := by
  cases handle <;> first | exact absurd rfl h | rfl

theorem writevLoop_keeps {n i total : Nat} (h : ¬ IovOutside m handle iovPtr n i) :
    Keeps Confined (writevLoop handle iovPtr n i total) m := by
  induction n generalizing i total with
  | zero => exact keeps_pure _
  | succ n ih =>
    obtain ⟨_, hrest⟩ := not_or.mp h
    rw [writevLoop]
    refine keeps_orStop_bind.mpr fun off hoff => keeps_orStop_bind.mpr fun iovAddr haddr => ?_
    obtain ⟨-, rfl⟩ : i * 16 < 2 ^ 64 ∧ off = i * 16 := by
      simpa [eq_comm] using hoff
    obtain ⟨-, rfl⟩ := addU64_eq_some.mp haddr
    refine keeps_load64_bind.mpr ⟨show _ ≤ _ by dsimp only; omega, keeps_orStop_bind.mpr fun lenAddr hlenAddr => ?_⟩
    obtain ⟨-, rfl⟩ := addU64_eq_some.mp hlenAddr
    refine keeps_load64_bind.mpr ⟨show _ ≤ _ by dsimp only; omega, ?_⟩
    split at hrest
    · rename_i hz
      rw [if_pos hz]
      exact ih hrest
    rename_i hz
    rw [if_neg hz]
    by_cases ht : handle.takesBytes
    · obtain ⟨hbuf, hnext⟩ := not_or.mp fun ho => hrest ⟨ht, ho⟩
      refine keeps_bind ?_ fun r hr => ?_
      · rw [Keeps, write_takes ht]
        intro a ha
        obtain rfl := mem_singleton.mp ha
        exact Nat.le_of_not_lt hbuf
      · rw [write_takes ht] at hr ⊢
        cases hr
        exact keeps_orStop_bind.mpr fun _ _ => ih hnext
    · refine keeps_bind ?_ fun r hr => ?_
      · rw [Keeps, write_refuses ht]
        intro a ha
        cases ha
      · rw [write_refuses ht] at hr ⊢
        cases hr
        exact keeps_pure _

theorem fileErrno_ne_fault (e : FileError) : fileErrno e ≠ .EFAULT := by cases e <;> nofun

theorem writevLoop_never_faults : ∀ {n i total : Nat} {m : Bytes} {r : Except Errno Nat},
    ((writevLoop handle iovPtr n i total).run m).val = some r → ¬ IsFault r
  | 0, _, _, _, r, h => by
    cases h
    nofun
  | n + 1, i, total, m, r, h => by
    obtain ⟨_, -, h⟩ := bind_val h
    obtain ⟨_, -, h⟩ := bind_val h
    obtain ⟨iovBase, -, h⟩ := bind_val h
    obtain ⟨lenAddr, -, h⟩ := bind_val h
    obtain ⟨iovLen, -, h⟩ := bind_val h
    split at h
    · exact writevLoop_never_faults h
    obtain ⟨w, -, h⟩ := bind_val h
    cases w with
    | ok k =>
      obtain ⟨total', -, h⟩ := bind_val h
      exact writevLoop_never_faults h
    | error e =>
      cases h
      exact fun he => fileErrno_ne_fault e (Except.error.inj he)

def WritevOutside (m : Bytes) (handle : Option FileHandle) (iovPtr iovcnt : U64) : Prop :=
  ∃ h, handle = some h ∧ IovOutside m h iovPtr.toNat iovcnt.toNat 0

theorem sysWritev_confines (handle : Option FileHandle) (iovPtr iovcnt : U64) :
    Confines (sysWritev handle iovPtr iovcnt) m IsFault (WritevOutside m handle iovPtr iovcnt) ↔
      ¬ WritevOutside m handle iovPtr iovcnt := by
  refine confines_iff (fun h => ?_) fun h _ r hr => ?_
  · cases handle with
    | none => exact keeps_pure _
    | some handle => exact writevLoop_keeps fun ho => h ⟨handle, rfl, ho⟩
  · obtain ⟨_, rfl, -⟩ := h
    exact writevLoop_never_faults hr

theorem sysFstat_confines (buf : U64) :
    Confines (sysFstat buf) m IsFault (USER_LIMIT < buf.toNat + STAT_SIZE) ↔ ¬ USER_LIMIT < buf.toNat + STAT_SIZE := by
  refine confines_iff (fun h => ?_) fun _ _ r hr => ?_
  · have hle := Nat.le_of_not_lt h
    refine keeps_bind (keeps_store.mpr ?_) fun _ _ => keeps_bind (keeps_store.mpr ?_) fun _ _ => keeps_pure _
    · simpa [Confined] using hle
    · simp only [Confined, statMode, length_cons, length_nil, STAT_SIZE] at hle ⊢
      omega
  · cases hr
    nofun

/-! ## Signal frames -/

/-- The saved context a `rt_sigreturn` reads ends here, counted from the stack pointer. -/
def SIGRETURN_SIZE : Nat := UC_HEADER + SIGCONTEXT_SIZE + UC_TAIL

theorem sysRtSigreturn_keeps (h : c.userRsp.toNat + SIGRETURN_SIZE ≤ USER_LIMIT) :
    Keeps Confined (sysRtSigreturn c) m := by
  refine keeps_orStop_bind.mpr fun base hbase => keeps_orStop_bind.mpr fun uc huc => keeps_orStop_bind.mpr fun sc hsc =>
    ?_
  have hsum := sigcontext_base hbase huc hsc
  have hword : ∀ {off : Nat}, off + 8 ≤ SIGCONTEXT_SIZE + UC_TAIL → Confined ⟨false, sc + off, 8⟩ := by
    intro off hoff
    simp only [Confined, SIGRETURN_SIZE] at h ⊢
    omega
  iterate 10 refine keeps_load64_bind.mpr ⟨hword (by decide), ?_⟩
  refine keeps_orStop_bind.mpr fun mask hmask => ?_
  obtain ⟨-, rfl⟩ := addU64_eq_some.mp hmask
  exact keeps_load64_bind.mpr ⟨hword (by decide), keeps_pure _⟩

/-- If it comes back at all it has read the mask at the end of the context. -/
theorem sysRtSigreturn_reads_mask {r : U64 × Ctx} (hr : ((sysRtSigreturn c).run m).val = some r)
    (hkeep : Keeps Confined (sysRtSigreturn c) m) : c.userRsp.toNat + SIGRETURN_SIZE ≤ USER_LIMIT := by
  obtain ⟨base, hbase, hr⟩ := orStop_bind_val hr
  obtain ⟨uc, huc, hr⟩ := orStop_bind_val hr
  obtain ⟨sc, hsc, hr⟩ := orStop_bind_val hr
  simp only [val_load64_bind] at hr
  obtain ⟨mask, hmask, -⟩ := orStop_bind_val hr
  have hloads := keeps_orStop_bind.mp (keeps_orStop_bind.mp (keeps_orStop_bind.mp hkeep base hbase) uc huc) sc hsc
  simp only [keeps_load64_bind, keeps_orStop_bind] at hloads
  obtain ⟨-, -, -, -, -, -, -, -, -, -, hloads⟩ := hloads
  have hlast := (hloads mask hmask).1
  obtain ⟨-, rfl⟩ := addU64_eq_some.mp hmask
  have hsum := sigcontext_base hbase huc hsc
  simp only [Confined, SIGRETURN_SIZE, UC_TAIL] at hlast ⊢
  omega

theorem sysRtSigreturn_confines (c : Ctx) :
    Confines (sysRtSigreturn c) m (·.1 = negErrno .EFAULT) (USER_LIMIT < c.userRsp.toNat + SIGRETURN_SIZE) ↔
      ¬ USER_LIMIT < c.userRsp.toNat + SIGRETURN_SIZE :=
  confines_iff (fun h => sysRtSigreturn_keeps (Nat.le_of_not_lt h)) fun h hkeep _ hr =>
    absurd (sysRtSigreturn_reads_mask hr hkeep) (not_le.mpr h)

/-- The frame does not fit below the stack pointer, or does not end in the user half. -/
def FrameOutside (userRsp : Nat) : Prop := ∀ base, frameBase userRsp = some base → USER_LIMIT < base + FRAME_SIZE

/-- A signal with a handler is due, and its frame lies outside. -/
def DeliveryOutside (c : Ctx) : Prop :=
  ∃ signum signal, c.signal.dequeue = some (signum, signal) ∧ (signal.actions (signum - 1)).handler ≠ SIG_IGN ∧
    (signal.actions (signum - 1)).handler ≠ SIG_DFL ∧ FrameOutside c.userRsp.toNat

theorem storeWords_keeps (hbase : base + FRAME_SIZE ≤ USER_LIMIT) : ∀ {words : List (Nat × U64)} {m : Bytes},
    (∀ w ∈ words, w.1 + 8 ≤ FRAME_SIZE) → Keeps Confined (storeWords base words) m
  | [], _, _ => keeps_pure _
  | w :: rest, _, h => by
    have hw := h w mem_cons_self
    refine keeps_bind (keeps_store64.mpr (show _ ≤ _ by dsimp only; omega)) fun _ _ => ?_
    exact storeWords_keeps hbase fun x hx => h x (.tail _ hx)

theorem writeFrame_keeps {words : List (Nat × U64)} (hbase : base + FRAME_SIZE ≤ USER_LIMIT)
    (hw : ∀ w ∈ words, w.1 + 8 ≤ FRAME_SIZE) : Keeps Confined (writeFrame base signum words) m := by
  refine keeps_bind (keeps_store.mpr ?_) fun _ _ => keeps_bind (storeWords_keeps hbase hw) fun _ _ => keeps_store.mpr ?_
  · simpa [Confined] using hbase
  · have hfit : PRETCODE_SIZE + UCONTEXT_SIZE + 4 ≤ FRAME_SIZE := by decide
    simp only [Confined, signoBytes, length_cons, length_nil]
    omega

theorem deliverSignal_keeps {action : SigAction} {ret : U64}
    (h : ¬ FrameOutside c.userRsp.toNat) : Keeps Confined (deliverSignal signum action ret c) m := by
  obtain ⟨base, hbase, hfit⟩ : ∃ base, frameBase c.userRsp.toNat = some base ∧ base + FRAME_SIZE ≤ USER_LIMIT := by
    simpa [FrameOutside] using h
  refine keeps_orStop_bind.mpr fun base' hbase' => ?_
  obtain rfl : base = base' := some.inj (hbase.symm.trans hbase')
  exact keeps_bind (writeFrame_keeps hfit (by
    simp [frameWords, FRAME_SIZE, UCONTEXT_SIZE, UC_HEADER, SIGCONTEXT_SIZE, UC_TAIL, SIGINFO_SIZE, PRETCODE_SIZE]))
      fun _ _ => keeps_pure _

theorem checkPendingSignals_confines (ret : U64) (c : Ctx) :
    Confines (checkPendingSignals ret c) m IsTermination (DeliveryOutside c) ↔ ¬ DeliveryOutside c := by
  refine confines_iff (fun h => ?_) fun h _ r hr => ?_
  · unfold checkPendingSignals
    split
    · exact keeps_pure _
    rename_i signum signal hdeq
    dsimp only
    split
    · exact keeps_pure _
    rename_i hign
    split
    · repeat' split
      all_goals exact keeps_pure _
    · rename_i hdfl
      refine keeps_bind (deliverSignal_keeps fun ho => h ⟨signum, signal, hdeq, hign, hdfl, ho⟩) fun _ _ => keeps_pure _
  · obtain ⟨_, _, hdeq, hign, hdfl, -⟩ := h
    simp only [checkPendingSignals, hdeq, hign, hdfl, if_false] at hr
    obtain ⟨_, -, hr⟩ := bind_val hr
    cases hr
    nofun

/-! ## All of them -/

/-- Which of the calls stay in the user half, for every memory and all arguments: each of
    them exactly under its condition. -/
theorem user_pointers_confined (m : Bytes) :
    (∀ handle iovPtr iovcnt,
      Confines (sysWritev handle iovPtr iovcnt) m IsFault (WritevOutside m handle iovPtr iovcnt) ↔
        ¬ WritevOutside m handle iovPtr iovcnt) ∧
    (∀ buf, Confines (sysFstat buf) m IsFault (USER_LIMIT < buf.toNat + STAT_SIZE) ↔
      ¬ USER_LIMIT < buf.toNat + STAT_SIZE) ∧
    (∀ ptr maxLen, Confines (readUserString ptr maxLen) m IsFault (StringOutside m ptr maxLen)) ∧
    (∀ ptr : U64, Confines (readUserStringArray ptr.toNat) m IsFault (ArgvOutside m ptr.toNat) ↔
      ptr.toNat + 8 < 2 ^ 64) ∧
    (∀ c, Confines (sysRtSigreturn c) m (·.1 = negErrno .EFAULT) (USER_LIMIT < c.userRsp.toNat + SIGRETURN_SIZE) ↔
      ¬ USER_LIMIT < c.userRsp.toNat + SIGRETURN_SIZE) ∧
    ∀ ret c, Confines (checkPendingSignals ret c) m IsTermination (DeliveryOutside c) ↔ ¬ DeliveryOutside c :=
  ⟨sysWritev_confines, sysFstat_confines, readUserString_confines, readUserStringArray_confines,
    sysRtSigreturn_confines, checkPendingSignals_confines⟩

/-- fstat with a buffer in the kernel half writes there and returns 0; writev on the
    console with its entries there reads them; a string array at the very end of the
    address space makes the kernel panic. -/
theorem kernel_pointers_are_followed :
    (∃ a ∈ ((sysFstat 0xFFFF_8000_0000_0000).run fun _ => 0).trace, ¬ Confined a) ∧
      ((sysFstat 0xFFFF_8000_0000_0000).run fun _ => 0).val = some (.ok 0) ∧
      (∃ a ∈ ((sysWritev (some .console) 0xFFFF_8000_0000_0000 1).run fun _ => 0).trace, ¬ Confined a) ∧
      ((readUserStringArray 0xFFFF_FFFF_FFFF_FFF8).run fun _ => 0).val = none := by
  refine ⟨⟨⟨true, 0xFFFF_8000_0000_0000, 144⟩, ?_, ?_⟩, rfl, ⟨⟨false, 0xFFFF_8000_0000_0000, 8⟩, ?_, ?_⟩, ?_⟩
  · exact mem_cons_self
  · decide
  · exact mem_cons_self
  · decide
  · rfl

end Ostoo.User
