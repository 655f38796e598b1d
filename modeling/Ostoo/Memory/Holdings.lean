/-
  Ostoo.Memory.Holdings — what the loading of an image, `brk` and the making of kernel
  objects do to the ledger of frames.

  A loaded image, a grown break and a new object take frames that nobody has. What is released
  goes through the reference counts, except by a break that shrinks: it frees the frames of
  its pages without a look at their counts, so it keeps the ledger only where none of them is
  shared (`Unshared`).
-/

import Ostoo.Memory.Confinement
import Ostoo.Memory.Failing

namespace Ostoo.Memory

open Ostoo.Lib Elf List OrdMap Mem Frames

/-! ## What no operation of the services destroys -/

section

variable {μ : Type}

/-- The operations on the address space `pml4` keep `I`. -/
structure MemOps.PreservesAt (ops : MemOps μ) (pml4 : Nat) (I : μ → Prop) : Prop where
  allocFrame : ∀ {mem mem' o}, I mem → ops.allocFrame mem = (o, mem') → I mem'
  mapUserPage : ∀ {mem mem' v f fl ok}, I mem → ops.mapUserPage mem pml4 v f fl = some (ok, mem') → I mem'
  refShare : ∀ {mem mem' f}, I mem → ops.refShare mem f = some mem' → I mem'
  unmapAndRelease : ∀ {mem mem' v}, I mem → ops.unmapAndReleaseUserPage mem pml4 v = some mem' → I mem'
  unmapAndFree : ∀ {mem mem' v}, I mem → ops.unmapAndFreeUserPage mem pml4 v = some mem' → I mem'
  updateFlags : ∀ {mem mem' v fl}, I mem → ops.updateUserPageFlags mem pml4 v fl = some mem' → I mem'

variable {ops : MemOps μ} {I : μ → Prop} {p p' : Proc} {mem mem' : μ} {r : Int} {pml4 : Nat}

theorem MemOps.PreservesAt.mapPages {fds : Nat → FdView} {n base : Nat} {fl : PtFlags} {shared ok : Bool}
    {mapPages : Nat → μ → Option (Bool × μ)} (hI : ops.PreservesAt pml4 I)
    (hs : PageSource ops fds pml4 fl n shared mapPages)
    (h0 : I mem) (h : mapPages base mem = some (ok, mem')) : I mem' := by
  have hinv := hs.inv base (fun _ => I) I ?_ ?_ ?_ ?_ h0 h
  · cases ok <;> exact hinv
  · intro _ j _ m1 m2 m3 frame h1 ha ok hmap
    have h3 := hI.mapUserPage (hI.allocFrame h1 ha) hmap
    cases ok <;> exact h3
  · intro _ j _ m1 m2 h1 ha
    exact hI.allocFrame h1 ha
  · intro _ j _ m1 m2 m3 fd size frames frame h1 _ _ hmap hshare
    exact hI.refShare (hI.mapUserPage h1 hmap) hshare
  · intro _ j _ m1 m2 fd size frames frame h1 _ _ hmap
    exact hI.mapUserPage h1 hmap

/-- A call keeps what the services keep, and the process stays in its address space. -/
theorem MemOps.PreservesAt.call {e : Ev} (hI : ops.PreservesAt p.pml4 I) (h0 : I mem)
    (h : call ops p mem e = some (r, p', mem')) : I mem' ∧ p'.pml4 = p.pml4 := by
  cases e with
  | brk addr =>
    rcases sysBrk_inv h with ⟨-, rfl, rfl⟩ | ⟨-, hun, rfl⟩ | ⟨-, -, ok, hmap, rfl⟩
    · exact ⟨h0, rfl⟩
    · exact ⟨forRanges_inv I (fun r _ i _ m1 m2 h1 hb => hI.unmapAndFree h1 hb) h0 hun, rfl⟩
    · refine ⟨hI.mapPages (.grow ..) h0 hmap, ?_⟩
      cases ok <;> rfl
  | mmap fds addr length prot flags a5 r9 =>
    rcases sysMmap_inv h with ⟨-, -, rfl, rfl⟩ | ⟨-, -, _, mapPages, -, -, hs, h⟩
    · exact ⟨h0, rfl⟩
    rcases mmapPlace_inv h with ⟨-, -, rfl, rfl⟩ | ⟨-, -, -, vmaMap, ranges, _, ok, -, hun, hmap, hres⟩ |
      ⟨-, base, ok, -, hmap, hres⟩
    · exact ⟨h0, rfl⟩
    · have h1 := forRanges_inv I (fun r _ i _ m1 m2 h1 hb => hI.unmapAndRelease h1 hb) h0 hun
      refine ⟨hI.mapPages hs h1 hmap, ?_⟩
      cases ok <;> rw [hres.2]
    · refine ⟨hI.mapPages hs h0 hmap, ?_⟩
      cases ok <;> rw [hres.2]
  | munmap addr length =>
    rcases sysMunmap_inv h with ⟨-, rfl, rfl⟩ | ⟨-, -, -, vmaMap, ranges, -, hun, rfl⟩
    · exact ⟨h0, rfl⟩
    · exact ⟨forRanges_inv I (fun r _ i _ m1 m2 h1 hb => hI.unmapAndRelease h1 hb) h0 hun, rfl⟩
  | mprotect addr length prot =>
    rcases sysMprotect_inv h with ⟨-, rfl, rfl⟩ | ⟨-, -, -, vmaMap, ranges, -, hupd, rfl⟩
    · exact ⟨h0, rfl⟩
    · exact ⟨forRanges_inv I (fun r _ i _ m1 m2 h1 hb => hI.updateFlags h1 hb) h0 hupd, rfl⟩

end

section

variable {τ : Type} {M : Mapper τ} {owners : Nat → Nat} {listed : Nat → Prop} {m m' : Mem τ} {p p' : Proc} {r : Int}

/-- An address space that is there stays there. -/
def Mem.SpacesKept (m m' : Mem τ) : Prop := ∀ q, (m.spaces.get? q).isSome → (m'.spaces.get? q).isSome

theorem Mem.SpacesKept.of_eq (h : m'.spaces = m.spaces) : m.SpacesKept m' := by
  intro q hq
  rwa [h]

variable {i n pml4 : Nat} {info : ElfInfo}

/-- Every address space is as it was, but for `pml4`, which is there. -/
def Mem.OnlyAt (pml4 : Nat) (m m' : Mem τ) : Prop :=
  ∀ q, m'.spaces.get? q = m.spaces.get? q ∨ q = pml4 ∧ (m'.spaces.get? q).isSome

namespace Mem.OnlyAt

theorem of_eq (h : m'.spaces = m.spaces) : OnlyAt pml4 m m' := fun q => .inl (by rw [h])

theorem of_insert {t : τ} (h : m'.spaces = m.spaces.insert pml4 t) : OnlyAt pml4 m m' := by
  intro q
  rw [h, get?_insert]
  split
  · rename_i he
    exact .inr ⟨he, rfl⟩
  · exact .inl rfl

theorem trans {m1 : Mem τ} (h : OnlyAt pml4 m m1) (h' : OnlyAt pml4 m1 m') : OnlyAt pml4 m m' := by
  intro q
  rcases h' q with he | hq
  · rw [he]
    exact h q
  · exact .inr hq

theorem others {q : Nat} (h : OnlyAt pml4 m m') (hq : q ≠ pml4) : m'.spaces.get? q = m.spaces.get? q :=
  (h q).resolve_right fun he => hq he.1

theorem kept (h : OnlyAt pml4 m m') : m.SpacesKept m' := by
  intro q hq
  rcases h q with he | ⟨-, hq⟩
  · rwa [he]
  · exact hq

end Mem.OnlyAt

theorem services_preservesAt (m : Mem τ) (pml4 : Nat) : (services M).PreservesAt pml4 (OnlyAt pml4 m) where
  allocFrame h ha := h.trans (.of_eq (allocFrame_spaces ha))
  mapUserPage h hm := by
    obtain ⟨t, t', -, -, -, rfl⟩ := mapUserPage_cases hm
    exact h.trans (.of_insert rfl)
  refShare h hs := h.trans (.of_eq (refShare_spaces hs))
  unmapAndRelease h hu := by
    obtain ⟨t, -, ⟨-, rfl⟩ | ⟨f, t', -, rfl⟩⟩ := unmapAndRelease_cases hu
    · exact h
    · exact h.trans (.of_insert (releaseFrame_spaces _ f))
  unmapAndFree h hu := by
    obtain ⟨⟨_, _⟩, h1, he⟩ := of_bind hu
    obtain ⟨t, -, ⟨rfl, -, rfl⟩ | ⟨f, t', rfl, -, rfl⟩⟩ := unmapUserPage_cases h1
    · cases he
      exact h
    · cases he
      exact h.trans (.of_insert rfl)
  updateFlags h hu := by
    obtain ⟨t, -, rfl⟩ := updateFlags_cases hu
    exact h.trans (.of_insert rfl)

/-! ## Frames of objects -/

theorem allocFrames_took {o : Option (List Nat)} (hs : m.frames.Sound) (h : m.allocFrames n = (o, m')) :
    ∃ l b, m' = { m with frames := b } ∧ m.frames.Took l b ∧ ∀ frames, o = some frames → l = frames := by
  induction n generalizing m o with
  | zero =>
    cases h
    exact ⟨[], _, rfl, Frames.Takes.took hs (.nil _), fun frames hf => Option.some.inj hf⟩
  | succ n ih =>
    unfold allocFrames at h
    split at h
    · rename_i a ha
      cases h
      exact ⟨[], a, rfl, allocate_took hs ha, nofun⟩
    rename_i f _ ha
    have htook := allocate_took hs ha
    split at h
    · rename_i l m1 h1
      cases h
      obtain ⟨l', b, rfl, htook', hl⟩ := ih htook.sound h1
      exact ⟨f :: l', b, rfl, htook.append htook', fun frames hf => by rw [hl l rfl, Option.some.inj hf]⟩
    · rename_i h1
      cases h
      obtain ⟨l', b, rfl, htook', -⟩ := ih htook.sound h1
      exact ⟨f :: l', b, rfl, htook.append htook', nofun⟩

theorem Mem.Ledger.releaseAll {l : List Nat} (hl : ∀ f, listed f → owners f ≠ 0)
    (h : m.Ledger M (fun f => owners f + l.count f) listed) : (l.foldl releaseFrame m).Ledger M owners listed := by
  have hframes : (l.map Met.leaf).map metFrame = l := by
    rw [map_map]
    exact map_id l
  have hfold : (l.map Met.leaf).foldl freeMet m = l.foldl releaseFrame m := foldl_map
  have hall := Mem.Ledger.freeAll hl (l.map Met.leaf) (m := m) (by rwa [hframes]) ?_
  · rwa [hfold] at hall
  · intro f hf
    obtain ⟨_, -, hg⟩ := mem_map.mp hf
    cases hg

theorem releaseAll_spaces (l : List Nat) : ∀ m : Mem τ, (l.foldl releaseFrame m).spaces = m.spaces := by
  induction l with
  | nil => exact fun m => rfl
  | cons f l ih => exact fun m => (ih _).trans (releaseFrame_spaces m f)

/-! ## The break -/

/-- No page of the window names a shared frame. -/
def Mem.Unshared (M : Mapper τ) (m : Mem τ) (pml4 lo hi : Nat) : Prop :=
  ∀ v f fl, m.leafAt M pml4 v = some (f, fl) → lo ≤ v → v < hi → m.refcounts.get? f = none

theorem Mem.Unshared.unmapAndFree {lo hi v : Nat} (hM : M.Lawful) (hx : m.Unshared M pml4 lo hi) (hv : v < USER_END)
    (h : m.unmapAndFreeUserPage M pml4 v = some m') : m'.Unshared M pml4 lo hi := by
  obtain ⟨⟨_, _⟩, hu, he⟩ := of_bind h
  obtain ⟨t, ht, ⟨rfl, -, rfl⟩ | ⟨_, t', rfl, hun, rfl⟩⟩ := unmapUserPage_cases hu
  · cases he
    exact hx
  cases he
  intro w f fl hw h1 h2
  refine hx w f fl ?_ h1 h2
  change (((m.spaces.insert pml4 t').get? pml4).bind fun t => (M.leaves t).get? w) = some (f, fl) at hw
  rw [get?_insert_self, Option.bind_some, (hM.unmap_leaf hv hun).2.1, get?_remove] at hw
  rw [leafAt_eq ht]
  split at hw
  · cases hw
  · exact hw

theorem page_below {lo hi : Nat} (h : i < (hi - lo) / PAGE_SIZE) : lo + i * PAGE_SIZE < hi := by
  simp only [PAGE_SIZE] at *
  omega

theorem sysBrk_ledger {addr : Nat} (hM : M.Lawful) (hl : m.Ledger M owners listed) (hcur : p.brkCurrent ≤ USER_END)
    (hend : pagesOf addr * PAGE_SIZE ≤ USER_END) (hx : m.Unshared M p.pml4 (pagesOf addr * PAGE_SIZE) p.brkCurrent)
    (h : sysBrk (services M) p m addr = some (r, p', m')) : m'.Ledger M owners listed ∧ p'.brkCurrent ≤ USER_END := by
  rcases sysBrk_inv h with ⟨-, rfl, rfl⟩ | ⟨-, hun, rfl⟩ | ⟨-, -, ok, hmap, rfl⟩
  · exact ⟨hl, hcur⟩
  · refine ⟨?_, hend⟩
    -- every page of the range is below the old break
    have hboth := forRanges_inv (fun m1 => m1.Ledger M owners listed ∧
      m1.Unshared M p.pml4 (pagesOf addr * PAGE_SIZE) p.brkCurrent)
      (fun r hr i hi m1 m2 hI hb => ?_) ⟨hl, hx⟩ hun
    · exact hboth.1
    · obtain rfl := mem_singleton.mp hr
      have hbelow : pagesOf addr * PAGE_SIZE + i * PAGE_SIZE < p.brkCurrent := page_below hi
      have hv : pagesOf addr * PAGE_SIZE + i * PAGE_SIZE < USER_END := hbelow.trans_le hcur
      refine ⟨hI.1.unmapAndFree hM hv (fun t f fl ht hf => ?_) hb, hI.2.unmapAndFree hM hv hb⟩
      exact hI.2 _ f fl (by rw [leafAt_eq ht, hf]) (Nat.le_add_right ..) hbelow
  · have hstop : p.brkCurrent + (pagesOf addr * PAGE_SIZE - p.brkCurrent) / PAGE_SIZE * PAGE_SIZE ≤ USER_END := by
      have hle := Nat.div_mul_le_self (pagesOf addr * PAGE_SIZE - p.brkCurrent) PAGE_SIZE
      omega
    refine ⟨(PageSource.grow ..).ledger hM hstop nofun hl hmap, ?_⟩
    cases ok
    · exact hcur
    · exact hend

/-! ## Loading an image -/

theorem allocateRun_took {b b' : Nat} {a a' : Frames} (hs : a.Sound)
    (h : a.allocateRun n i (some b) = some (some b', a')) :
    b' = b ∧ Took a ((range' i n).map fun k => b + k * PAGE_SIZE) a' := by
  induction n generalizing i a with
  | zero =>
    cases h
    exact ⟨rfl, Takes.took hs (.nil _)⟩
  | succ n ih =>
    unfold allocateRun at h
    split at h
    · cases h
    rename_i ha
    have htook := allocateSequential_took hs ha
    obtain ⟨hf, h⟩ := of_guard h
    obtain ⟨rfl, hrest⟩ := ih htook.sound h
    subst hf
    exact ⟨rfl, htook.append hrest⟩

theorem allocateRun_stack {b : Nat} {a a' : Frames} (hs : a.Sound) (hn : n ≠ 0)
    (h : a.allocateRun n 0 none = some (some b, a')) : Took a ((range n).map fun k => b + k * PAGE_SIZE) a' := by
  obtain ⟨_, rfl⟩ := Nat.exists_eq_succ_of_ne_zero hn
  unfold allocateRun at h
  split at h
  · cases h
  rename_i ha
  have htook := allocateSequential_took hs ha
  obtain ⟨rfl, hrest⟩ := allocateRun_took htook.sound h
  have hall := htook.append hrest
  rw [range_eq_range', range'_succ, map_cons, zero_mul, add_zero]
  exact hall

theorem Mem.Loose.map {v f g : Nat} {fl : PtFlags} {ok : Bool} (hM : M.Lawful) (hl : m.Ledger M owners listed)
    (h : Mem.Loose M owners listed m f) (hne : g ≠ f) (hv : v < USER_END)
    (hm : m.mapUserPage M pml4 v g fl = some (ok, m')) : Mem.Loose M owners listed m' f := by
  obtain ⟨t, t', a, ht, hmap, rfl⟩ := mapUserPage_cases hm
  obtain ⟨_, htakes, hp⟩ := hM.mapTo_tables hv hmap
  have htook := htakes.took hl.sound
  -- the frame is neither a new table nor in the new leaf
  have htables : (M.tables t').count f = (M.tables t).count f := by
    rw [hp.count_eq f, count_append, count_eq_zero_of_not_mem (htook.not_mem h.issued h.not_free), zero_add]
  have hleaves : (M.leaves t').total (fun _ e => if e.1 = f then 1 else 0) =
      (M.leaves t).total (fun _ e => if e.1 = f then 1 else 0) := by
    have hleaf := hM.mapTo_leaves hv hmap
    cases ok with
    | false =>
      rw [hleaf]
    | true =>
      have hadd := total_insert (fun _ (e : Entry) => if e.1 = f then 1 else 0) (M.leaves t) v (g, fl)
      rw [hleaf.1] at hadd
      rw [hleaf.2]
      simpa [hne] using hadd
  have huse : uses M { m with frames := a, spaces := m.spaces.insert pml4 t' } f = m.uses M f := by
    have hins := uses_insert (M := M) ht t' f
    rw [spaceUses_eq M f pml4 t, spaceUses_eq M f pml4 t', htables, hleaves] at hins
    exact add_right_cancel hins
  refine ⟨?_, h.uncounted, h.unlisted, htook.issued f h.issued, fun hf => h.not_free (htook.free f hf)⟩
  rw [huse]
  exact h.unused

/-- Every segment ends in the user half. -/
def Elf.ElfInfo.InHalf (info : ElfInfo) : Prop := ∀ seg ∈ info.segments, seg.vaddr + seg.memsz ≤ USER_END

theorem segment_page_lt {seg : LoadSegment} {pageStart : Nat} (hfit : seg.vaddr + seg.memsz ≤ USER_END)
    (h : segmentPages seg = some (pageStart, n)) (hi : i < n) : pageStart + i * PAGE_SIZE < USER_END := by
  have hv : seg.vaddr < 2 ^ 64 := by
    simp only [USER_END] at hfit
    omega
  obtain ⟨rfl, rfl⟩ := segmentPages_eq_some hv h
  simp only [pagesOf, PAGE_SIZE, PAGE_MASK, USER_END] at *
  omega

theorem Elf.ElfInfo.InHalf.brkBase {brk : Nat} (hfit : info.InHalf) (h : computeBrkBase info = some brk) :
    brk ≤ USER_END := by
  obtain ⟨stop, hstop, h⟩ := of_bind h
  obtain ⟨-, rfl⟩ := alignUp_pages h
  have hle : ∀ (segments : List LoadSegment) stop, (∀ seg ∈ segments, seg.vaddr + seg.memsz ≤ USER_END) →
      highestEnd segments = some stop → stop ≤ USER_END := by
    intro segments
    induction segments with
    | nil =>
      intro stop _ h
      cases h
      exact Nat.zero_le _
    | cons seg rest ih =>
      intro stop hall h
      obtain ⟨_, h1, h⟩ := of_bind h
      obtain ⟨end2, h2, h⟩ := of_bind h
      cases h
      obtain ⟨-, rfl⟩ := addU64_eq_some.mp h1
      exact Nat.max_le.mpr ⟨hall seg mem_cons_self, ih end2 (fun seg hm => hall seg (.tail _ hm)) h2⟩
  have := hle info.segments stop hfit hstop
  simp only [pagesOf, PAGE_SIZE, PAGE_MASK, USER_END] at *
  omega

/-- The new address space is made of frames that nobody had; the others stay. -/
theorem loadElfAddressSpace_ledger {imageLen stack : Nat} (hM : M.Lawful) (hl : m.Ledger M owners listed)
    (hfit : info.InHalf) (h : loadElfAddressSpace (loader M) imageLen info m = some (.ok (pml4, stack, m'))) :
    m'.Ledger M owners listed ∧ m.spaces.get? pml4 = none ∧ (m'.spaces.get? pml4).isSome ∧ Mem.OnlyAt pml4 m m' := by
  obtain ⟨⟨_, m1⟩, h1, h⟩ := of_bind h
  obtain ⟨m2, h2, h⟩ := of_bind h
  obtain ⟨⟨_, m3⟩, h3, h⟩ := of_bind h
  cases h
  obtain ⟨hl1, hnew, hspaces, -⟩ := hl.createUserPageTable hM h1
  have hkept := services_preservesAt (M := M) m1 pml4
  have hl2 : m2.Ledger M owners listed ∧ Mem.OnlyAt pml4 m1 m2 := by
    refine mapSegments_inv (fun m => m.Ledger M owners listed ∧ Mem.OnlyAt pml4 m1 m) ?_ ⟨hl1, .of_eq rfl⟩ h2
    intro seg hseg pageStart n hp i hi ma mb mc frame hI ha hmap
    refine ⟨?_, hkept.mapUserPage (hkept.allocFrame hI.2 ha) hmap⟩
    have htook := allocate_took hI.1.sound (allocFrame_available ha)
    obtain rfl : { ma with frames := ma.frames.allocate.2 } = mb := congrArg (·.2) ha
    have hloose := hI.1.loose htook (f := frame) (by simp)
    exact (hI.1.took htook).map hM (segment_page_lt (hfit seg hseg) hp hi) (fun _ => hloose.room) hmap
  have hl3 : m'.Ledger M owners listed ∧ Mem.OnlyAt pml4 m1 m' := by
    have hstack := mapStack_inv (fun j m => (m.Ledger M owners listed ∧ Mem.OnlyAt pml4 m1 m) ∧
      ∀ k, j ≤ k → k < ELF_STACK_PAGES → Mem.Loose M owners listed m (stack + k * PAGE_SIZE)) ?_ ?_ h3
    · exact hstack.1
    · intro j hj ma mb hP hmap
      have hv : ELF_STACK_VIRT + j * PAGE_SIZE < USER_END := by
        simp only [ELF_STACK_VIRT, ELF_STACK_PAGES, PAGE_SIZE, USER_END] at *
        omega
      refine ⟨⟨hP.1.1.map hM hv (fun _ => (hP.2 j (le_refl j) hj).room) hmap, hkept.mapUserPage hP.1.2 hmap⟩, ?_⟩
      intro k hk hlt
      refine (hP.2 k (Nat.le_of_succ_le hk) hlt).map hM hP.1.1 ?_ hv hmap
      simp only [PAGE_SIZE]
      omega
    · intro ma ha
      obtain ⟨⟨o, a⟩, hrun, heq⟩ := of_map ha
      cases heq
      have htook := allocateRun_stack hl2.1.sound (by decide) hrun
      refine ⟨⟨hl2.1.took htook, hl2.2.trans (.of_eq rfl)⟩, fun k _ hk => hl2.1.loose htook ?_⟩
      exact mem_map.mpr ⟨k, mem_range.mpr hk, rfl⟩
  refine ⟨hl3.1, hnew, hl3.2.kept pml4 ?_, .trans (.of_insert hspaces) hl3.2⟩
  rw [hspaces, get?_insert_self]
  rfl

end

end Ostoo.Memory
