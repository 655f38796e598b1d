/-
  Ostoo.Exfat.ReadFile — reading a file of an exFAT volume (`virtio/exfat.rs`).

  The clusters are followed until the bytes of the directory entry are there, a cluster number
  is not valid, or 1000 were read; each way the data so far is returned. It is the whole file
  exactly if the chain has the clusters that the size needs (`file_whole_iff`); a chain that
  ends early gives a short file (`an_early_end_cuts_the_file`). Where the FAT has the clusters
  in sequence, the entry's `no_fat_chain` makes no difference (`read_paths_agree`).
  `walk_path` is not modelled: the entry is whatever it found.
-/

import Ostoo.Lib.LittleEndian
import Ostoo.Lib.Machine

namespace Ostoo.Exfat

open List Ostoo.Lib

inductive ExfatError
  | noDevice | ioError | notExfat | unknownPartitionLayout | pathNotFound | notAFile | notADirectory | fileTooLarge

/-- What ends a call: an error it returns, or a sum of sector numbers that overflows. -/
inductive Stop
  | error (e : ExfatError)
  | panic

abbrev Sector := { bytes : List UInt8 // bytes.length = 512 }

/-- `sectors_per_cluster` is kept as its logarithm. -/
structure ExfatVol where
  spcShift : Fin 64
  fatLba : Nat
  clusterHeapLba : Nat

def ExfatVol.sectorsPerCluster (vol : ExfatVol) : Nat := 2 ^ vol.spcShift.val

/-- The name is not read here. -/
structure DirEntry where
  isDir : Bool
  size : Nat
  firstCluster : Nat
  noFatChain : Bool

def MAX_FILE_SIZE : Nat := 256 * 1024

def MAX_CLUSTERS : Nat := 1000

variable (vol : ExfatVol) (disk : Nat → Except ExfatError Sector)

def readSector (lba : Nat) : Except Stop Sector :=
  if lba < 2 ^ 64 then (disk lba).mapError .error else .error .panic

def readFatEntry (cluster : Nat) : Except Stop Nat := do
  let sector ← readSector disk (vol.fatLba + cluster * 4 / 512)
  return field sector.1 (cluster * 4 % 512) 4

/-- The sectors of one cluster from `lba` on, `n` of them, while bytes are left. -/
def readSectors : (n lba left : Nat) → Except Stop (List UInt8 × Nat)
  | 0, _, left => return ([], left)
  | n + 1, lba, left =>
    if left = 0 then return ([], left)
    else do
      let sector ← readSector disk lba
      let (data, rest) ← readSectors n (lba + 1) (left - min left 512)
      return (sector.1.take (min left 512) ++ data, rest)

def Valid (cluster : Nat) : Prop := 2 ≤ cluster ∧ cluster < 0xFFFF_FFF8

deriving instance Decidable for Valid

def nextCluster (noFatChain : Bool) (cluster : Nat) : Except Stop Nat :=
  if noFatChain then return cluster + 1 else readFatEntry vol disk cluster

/-- The loop of `read_file`, for `n` clusters more. -/
def readClusters (noFatChain : Bool) : (n cluster left : Nat) → Except Stop (List UInt8)
  | 0, _, _ => return []
  | n + 1, cluster, left =>
    if left = 0 ∨ ¬ Valid cluster then return []
    else do
      let (data, left) ← readSectors disk vol.sectorsPerCluster
        (vol.clusterHeapLba + (cluster - 2) * vol.sectorsPerCluster) left
      let rest ← readClusters noFatChain n (← nextCluster vol disk noFatChain cluster) left
      return data ++ rest

/-- `found` is what `walk_path` returned. -/
def readFile (found : Except Stop DirEntry) : Except Stop (List UInt8) := do
  let file ← found
  if file.isDir then throw (.error .notAFile)
  else if file.size > MAX_FILE_SIZE then throw (.error .fileTooLarge)
  else readClusters vol disk file.noFatChain MAX_CLUSTERS file.firstCluster file.size

/-! ## Short files -/

/-- The cluster after `i` others. -/
def chain (noFatChain : Bool) (cluster : Nat) : Nat → Except Stop Nat
  | 0 => return cluster
  | i + 1 => do chain noFatChain (← nextCluster vol disk noFatChain cluster) i

def ExfatVol.clusterSize : Nat := 512 * vol.sectorsPerCluster

/-- The chain has the clusters for `left` bytes, no more than `n`. -/
def Covers (noFatChain : Bool) (n cluster left : Nat) : Prop :=
  ∀ i, i * vol.clusterSize < left → i < n ∧ ∃ c, chain vol disk noFatChain cluster i = .ok c ∧ Valid c

variable {vol disk} {n lba left cluster : Nat} {b : Bool} {data : List UInt8}

theorem ExfatVol.le_clusterSize : 512 ≤ vol.clusterSize := by
  have := Nat.two_pow_pos vol.spcShift
  unfold clusterSize sectorsPerCluster
  omega

theorem of_ok_bind {α β : Type} {x : Except Stop α} {f : α → Except Stop β} {y : β} (h : (x >>= f) = .ok y) :
    ∃ a, x = .ok a ∧ f a = .ok y := by
  cases x with
  | error e => cases h
  | ok a => exact ⟨a, rfl, h⟩

theorem readSectors_length {rest : Nat} (h : readSectors disk n lba left = .ok (data, rest)) :
    rest = left - 512 * n ∧ data.length + rest = left := by
  induction n generalizing lba left data rest with
  | zero =>
    cases h
    exact ⟨rfl, Nat.zero_add _⟩
  | succ n ih =>
    unfold readSectors at h
    split at h
    · cases h
      exact ⟨by omega, Nat.zero_add _⟩
    obtain ⟨_, -, h⟩ := of_ok_bind h
    obtain ⟨⟨_, _⟩, hr, h⟩ := of_ok_bind h
    cases h
    have := ih hr
    simp only [length_append, length_take]
    omega

/-- No bytes are asked for, or there is no first cluster for them. -/
theorem covers_iff_of_stop (h : n = 0 ∨ left = 0 ∨ ¬ Valid cluster) : Covers vol disk b n cluster left ↔ 0 = left := by
  refine ⟨fun hc => ?_, fun h0 i hi => by omega⟩
  by_contra hne
  obtain ⟨hn, _, ⟨⟩, hv⟩ := hc 0 (by omega)
  rcases h with rfl | rfl | h
  · cases hn
  · exact hne rfl
  · exact h hv

theorem covers_succ {next : Nat} (hv : Valid cluster) (hn : nextCluster vol disk b cluster = .ok next) :
    Covers vol disk b (n + 1) cluster left ↔ Covers vol disk b n next (left - vol.clusterSize) := by
  have hchain : ∀ i, chain vol disk b cluster (i + 1) = chain vol disk b next i :=
    fun i => by simp [chain, hn, bind, Except.bind]
  refine ⟨fun hc i hi => ?_, fun hc i hi => ?_⟩
  · obtain ⟨hlt, c, he, hv⟩ := hc (i + 1) (by rw [Nat.succ_mul]; omega)
    exact ⟨Nat.lt_of_succ_lt_succ hlt, c, hchain i ▸ he, hv⟩
  · cases i with
    | zero => exact ⟨Nat.succ_pos n, cluster, rfl, hv⟩
    | succ i =>
      obtain ⟨hlt, c, he, hv⟩ := hc i (by rw [Nat.succ_mul] at hi; omega)
      exact ⟨Nat.succ_lt_succ hlt, c, (hchain i).trans he, hv⟩

theorem readClusters_length_iff (h : readClusters vol disk b n cluster left = .ok data) :
    data.length = left ↔ Covers vol disk b n cluster left := by
  induction n generalizing cluster left data with
  | zero =>
    cases h
    exact (covers_iff_of_stop (.inl rfl)).symm
  | succ n ih =>
    unfold readClusters at h
    split at h
    · rename_i hstop
      cases h
      exact (covers_iff_of_stop (.inr hstop)).symm
    rename_i hgo
    obtain ⟨-, hv⟩ := not_or.mp hgo
    obtain ⟨⟨first, rest⟩, hr, h⟩ := of_ok_bind h
    obtain ⟨_, hn, h⟩ := of_ok_bind h
    obtain ⟨tail, ht, h⟩ := of_ok_bind h
    cases h
    obtain ⟨hrest, _⟩ := readSectors_length hr
    have hiff : (first ++ tail).length = left ↔ tail.length = rest := by
      rw [length_append]
      omega
    rw [hiff, ih ht, covers_succ (not_not.mp hv) hn, hrest]
    rfl

theorem file_whole_iff {file : DirEntry} (h : readFile vol disk (.ok file) = .ok data) :
    data.length = file.size ↔ Covers vol disk file.noFatChain MAX_CLUSTERS file.firstCluster file.size := by
  obtain ⟨_, he, h⟩ := of_ok_bind h
  cases he
  split at h
  · cases h
  split at h
  · cases h
  exact readClusters_length_iff h

def oneSector : ExfatVol := ⟨0, 0, 8⟩

/-- Every byte of the disk is `v`. -/
def blank (v : UInt8) (_ : Nat) : Except ExfatError Sector := .ok ⟨replicate 512 v, length_replicate⟩

/-- In the FAT, 3 follows 2 and nothing follows 3; any other sector is full of its number. -/
def twoClusters (lba : Nat) : Except ExfatError Sector :=
  .ok ⟨if lba = 0 then replicate 8 0 ++ ([3, 0, 0, 0] ++ replicate 500 0xFF) else replicate 512 (UInt8.ofNat lba), by
    split <;> simp only [length_append, length_replicate, length_cons, length_nil]⟩

theorem file_whole_iff_two_clusters : ∃ data, readFile oneSector twoClusters (.ok ⟨false, 1000, 2, false⟩) = .ok data ∧
    data.length = 1000 ∧ Covers oneSector twoClusters false MAX_CLUSTERS 2 1000 := by
  have h : readFile oneSector twoClusters (.ok ⟨false, 1000, 2, false⟩) = .ok _ := rfl
  exact ⟨_, h, by decide +kernel, (file_whole_iff h).mp (by decide +kernel)⟩

/-- The entry of cluster 2 in the FAT is the end of a chain, of a file of two sectors. -/
theorem an_early_end_cuts_the_file :
    ∃ data, readFile oneSector (blank 0xFF) (.ok ⟨false, 1024, 2, false⟩) = .ok data ∧ data.length = 512 :=
  ⟨(replicate 512 0xFF).take 512 ++ [] ++ [], rfl, by rw [append_nil, append_nil, length_take, length_replicate]; rfl⟩

/-! ## Clusters in sequence -/

def clusterBytes (vol : ExfatVol) (content : Nat → Nat → Sector) (cluster : Nat) : List UInt8 :=
  (range vol.sectorsPerCluster).flatMap fun s => (content cluster s).1

/-- The clusters for `left` bytes follow one another in the FAT, and every read succeeds. -/
structure Sequential (vol : ExfatVol) (disk : Nat → Except ExfatError Sector) (content : Nat → Nat → Sector)
    (cluster left : Nat) : Prop where
  valid : ∀ i, i * vol.clusterSize < left → Valid (cluster + i)
  sectors : ∀ i s, i * vol.clusterSize < left → s < vol.sectorsPerCluster →
    readSector disk (vol.clusterHeapLba + (cluster + i - 2) * vol.sectorsPerCluster + s) = .ok (content (cluster + i) s)
  fat : ∀ i, i * vol.clusterSize < left → ∃ next, readFatEntry vol disk (cluster + i) = .ok next ∧
    ((i + 1) * vol.clusterSize < left → next = cluster + i + 1)

variable {content : Nat → Nat → Sector}

theorem Sequential.tail (h : Sequential vol disk content cluster left) :
    Sequential vol disk content (cluster + 1) (left - vol.clusterSize) := by
  have hlt : ∀ i, i * vol.clusterSize < left - vol.clusterSize → (i + 1) * vol.clusterSize < left := fun i hi => by
    rw [Nat.succ_mul]
    omega
  have he : ∀ i, cluster + 1 + i = cluster + (i + 1) := fun i => by omega
  refine ⟨fun i hi => ?_, fun i s hi hs => ?_, fun i hi => ?_⟩
  · exact he i ▸ h.valid (i + 1) (hlt i hi)
  · exact he i ▸ h.sectors (i + 1) s (hlt i hi) hs
  · obtain ⟨next, hn, hf⟩ := h.fat (i + 1) (hlt i hi)
    exact ⟨next, he i ▸ hn, fun hi => he i ▸ hf (hlt (i + 1) hi)⟩

theorem length_clusterBytes : (clusterBytes vol content cluster).length = vol.clusterSize := by
  simp [clusterBytes, ExfatVol.clusterSize, length_flatMap, fun s => (content cluster s).2, Nat.mul_comm]

theorem readSectors_ok {sectors : Nat → Sector} (h : ∀ s < n, readSector disk (lba + s) = .ok (sectors s)) :
    readSectors disk n lba left = .ok (((range n).flatMap fun s => (sectors s).1).take left, left - 512 * n) := by
  induction n generalizing lba left sectors with
  | zero => simp [readSectors, pure, Except.pure]
  | succ n ih =>
    unfold readSectors
    split
    · rename_i hz
      simp [hz, pure, Except.pure]
    have h0 : readSector disk lba = .ok (sectors 0) := h 0 (by omega)
    have hrest := @ih (lba + 1) (left - min left 512) (fun s => sectors (s + 1)) fun s hs =>
      (Nat.add_right_comm lba 1 s).symm ▸ h (s + 1) (by omega)
    have hleft : left - min left 512 - 512 * n = left - 512 * (n + 1) := by omega
    have hmin : left - min left 512 = left - 512 := by omega
    have htake : (sectors 0).1.take left = (sectors 0).1.take (min left 512) := by rw [take_eq_take_min, (sectors 0).2]
    simp only [h0, hrest, bind, Except.bind, pure, Except.pure, hleft]
    rw [range_succ_eq_map, flatMap_cons, flatMap_map, take_append, (sectors 0).2, hmin, htake]

theorem readClusters_none (b : Bool) (n cluster : Nat) : readClusters vol disk b n cluster 0 = .ok [] := by
  cases n <;> rfl

theorem Sequential.next (h : Sequential vol disk content cluster left) (hleft : 0 < left) (b : Bool) :
    ∃ next, nextCluster vol disk b cluster = .ok next ∧ (vol.clusterSize < left → next = cluster + 1) := by
  cases b with
  | true => exact ⟨_, rfl, fun _ => rfl⟩
  | false =>
    obtain ⟨next, hn, he⟩ := h.fat 0 (by omega)
    exact ⟨next, hn, fun hlt => he (by omega)⟩

theorem readClusters_ok {m : Nat} (h : Sequential vol disk content cluster left) (hm : left ≤ m * vol.clusterSize)
    (hn : m ≤ n) :
    readClusters vol disk b n cluster left =
      .ok (((range m).flatMap fun i => clusterBytes vol content (cluster + i)).take left) := by
  induction m generalizing n cluster left with
  | zero =>
    obtain rfl : left = 0 := by omega
    exact readClusters_none b n cluster
  | succ m ih =>
    obtain ⟨n, rfl⟩ : ∃ n', n = n' + 1 := ⟨n - 1, by omega⟩
    by_cases hz : left = 0
    · subst hz
      simpa using readClusters_none b (n + 1) cluster
    have hpos : 0 * vol.clusterSize < left := by omega
    obtain ⟨next, hnext, he⟩ := h.next (by omega) b
    have hdata : readSectors disk vol.sectorsPerCluster (vol.clusterHeapLba + (cluster - 2) * vol.sectorsPerCluster)
        left = .ok ((clusterBytes vol content cluster).take left, left - vol.clusterSize) :=
      readSectors_ok fun s hs => h.sectors 0 s hpos hs
    have hrest : readClusters vol disk b n next (left - vol.clusterSize) =
        .ok (((range m).flatMap fun i => clusterBytes vol content (cluster + 1 + i)).take
            (left - vol.clusterSize)) := by
      by_cases hlt : vol.clusterSize < left
      · rw [he hlt]
        exact ih h.tail (by rw [Nat.succ_mul] at hm; omega) (by omega)
      · rw [Nat.sub_eq_zero_of_le (by omega)]
        exact readClusters_none b n next
    have hgo : ¬ (left = 0 ∨ ¬ Valid cluster) := fun hs => hs.elim hz fun hv => hv (h.valid 0 hpos)
    unfold readClusters
    rw [if_neg hgo, range_succ_eq_map, flatMap_cons, flatMap_map, take_append, length_clusterBytes]
    simp only [hdata, hnext, hrest, bind, Except.bind, pure, Except.pure, Nat.add_assoc, Nat.add_comm 1]
    rfl

theorem read_paths_agree {file : DirEntry} (hdir : file.isDir = false) (hsize : file.size ≤ MAX_FILE_SIZE)
    (h : Sequential vol disk content file.firstCluster file.size) (noFatChain : Bool) :
    readFile vol disk (.ok { file with noFatChain }) =
      .ok (((range ((file.size + vol.clusterSize - 1) / vol.clusterSize)).flatMap fun i =>
        clusterBytes vol content (file.firstCluster + i)).take file.size) := by
  have hpos := vol.le_clusterSize
  have hm := @Nat.lt_div_mul_add (file.size + vol.clusterSize - 1) vol.clusterSize (by omega)
  have hle : (file.size + vol.clusterSize - 1) / vol.clusterSize ≤ MAX_CLUSTERS := by
    refine Nat.div_le_of_le_mul ?_
    unfold MAX_CLUSTERS MAX_FILE_SIZE at *
    omega
  refine Eq.trans ?_ (readClusters_ok (b := noFatChain) h (by omega) hle)
  show (if file.isDir = true then _ else if file.size > MAX_FILE_SIZE then _ else _) = _
  rw [hdir, if_neg (by decide), if_neg (by omega)]

theorem sequential_two_clusters : Sequential oneSector twoClusters
    (fun cluster _ => ⟨replicate 512 (UInt8.ofNat (cluster + 6)), length_replicate⟩) 2 1000 := by
  have hi : ∀ i, i * oneSector.clusterSize < 1000 → i = 0 ∨ i = 1 := fun i (hi : i * 512 < 1000) => by omega
  refine ⟨fun i h => ?_, fun i s h hs => ?_, fun i h => ?_⟩
  all_goals rcases hi i h with rfl | rfl
  · decide
  · decide
  · cases Nat.lt_one_iff.mp hs
    rfl
  · cases Nat.lt_one_iff.mp hs
    rfl
  · exact ⟨3, rfl, fun _ => rfl⟩
  · exact ⟨0xFFFF_FFFF, rfl, fun h => absurd h (by decide)⟩

theorem read_paths_agree_two_clusters :
    readFile oneSector twoClusters (.ok ⟨false, 1000, 2, false⟩) = .ok (replicate 512 8 ++ replicate 488 9) ∧
    readFile oneSector twoClusters (.ok ⟨false, 1000, 2, true⟩) = .ok (replicate 512 8 ++ replicate 488 9) := by
  have h := @read_paths_agree _ _ _ ⟨false, 1000, 2, false⟩ rfl (by decide) sequential_two_clusters
  exact ⟨(h false).trans (congrArg _ (by decide +kernel)), (h true).trans (congrArg _ (by decide +kernel))⟩

end Ostoo.Exfat
