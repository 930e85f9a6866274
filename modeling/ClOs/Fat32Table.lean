import ClOs.Fat32Model
import ClOs.LinkedChains

/-!
# The file allocation table

A volume with sectors of 512 bytes keeps a table entry for every cluster in each
copy of the table, and the clusters lie behind the tables.  Writing an entry
changes one entry of every copy, writing a cluster changes one cluster, and the
search for a free cluster goes once around from where the last one ended.
-/

namespace ClOs.Fat32

open ByteStore

/-! ## Geometry -/

namespace Bpb

/-- `total_sectors` in `find_free_cluster`. -/
def sectors (bpb : Bpb) : ℕ :=
  if bpb.totalSectors ≠ 0 then bpb.totalSectors else bpb.largeSectorCount

/-- The first sector behind the tables. -/
def dataStart (bpb : Bpb) : ℕ :=
  bpb.reservedSectorCount + bpb.fatCount * bpb.sectorsPerFat

def clusters (bpb : Bpb) : ℕ :=
  (bpb.sectors - bpb.dataStart) / bpb.sectorsPerCluster

/-- A cluster of the volume. -/
def Has (bpb : Bpb) (cluster : ℕ) : Prop :=
  2 ≤ cluster ∧ cluster < bpb.clusters + 2

instance (bpb : Bpb) (cluster : ℕ) : Decidable (bpb.Has cluster) :=
  inferInstanceAs (Decidable (_ ∧ _))

/-- A number with a table entry, at an offset that fits into a word. -/
def HasEntry (bpb : Bpb) (cluster : ℕ) : Prop :=
  cluster < 128 * bpb.sectorsPerFat ∧ cluster < 0x40000000

instance (bpb : Bpb) (cluster : ℕ) : Decidable (bpb.HasEntry cluster) :=
  inferInstanceAs (Decidable (_ ∧ _))

/-- The first byte of a cluster on the disk. -/
def clusterBase (bpb : Bpb) (cluster : ℕ) : ℕ :=
  512 * (bpb.dataStart + (cluster - 2) * bpb.sectorsPerCluster)

/-- The first byte of a table entry on the disk. -/
def fatAddress (bpb : Bpb) (copy cluster : ℕ) : ℕ :=
  512 * (bpb.reservedSectorCount + copy * bpb.sectorsPerFat) + 4 * cluster

/-- Tables of 512-byte sectors within the reach of 28-bit sector numbers. -/
structure Tables (bpb : Bpb) : Prop where
  sector : bpb.bytesPerSector = 512
  copies : 0 < bpb.fatCount
  addressed : bpb.dataStart ≤ 268435456

/-- A volume of 512-byte sectors that a drive with 28-bit sector numbers holds,
with a table entry for every cluster. -/
structure Geometry (bpb : Bpb) : Prop where
  sector : bpb.bytesPerSector = 512
  cluster : 0 < bpb.sectorsPerCluster
  copies : 0 < bpb.fatCount
  data : bpb.dataStart ≤ bpb.sectors
  addressed : bpb.sectors ≤ 268435456
  table : bpb.clusters + 2 ≤ 128 * bpb.sectorsPerFat

instance (bpb : Bpb) : Decidable (Geometry bpb) :=
  decidable_of_iff (bpb.bytesPerSector = 512 ∧ 0 < bpb.sectorsPerCluster ∧
      0 < bpb.fatCount ∧ bpb.dataStart ≤ bpb.sectors ∧
      bpb.sectors ≤ 268435456 ∧
      bpb.clusters + 2 ≤ 128 * bpb.sectorsPerFat)
    ⟨fun ⟨h, h', h'', h₃, h₄, h₅⟩ => ⟨h, h', h'', h₃, h₄, h₅⟩,
      fun ⟨h, h', h'', h₃, h₄, h₅⟩ => ⟨h, h', h'', h₃, h₄, h₅⟩⟩

/-- A volume of 512-byte sectors with a table entry for every cluster and cluster
numbers below the end marks, of whatever number of sectors. -/
structure Covers (bpb : Bpb) : Prop where
  sector : bpb.bytesPerSector = 512
  cluster : 0 < bpb.sectorsPerCluster
  copies : 0 < bpb.fatCount
  data : bpb.dataStart ≤ bpb.sectors
  table : bpb.clusters + 2 ≤ 128 * bpb.sectorsPerFat
  numbers : bpb.clusters + 2 < 0x0FFFFFF8

instance (bpb : Bpb) : Decidable (Covers bpb) :=
  decidable_of_iff (bpb.bytesPerSector = 512 ∧ 0 < bpb.sectorsPerCluster ∧
      0 < bpb.fatCount ∧ bpb.dataStart ≤ bpb.sectors ∧
      bpb.clusters + 2 ≤ 128 * bpb.sectorsPerFat ∧
      bpb.clusters + 2 < 0x0FFFFFF8)
    ⟨fun ⟨h, h', h'', h₃, h₄, h₅⟩ => ⟨h, h', h'', h₃, h₄, h₅⟩,
      fun ⟨h, h', h'', h₃, h₄, h₅⟩ => ⟨h, h', h'', h₃, h₄, h₅⟩⟩

/-- Clusters that are counted without a wrap, each with a table entry at an offset
that fits into a word. -/
structure Numbered (bpb : Bpb) : Prop where
  sector : bpb.bytesPerSector = 512
  data : bpb.dataStart ≤ bpb.sectors
  entries : bpb.clusters + 2 ≤ 0x40000000

section

variable {bpb : Bpb} {copy cluster other : ℕ}

theorem sectorsPerCluster_lt (bpb : Bpb) : bpb.sectorsPerCluster < 256 :=
  UInt8.toNat_lt _

theorem copy_le (hcopy : copy < bpb.fatCount) :
    bpb.reservedSectorCount + copy * bpb.sectorsPerFat + bpb.sectorsPerFat ≤
      bpb.dataStart := by
  have hmul : (copy + 1) * bpb.sectorsPerFat ≤
      bpb.fatCount * bpb.sectorsPerFat := Nat.mul_le_mul_right _ hcopy
  rw [Nat.add_mul, Nat.one_mul] at hmul
  unfold dataStart
  omega

theorem Geometry.tables (h : Geometry bpb) : Tables bpb where
  sector := h.sector
  copies := h.copies
  addressed := h.data.trans h.addressed

theorem Geometry.cluster_le (h : Geometry bpb) (hcluster : bpb.Has cluster) :
    bpb.dataStart + (cluster - 2) * bpb.sectorsPerCluster +
      bpb.sectorsPerCluster ≤ bpb.sectors := by
  obtain ⟨hlow, hhigh⟩ := hcluster
  have hindex : cluster - 2 + 1 ≤
      (bpb.sectors - bpb.dataStart) / bpb.sectorsPerCluster := by
    unfold clusters at hhigh
    omega
  have hmul := (Nat.le_div_iff_mul_le h.cluster).1 hindex
  rw [Nat.add_mul, Nat.one_mul] at hmul
  have hdata := h.data
  omega

theorem Geometry.clusters_le (h : Geometry bpb) :
    bpb.clusters + 2 < 0x0FFFFFF8 := by
  have htable := h.table
  have hdata := h.data
  have haddressed := h.addressed
  have hcopy := copy_le h.copies
  have hdiv : bpb.clusters ≤ bpb.sectors - bpb.dataStart :=
    Nat.div_le_self _ _
  omega

theorem geometry_iff : Geometry bpb ↔ Covers bpb ∧ bpb.sectors ≤ 268435456 :=
  ⟨fun h => ⟨⟨h.sector, h.cluster, h.copies, h.data, h.table, h.clusters_le⟩,
    h.addressed⟩,
    fun ⟨h, haddressed⟩ =>
      ⟨h.sector, h.cluster, h.copies, h.data, haddressed, h.table⟩⟩

theorem Geometry.numbered (h : Geometry bpb) : Numbered bpb where
  sector := h.sector
  data := h.data
  entries := by
    have hclusters := h.clusters_le
    omega

theorem Geometry.isCluster (h : Geometry bpb) (hcluster : bpb.Has cluster) :
    IsCluster cluster := by
  have hclusters := h.clusters_le
  exact ⟨hcluster.1, by have := hcluster.2; omega⟩

theorem Geometry.hasEntry (h : Geometry bpb) (hcluster : bpb.Has cluster) :
    bpb.HasEntry cluster := by
  have hclusters := h.clusters_le
  have htable := h.table
  obtain ⟨-, hhigh⟩ := hcluster
  exact ⟨by omega, by omega⟩

/-- Two clusters share no byte. -/
theorem clusterBase_apart
    (hcluster : bpb.Has cluster) (hother : bpb.Has other)
    (hne : cluster ≠ other) :
    bpb.clusterBase cluster + 512 * bpb.sectorsPerCluster ≤
        bpb.clusterBase other ∨
      bpb.clusterBase other + 512 * bpb.sectorsPerCluster ≤
        bpb.clusterBase cluster := by
  have hmul : ∀ {first second : ℕ}, first + 1 ≤ second →
      first * bpb.sectorsPerCluster + bpb.sectorsPerCluster ≤
        second * bpb.sectorsPerCluster := by
    intro first second hle
    have hstep := Nat.mul_le_mul_right bpb.sectorsPerCluster hle
    rwa [Nat.add_mul, Nat.one_mul] at hstep
  obtain ⟨hlow, -⟩ := hcluster
  obtain ⟨hlow', -⟩ := hother
  unfold clusterBase
  rcases Nat.lt_or_ge cluster other with hlt | hge
  · have hstep := hmul (by omega : cluster - 2 + 1 ≤ other - 2)
    omega
  · have hstep := hmul (by omega : other - 2 + 1 ≤ cluster - 2)
    omega

/-- A table entry lies in front of every cluster. -/
theorem fatAddress_le (hcopy : copy < bpb.fatCount)
    (hfit : cluster < 128 * bpb.sectorsPerFat) :
    bpb.fatAddress copy cluster + 4 ≤ bpb.clusterBase other := by
  have hle := copy_le hcopy
  unfold fatAddress clusterBase
  have hpos := Nat.zero_le ((other - 2) * bpb.sectorsPerCluster)
  omega

/-- Two table entries share no byte. -/
theorem fatAddress_apart
    {copy' : ℕ} (hfit : cluster < 128 * bpb.sectorsPerFat)
    (hfit' : other < 128 * bpb.sectorsPerFat)
    (hne : copy ≠ copy' ∨ cluster ≠ other) :
    bpb.fatAddress copy cluster + 4 ≤ bpb.fatAddress copy' other ∨
      bpb.fatAddress copy' other + 4 ≤ bpb.fatAddress copy cluster := by
  have hmul : ∀ {first second : ℕ}, first + 1 ≤ second →
      first * bpb.sectorsPerFat + bpb.sectorsPerFat ≤
        second * bpb.sectorsPerFat := by
    intro first second hle
    have hstep := Nat.mul_le_mul_right bpb.sectorsPerFat hle
    rwa [Nat.add_mul, Nat.one_mul] at hstep
  unfold fatAddress
  rcases Nat.lt_trichotomy copy copy' with hlt | rfl | hgt
  · have hstep := hmul hlt
    omega
  · omega
  · have hstep := hmul hgt
    omega

end

end Bpb

/-! ## Entries -/

namespace Volume

def fatEntry (v : Volume) (copy cluster : ℕ) : ℕ :=
  v.disk.le32 (v.bpb.fatAddress copy cluster)

/-- What `get_next_cluster` reads. -/
def link (v : Volume) (cluster : ℕ) : ℕ :=
  v.fatEntry 0 cluster % 0x10000000

end Volume

theorem and_0FFFFFFF (n : ℕ) : n &&& 0x0FFFFFFF = n % 0x10000000 :=
  Nat.and_two_pow_sub_one_eq_mod n 28

section

variable {v next : Volume} {copy cluster other value : ℕ}

theorem fatPlace_of_lt
    (hsector : v.bpb.bytesPerSector = 512) (hbound : cluster < 0x40000000)
    (hplace : v.bpb.reservedSectorCount + copy * v.bpb.sectorsPerFat +
      4 * cluster / 512 < 268435456) :
    ∃ sector offset, fatPlace v copy cluster = .ok (sector, offset) ∧
      offset + 4 ≤ 512 ∧ sectorBase sector + offset =
        v.bpb.fatAddress copy cluster := by
  have hnumber : u32 (cluster * 4) = 4 * cluster := by
    rw [u32_of_lt (by omega)]
    omega
  refine ⟨v.bpb.reservedSectorCount + copy * v.bpb.sectorsPerFat +
    4 * cluster / 512, 4 * cluster % 512, ?_, by omega, ?_⟩
  · unfold fatPlace
    rw [if_neg (by rw [hsector]; norm_num), hsector, hnumber,
      u32_of_lt (by omega : copy * v.bpb.sectorsPerFat < 4294967296),
      u32_of_lt (by omega : v.bpb.reservedSectorCount +
        copy * v.bpb.sectorsPerFat < 4294967296), u32_of_lt (by omega)]
  · unfold sectorBase Bpb.fatAddress
    rw [Nat.mod_eq_of_lt (by omega)]
    omega

theorem fatPlace_eq
    (h : v.bpb.Tables) (hcopy : copy < v.bpb.fatCount)
    (hentry : v.bpb.HasEntry cluster) :
    ∃ sector offset, fatPlace v copy cluster = .ok (sector, offset) ∧
      offset + 4 ≤ 512 ∧ sectorBase sector + offset =
        v.bpb.fatAddress copy cluster := by
  have hle := Bpb.copy_le hcopy
  have haddressed := h.addressed
  obtain ⟨hfit, hbound⟩ := hentry
  exact fatPlace_of_lt h.sector hbound (by omega)

theorem loadSectors_sector
    (v : Volume) (sector : ℕ) :
    loadSectors v 512 sector 1 = .ok ⟨512,
      v.garbage.blit 0 (readSectors v.disk sector) 512⟩ := by
  have hmoved : 512 * sectorsMoved 1 = 512 := by decide
  unfold loadSectors
  rw [hmoved]
  exact Buffer.load_eq_ok.2 ⟨by norm_num, rfl⟩

theorem get32_sector
    (garbage disk : ByteStore) {sector offset : ℕ} (hoffset : offset + 4 ≤ 512) :
    (Buffer.mk 512 (garbage.blit 0 (readSectors disk sector) 512)).get32 offset =
      .ok (disk.le32 (sectorBase sector + offset)) := by
  have hinside : ∀ k < 512,
      garbage.blit 0 (readSectors disk sector) 512 k =
        disk (sectorBase sector + k) := by
    intro k hk
    rw [blit_inside _ _ (Nat.zero_le _) (by omega)]
    rfl
  refine Buffer.get32_eq_ok.2 ⟨hoffset, ?_⟩
  unfold le32
  simp only
  rw [hinside _ (by omega), hinside _ (by omega), hinside _ (by omega),
    hinside _ (by omega)]
  rfl

/-- A link is read from the first copy, which is within reach for every number
whose offset in the table fits into a word. -/
theorem getNextCluster_of_lt
    (hsector : v.bpb.bytesPerSector = 512) (hbound : cluster < 0x40000000) :
    getNextCluster v cluster = .ok (v.link cluster) := by
  have hreserved : v.bpb.reservedSectorCount < 65536 := le16_lt _ _
  obtain ⟨sector, offset, hplace, hoffset, haddress⟩ :=
    @fatPlace_of_lt v 0 cluster hsector hbound (by omega)
  unfold getNextCluster
  simp only [hplace, bind, Except.bind, hsector, loadSectors_sector,
    get32_sector _ _ hoffset, pure, Except.pure]
  rw [haddress, and_0FFFFFFF]
  rfl

theorem getNextCluster_eq
    (h : v.bpb.Tables) (hentry : v.bpb.HasEntry cluster) :
    getNextCluster v cluster = .ok (v.link cluster) :=
  getNextCluster_of_lt h.sector hentry.2

/-- The value that `set_next_cluster` stores over another one. -/
def tableValue (current next : ℕ) : ℕ :=
  current &&& 0xF0000000 ||| next &&& 0x0FFFFFFF

theorem tableValue_lt (current next : ℕ) :
    tableValue current next < 4294967296 := by
  refine Nat.or_lt_two_pow (n := 32) ?_ ?_
  · exact Nat.and_lt_two_pow _ (by norm_num)
  · exact lt_trans (Nat.and_lt_two_pow (n := 28) _ (by norm_num)) (by norm_num)

/-- The top four bits are kept. -/
theorem tableValue_top (current next : ℕ) :
    tableValue current next &&& 0xF0000000 = current &&& 0xF0000000 := by
  unfold tableValue
  rw [Nat.and_or_distrib_right, Nat.and_assoc, Nat.and_assoc, Nat.and_self]
  simp

theorem tableValue_link (current next : ℕ) :
    tableValue current next % 0x10000000 = next % 0x10000000 := by
  have hmod : ∀ n : ℕ, n % 0x10000000 = n &&& 0x0FFFFFFF :=
    fun n => (and_0FFFFFFF n).symm
  rw [hmod, hmod]
  unfold tableValue
  rw [Nat.and_or_distrib_right, Nat.and_assoc, Nat.and_assoc,
    Nat.and_self]
  simp

/-- A word written in a part of a store that is written back. -/
theorem blit_put32
    {store source : ByteStore} {base offset count : ℕ}
    (hsame : ∀ k < count, source k = store (base + k))
    (hoffset : offset + 4 ≤ count) (value : ℕ) :
    store.blit base (source.put32 offset value) count =
      store.put32 (base + offset) value := by
  funext k
  by_cases hpart : base ≤ k ∧ k < base + count
  · rw [blit_inside store _ hpart.1 hpart.2]
    by_cases hword : base + offset ≤ k ∧ k < base + offset + 4
    · unfold put32
      rw [blit_inside source _ (by omega) (by omega),
        blit_inside store _ hword.1 hword.2, Nat.sub_sub]
    · rw [put32_outside source (by omega), put32_outside store (by omega),
        hsame _ (by omega)]
      congr 1
      omega
  · rw [blit_outside store _ (by omega), put32_outside store (by omega)]

theorem setNextInCopy_eq
    (h : v.bpb.Tables) (hcopy : copy < v.bpb.fatCount)
    (hentry : v.bpb.HasEntry cluster) :
    setNextInCopy cluster value v copy = .ok { v with
      disk := v.disk.put32 (v.bpb.fatAddress copy cluster)
        (tableValue (v.fatEntry copy cluster) value) } := by
  obtain ⟨sector, offset, hplace, hoffset, haddress⟩ :=
    fatPlace_eq h hcopy hentry
  have hmoved : 512 * sectorsMoved 1 = 512 := by decide
  have hvalue : v.disk.le32 (sectorBase sector + offset) =
      v.fatEntry copy cluster := by
    rw [haddress]
    rfl
  unfold setNextInCopy
  simp only [hplace, bind, Except.bind, h.sector, loadSectors_sector,
    get32_sector _ _ hoffset, pure, Except.pure]
  rw [hvalue, ← haddress]
  unfold writeSectors
  rw [hmoved, blit_put32 _ hoffset]
  · rfl
  · intro k hk
    rw [blit_inside _ _ (Nat.zero_le _) (by omega)]
    rfl

/-- What `set_next_cluster` does: it changes one entry of every copy. -/
structure Links (v next : Volume) (cluster value : ℕ) : Prop where
  rest : next = { v with disk := next.disk }
  entry : ∀ copy < v.bpb.fatCount, next.fatEntry copy cluster =
    tableValue (v.fatEntry copy cluster) value
  others : ∀ k, (∀ copy < v.bpb.fatCount, k < v.bpb.fatAddress copy cluster ∨
    v.bpb.fatAddress copy cluster + 4 ≤ k) → next.disk k = v.disk k

theorem setNextInCopies
    (h : v.bpb.Tables) (hentry : v.bpb.HasEntry cluster) (value : ℕ)
    {count : ℕ} (hcount : count ≤ v.bpb.fatCount) :
    ∃ next, (List.range count).foldlM (setNextInCopy cluster value) v =
        .ok next ∧ next = { v with disk := next.disk } ∧
      (∀ copy < count, next.fatEntry copy cluster =
        tableValue (v.fatEntry copy cluster) value) ∧
      ∀ k, (∀ copy < count, k < v.bpb.fatAddress copy cluster ∨
        v.bpb.fatAddress copy cluster + 4 ≤ k) → next.disk k = v.disk k := by
  induction count with
  | zero => exact ⟨v, rfl, rfl, fun _ hcopy => absurd hcopy (by omega),
      fun _ _ => rfl⟩
  | succ count ih =>
      obtain ⟨mid, hmid, hrest, hset, hothers⟩ := ih (by omega)
      have hbpb : mid.bpb = v.bpb := by rw [hrest]
      have hstep : setNextInCopy cluster value mid count = .ok { mid with
          disk := mid.disk.put32 (mid.bpb.fatAddress count cluster)
            (tableValue (mid.fatEntry count cluster) value) } :=
        setNextInCopy_eq (by rw [hbpb]; exact h) (by rw [hbpb]; exact hcount)
          (by rw [hbpb]; exact hentry)
      have hcurrent : mid.fatEntry count cluster = v.fatEntry count cluster := by
        unfold Volume.fatEntry
        rw [hbpb]
        have hagree : mid.disk.AgreeOn v.disk
            (v.bpb.fatAddress count cluster)
            (v.bpb.fatAddress count cluster + 4) := by
          intro k hlow hhigh
          refine hothers k fun copy hcopy => ?_
          rcases Bpb.fatAddress_apart hentry.1 hentry.1
            (.inl (by omega : copy ≠ count)) with hle | hle <;> omega
        exact hagree.le32_eq _ le_rfl le_rfl
      refine ⟨{ mid with
        disk := mid.disk.put32 (mid.bpb.fatAddress count cluster)
          (tableValue (mid.fatEntry count cluster) value) }, ?_, ?_, ?_, ?_⟩
      · rw [List.range_succ, List.foldlM_append, hmid]
        simp only [bind, Except.bind, List.foldlM_cons, hstep,
          List.foldlM_nil, pure, Except.pure]
      · rw [hrest]
      · intro copy hcopy
        unfold Volume.fatEntry
        simp only [hbpb]
        by_cases hlast : copy = count
        · subst hlast
          rw [le32_put32_same, u32_of_lt (tableValue_lt _ _)]
          unfold Volume.fatEntry at hcurrent
          rw [hbpb] at hcurrent
          rw [hcurrent]
        · rw [le32_put32_of_disjoint _ _ (Bpb.fatAddress_apart hentry.1 hentry.1
            (.inl hlast))]
          have hold := hset copy (by omega)
          unfold Volume.fatEntry at hold
          rwa [hbpb] at hold
      · intro k hk
        simp only [hbpb]
        rw [put32_outside _ (hk count (by omega))]
        exact hothers k fun copy hcopy => hk copy (by omega)

theorem setNextCluster_ok
    (h : v.bpb.Tables) (hentry : v.bpb.HasEntry cluster) (value : ℕ) :
    ∃ next, setNextCluster v cluster value = .ok next ∧
      Links v next cluster value := by
  obtain ⟨next, hok, hrest, hset, hothers⟩ :=
    setNextInCopies h hentry value le_rfl
  exact ⟨next, hok, hrest, hset, hothers⟩

theorem Links.bpb (h : Links v next cluster value) : next.bpb = v.bpb := by
  rw [h.rest]

theorem Links.garbage (h : Links v next cluster value) :
    next.garbage = v.garbage := by
  rw [h.rest]

theorem Links.lastFreeCluster (h : Links v next cluster value) :
    next.lastFreeCluster = v.lastFreeCluster := by
  rw [h.rest]

theorem Links.link_same
    (h : Links v next cluster value) (htables : v.bpb.Tables) :
    next.link cluster = value % 0x10000000 := by
  unfold Volume.link
  rw [h.entry 0 htables.copies, tableValue_link]

/-- The other entries of every copy are kept. -/
theorem Links.fatEntry_of_ne
    (h : Links v next cluster value) (hentry : v.bpb.HasEntry cluster)
    (hother : other < 128 * v.bpb.sectorsPerFat) (hne : other ≠ cluster)
    (copy : ℕ) : next.fatEntry copy other = v.fatEntry copy other := by
  unfold Volume.fatEntry
  rw [h.bpb]
  have hagree : next.disk.AgreeOn v.disk (v.bpb.fatAddress copy other)
      (v.bpb.fatAddress copy other + 4) := by
    intro k hlow hhigh
    refine h.others k fun copy' _ => ?_
    have hapart := Bpb.fatAddress_apart hentry.1 hother
      (.inr hne.symm : copy' ≠ copy ∨ cluster ≠ other)
    omega
  exact hagree.le32_eq _ le_rfl le_rfl

theorem Links.link_of_ne
    (h : Links v next cluster value) (hentry : v.bpb.HasEntry cluster)
    (hother : other < 128 * v.bpb.sectorsPerFat) (hne : other ≠ cluster) :
    next.link other = v.link other := by
  unfold Volume.link
  rw [h.fatEntry_of_ne hentry hother hne]

/-- Only the tables change. -/
theorem Links.outside
    (h : Links v next cluster value) (hentry : v.bpb.HasEntry cluster) {k : ℕ}
    (hk : k < 512 * v.bpb.reservedSectorCount ∨ 512 * v.bpb.dataStart ≤ k) :
    next.disk k = v.disk k := by
  refine h.others k fun copy hcopy => ?_
  have hfirst : 512 * v.bpb.reservedSectorCount ≤
      v.bpb.fatAddress copy cluster := by
    unfold Bpb.fatAddress
    omega
  have hlast := Bpb.copy_le hcopy
  have hfit := hentry.1
  have haddress : v.bpb.fatAddress copy cluster + 4 ≤
      512 * v.bpb.dataStart := by
    unfold Bpb.fatAddress
    omega
  omega

/-! ## Clusters -/

def Volume.clusterBytes (v : Volume) (cluster : ℕ) : ByteStore :=
  v.garbage.blit 0 (v.disk.drop (v.bpb.clusterBase cluster))
    (512 * v.bpb.sectorsPerCluster)

theorem bytesPerCluster_eq
    (h : v.bpb.Geometry) :
    v.bytesPerCluster = 512 * v.bpb.sectorsPerCluster := by
  unfold Volume.bytesPerCluster
  rw [h.sector, Nat.mul_comm]

theorem sectorsMoved_cluster (bpb : Bpb) :
    sectorsMoved bpb.sectorsPerCluster = bpb.sectorsPerCluster :=
  sectorsMoved_of_le (by have := bpb.sectorsPerCluster_lt; omega)

theorem clusterLba_eq
    (h : v.bpb.Geometry) (hcluster : v.bpb.Has cluster) :
    sectorBase (v.clusterLba cluster) = v.bpb.clusterBase cluster := by
  have hle := h.cluster_le hcluster
  have haddressed := h.addressed
  have hpos := h.cluster
  have hdata : v.dataStart = v.bpb.dataStart := by
    have hstart := h.data
    unfold Volume.dataStart
    unfold Bpb.dataStart at hstart ⊢
    rw [u32_of_lt (by omega : v.bpb.fatCount * v.bpb.sectorsPerFat <
      4294967296), u32_of_lt (by omega)]
  have hclusters := h.clusters_le
  obtain ⟨hlow, hhigh⟩ := hcluster
  unfold Volume.clusterLba sectorBase Bpb.clusterBase
  rw [hdata, sub32_of_le hlow (by omega),
    u32_of_lt (by omega : (cluster - 2) * v.bpb.sectorsPerCluster < 4294967296),
    u32_of_lt (by omega), Nat.mod_eq_of_lt (by omega)]

theorem readCluster_eq
    (h : v.bpb.Geometry) (hcluster : v.bpb.Has cluster) :
    readCluster v cluster =
      .ok ⟨v.bytesPerCluster, v.clusterBytes cluster⟩ := by
  unfold readCluster loadSectors
  rw [sectorsMoved_cluster]
  refine Buffer.load_eq_ok.2 ⟨?_, ?_⟩
  · rw [bytesPerCluster_eq h]
    simp
  · unfold Volume.clusterBytes readSectors
    rw [clusterLba_eq h hcluster]

theorem writeCluster_eq
    (h : v.bpb.Geometry) (hcluster : v.bpb.Has cluster) (bytes : ByteStore) :
    writeCluster v cluster bytes = { v with
      disk := v.disk.blit (v.bpb.clusterBase cluster) bytes
        (512 * v.bpb.sectorsPerCluster) } := by
  unfold writeCluster writeSectors
  rw [clusterLba_eq h hcluster, sectorsMoved_cluster]

theorem Links.clusterBytes
    (h : Links v next cluster value) (hentry : v.bpb.HasEntry cluster)
    (other : ℕ) : next.clusterBytes other = v.clusterBytes other := by
  unfold Volume.clusterBytes
  rw [h.bpb, h.garbage]
  refine blit_congr _ fun k hk => ?_
  refine h.others _ fun copy hcopy => .inr ?_
  have hle : v.bpb.fatAddress copy cluster + 4 ≤ v.bpb.clusterBase other :=
    Bpb.fatAddress_le hcopy hentry.1
  omega

theorem writeCluster_fatEntry
    (h : v.bpb.Geometry) (hcluster : v.bpb.Has cluster) (bytes : ByteStore)
    (hcopy : copy < v.bpb.fatCount)
    (hother : other < 128 * v.bpb.sectorsPerFat) :
    (writeCluster v cluster bytes).fatEntry copy other =
      v.fatEntry copy other := by
  rw [writeCluster_eq h hcluster]
  unfold Volume.fatEntry
  exact le32_blit_outside _ _ _ (.inl (Bpb.fatAddress_le hcopy hother))

theorem writeCluster_link
    (h : v.bpb.Geometry) (hcluster : v.bpb.Has cluster) (bytes : ByteStore)
    (hother : other < 128 * v.bpb.sectorsPerFat) :
    (writeCluster v cluster bytes).link other = v.link other := by
  unfold Volume.link
  rw [writeCluster_fatEntry h hcluster bytes h.copies hother]

theorem writeCluster_clusterBytes_same
    (h : v.bpb.Geometry) (hcluster : v.bpb.Has cluster) (bytes : ByteStore) :
    (writeCluster v cluster bytes).clusterBytes cluster =
      v.garbage.blit 0 bytes (512 * v.bpb.sectorsPerCluster) := by
  rw [writeCluster_eq h hcluster]
  unfold Volume.clusterBytes
  exact blit_congr _ fun k hk => blit_add v.disk bytes _ hk

theorem writeCluster_clusterBytes_of_ne
    (h : v.bpb.Geometry) (hcluster : v.bpb.Has cluster)
    (hother : v.bpb.Has other) (hne : other ≠ cluster) (bytes : ByteStore) :
    (writeCluster v cluster bytes).clusterBytes other =
      v.clusterBytes other := by
  rw [writeCluster_eq h hcluster]
  have hapart := Bpb.clusterBase_apart hother hcluster hne
  have hkeep : ∀ k < 512 * v.bpb.sectorsPerCluster,
      v.disk.blit (v.bpb.clusterBase cluster) bytes
          (512 * v.bpb.sectorsPerCluster) (v.bpb.clusterBase other + k) =
        v.disk (v.bpb.clusterBase other + k) :=
    fun k hk => blit_outside v.disk bytes (by omega)
  unfold Volume.clusterBytes
  exact blit_congr _ hkeep

end

end ClOs.Fat32
