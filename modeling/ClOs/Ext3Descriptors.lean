import ClOs.Ext3Groups

/-!
# Where the driver looks for a group descriptor

Four functions read the descriptor of a group, in two ways: `inode_to_block`
takes byte `32 * g` of block 2, and the others take slot `g % (block_size / 32)`
of block `2 + 2 * g`.  In the format the descriptors stand one after another
from the block behind the superblock on.
-/

namespace ClOs.Ext3

open ByteStore

structure Site where
  block : ℕ
  offset : ℕ

namespace Site

def get16 (site : Site) (v : Volume) (field : ℕ) : Outcome ℕ :=
  (fetch v site.block).get16 (site.offset + field)

def get32 (site : Site) (v : Volume) (field : ℕ) : Outcome ℕ :=
  (fetch v site.block).get32 (site.offset + field)

end Site

/-- The descriptor in `inode_to_block`. -/
def inodeToBlockSite (g : ℕ) : Site := ⟨2, u32 (g * 32)⟩

/-- The descriptor in `find_free_inode`, `find_free_block` and `free_block`. -/
def groupSite (v : Volume) (g : ℕ) : Site :=
  ⟨descriptorBlock g, descriptorOffset v g⟩

theorem inodeToBlock_site (v : Volume) (inode : ℕ) :
    inodeToBlock v inode = do
      let table ←
        (inodeToBlockSite (sub32 inode 1 / v.inodesPerGroup)).get32 v 8
      return u32 (table + u32 (sub32 inode 1 % v.inodesPerGroup * v.inodeSize) /
        v.blockSize) :=
  rfl

theorem findFreeBit_site (v : Volume) (search : BitSearch) (count g : ℕ) :
    findFreeBit v search (count + 1) g = do
      let free ← (groupSite v g).get16 v search.counterField
      if free = 0 then findFreeBit v search count (g + 1)
      else
        let bitmap ← (groupSite v g).get32 v search.bitmapField
        match ← scanBitmap (fetch v bitmap) (search.usable g)
            (search.perGroup - search.start g) (search.start g) with
        | none => findFreeBit v search count (g + 1)
        | some i =>
            return (some (g, i),
              writeBlock v bitmap ((fetch v bitmap).bytes.setBit i)) :=
  rfl

theorem freeBlock_site (v : Volume) (block : ℕ) :
    freeBlock v block = do
      let bitmap ← (groupSite v (block / v.blocksPerGroup)).get32 v 0
      (fetch v bitmap).check (block % v.blocksPerGroup / 8) 1
      return writeBlock v bitmap
        ((fetch v bitmap).bytes.clearBit (block % v.blocksPerGroup)) :=
  rfl

/-- The 32 bytes at a site were read from the drive, where they stand at
`address`. -/
structure Site.Takes (site : Site) (v : Volume) (address : ℕ) : Prop where
  read : site.offset + 32 ≤ v.transfer
  stands : v.blockBase site.block + site.offset = address

theorem Site.Takes.get32
    {site : Site} {v : Volume} {address field : ℕ}
    (h : site.Takes v address) (hfield : field + 4 ≤ 32) :
    site.get32 v field = .ok (v.disk.le32 (address + field)) := by
  have hread := h.read
  have hbytes : (fetch v site.block).bytes.AgreeOn
      (v.disk.drop (v.blockBase site.block)) 0 v.transfer := by
    intro k _ hk
    simp only [fetch]
    rw [blit_inside _ _ (Nat.zero_le k) (by omega)]
    rfl
  refine Buffer.get32_eq_ok.2 ⟨?_, ?_⟩
  · have hmoved := v.transfer_le
    simp only [fetch_size]
    omega
  · rw [hbytes.le32_eq (site.offset + field) (Nat.zero_le _) (by omega),
      drop_le32, ← Nat.add_assoc, h.stands]

/-- The byte address of the block behind the one that holds the superblock. -/
def tableStart (v : Volume) : ℕ := v.blockSize * (1024 / v.blockSize + 1)

/-- All four functions take the descriptor of group `g` from the table. -/
structure DescriptorsAgree (v : Volume) (g : ℕ) : Prop where
  inodeToBlock : (inodeToBlockSite g).Takes v (tableStart v + 32 * g)
  findFreeInode : (groupSite v g).Takes v (tableStart v + 32 * g)
  findFreeBlock : (groupSite v g).Takes v (tableStart v + 32 * g)
  freeBlock : (groupSite v g).Takes v (tableStart v + 32 * g)

theorem blockBase_two (v : Volume) : v.blockBase 2 = 2 * v.blockSize := by
  obtain ⟨shift, hshift, hsize⟩ := v.blockSize_eq
  have hpow : 2 ^ shift ≤ 2 ^ 21 := Nat.pow_le_pow_right (by norm_num) (by omega)
  have hsectors : v.blockSize / 512 = 2 * 2 ^ shift := by omega
  unfold Volume.blockBase blockToLba sectorBase partitionOffset
  rw [hsectors, Nat.zero_add, u32_of_lt (n := 2) (by norm_num),
    u32_of_lt (by omega), Nat.mod_eq_of_lt (by omega)]
  omega

theorem tableStart_eq (v : Volume) :
    tableStart v = if v.blockSize = 1024 then 2048 else v.blockSize := by
  obtain ⟨shift, -, hsize⟩ := v.blockSize_eq
  unfold tableStart
  split_ifs with hsmall
  · rw [hsmall]
  · have hlarge : 1024 < v.blockSize := by
      have hleast := v.blockSize_ge
      omega
    rw [Nat.div_eq_of_lt hlarge, Nat.zero_add, Nat.mul_one]

theorem descriptorsAgree_first (v : Volume) (hsize : v.blockSize = 1024) :
    DescriptorsAgree v 0 := by
  have htransfer := v.transfer_eq (by omega)
  have hbase := blockBase_two v
  have hstart := tableStart_eq v
  rw [if_pos hsize] at hstart
  have hinode : (inodeToBlockSite 0).Takes v (tableStart v + 32 * 0) := by
    refine ⟨?_, ?_⟩
    · simp only [inodeToBlockSite, Nat.zero_mul, u32_of_lt, Nat.ofNat_pos]
      omega
    · simp only [inodeToBlockSite, Nat.zero_mul, u32_of_lt, Nat.ofNat_pos]
      omega
  have hgroup : groupSite v 0 = inodeToBlockSite 0 := by
    simp [groupSite, inodeToBlockSite, descriptorBlock, descriptorOffset,
      u32_of_lt]
  exact ⟨hinode, hgroup ▸ hinode, hgroup ▸ hinode, hgroup ▸ hinode⟩

theorem inodeToBlockSite_small
    {v : Volume} {g : ℕ}
    (h : (inodeToBlockSite g).Takes v (tableStart v + 32 * g)) :
    v.blockSize = 1024 ∧ g < 32 := by
  obtain ⟨shift, hshift, hsize⟩ := v.blockSize_eq
  have hpow : 2 ^ shift ≤ 2 ^ 21 := Nat.pow_le_pow_right (by norm_num) (by omega)
  have hread := h.read
  have hstands := h.stands
  have hmoved := v.transfer_le
  have hleast := v.blockSize_ge
  have hstart := tableStart_eq v
  simp only [inodeToBlockSite] at hread hstands
  rw [blockBase_two] at hstands
  unfold u32 at hread hstands
  split_ifs at hstart with hsmall
  · exact ⟨hsmall, by omega⟩
  · omega

theorem groupSite_first
    {v : Volume} {g : ℕ} (hsize : v.blockSize = 1024) (hfew : g < 32)
    (h : (groupSite v g).Takes v (tableStart v + 32 * g)) : g = 0 := by
  have hstands := h.stands
  have hstart := tableStart_eq v
  rw [if_pos hsize] at hstart
  have hblock : v.blockBase (descriptorBlock g) = 2048 + 2048 * g := by
    unfold Volume.blockBase blockToLba sectorBase partitionOffset descriptorBlock
    rw [hsize, Nat.zero_add, u32_of_lt (n := 2 + g * 2) (by omega),
      u32_of_lt (n := 2 + g * 2) (by omega), u32_of_lt (by omega),
      Nat.mod_eq_of_lt (by omega)]
    omega
  have hoffset : descriptorOffset v g = 32 * g := by
    unfold descriptorOffset
    rw [hsize, Nat.mod_eq_of_lt (by omega), Nat.mul_comm]
  simp only [groupSite, hblock, hoffset, hstart] at hstands
  omega

/-- The four functions agree on the descriptor of group 0 of a volume with
blocks of 1 KiB, and on no other. -/
theorem descriptors_agree_iff (v : Volume) (g : ℕ) :
    DescriptorsAgree v g ↔ v.blockSize = 1024 ∧ g = 0 := by
  constructor
  · intro h
    obtain ⟨hsize, hfew⟩ := inodeToBlockSite_small h.inodeToBlock
    exact ⟨hsize, groupSite_first hsize hfew h.freeBlock⟩
  · rintro ⟨hsize, rfl⟩
    exact descriptorsAgree_first v hsize

/-- The superblock of a volume of two groups of 8192 blocks of 1 KiB. -/
def twoGroups : ByteStore :=
  ofWords [(1028, 16384), (1044, 1), (1056, 8192), (1064, 1024),
    (1080, 0xEF53), (1112, 128)]

/-- The descriptor of its second group stands at byte 2080, and the driver looks
for it at byte 4128 when it allocates and frees. -/
theorem descriptors_disagree_twoGroups :
    ∃ v, initExt3 twoGroups (fun _ => 0) = .ok (some v) ∧
      1 < v.groupCount ∧ ¬DescriptorsAgree v 1 := by
  have hmount : (initExt3 twoGroups (fun _ => 0)).satisfies (fun found =>
      found.any fun v => v.blockSize = 1024 ∧ v.groupCount = 2) = true := by
    decide +kernel
  obtain ⟨v, hinit, hgeometry⟩ := Outcome.exists_some_of_satisfies hmount
  simp only [decide_eq_true_eq] at hgeometry
  refine ⟨v, hinit, by omega, fun h => ?_⟩
  have hfirst := groupSite_first hgeometry.1 (by norm_num) h.freeBlock
  omega

end ClOs.Ext3
