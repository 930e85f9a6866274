import ClOs.Ext3Descriptors

/-!
# Mounting an ext3 volume

`init_ext3` takes six numbers from the superblock and tests two of them.  This
file says for which superblocks the numbers are ones that the rest of the driver
can use.
-/

namespace ClOs.Ext3

open ByteStore

/-! ## Geometries the driver can use -/

/-- The numbers are ones the driver is written for. -/
structure Usable (g : Geometry) : Prop where
  blockSize : ∃ k, g.blockSize = 2 ^ k ∧ 1024 ≤ g.blockSize
  inodeSize_pos : 0 < g.inodeSize
  inodeSize_le : g.inodeSize ≤ Inode.sizeOf
  blocksPerGroup : 1 ≤ g.blocksPerGroup ∧ g.blocksPerGroup ≤ 8 * g.blockSize
  inodesPerGroup : 1 ≤ g.inodesPerGroup ∧ g.inodesPerGroup ≤ 8 * g.blockSize

/-- A 32-bit inode number of one of the groups. -/
def InodeInRange (g : Geometry) (inode : ℕ) : Prop :=
  1 ≤ inode ∧ inode < 4294967296 ∧
    (inode - 1) / g.inodesPerGroup < g.groupCount

/-- No access to an inode, a bitmap or a descriptor leaves its buffer, whatever
is on the drive. -/
structure InBounds (g : Geometry) : Prop where
  readInode : ∀ disk garbage inode, InodeInRange g inode →
    readInode ⟨g, disk, garbage⟩ inode ≠ .error .outOfBounds
  writeInode : ∀ disk garbage inode source, InodeInRange g inode →
    writeInode ⟨g, disk, garbage⟩ inode source ≠ .error .outOfBounds
  findFreeInode : ∀ disk garbage,
    findFreeInode ⟨g, disk, garbage⟩ ≠ .error .outOfBounds
  findFreeBlock : ∀ disk garbage,
    findFreeBlock ⟨g, disk, garbage⟩ ≠ .error .outOfBounds
  freeBlock : ∀ disk garbage block,
    block / g.blocksPerGroup < g.groupCount →
      freeBlock ⟨g, disk, garbage⟩ block ≠ .error .outOfBounds

/-- Every group with an inode has its descriptor in the first block of the
table, and no inode record crosses the end of a block. -/
structure WithinBlocks (g : Geometry) : Prop where
  table : g.blockSize / 32 < g.groupCount →
    4294967296 ≤ g.blockSize / 32 * g.inodesPerGroup + 1
  records : g.groupCount = 0 ∨ g.inodeSize ∣ g.blockSize ∨
    g.inodesPerGroup * g.inodeSize ≤ g.blockSize

theorem Geometry.blockSize_dvd (g : Geometry) : g.blockSize ∣ 4294967296 := by
  obtain ⟨shift, hshift, hsize⟩ := g.blockSize_eq
  rw [hsize, show (1024 : ℕ) = 2 ^ 10 from rfl, ← pow_add,
    show (4294967296 : ℕ) = 2 ^ 32 from rfl]
  exact Nat.pow_dvd_pow 2 (by omega)

theorem Geometry.blockSize_le (g : Geometry) : g.blockSize ≤ 2147483648 := by
  obtain ⟨shift, hshift, hsize⟩ := g.blockSize_eq
  have hpow : 2 ^ shift ≤ 2 ^ 21 := Nat.pow_le_pow_right (by norm_num) (by omega)
  omega

theorem inodeOffset_eq (v : Volume) {inode : ℕ} (hinode : 1 ≤ inode)
    (hrange : inode < 4294967296) :
    inodeOffset v inode =
      (inode - 1) % v.inodesPerGroup * v.inodeSize % v.blockSize := by
  unfold inodeOffset
  rw [sub32_of_le hinode hrange]
  unfold u32
  exact Nat.mod_mod_of_dvd _ v.blockSize_dvd

section

variable {v : Volume} {inode : ℕ}

theorem WithinBlocks.record
    (h : WithinBlocks v.toGeometry) (hrange : InodeInRange v.toGeometry inode) :
    inodeOffset v inode + v.inodeSize ≤ v.blockSize := by
  obtain ⟨hlow, hhigh, hgroup⟩ := hrange
  rw [inodeOffset_eq v hlow hhigh]
  have hindex : (inode - 1) % v.inodesPerGroup < v.inodesPerGroup :=
    Nat.mod_lt _ v.inodesPerGroup_pos
  generalize (inode - 1) % v.inodesPerGroup = index at hindex
  have hpos := v.blockSize_pos
  rcases h.records with hnone | hdvd | hfew
  · rw [hnone] at hgroup
    exact absurd hgroup (Nat.not_lt_zero _)
  · have hoffset : v.inodeSize ∣ index * v.inodeSize % v.blockSize :=
      (Nat.dvd_mod_iff hdvd).2 (Nat.dvd_mul_left _ _)
    have hlt : index * v.inodeSize % v.blockSize < v.blockSize :=
      Nat.mod_lt _ hpos
    obtain ⟨m, hm⟩ := hoffset
    obtain ⟨n, hn⟩ := hdvd
    rw [hm, hn] at hlt
    have hmn : m + 1 ≤ n := Nat.lt_of_mul_lt_mul_left hlt
    calc index * v.inodeSize % v.blockSize + v.inodeSize
        = v.inodeSize * (m + 1) := by rw [hm, Nat.mul_add, Nat.mul_one]
      _ ≤ v.inodeSize * n := Nat.mul_le_mul_left _ hmn
      _ = v.blockSize := hn.symm
  · have hnext : (index + 1) * v.inodeSize ≤ v.blockSize :=
      (Nat.mul_le_mul_right _ hindex).trans hfew
    rw [Nat.add_mul, Nat.one_mul] at hnext
    have hmod := Nat.mod_le (index * v.inodeSize) v.blockSize
    omega

/-- The descriptor of an inode's group lies in block 2. -/
theorem WithinBlocks.inodeToBlock
    (h : WithinBlocks v.toGeometry) (hrange : InodeInRange v.toGeometry inode) :
    ∃ block, inodeToBlock v inode = .ok block := by
  obtain ⟨hlow, hhigh, hgroup⟩ := hrange
  have hfirst : (inode - 1) / v.inodesPerGroup < v.blockSize / 32 := by
    rcases Nat.lt_or_ge (v.blockSize / 32) v.groupCount with hmany | hfew
    · have htable := h.table hmany
      exact Nat.div_lt_of_lt_mul (by
        rw [Nat.mul_comm]
        omega)
    · omega
  have hbound := v.blockSize_le
  unfold Ext3.inodeToBlock
  dsimp only
  rw [sub32_of_le hlow hhigh]
  generalize (inode - 1) / v.inodesPerGroup = group at hfirst
  have hread : (fetch v 2).get32 (u32 (group * 32) + 8) =
      .ok ((fetch v 2).bytes.le32 (u32 (group * 32) + 8)) := by
    refine Buffer.get32_eq_ok.2 ⟨?_, rfl⟩
    rw [u32_of_lt (by omega), fetch_size]
    omega
  rw [hread]
  exact ⟨_, rfl⟩

theorem WithinBlocks.readInode
    (h : WithinBlocks v.toGeometry) (hsize : v.inodeSize ≤ Inode.sizeOf)
    (hrange : InodeInRange v.toGeometry inode) :
    Ext3.readInode v inode ≠ .error .outOfBounds := by
  obtain ⟨block, hblock⟩ := h.inodeToBlock hrange
  have hrecord : (fetch v block).slice (inodeOffset v inode) v.inodeSize =
      .ok ((fetch v block).bytes.drop (inodeOffset v inode)) :=
    Buffer.slice_eq_ok.2 ⟨h.record hrange, rfl⟩
  unfold Ext3.readInode
  simp only [hblock, hrecord, bind, Except.bind, if_neg (Nat.not_lt.2 hsize)]
  split_ifs <;> simp [pure, Except.pure]

theorem WithinBlocks.writeInode
    (h : WithinBlocks v.toGeometry) (hsize : v.inodeSize ≤ Inode.sizeOf)
    (hrange : InodeInRange v.toGeometry inode) (source : Inode) :
    Ext3.writeInode v inode source ≠ .error .outOfBounds := by
  obtain ⟨block, hblock⟩ := h.inodeToBlock hrange
  have hload : (fetch v block).load (inodeOffset v inode) source v.inodeSize =
      .ok { fetch v block with
        bytes := (fetch v block).bytes.blit (inodeOffset v inode) source
          v.inodeSize } :=
    Buffer.load_eq_ok.2 ⟨h.record hrange, rfl⟩
  unfold Ext3.writeInode
  simp only [hblock, hload, bind, Except.bind, if_neg (Nat.not_lt.2 hsize)]
  split_ifs <;> simp [pure, Except.pure]

end

/-! ## Bitmaps -/

/-- A search whose groups fit in their bitmaps reads nothing outside. -/
theorem findFreeBit_inBounds
    (v : Volume) (search : BitSearch)
    (hbits : search.perGroup ≤ 8 * v.blockSize)
    (hcounter : search.counterField + 2 ≤ 32)
    (hbitmap : search.bitmapField + 4 ≤ 32) (count g : ℕ) :
    ∃ result, findFreeBit v search count g = .ok result := by
  induction count generalizing g with
  | zero => exact ⟨_, rfl⟩
  | succ count ih =>
      have hoffset := descriptorOffset_le v g
      have hfree : (fetch v (descriptorBlock g)).get16
          (descriptorOffset v g + search.counterField) =
            .ok (v.descriptorHalf g search.counterField) :=
        Buffer.get16_eq_ok.2 ⟨by rw [fetch_size]; omega, rfl⟩
      have hword : (fetch v (descriptorBlock g)).get32
          (descriptorOffset v g + search.bitmapField) =
            .ok (v.descriptorWord g search.bitmapField) :=
        Buffer.get32_eq_ok.2 ⟨by rw [fetch_size]; omega, rfl⟩
      obtain ⟨found, hscan⟩ : ∃ found,
          scanBitmap (fetch v (v.descriptorWord g search.bitmapField))
            (search.usable g) (search.perGroup - search.start g)
            (search.start g) = .ok found :=
        scanBitmap_ok _ (by rw [fetch_size]; omega)
      simp only [findFreeBit, hfree, hword, hscan, bind, Except.bind]
      split_ifs
      · exact ih (g + 1)
      · cases found with
        | none => exact ih (g + 1)
        | some i => exact ⟨_, rfl⟩

theorem freeBlock_inBounds
    (v : Volume) (hbits : v.blocksPerGroup ≤ 8 * v.blockSize) (block : ℕ) :
    ∃ next, freeBlock v block = .ok next := by
  have hoffset := descriptorOffset_le v (block / v.blocksPerGroup)
  have hindex := Nat.mod_lt block v.blocksPerGroup_pos
  have hword : (fetch v (descriptorBlock (block / v.blocksPerGroup))).get32
      (descriptorOffset v (block / v.blocksPerGroup)) =
        .ok (v.descriptorWord (block / v.blocksPerGroup) 0) :=
    Buffer.get32_eq_ok.2 ⟨by rw [fetch_size]; omega, rfl⟩
  have hcheck : (fetch v (v.descriptorWord (block / v.blocksPerGroup) 0)).check
      (block % v.blocksPerGroup / 8) 1 = .ok () :=
    Buffer.check_of_le (by rw [fetch_size]; omega)
  unfold freeBlock
  simp only [hword, hcheck, bind, Except.bind]
  exact ⟨_, rfl⟩

/-! ## What the driver needs -/

theorem WithinBlocks.inBounds {g : Geometry} (h : WithinBlocks g) (husable : Usable g) :
    InBounds g where
  readInode _ _ _ hrange :=
    WithinBlocks.readInode (v := ⟨g, _, _⟩) h husable.inodeSize_le hrange
  writeInode _ _ _ source hrange :=
    WithinBlocks.writeInode (v := ⟨g, _, _⟩) h husable.inodeSize_le hrange source
  findFreeInode disk garbage := by
    obtain ⟨⟨found, next⟩, hfind⟩ := findFreeBit_inBounds ⟨g, disk, garbage⟩
      (inodeSearch ⟨g, disk, garbage⟩) husable.inodesPerGroup.2
      (by norm_num [inodeSearch]) (by norm_num [inodeSearch]) g.groupCount 0
    unfold findFreeInode
    rw [hfind]
    cases found <;> simp [bind, Except.bind, pure, Except.pure]
  findFreeBlock disk garbage := by
    obtain ⟨⟨found, next⟩, hfind⟩ := findFreeBit_inBounds ⟨g, disk, garbage⟩
      (blockSearch ⟨g, disk, garbage⟩) husable.blocksPerGroup.2
      (by norm_num [blockSearch]) (by norm_num [blockSearch]) g.groupCount 0
    unfold findFreeBlock
    rw [hfind]
    cases found <;> simp [bind, Except.bind, pure, Except.pure]
  freeBlock disk garbage block _ := by
    obtain ⟨next, hfree⟩ := freeBlock_inBounds ⟨g, disk, garbage⟩
      husable.blocksPerGroup.2 block
    rw [hfree]
    simp

/-- An inode of a group past block 2 is looked up outside the buffer. -/
theorem InBounds.table
    {g : Geometry} (h : InBounds g) (hmany : g.blockSize / 32 < g.groupCount) :
    4294967296 ≤ g.blockSize / 32 * g.inodesPerGroup + 1 := by
  by_contra hinode
  push Not at hinode
  have hbound := g.blockSize_le
  obtain ⟨hgroup, -⟩ := @div_of_place _ (g.blockSize / 32) _
    g.inodesPerGroup_pos
  rw [Nat.add_zero] at hgroup
  have hrange : InodeInRange g (g.blockSize / 32 * g.inodesPerGroup + 1) :=
    ⟨by omega, hinode, by rw [Nat.add_sub_cancel, hgroup]; exact hmany⟩
  apply h.readInode (fun _ => 0) (fun _ => 0) _ hrange
  have houtside : (fetch ⟨g, fun _ => 0, fun _ => 0⟩ 2).get32
      (u32 (g.blockSize / 32 * 32) + 8) = .error .outOfBounds := by
    obtain ⟨shift, -, hsize⟩ := g.blockSize_eq
    unfold Buffer.get32 Buffer.check
    rw [u32_of_lt (by omega), if_neg (by rw [fetch_size]; dsimp only; omega)]
    rfl
  unfold Ext3.readInode inodeToBlock
  dsimp only
  rw [sub32_of_le (by omega) hinode, Nat.add_sub_cancel, hgroup, houtside]
  rfl

/-- A record that crosses the end of a block is copied from behind the
buffer. -/
theorem InBounds.records
    {g : Geometry} (h : InBounds g) (hpos : 0 < g.inodeSize) :
    g.groupCount = 0 ∨ g.inodeSize ∣ g.blockSize ∨
      g.inodesPerGroup * g.inodeSize ≤ g.blockSize := by
  by_contra hfails
  push Not at hfails
  obtain ⟨hgroups, hdvd, hmany⟩ := hfails
  have hbound := g.blockSize_le
  have hleast := g.blockSize_ge
  have hindex : g.blockSize / g.inodeSize < g.inodesPerGroup :=
    Nat.div_lt_of_lt_mul (by rwa [Nat.mul_comm])
  have hle : g.blockSize / g.inodeSize ≤ g.blockSize := Nat.div_le_self _ _
  have hlow : g.blockSize / g.inodeSize * g.inodeSize < g.blockSize := by
    refine lt_of_le_of_ne (Nat.div_mul_le_self _ _) fun heq => hdvd ?_
    exact ⟨g.blockSize / g.inodeSize, by rw [Nat.mul_comm, heq]⟩
  have hhigh : g.blockSize <
      g.blockSize / g.inodeSize * g.inodeSize + g.inodeSize := by
    have hmod := Nat.mod_lt g.blockSize hpos
    have hsplit := Nat.div_add_mod' g.blockSize g.inodeSize
    omega
  obtain ⟨hgroup, hplace⟩ := @div_of_place _ 0 _ hindex
  rw [Nat.zero_mul, Nat.zero_add] at hgroup hplace
  generalize g.blockSize / g.inodeSize = index at *
  have hrange : InodeInRange g (index + 1) :=
    ⟨by omega, by omega, by rw [Nat.add_sub_cancel, hgroup]; omega⟩
  -- The inode table of this drive starts at block 1.
  let v : Volume :=
    ⟨g, ByteStore.put32 (fun _ => 0) (2 * g.blockSize + 8) 1, fun _ => 0⟩
  have htakes : (inodeToBlockSite 0).Takes v (2 * g.blockSize) := by
    refine ⟨?_, ?_⟩
    · have hsectors : 1 ≤ sectorsMoved (v.blockSize / 512) := by
        have hsector : 1 ≤ v.blockSize / 512 := by
          show 1 ≤ g.blockSize / 512
          omega
        unfold sectorsMoved
        omega
      show u32 (0 * 32) + 32 ≤ 512 * sectorsMoved (v.blockSize / 512)
      rw [u32_of_lt (by norm_num)]
      omega
    · show v.blockBase 2 + u32 (0 * 32) = 2 * g.blockSize
      rw [blockBase_two, u32_of_lt (by norm_num)]
      rfl
  have htable : (inodeToBlockSite 0).get32 v 8 =
      .ok (v.disk.le32 (2 * g.blockSize + 8)) :=
    htakes.get32 (by norm_num)
  have hone : v.disk.le32 (2 * g.blockSize + 8) = 1 := by
    show ByteStore.le32 (ByteStore.put32 _ _ _) _ = 1
    rw [ByteStore.le32_put32_same, u32_of_lt (by norm_num)]
  rw [hone] at htable
  have hblock : inodeToBlock v (index + 1) = .ok 1 := by
    rw [inodeToBlock_site, sub32_of_le (by omega) (by omega),
      Nat.add_sub_cancel]
    show (do
      let table ← (inodeToBlockSite (index / g.inodesPerGroup)).get32 v 8
      return u32 (table + u32 (index % g.inodesPerGroup * g.inodeSize) /
        g.blockSize)) = _
    rw [hgroup, hplace, htable, u32_of_lt (n := index * g.inodeSize) (by omega),
      Nat.div_eq_of_lt hlow]
    simp [bind, Except.bind, pure, Except.pure, u32_of_lt]
  have hoffset : inodeOffset v (index + 1) = index * g.inodeSize := by
    rw [inodeOffset_eq v (by omega) (by omega), Nat.add_sub_cancel]
    show index % g.inodesPerGroup * g.inodeSize % g.blockSize = _
    rw [hplace, Nat.mod_eq_of_lt hlow]
  apply h.readInode v.disk v.garbage _ hrange
  have houtside : (fetch v 1).slice (index * g.inodeSize) g.inodeSize =
      .error .outOfBounds := by
    unfold Buffer.slice Buffer.check
    rw [if_neg (by
      rw [fetch_size]
      show ¬index * g.inodeSize + g.inodeSize ≤ g.blockSize
      omega)]
    rfl
  refine Outcome.bind_eq_error.mpr (.inr ⟨1, hblock, ?_⟩)
  rw [if_neg (by norm_num), hoffset]
  exact Outcome.bind_eq_error.mpr (.inl houtside)

theorem inBounds_iff {g : Geometry} (husable : Usable g) :
    InBounds g ↔ WithinBlocks g :=
  ⟨fun h => ⟨h.table, h.records husable.inodeSize_pos⟩,
    fun h => h.inBounds husable⟩

/-! ## Superblocks -/

/-- `init_ext3` computes what it should, and a volume that it accepts is one the
driver can use. -/
def MountsSafely (disk garbage : ByteStore) : Prop :=
  ((readSectors disk 2).le16 56 = 0xEF53 →
    (readSectors disk 2).le32 32 ≠ 0 ∧ (readSectors disk 2).le32 24 < 32) ∧
  ∀ v, initExt3 disk garbage = .ok (some v) →
    Usable v.toGeometry ∧ InBounds v.toGeometry

/-- The numbers of a superblock that the driver can use, given as they stand in
its fields. -/
structure GoodNumbers (superblock : ByteStore) (blockSize groupCount : ℕ) :
    Prop where
  inodeSize_pos : superblock.le16 88 ≠ 0
  inodeSize_le : superblock.le16 88 ≤ 128
  blocksPerGroup : superblock.le32 32 ≤ 8 * blockSize
  inodesPerGroup : superblock.le32 40 ≤ 8 * blockSize
  table : blockSize / 32 < groupCount →
    4294967296 ≤ blockSize / 32 * superblock.le32 40 + 1
  records : groupCount = 0 ∨ superblock.le16 88 ∣ blockSize ∨
    superblock.le32 40 * superblock.le16 88 ≤ blockSize

/-- A superblock that `init_ext3` rejects, or whose numbers are good. -/
def GoodSuperblock (superblock : ByteStore) : Prop :=
  superblock.le16 56 = 0xEF53 →
    superblock.le32 32 ≠ 0 ∧ superblock.le32 24 < 32 ∧
      (superblock.le32 40 = 0 ∨ 22 ≤ superblock.le32 24 ∨
        GoodNumbers superblock (1024 * 2 ^ superblock.le32 24)
          (superblock.le32 4 / superblock.le32 32))

/-- What an accepted volume takes from the superblock. -/
structure Mounted (superblock : ByteStore) (g : Geometry) : Prop where
  magic : superblock.le16 56 = 0xEF53
  shift : superblock.le32 24 % 32 < 22
  blockSize : g.blockSize = 1024 * 2 ^ (superblock.le32 24 % 32)
  inodeSize : g.inodeSize = superblock.le16 88
  inodesPerGroup : g.inodesPerGroup = superblock.le32 40
  blocksPerGroup : g.blocksPerGroup = superblock.le32 32
  groupCount : g.groupCount = superblock.le32 4 / superblock.le32 32

theorem initExt3_mounted
    {disk garbage : ByteStore} {v : Volume}
    (hinit : initExt3 disk garbage = .ok (some v)) :
    Mounted (readSectors disk 2) v.toGeometry := by
  unfold initExt3 at hinit
  dsimp only at hinit
  split_ifs at hinit with hmagic hblocks hvalid
  · cases hinit
  · cases hinit
  · simp only [Except.ok.injEq, Option.some.injEq] at hinit
    subst hinit
    push Not at hmagic hvalid
    exact ⟨hmagic, hvalid.2, rfl, rfl, rfl, rfl, rfl⟩

theorem initExt3_accepts
    {disk : ByteStore} (garbage : ByteStore)
    (hmagic : (readSectors disk 2).le16 56 = 0xEF53)
    (hblocks : (readSectors disk 2).le32 32 ≠ 0)
    (hinodes : (readSectors disk 2).le32 40 ≠ 0)
    (hshift : (readSectors disk 2).le32 24 % 32 < 22) :
    ∃ v, initExt3 disk garbage = .ok (some v) := by
  unfold initExt3
  dsimp only
  rw [if_neg (by simpa using hmagic), dif_neg hblocks, dif_neg (by omega)]
  exact ⟨_, rfl⟩

theorem Mounted.good_iff
    {superblock : ByteStore} {g : Geometry} (h : Mounted superblock g)
    (hlow : superblock.le32 24 < 32) :
    GoodNumbers superblock (1024 * 2 ^ superblock.le32 24)
        (superblock.le32 4 / superblock.le32 32) ↔
      Usable g ∧ InBounds g := by
  have hsize := h.blockSize
  rw [Nat.mod_eq_of_lt hlow] at hsize
  rw [← hsize, ← h.groupCount]
  constructor
  · intro hgood
    have husable : Usable g := {
      blockSize := ⟨10 + superblock.le32 24, by
        rw [hsize, pow_add]; norm_num, g.blockSize_ge⟩
      inodeSize_pos := by
        rw [h.inodeSize]
        exact Nat.pos_of_ne_zero hgood.inodeSize_pos
      inodeSize_le := by
        rw [h.inodeSize]
        exact hgood.inodeSize_le
      blocksPerGroup := ⟨g.blocksPerGroup_pos, by
        rw [h.blocksPerGroup]; exact hgood.blocksPerGroup⟩
      inodesPerGroup := ⟨g.inodesPerGroup_pos, by
        rw [h.inodesPerGroup]; exact hgood.inodesPerGroup⟩ }
    refine ⟨husable, (inBounds_iff husable).2 ⟨?_, ?_⟩⟩
    · rw [h.inodesPerGroup]
      exact hgood.table
    · rw [h.inodesPerGroup, h.inodeSize]
      exact hgood.records
  · rintro ⟨husable, hbounds⟩
    obtain ⟨htable, hrecords⟩ := (inBounds_iff husable).1 hbounds
    have hpos := husable.inodeSize_pos
    have hle := husable.inodeSize_le
    have hblocks := husable.blocksPerGroup.2
    have hinodes := husable.inodesPerGroup.2
    rw [h.inodesPerGroup] at htable hrecords hinodes
    rw [h.inodeSize] at hpos hle hrecords
    rw [h.blocksPerGroup] at hblocks
    exact ⟨hpos.ne', hle, hblocks, hinodes, htable, hrecords⟩

/-- `init_ext3` is safe on a superblock exactly when its numbers are good. -/
theorem mountsSafely_iff (disk garbage : ByteStore) :
    MountsSafely disk garbage ↔ GoodSuperblock (readSectors disk 2) := by
  constructor
  · rintro ⟨hfaults, haccepts⟩ hmagic
    obtain ⟨hblocks, hlow⟩ := hfaults hmagic
    refine ⟨hblocks, hlow, ?_⟩
    by_cases hinodes : (readSectors disk 2).le32 40 = 0
    · exact .inl hinodes
    by_cases hshift : 22 ≤ (readSectors disk 2).le32 24
    · exact .inr (.inl hshift)
    obtain ⟨v, hinit⟩ := initExt3_accepts garbage hmagic hblocks hinodes
      (by rw [Nat.mod_eq_of_lt hlow]; omega)
    exact .inr (.inr
      (((initExt3_mounted hinit).good_iff hlow).2 (haccepts v hinit)))
  · intro hgood
    refine ⟨fun hmagic => ⟨(hgood hmagic).1, (hgood hmagic).2.1⟩, ?_⟩
    intro v hinit
    have hmounted := initExt3_mounted hinit
    obtain ⟨-, hlow, hnumbers⟩ := hgood hmounted.magic
    refine (hmounted.good_iff hlow).1 ?_
    rcases hnumbers with hinodes | hshift | hnumbers
    · have hpos := v.inodesPerGroup_pos
      rw [hmounted.inodesPerGroup, hinodes] at hpos
      exact absurd hpos (Nat.not_lt_zero _)
    · have hmounts := hmounted.shift
      rw [Nat.mod_eq_of_lt hlow] at hmounts
      omega
    · exact hnumbers

/-- A superblock with inodes of 256 bytes. -/
def largeInodes : ByteStore :=
  ofWords [(1028, 8192), (1044, 1), (1056, 8192), (1064, 1024),
    (1080, 0xEF53), (1112, 256)]

/-- `init_ext3` accepts it, and `memcpy` in `read_inode` writes 256 bytes into an
inode of 128. -/
theorem largeInodes_not_mountsSafely :
    (∃ v, initExt3 largeInodes (fun _ => 0) = .ok (some v)) ∧
      ¬MountsSafely largeInodes (fun _ => 0) := by
  have hmount : (initExt3 largeInodes (fun _ => 0)).satisfies (fun found =>
      found.any fun v => v.inodeSize = 256) = true := by
    decide +kernel
  obtain ⟨v, hinit, hsize⟩ := Outcome.exists_some_of_satisfies hmount
  refine ⟨⟨v, hinit⟩, fun hsafe => ?_⟩
  have hle := (hsafe.2 v hinit).1.inodeSize_le
  simp only [decide_eq_true_eq] at hsize
  rw [hsize] at hle
  exact absurd hle (by decide)

end ClOs.Ext3
