import ClOs.Ext3BitRuns
import ClOs.Ext3Entries

/-!
# Inode records

`inode_to_block` and `inode_offset` split an inode number into a group, a block
and an offset.  Where the tables lie apart, within the sectors that reach the
drive, the 128 bytes at each place belong to one inode alone.
-/

namespace ClOs.Ext3

open ByteStore

namespace Volume

/-- The inode table of a group, by the descriptor in block 2. -/
def inodeTable (v : Volume) (g : ℕ) : ℕ :=
  v.disk.le32 (v.blockBase 2 + (g * 32 + 8))

def tableBlocks (v : Volume) : ℕ :=
  (v.inodesPerGroup * 128 + v.blockSize - 1) / v.blockSize

def recordAddress (v : Volume) (inode : ℕ) : ℕ :=
  v.inodeTable ((inode - 1) / v.inodesPerGroup) * v.blockSize +
    (inode - 1) % v.inodesPerGroup * 128

end Volume

/-- Inodes of 128 bytes, the descriptors in block 2, and inode tables that lie
apart from each other and from block 2. -/
structure InodeTables (v : Volume) : Prop where
  inodeSize_eq : v.inodeSize = 128
  groups_lt : v.groupCount < v.blockSize / 32
  nonzero : ∀ g < v.groupCount, v.inodeTable g ≠ 0
  apart : ∀ g < v.groupCount, ∀ g' < v.groupCount, g ≠ g' →
    ∀ k < v.tableBlocks, ∀ k' < v.tableBlocks,
      v.inodeTable g + k ≠ v.inodeTable g' + k'
  descriptors : ∀ g < v.groupCount, ∀ k < v.tableBlocks,
    v.inodeTable g + k ≠ 2

/-- The tables can be reached: a command moves a block, the offset in a table has
32 bits, and the last sector of a table 28. -/
structure TablesReachable (v : Volume) : Prop where
  blockSize_le : v.blockSize ≤ 131072
  offsets : v.inodesPerGroup * 128 ≤ 4294967296
  sectors : ∀ g < v.groupCount,
    (v.inodeTable g + v.tableBlocks) * (v.blockSize / 512) ≤ 268435456

/-- Writing an inode is seen in it and in no other inode, and changes no byte
outside its record. -/
def RecordsIndependent (v : Volume) : Prop :=
  ∀ i j source, InodeInRange v.toGeometry i → InodeInRange v.toGeometry j →
    i ≠ j → ∃ w, writeInode v i source = .ok w ∧
      (∃ read, readInode w i = .ok read ∧ ∀ k < 128, read k = source k) ∧
      (∃ other, readInode v j = .ok other ∧ readInode w j = .ok other) ∧
      ∀ a, a < v.recordAddress i ∨ v.recordAddress i + 128 ≤ a →
        w.disk a = v.disk a

section

variable {v : Volume} {i j : ℕ}

/-- A block within the sectors that reach the drive. -/
theorem blockBase_of_le
    (v : Volume) {block : ℕ}
    (hblock : (block + 1) * (v.blockSize / 512) ≤ 268435456) :
    v.blockBase block = block * v.blockSize := by
  have hsectors := v.sectors_mul
  have hlarge := v.blockSize_ge
  have hcount : 2 ≤ v.blockSize / 512 := by omega
  have hmul : block * (v.blockSize / 512) < 268435456 := by
    rw [Nat.succ_mul] at hblock
    omega
  have hnumber : block < 4294967296 := by
    have hle := Nat.le_mul_of_pos_right block (show 0 < v.blockSize / 512 by
      omega)
    omega
  unfold Volume.blockBase sectorBase blockToLba partitionOffset
  rw [Nat.zero_add, u32_of_lt hnumber, u32_of_lt (by omega),
    Nat.mod_eq_of_lt hmul, Nat.mul_left_comm, hsectors]

theorem recordBlock_lt
    (v : Volume) {index : ℕ} (hindex : index < v.inodesPerGroup) :
    index * 128 / v.blockSize < v.tableBlocks := by
  have hpos := v.blockSize_pos
  obtain ⟨shift, -, hsize⟩ := v.blockSize_eq
  unfold Volume.tableBlocks
  rw [← Nat.succ_le_iff, Nat.le_div_iff_mul_le hpos, Nat.succ_mul]
  have hdiv := Nat.div_mul_le_self (index * 128) v.blockSize
  omega

theorem record_room (v : Volume) (index : ℕ) :
    index * 128 % v.blockSize + 128 ≤ v.blockSize := by
  obtain ⟨shift, -, hsize⟩ := v.blockSize_eq
  have hmod := Nat.mod_lt (index * 128) v.blockSize_pos
  have hdvd : 128 ∣ index * 128 % v.blockSize :=
    (Nat.dvd_mod_iff ⟨8 * 2 ^ shift, by rw [hsize]; ring⟩).2
      (Nat.dvd_mul_left _ _)
  omega

theorem InodeTables.located
    (h : InodeTables v) (hreach : TablesReachable v)
    (hrange : InodeInRange v.toGeometry i) :
    ∃ block, inodeToBlock v i = .ok block ∧ block ≠ 0 ∧
      v.blockBase block ≠ v.blockBase 2 ∧
      v.blockBase block + inodeOffset v i = v.recordAddress i := by
  obtain ⟨hlow, hhigh, hgroup⟩ := hrange
  have hsmall := hreach.blockSize_le
  have hlarge := v.blockSize_ge
  have hgroups := h.groups_lt
  have hindex : (i - 1) % v.inodesPerGroup < v.inodesPerGroup :=
    Nat.mod_lt _ v.inodesPerGroup_pos
  have hoffset := inodeOffset_eq v hlow hhigh
  have hmultiple : (i - 1) % v.inodesPerGroup * 128 < 4294967296 :=
    (Nat.mul_lt_mul_of_pos_right hindex (by omega)).trans_le hreach.offsets
  unfold Volume.recordAddress
  unfold inodeToBlock
  dsimp only
  rw [sub32_of_le hlow hhigh, h.inodeSize_eq, hoffset, h.inodeSize_eq]
  generalize (i - 1) / v.inodesPerGroup = g at *
  generalize (i - 1) % v.inodesPerGroup = index at *
  have hplace := recordBlock_lt v hindex
  have hsectors := hreach.sectors g hgroup
  have hrecord : (v.inodeTable g + index * 128 / v.blockSize + 1) *
      (v.blockSize / 512) ≤ 268435456 :=
    (Nat.mul_le_mul_right _ (by omega)).trans hsectors
  have hnumber : v.inodeTable g + index * 128 / v.blockSize < 4294967296 := by
    have hle := Nat.le_mul_of_pos_right
      (v.inodeTable g + index * 128 / v.blockSize + 1)
      (show 0 < v.blockSize / 512 by omega)
    omega
  have htable : (fetch v 2).get32 (u32 (g * 32) + 8) =
      .ok (v.inodeTable g) := by
    rw [u32_of_lt (by omega)]
    exact fetch_get32 v 2 hsmall (by omega)
  rw [htable]
  refine ⟨_, rfl, ?_⟩
  rw [u32_of_lt hmultiple, u32_of_lt hnumber, blockBase_of_le v hrecord,
    @blockBase_of_le v 2 (by omega)]
  have hdiv := Nat.div_add_mod' (index * 128) v.blockSize
  refine ⟨?_, fun hsame => ?_, ?_⟩
  · exact Nat.ne_of_gt
      (Nat.add_pos_left (Nat.pos_of_ne_zero (h.nonzero g hgroup)) _)
  · exact h.descriptors g hgroup _ hplace
      (Nat.eq_of_mul_eq_mul_right v.blockSize_pos hsame)
  · rw [Nat.add_mul, Nat.add_assoc, hdiv]

theorem TablesReachable.record_inTable
    (hreach : TablesReachable v) (hrange : InodeInRange v.toGeometry i) :
    ∃ g < v.groupCount, ∃ k < v.tableBlocks, ∀ offset < 128,
      InBlock v (v.inodeTable g + k) (v.recordAddress i + offset) := by
  obtain ⟨-, -, hgroup⟩ := hrange
  have hindex : (i - 1) % v.inodesPerGroup < v.inodesPerGroup :=
    Nat.mod_lt _ v.inodesPerGroup_pos
  have hplace := recordBlock_lt v hindex
  refine ⟨_, hgroup, _, hplace, fun offset hoffset => ?_⟩
  have hsectors := hreach.sectors _ hgroup
  have hbase := @blockBase_of_le v _
    ((Nat.mul_le_mul_right _ (Nat.succ_le_of_lt
      (Nat.add_lt_add_left hplace _))).trans hsectors)
  have hroom := record_room v ((i - 1) % v.inodesPerGroup)
  have hdiv := Nat.div_add_mod' ((i - 1) % v.inodesPerGroup * 128) v.blockSize
  unfold InBlock Volume.recordAddress
  rw [hbase, Nat.add_mul]
  omega

theorem InodeTables.records_apart
    (h : InodeTables v)
    (hi : InodeInRange v.toGeometry i) (hj : InodeInRange v.toGeometry j)
    (hne : i ≠ j) :
    v.recordAddress i + 128 ≤ v.recordAddress j ∨
      v.recordAddress j + 128 ≤ v.recordAddress i := by
  obtain ⟨hlowi, -, hgroupi⟩ := hi
  obtain ⟨hlowj, -, hgroupj⟩ := hj
  have hindexi : (i - 1) % v.inodesPerGroup < v.inodesPerGroup :=
    Nat.mod_lt _ v.inodesPerGroup_pos
  have hindexj : (j - 1) % v.inodesPerGroup < v.inodesPerGroup :=
    Nat.mod_lt _ v.inodesPerGroup_pos
  have hspliti := Nat.div_add_mod (i - 1) v.inodesPerGroup
  have hsplitj := Nat.div_add_mod (j - 1) v.inodesPerGroup
  unfold Volume.recordAddress
  by_cases hgroup : (i - 1) / v.inodesPerGroup = (j - 1) / v.inodesPerGroup
  · rw [hgroup] at hspliti ⊢
    omega
  · have hblocki := recordBlock_lt v hindexi
    have hblockj := recordBlock_lt v hindexj
    have hapart := h.apart _ hgroupi _ hgroupj hgroup
    generalize (i - 1) / v.inodesPerGroup = g at *
    generalize (j - 1) / v.inodesPerGroup = g' at *
    generalize (i - 1) % v.inodesPerGroup = index at *
    generalize (j - 1) % v.inodesPerGroup = index' at *
    -- Each record lies in one block, and the blocks differ.
    have hdivi := Nat.div_add_mod' (index * 128) v.blockSize
    have hdivj := Nat.div_add_mod' (index' * 128) v.blockSize
    have hroomi := record_room v index
    have hroomj := record_room v index'
    have hblocks : v.inodeTable g + index * 128 / v.blockSize ≠
        v.inodeTable g' + index' * 128 / v.blockSize :=
      hapart _ hblocki _ hblockj
    have hplacei : v.inodeTable g * v.blockSize + index * 128 =
        (v.inodeTable g + index * 128 / v.blockSize) * v.blockSize +
          index * 128 % v.blockSize := by
      rw [Nat.add_mul]
      omega
    have hplacej : v.inodeTable g' * v.blockSize + index' * 128 =
        (v.inodeTable g' + index' * 128 / v.blockSize) * v.blockSize +
          index' * 128 % v.blockSize := by
      rw [Nat.add_mul]
      omega
    rw [hplacei, hplacej]
    rcases Nat.lt_or_gt_of_ne hblocks with hless | hless
    · have hmul := Nat.mul_le_mul_right v.blockSize hless
      rw [Nat.succ_mul] at hmul
      omega
    · have hmul := Nat.mul_le_mul_right v.blockSize hless
      rw [Nat.succ_mul] at hmul
      omega

/-- `write_inode` overwrites the record and nothing else. -/
theorem writeInode_withDisk
    {block : ℕ} (source : Inode)
    (hsize : v.blockSize ≤ 131072)
    (hinode : v.inodeSize = 128)
    (hlocated : inodeToBlock v i = .ok block)
    (hblock : block ≠ 0) :
    writeInode v i source = .ok (v.withDisk
      (v.disk.blit (v.blockBase block + inodeOffset v i) source 128)) := by
  have hroom := inodeOffset_le v i hinode
  rw [writeInode_eq source hinode hlocated hblock]
  suffices h : (writeBlock v block
      ((fetch v block).bytes.blit (inodeOffset v i) source 128)).disk =
        v.disk.blit (v.blockBase block + inodeOffset v i) source 128 from
    congrArg (fun disk => Except.ok (v.withDisk disk)) h
  funext a
  by_cases hinside : InBlock v block a
  · obtain ⟨hlow, hhigh⟩ := hinside
    obtain ⟨k, rfl⟩ := Nat.exists_eq_add_of_le hlow
    have hk : k < v.blockSize := by omega
    rw [writeBlock_inside v _ hsize hk]
    by_cases hrecord : inodeOffset v i ≤ k ∧ k < inodeOffset v i + 128
    · rw [blit_inside _ _ hrecord.1 hrecord.2,
        blit_inside _ _ (by omega) (by omega)]
      congr 1
      omega
    · rw [blit_outside _ _ (by omega), blit_outside _ _ (by omega),
        fetch_apply v block hsize hk]
  · rw [writeBlock_outside v _ hsize hinside]
    unfold InBlock at hinside
    rw [blit_outside _ _ (by omega)]

/-- The bytes that `read_inode` delivers are those of the record. -/
theorem storedInode_apply
    {block k : ℕ} (hk : k < 128) :
    storedInode v i block k =
      v.disk (v.blockBase block + inodeOffset v i + k) := by
  unfold storedInode
  rw [blit_inside _ _ (Nat.zero_le k) (by omega)]
  rfl

theorem inodeRecords_independent
    (h : InodeTables v) (hreach : TablesReachable v) :
    RecordsIndependent v := by
  intro i j source hi hj hne
  have hsize := hreach.blockSize_le
  have hinode := h.inodeSize_eq
  obtain ⟨block, hlocated, hblock, htable, haddress⟩ := h.located hreach hi
  obtain ⟨other, hlocated', hother, -, haddress'⟩ := h.located hreach hj
  have hroom := inodeOffset_le v i hinode
  have hapart := h.records_apart hi hj hne
  have hwritten := writeInode_withDisk source hsize hinode hlocated hblock
  have hkept : SameBlock v
      (v.disk.blit (v.blockBase block + inodeOffset v i) source 128) 2 :=
    sameBlock_of_apart (fun k hk => blit_outside _ _ (by
      unfold InBlock at hk
      omega)) htable.symm
  rw [haddress] at hwritten hkept
  generalize hdisk : v.disk.blit (v.recordAddress i) source 128 = disk at *
  have hown := @readInode_eq (v.withDisk disk) i block hsize hinode
    ((inodeToBlock_withDisk hkept i).trans hlocated) hblock
  have hold := @readInode_eq v j other hsize hinode hlocated' hother
  have hnew := @readInode_eq (v.withDisk disk) j other hsize hinode
    ((inodeToBlock_withDisk hkept j).trans hlocated') hother
  have hsame : storedInode (v.withDisk disk) j other =
      storedInode v j other := by
    refine blit_congr _ fun k hk => ?_
    have hplace : (v.withDisk disk).blockBase other +
        inodeOffset (v.withDisk disk) j = v.recordAddress j := haddress'
    simp only [drop_apply]
    rw [hplace, haddress', v.withDisk_disk, ← hdisk]
    exact blit_outside _ _ (by omega)
  refine ⟨_, hwritten, ⟨_, hown, ?_⟩, ⟨_, hold, hsame ▸ hnew⟩, ?_⟩
  · intro k hk
    have hplace : (v.withDisk disk).blockBase block +
        inodeOffset (v.withDisk disk) i = v.recordAddress i := haddress
    rw [storedInode_apply hk, hplace, v.withDisk_disk, ← hdisk]
    exact blit_add _ _ _ hk
  · intro a ha
    rw [v.withDisk_disk, ← hdisk]
    exact blit_outside _ _ ha

/-- Sixteen inodes in two tables. -/
theorem inodeRecords_independent_pairedGroups :
    ∃ v, initExt3 pairedGroups (fun _ => 0) = .ok (some v) ∧
      InodeInRange v.toGeometry 8 ∧ InodeInRange v.toGeometry 9 ∧
      RecordsIndependent v := by
  have hmount : (initExt3 pairedGroups (fun _ => 0)).satisfies (fun found =>
      found.any fun v => decide (v.blockSize = 1024 ∧ v.inodesPerGroup = 8 ∧
        v.groupCount = 2 ∧ v.inodeSize = 128 ∧ v.inodeTable 0 = 6 ∧
        v.inodeTable 1 = 9)) = true := by
    decide +kernel
  obtain ⟨v, hinit, htest⟩ := Outcome.exists_some_of_satisfies hmount
  obtain ⟨hsize, hinodes, hgroups, hinode, hfirst, hsecond⟩ :=
    of_decide_eq_true htest
  have hblocks : v.tableBlocks = 1 := by
    unfold Volume.tableBlocks
    rw [hsize, hinodes]
  have hcases : ∀ g < v.groupCount, g = 0 ∧ v.inodeTable g = 6 ∨
      g = 1 ∧ v.inodeTable g = 9 := by
    intro g hg
    obtain rfl | rfl : g = 0 ∨ g = 1 := by omega
    · exact .inl ⟨rfl, hfirst⟩
    · exact .inr ⟨rfl, hsecond⟩
  refine ⟨v, hinit, ⟨by norm_num, by norm_num, by rw [hinodes, hgroups]; norm_num⟩,
    ⟨by norm_num, by norm_num, by rw [hinodes, hgroups]; norm_num⟩,
    inodeRecords_independent {
      inodeSize_eq := hinode
      groups_lt := by omega
      nonzero := fun g hg => by
        have hcase := hcases g hg
        omega
      apart := fun g hg g' hg' hne k hk k' hk' => by
        have hcase := hcases g hg
        have hcase' := hcases g' hg'
        omega
      descriptors := fun g hg k _ => by
        have hcase := hcases g hg
        omega }
      ⟨by omega, by omega, fun g hg => ?_⟩⟩
  have hcase := hcases g hg
  rw [hblocks, hsize]
  omega

end

/-! ## Small volumes -/

/-- A superblock with one group of 8192 blocks of `1024 * 2 ^ shift` bytes, and the
inode table of its descriptor. -/
def oneTable (shift inodes table : ℕ) : ByteStore :=
  ofWords [(1028, 8192), (1044, 1), (1048, shift), (1056, 8192),
    (1064, inodes), (1080, 0xEF53), (1112, 128),
    (2 * (1024 * 2 ^ shift) + 8, table)]

theorem inodeTables_of_oneGroup
    {v : Volume} {table : ℕ}
    (h : v.inodeSize = 128 ∧ v.groupCount = 1 ∧ v.inodeTable 0 = table)
    (htable : 2 < table) :
    InodeTables v := by
  obtain ⟨hinode, hgroups, hfirst⟩ := h
  have hlarge := v.blockSize_ge
  have hgroup : ∀ g < v.groupCount, g = 0 := by omega
  refine ⟨hinode, by omega, fun g hg => ?_, fun g hg g' hg' hne => ?_,
    fun g hg k _ => ?_⟩
  · rw [hgroup g hg]
    omega
  · exact absurd ((hgroup g hg).trans (hgroup g' hg').symm) hne
  · rw [hgroup g hg]
    omega

/-- In blocks of 256 KiB the record of inode 1025 is not moved, with 2^25 + 1
inodes to a group the first and the last share a record, and block
134217730 of 1 KiB is block 2 on the drive. -/
theorem inodeRecords_shared :
    (∃ v, initExt3 (oneTable 8 1040 5) (fun _ => 0) = .ok (some v) ∧
      InodeTables v ∧ ¬RecordsIndependent v) ∧
    (∃ v, initExt3 (oneTable 0 33554433 5) (fun _ => 0) = .ok (some v) ∧
      InodeTables v ∧ ¬RecordsIndependent v) ∧
    ∃ v, initExt3 (oneTable 0 16 134217730) (fun _ => 0) = .ok (some v) ∧
      InodeTables v ∧ ¬RecordsIndependent v := by
  refine ⟨?_, ?_, ?_⟩
  · have hmount : (initExt3 (oneTable 8 1040 5) (fun _ => 0)).satisfies
        (fun found => found.any fun v => decide ((v.inodeSize = 128 ∧
          v.groupCount = 1 ∧ v.inodeTable 0 = 5) ∧ v.inodesPerGroup = 1040 ∧
          (writeInode v 1025 (fun _ => 1)).satisfies fun w =>
            (readInode w 1025).satisfies fun read => read 0 = 0)) = true := by
      decide +kernel
    obtain ⟨v, hinit, htest⟩ := Outcome.exists_some_of_satisfies hmount
    obtain ⟨htables, hinodes, hcalls⟩ := of_decide_eq_true htest
    obtain ⟨w, hwrite, hcalls⟩ := Outcome.exists_of_satisfies hcalls
    obtain ⟨read, hread, hzero⟩ := Outcome.exists_of_satisfies hcalls
    refine ⟨v, hinit, inodeTables_of_oneGroup htables (by norm_num),
      fun hright => ?_⟩
    obtain ⟨next, hnext, ⟨other, hother, hsame⟩, -⟩ :=
      hright 1025 1 (fun _ => 1)
        ⟨by norm_num, by norm_num, by rw [hinodes, htables.2.1]; norm_num⟩
        ⟨by norm_num, by norm_num, by rw [hinodes, htables.2.1]; norm_num⟩
        (by norm_num)
    cases hwrite.symm.trans hnext
    cases hread.symm.trans hother
    exact absurd ((hsame 0 (by norm_num)).symm.trans (of_decide_eq_true hzero))
      (by decide)
  · have hmount : (initExt3 (oneTable 0 33554433 5) (fun _ => 0)).satisfies
        (fun found => found.any fun v => decide ((v.inodeSize = 128 ∧
          v.groupCount = 1 ∧ v.inodeTable 0 = 5) ∧
          v.inodesPerGroup = 33554433 ∧
          (readInode v 33554433).satisfies (fun read => read 0 = 0) ∧
          (writeInode v 1 (fun _ => 1)).satisfies fun w =>
            (readInode w 33554433).satisfies
              fun read => read 0 = 1)) = true := by
      decide +kernel
    obtain ⟨v, hinit, htest⟩ := Outcome.exists_some_of_satisfies hmount
    obtain ⟨htables, hinodes, hbefore, hcalls⟩ := of_decide_eq_true htest
    obtain ⟨old, hold, hzero⟩ := Outcome.exists_of_satisfies hbefore
    obtain ⟨w, hwrite, hcalls⟩ := Outcome.exists_of_satisfies hcalls
    obtain ⟨read, hread, hone⟩ := Outcome.exists_of_satisfies hcalls
    refine ⟨v, hinit, inodeTables_of_oneGroup htables (by norm_num),
      fun hright => ?_⟩
    obtain ⟨next, hnext, -, ⟨other, hother, hsame⟩, -⟩ :=
      hright 1 33554433 (fun _ => 1)
        ⟨by norm_num, by norm_num, by rw [hinodes, htables.2.1]; norm_num⟩
        ⟨by norm_num, by norm_num, by rw [hinodes, htables.2.1]; norm_num⟩
        (by norm_num)
    cases hwrite.symm.trans hnext
    cases hold.symm.trans hother
    cases hread.symm.trans hsame
    exact absurd ((of_decide_eq_true hzero).symm.trans
      (of_decide_eq_true hone)) (by decide)
  · have hmount : (initExt3 (oneTable 0 16 134217730) (fun _ => 0)).satisfies
        (fun found => found.any fun v => decide ((v.inodeSize = 128 ∧
          v.groupCount = 1 ∧ v.inodeTable 0 = 134217730) ∧
          v.inodesPerGroup = 16 ∧ v.blockSize = 1024 ∧ v.disk 2048 = 0 ∧
          (writeInode v 1 (fun _ => 1)).satisfies
            fun w => w.disk 2048 = 1)) = true := by
      decide +kernel
    obtain ⟨v, hinit, htest⟩ := Outcome.exists_some_of_satisfies hmount
    obtain ⟨htables, hinodes, hsize, hzero, hcalls⟩ := of_decide_eq_true htest
    obtain ⟨w, hwrite, hone⟩ := Outcome.exists_of_satisfies hcalls
    refine ⟨v, hinit, inodeTables_of_oneGroup htables (by norm_num),
      fun hright => ?_⟩
    obtain ⟨next, hnext, -, -, hkept⟩ := hright 1 2 (fun _ => 1)
      ⟨by norm_num, by norm_num, by rw [hinodes, htables.2.1]; norm_num⟩
      ⟨by norm_num, by norm_num, by rw [hinodes, htables.2.1]; norm_num⟩
      (by norm_num)
    cases hwrite.symm.trans hnext
    have hunchanged := hkept 2048 (.inl (by
      unfold Volume.recordAddress
      rw [hinodes, Nat.sub_self, Nat.zero_div, htables.2.2, hsize]
      norm_num))
    exact absurd ((hzero.symm.trans hunchanged.symm).trans
      (of_decide_eq_true hone)) (by decide)

end ClOs.Ext3
