import ClOs.Ext3Creation
import ClOs.Ext3Prepared

/-!
# Entries that are added

Where the blocks of a directory are its own and no free block is one of them, an
entry that `create_dir_entry` adds is found again, and so is every entry that was
there before.  The directory is then one to which the next entry can be added.
-/

namespace ClOs.Ext3

open ByteStore

/-- No block of a directory is free or one of the file system itself. -/
structure Owned (v : Volume) (inode : Inode) : Prop where
  system : ∀ block ∈ inode.directBlocks, ∀ other, SystemBlock v other →
    v.blockBase block ≠ v.blockBase other
  taken : ∀ block ∈ inode.directBlocks, ∀ free, FreeBlock v v.disk free →
    v.blockBase free ≠ v.blockBase block

section

variable {v w : Volume} {d table index b block number type : ℕ}
  {inode next : Inode} {offsets : List ℕ} {last : ℕ} {name : CString}
  {disk moved bytes : ByteStore}

/-! ## The record and the blocks of the directory -/

theorem Owned.record_outside
    (howned : Owned v inode) (h : Prepared v d) (hblock : block ∈ inode.directBlocks)
    {offset : ℕ} (hoffset : offset < 128) :
    ¬InBlock v block (v.recordAddress d + offset) := by
  obtain ⟨g, hg, k, hk, hplace⟩ := h.reach.record_inTable h.parent_mem
  intro hinside
  exact howned.system block hblock _ (.table g hg k hk)
    (hinside.same_base (hplace offset hoffset))

theorem Prepared.storedInode_eq
    (h : Prepared v d) (hlocated : inodeToBlock v d = .ok table) (htable : table ≠ 0)
    (hsame : SameBlock v moved 2) :
    storedInode (v.withDisk moved) d table =
      v.garbage.blit 0 (moved.drop (v.recordAddress d)) 128 := by
  have hrecord := h.readRecord h.parent_mem hsame
  have hread := @readInode_eq (v.withDisk moved) d table h.bitmaps.blockSize_le
    h.tables.inodeSize_eq ((inodeToBlock_withDisk hsame d).trans hlocated) htable
  exact Except.ok.inj (hread.symm.trans hrecord)

/-- The record of the directory lies in the block that its number leads to. -/
theorem Prepared.record_inBlock
    (h : Prepared v d) (hlocated : inodeToBlock v d = .ok table) :
    InBlock v table (v.recordAddress d) := by
  obtain ⟨block, hlocated', -, -, haddress⟩ :=
    h.tables.located h.reach h.parent_mem
  have hsame : table = block := Except.ok.inj (hlocated.symm.trans hlocated')
  have hroom := inodeOffset_le v d h.tables.inodeSize_eq
  unfold InBlock
  rw [hsame]
  omega

/-- What has been written holds when the record of the directory is written too. -/
theorem Prepared.placed
    (h : Prepared v d) (hheld : Held v d disk)
    (hlocated : inodeToBlock v d = .ok table) (htable : table ≠ 0)
    (howned : Owned v inode) (hdescriptor : SameBlock v moved 2)
    (hothers : ∀ j block, inode.directBlocks[j]? = some block → j ≠ index →
      SameBlock (v.withDisk disk) moved block)
    (hbytes : ∀ k < v.blockSize,
      moved (v.blockBase b + k) = bytes (index * v.blockSize + k))
    (hapart : ∀ offset < 128, ¬InBlock v b (v.recordAddress d + offset))
    (hrest : ∀ k, 128 ≤ k → next k = v.garbage k) :
    Placed (v.withDisk disk) (moved.blit (v.recordAddress d) next 128) d table index
      b inode next bytes := by
  have hrecorded := h.descriptor_record hdescriptor h.parent_mem next
  refine ⟨fun k hk => ?_, ?_, ?_, ?_⟩
  · exact (hrecorded k hk).trans (hheld.descriptor h.parent_mem k hk).symm
  · refine (h.storedInode_eq hlocated htable hrecorded).trans ?_
    funext k
    rcases Nat.lt_or_ge k 128 with hk | hk
    · rw [blit_inside _ _ (Nat.zero_le k) (by omega), Nat.sub_zero, drop_apply]
      exact blit_add _ _ _ hk
    · rw [blit_outside _ _ (by omega), hrest k hk]
  · intro j block hblock hj
    refine sameBlock_of_change (hothers j block hblock hj) fun k hk hinside => ?_
    obtain ⟨offset, hoffset, rfl⟩ := offset_of_blit hk
    exact howned.record_outside h (List.mem_of_getElem? hblock) hoffset hinside
  · intro k hk
    refine Eq.trans ?_ (hbytes k hk)
    by_contra hne
    obtain ⟨offset, hoffset, hplace⟩ := offset_of_blit hne
    refine hapart offset hoffset ?_
    have hinside : InBlock v b (v.blockBase b + k) := by
      have hlimit : k < v.blockSize := hk
      unfold InBlock
      omega
    exact hplace ▸ hinside

/-! ## The inode that grows -/

theorem Stands.rest
    (h : Stands v d table inode offsets last) {k : ℕ} (hk : 128 ≤ k) :
    inode k = v.garbage k := by
  rw [← h.stored]
  exact storedInode_rest v d table hk

theorem setSize_rest {size k : ℕ} (hk : 128 ≤ k) :
    inode.setSize size k = inode k := put32_outside _ (by omega)

theorem setBlock_rest {slot k blocks : ℕ} (hslot : slot < 12) (hk : 128 ≤ k) :
    ((inode.setBlock slot b).setBlocks blocks) k = inode k := by
  unfold Inode.setBlocks Inode.setBlock
  rw [put32_outside _ (by omega), put32_outside _ (by omega)]

theorem Prepared.free_apart
    (h : Prepared v d) (hlocated : inodeToBlock v d = .ok table)
    (howned : Owned v inode) (hfree : FreeBlock v v.disk b) :
    ∀ block ∈ directoryBlocks table inode, v.blockBase b ≠ v.blockBase block := by
  have hgroups : 0 < v.groupCount := Nat.zero_lt_of_lt h.parent_mem.2.2
  have hpos := v.blockSize_pos
  intro block hblock
  rcases List.mem_cons.1 hblock with rfl | hblock
  · rw [← descriptorBlock_zero]
    exact h.marked _ (.descriptor 0 hgroups) b hfree
  rcases List.mem_cons.1 hblock with rfl | hblock
  · have hrecord := h.record_inBlock hlocated
    have hnot := @Prepared.record_not_free v d d b h h.parent_mem 0 (by omega) hfree
    intro hbase
    refine hnot ?_
    unfold InBlock at hrecord ⊢
    rw [hbase]
    simpa using hrecord
  · exact howned.taken block hblock b hfree

/-! ## The call -/

/-- Taking a block and filling it leaves the blocks of the directory alone. -/
theorem Owned.sameBlock_taken
    (howned : Owned v inode) (h : Prepared v d)
    (hgroup : b / v.blocksPerGroup < v.groupCount) (hfree : FreeBlock v v.disk b)
    (mapped : Inode) (hblock : block ∈ inode.directBlocks) :
    SameBlock (v.withDisk disk) (writeBlock (v.withDisk ((disk.setBit
      ((Resource.block b).bitAddress v)).blit (v.recordAddress d) mapped 128)) b
        bytes).disk block := by
  have hindex := (Resource.block b).index_lt h.bitmaps
  have hmarked : SameBlock (v.withDisk disk)
      (disk.setBit ((Resource.block b).bitAddress v)) block := by
    refine sameBlock_of_change (fun _ _ => rfl) fun k hk hinside => ?_
    exact howned.system block hblock _ (.bitmap _ hgroup 0 (by simp))
      (@InBlock.same_base v _ _ _ hinside (byte_of_setBit hindex hk))
  have hlinked : SameBlock (v.withDisk disk) ((disk.setBit
      ((Resource.block b).bitAddress v)).blit (v.recordAddress d) mapped 128)
        block := by
    refine sameBlock_of_change hmarked fun k hk hinside => ?_
    obtain ⟨offset, hoffset, rfl⟩ := offset_of_blit hk
    exact howned.record_outside h hblock hoffset hinside
  refine sameBlock_of_change hlinked fun k hk hinside => ?_
  exact howned.taken block hblock b hfree (@InBlock.same_base v _ _ _
    (block_of_write h.bitmaps.blockSize_le hk) hinside)

/-- The directory with the entry in a block that has been taken for it. -/
theorem Prepared.newBlock_stands
    {mapped : Inode} {filled : Buffer} {taken linked : Volume}
    (h : Prepared v d) (hheld : Held v d disk)
    (hstands : Stands (v.withDisk disk) d table inode offsets last)
    (howned : Owned v inode) (hname : IsName name)
    (hfits : Fits (v.withDisk disk) inode last number name)
    (hlocated : inodeToBlock v d = .ok table)
    (hentry : ∀ k < (inode.size / v.blockSize + 1) * v.blockSize,
      filled.bytes k = withEntry (dirBytes (v.withDisk disk) inode) last number
        (recordLength name) type name k)
    (hneeds : inode.block (inode.size / v.blockSize) = 0)
    (hfind : findFreeBlock (v.withDisk disk) = .ok (b, taken)) (hzero : b ≠ 0)
    (hmapped : mapped = ((inode.setSize (u32 (inode.size +
      recordLength name))).setBlock (inode.size / (v.withDisk disk).blockSize)
        b).setBlocks (u32 (inode.blocks + (v.withDisk disk).blockSize / 512)))
    (hlink : writeInode taken d mapped = .ok linked)
    (hlast : writeInode (writeBlock linked b (filled.bytes.drop
      (inode.size / v.blockSize * v.blockSize))) d mapped = .ok w) :
    ∃ final next, w = v.withDisk final ∧
      Stands (v.withDisk final) d table next (offsets ++ [last])
        (last + recordLength name) ∧
      dirBytes (v.withDisk final) next =
        withEntry (dirBytes (v.withDisk disk) inode) last number
          (recordLength name) type name := by
  have hsmall := h.bitmaps.blockSize_le
  have hrange := h.parent_mem
  have hdirect : inode.size / v.blockSize < 12 := hfits.direct
  obtain ⟨found, after, hfind', hcases⟩ :=
    findFreeBlock_sets h.bitmaps h.blocks_lt hheld.descriptors
  rw [hfind] at hfind'
  cases hfind'
  rcases hcases with ⟨rfl, -⟩ | ⟨hgroup, hclear, rfl⟩
  · exact absurd rfl hzero
  have hfree : FreeBlock v v.disk b := hheld.was_free ⟨hgroup, hclear⟩
  have hset : Held v d (disk.setBit ((Resource.block b).bitAddress v)) :=
    hheld.setBit h hgroup (Resource.block b).field_mem
      ((Resource.block b).index_lt h.bitmaps)
  have hnumber : b < 4294967296 := by
    have hlt : b < v.groupCount * v.blocksPerGroup :=
      (Nat.div_lt_iff_lt_mul v.blocksPerGroup_pos).1 hgroup
    exact hlt.trans h.blocks_lt
  obtain ⟨hgrown, hblocks⟩ := @Stands.grown_new (v.withDisk disk) d table inode
    offsets last name hstands hname hdirect hneeds b
    (u32 (inode.blocks + (v.withDisk disk).blockSize / 512)) hzero hnumber
  have hrest : ∀ k, 128 ≤ k → mapped k = v.garbage k := by
    intro k hk
    rw [hmapped, setBlock_rest hfits.direct hk, setSize_rest hk]
    exact hstands.rest hk
  rw [← hmapped] at hgrown hblocks
  rw [h.writeRecord hrange (hset.descriptor hrange)] at hlink
  cases hlink
  have hlinked := h.descriptor_record (hset.descriptor hrange) hrange mapped
  have hwritten := h.descriptor_fill hlinked hrange hfree
    (filled.bytes.drop (inode.size / v.blockSize * v.blockSize))
  rw [writeBlock_withDisk, h.writeRecord hrange hwritten] at hlast
  cases hlast
  have hplaced := @Prepared.placed v d table (inode.size / v.blockSize) b
    inode mapped disk _ filled.bytes h hheld hlocated hstands.table_ne howned
    hwritten (fun j block hblock _ => howned.sameBlock_taken h hgroup hfree mapped
      (List.mem_of_getElem? hblock))
    (fun k hk => writeBlock_inside _ _ hsmall hk)
    (fun offset hoffset => h.record_not_free hrange hoffset hfree) hrest
  have hapart : ((directoryBlocks table mapped).map v.blockBase).Nodup := by
    have hlonger : directoryBlocks table mapped =
        directoryBlocks table inode ++ [b] := by
      unfold directoryBlocks
      rw [hblocks]
      rfl
    rw [hlonger, List.map_append]
    refine List.nodup_append.2 ⟨hstands.apart, by simp, ?_⟩
    intro base hbase other hother
    obtain ⟨block, hblock, rfl⟩ := List.mem_map.1 hbase
    rw [List.map_singleton, List.mem_singleton] at hother
    rw [hother]
    exact (h.free_apart hlocated howned hfree block hblock).symm
  obtain ⟨hagain, hfinal⟩ :=
    hstands.addEntry hname hfits hplaced hgrown hapart hentry
  exact ⟨_, mapped, rfl, hagain, hfinal⟩

/-- The directory with the entry in the block that it ends in. -/
theorem Prepared.oldBlock_stands
    {filled : Buffer}
    (h : Prepared v d) (hheld : Held v d disk)
    (hstands : Stands (v.withDisk disk) d table inode offsets last)
    (howned : Owned v inode) (hname : IsName name)
    (hfits : Fits (v.withDisk disk) inode last number name)
    (hlocated : inodeToBlock v d = .ok table)
    (hentry : ∀ k < (inode.size / v.blockSize + 1) * v.blockSize,
      filled.bytes k = withEntry (dirBytes (v.withDisk disk) inode) last number
        (recordLength name) type name k)
    (hblock : inode.block (inode.size / v.blockSize) ≠ 0)
    (hlast : writeInode (writeBlock (v.withDisk disk)
      (inode.block (inode.size / v.blockSize)) (filled.bytes.drop
        (inode.size / v.blockSize * v.blockSize))) d
          (inode.setSize (u32 (inode.size + recordLength name))) = .ok w) :
    ∃ final next, w = v.withDisk final ∧
      Stands (v.withDisk final) d table next (offsets ++ [last])
        (last + recordLength name) ∧
      dirBytes (v.withDisk final) next =
        withEntry (dirBytes (v.withDisk disk) inode) last number
          (recordLength name) type name := by
  have hsmall := h.bitmaps.blockSize_le
  have hrange := h.parent_mem
  have hdirect : inode.size / v.blockSize < 12 := hfits.direct
  obtain ⟨hindexed, -⟩ := hstands.block_existing hdirect hblock
  have hmem := List.mem_of_getElem? hindexed
  have hgroups : 0 < v.groupCount := Nat.zero_lt_of_lt hrange.2.2
  have hwritten : SameBlock v (writeBlock (v.withDisk disk) (inode.block
      (inode.size / v.blockSize)) (filled.bytes.drop (inode.size /
        v.blockSize * v.blockSize))).disk 2 := by
    refine sameBlock_of_change (hheld.descriptor hrange) fun k hk hinside => ?_
    rw [← descriptorBlock_zero] at hinside
    exact howned.system _ hmem _ (.descriptor 0 hgroups)
      ((block_of_write hsmall hk).same_base hinside)
  rw [writeBlock_withDisk, h.writeRecord hrange hwritten] at hlast
  cases hlast
  have hrest : ∀ k, 128 ≤ k → inode.setSize (u32 (inode.size +
      recordLength name)) k = v.garbage k := by
    intro k hk
    rw [setSize_rest hk]
    exact hstands.rest hk
  have hplaced := @Prepared.placed v d table (inode.size / v.blockSize)
    (inode.block (inode.size / v.blockSize)) inode _ disk _ filled.bytes h hheld
    hlocated hstands.table_ne howned hwritten
    (fun j block hother hj => sameBlock_writeBlock _ hsmall
      (hstands.block_ne hother hindexed hj))
    (fun k hk => writeBlock_inside _ _ hsmall hk)
    (fun offset hoffset => howned.record_outside h hmem hoffset) hrest
  have hapart : ((directoryBlocks table (inode.setSize (u32 (inode.size +
      recordLength name)))).map v.blockBase).Nodup := by
    have hblocks : directoryBlocks table (inode.setSize (u32 (inode.size +
        recordLength name))) = directoryBlocks table inode := by
      unfold directoryBlocks
      rw [directBlocks_congr fun k _ => inode.block_setSize k _]
    rw [hblocks]
    exact hstands.apart
  obtain ⟨hagain, hfinal⟩ := hstands.addEntry hname hfits hplaced
    (hstands.grown_existing hname hdirect hblock) hapart hentry
  exact ⟨_, _, rfl, hagain, hfinal⟩

/-- After an entry has been added the directory stands again. -/
theorem createDirEntry_stands
    (h : Prepared v d) (hheld : Held v d disk)
    (hstands : Stands (v.withDisk disk) d table inode offsets last)
    (howned : Owned v inode) (hname : IsName name)
    (hfits : Fits (v.withDisk disk) inode last number name)
    (hcreate : createDirEntry (v.withDisk disk) d name number type = .ok (true, w)) :
    ∃ final next, w = v.withDisk final ∧
      Stands (v.withDisk final) d table next (offsets ++ [last])
        (last + recordLength name) ∧
      dirBytes (v.withDisk final) next =
        withEntry (dirBytes (v.withDisk disk) inode) last number
          (recordLength name) type name := by
  have hlocated : inodeToBlock v d = .ok table :=
    (inodeToBlock_withDisk (hheld.descriptor h.parent_mem) d).symm.trans
      hstands.located
  have hsucc : (inode.size / v.blockSize + 2) * v.blockSize =
      (inode.size / v.blockSize + 1) * v.blockSize + v.blockSize :=
    Nat.succ_mul _ _
  cases createDirEntry_returns hcreate with
  | newBlock hfilled hneeds hfind hblock hmapped hlink hslice hlast =>
      obtain ⟨rfl, hsize, hbytes⟩ := hstands.filled hname.length_le hfilled
      have hroom : _ = (_ / v.blockSize + 2) * v.blockSize := hsize
      obtain ⟨-, rfl⟩ := Buffer.slice_eq_ok.1 hslice
      exact h.newBlock_stands hheld hstands howned hname hfits hlocated
        (fun k hk => hbytes k (by omega)) hneeds.2 hfind hblock hmapped hlink
        hlast
  | oldBlock hfilled hneeds hslot hslice hlast =>
      obtain ⟨rfl, hsize, hbytes⟩ := hstands.filled hname.length_le hfilled
      have hroom : _ = (_ / v.blockSize + 2) * v.blockSize := hsize
      have hslotted := hfits.direct
      have hslot' : blockSlot _ _ = .ok _ := hslot
      unfold blockSlot Inode.sizeOf at hslot'
      rw [if_pos (by omega)] at hslot'
      cases hslot'
      obtain ⟨-, rfl⟩ := Buffer.slice_eq_ok.1 hslice
      exact h.oldBlock_stands hheld hstands howned hname hfits hlocated
        (fun k hk => hbytes k (by omega))
        (fun hzero => hneeds ⟨hfits.direct, hzero⟩) hlast

/-- The new entry is found behind a change that leaves the directory alone. -/
theorem createDirEntry_finds
    (h : Prepared v d) (hheld : Held v d disk)
    (hstands : Stands (v.withDisk disk) d table inode offsets last)
    (howned : Owned v inode) (hname : IsName name)
    (hfits : Fits (v.withDisk disk) inode last number name)
    (habsent : findDirEntry (v.withDisk disk) d name = .ok none)
    (hcreate : createDirEntry (v.withDisk disk) d name number type = .ok (true, w)) :
    findDirEntry w d name = .ok (some number) ∧
      (∀ other ≠ name,
        findDirEntry w d other = findDirEntry (v.withDisk disk) d other) ∧
      ∃ next, Stands w d table next (offsets ++ [last])
        (last + recordLength name) := by
  obtain ⟨final, next, rfl, hagain, hbytes⟩ :=
    createDirEntry_stands h hheld hstands howned hname hfits hcreate
  obtain ⟨hfound, hothers⟩ := @findDirEntry_added (v.withDisk disk)
    (v.withDisk final) d inode next offsets last number type name
    hstands.blockSize_le hstands.read hstands.toDirectory rfl hagain.read
    hagain.toDirectory hname hfits.number_lt hbytes habsent
  exact ⟨hfound, hothers, next, hagain⟩

/-- An entry that is added is found, and so is every other one, and the directory
can take the next entry. -/
theorem createDirEntry_added
    (h : Prepared v d) (hstands : Stands v d table inode offsets last)
    (howned : Owned v inode) (hname : IsName name)
    (hfits : Fits v inode last number name)
    (habsent : findDirEntry v d name = .ok none)
    (hcreate : createDirEntry v d name number type = .ok (true, w)) :
    findDirEntry w d name = .ok (some number) ∧
      (∀ other ≠ name, findDirEntry w d other = findDirEntry v d other) ∧
      ∃ next, Stands w d table next (offsets ++ [last])
        (last + recordLength name) := by
  exact createDirEntry_finds h (Held.start v d) hstands howned hname hfits habsent
    hcreate

end

/-! ## The root directory of a small volume -/

namespace shortLink

/-- The root directory has five entries in one block. -/
theorem root_stands :
    Stands shortLink rootInode 5 (storedInode shortLink rootInode 5)
      [0, 12, 24, 40, 56] 1024 where
  size_lt := by decide +kernel
  fits := by decide +kernel
  chain := recordChain_of_recordsFrom 6 (by decide +kernel)
  holdsName := by decide +kernel
  inBlock := by decide +kernel
  named := by decide +kernel
  blockSize_le := by decide
  bitmapFits := by decide
  inodeSize_eq := rfl
  located := by decide +kernel
  table_ne := by decide
  stored := rfl
  apart := by decide +kernel
  slots := by
    unfold SlotsHold
    decide +kernel
  covered := by decide +kernel
  last_le := by decide +kernel

theorem root_owned :
    Owned shortLink (storedInode shortLink rootInode 5) := by
  have hblocks : (storedInode shortLink rootInode 5).directBlocks = [7] := by
    decide +kernel
  have hbases : shortLink.blockBase 7 = 7168 ∧
      ∀ b ∈ [2, 3, 4, 5, 6], shortLink.blockBase b = b * 1024 := by
    decide +kernel
  constructor
  · intro block hblock other hsystem
    rw [hblocks, List.mem_singleton] at hblock
    have hmem := systemBlock_eq hsystem
    rw [hblock, hbases.1, hbases.2 other hmem]
    simp only [List.mem_cons, List.not_mem_nil, or_false] at hmem
    omega
  · intro block hblock free hfree
    rw [hblocks, List.mem_singleton] at hblock
    have hlow := free_ge hfree
    have hsize : shortLink.blockSize = 1024 := rfl
    rw [hblock, hbases.1, prepared.free_base hfree, hsize]
    omega

end shortLink

/-- The entry `x` for inode 11. -/
theorem createDirEntry_added_shortLink :
    ∃ w, findDirEntry w rootInode [120] = .ok (some 11) ∧
      (∀ other ≠ [120],
        findDirEntry w rootInode other = findDirEntry shortLink rootInode other) ∧
      ∃ next, Stands w rootInode 5 next ([0, 12, 24, 40, 56] ++ [1024])
        (1024 + recordLength [120]) := by
  have htest : (createDirEntry shortLink rootInode [120] 11 2).satisfies
      (fun result => result.1) = true := by
    decide +kernel
  have habsent : (findDirEntry shortLink rootInode [120]).satisfies
      Option.isNone = true := by
    decide +kernel
  obtain ⟨⟨done, w⟩, hcreate, hdone⟩ := Outcome.exists_of_satisfies htest
  obtain ⟨found, hfind, hnone⟩ := Outcome.exists_of_satisfies habsent
  obtain rfl := Option.isNone_iff_eq_none.1 hnone
  cases hdone
  have hsize : (storedInode shortLink rootInode 5).size = 1024 := by
    decide +kernel
  have hblock : shortLink.blockSize = 1024 := rfl
  exact ⟨w, createDirEntry_added shortLink.prepared shortLink.root_stands
    shortLink.root_owned ⟨by simp, by simp, by simp⟩
    ⟨by decide, by decide, by rw [hsize], by rw [hblock]; decide,
      by rw [hsize, hblock]; decide, .inl (by rw [hsize])⟩ hfind hcreate⟩

end ClOs.Ext3
