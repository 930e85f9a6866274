import ClOs.Ext3EntryFrames
import ClOs.Ext3Handles

/-!
# Volumes on which an entry can be added

Where the file system's own blocks lie apart and are marked as used, taking an
inode and a block and adding an entry leave the descriptors, the marks and the
records of the other inodes.
-/

namespace ClOs.Ext3

open ByteStore

/-! ## Prepared volumes -/

inductive SystemBlock (v : Volume) : ℕ → Prop
  | descriptor (g : ℕ) (hg : g < v.groupCount) :
      SystemBlock v (descriptorBlock g)
  | bitmap (g : ℕ) (hg : g < v.groupCount) (field : ℕ) (hfield : field ∈ [0, 4]) :
      SystemBlock v (v.descriptorWord g field)
  | table (g : ℕ) (hg : g < v.groupCount) (k : ℕ) (hk : k < v.tableBlocks) :
      SystemBlock v (v.inodeTable g + k)

/-- A block whose bit is clear on `disk`, so that `find_free_block` can return it. -/
def FreeBlock (v : Volume) (disk : ByteStore) (block : ℕ) : Prop :=
  (Resource.block block).group v < v.groupCount ∧
    disk.bit ((Resource.block block).bitAddress v) = false

/-- A volume on which an entry can be added to a directory: the file system's own
blocks lie apart and none of them is free, the inode of the directory is marked,
and the block of its next entry is neither of these. -/
structure Prepared (v : Volume) (parent : ℕ) : Prop where
  tables : InodeTables v
  reach : TablesReachable v
  bitmaps : BitmapsApart v
  numbers : v.groupCount * v.blocksPerGroup * (v.blockSize / 512) ≤ 268435456
  tablesApart : ∀ g < v.groupCount, ∀ k < v.tableBlocks, ∀ g' < v.groupCount,
    v.blockBase (v.inodeTable g + k) ≠ v.blockBase (descriptorBlock g') ∧
      ∀ field ∈ [0, 4], v.blockBase (v.inodeTable g + k) ≠
        v.blockBase (v.descriptorWord g' field)
  marked : ∀ block, SystemBlock v block → ∀ free, FreeBlock v v.disk free →
    v.blockBase free ≠ v.blockBase block
  parent_mem : InodeInRange v.toGeometry parent
  parent_marked :
    v.disk.bit ((Resource.inode parent).bitAddress v) = true
  entryBlock : ∀ inode block, readInode v parent = .ok inode →
    ¬NeedsBlock v inode → blockSlot inode (inode.size / v.blockSize) = .ok block →
      (∀ other, SystemBlock v other → v.blockBase block ≠ v.blockBase other) ∧
        ∀ free, FreeBlock v v.disk free → v.blockBase free ≠ v.blockBase block

/-- What stays while the inode and the block of a link are taken and written: the
descriptors, the record of the directory and the marks. -/
structure Held (v : Volume) (parent : ℕ) (disk : ByteStore) : Prop where
  descriptors : ∀ g < v.groupCount, SameBlock v disk (descriptorBlock g)
  record : ∀ k < 128,
    disk (v.recordAddress parent + k) = v.disk (v.recordAddress parent + k)
  marks : ∀ block, (Resource.block block).group v < v.groupCount →
    v.disk.bit ((Resource.block block).bitAddress v) = true →
      disk.bit ((Resource.block block).bitAddress v) = true

section

variable {v : Volume} {parent n block free k g i field : ℕ}
  {disk next : ByteStore}

theorem Prepared.blocks_lt (h : Prepared v parent) :
    v.groupCount * v.blocksPerGroup < 4294967296 := by
  have hlarge := v.blockSize_ge
  have hle := Nat.le_mul_of_pos_right (v.groupCount * v.blocksPerGroup)
    (show 0 < v.blockSize / 512 by omega)
  have hnumbers := h.numbers
  omega

theorem Prepared.not_free
    (h : Prepared v parent) (hsystem : SystemBlock v block)
    (hfree : FreeBlock v v.disk free) (hk : InBlock v free k) : ¬InBlock v block k :=
  fun hblock => h.marked block hsystem free hfree (hk.same_base hblock)

/-- A record shares no byte with a descriptor or a bitmap. -/
theorem Prepared.record_outside
    (h : Prepared v parent) (hrange : InodeInRange v.toGeometry n)
    {offset : ℕ} (hoffset : offset < 128) (hg : g < v.groupCount) :
    ¬InBlock v (descriptorBlock g) (v.recordAddress n + offset) ∧
      ∀ field ∈ [0, 4], ¬InBlock v (v.descriptorWord g field)
        (v.recordAddress n + offset) := by
  obtain ⟨g', hg', k', hk', hplace⟩ := h.reach.record_inTable hrange
  obtain ⟨hdescriptor, hbitmap⟩ := h.tablesApart g' hg' k' hk' g hg
  refine ⟨fun hblock => ?_, fun field hfield hblock => ?_⟩
  · exact hdescriptor ((hplace offset hoffset).same_base hblock)
  · exact hbitmap field hfield ((hplace offset hoffset).same_base hblock)

theorem Prepared.record_not_free
    (h : Prepared v parent) (hrange : InodeInRange v.toGeometry n)
    {offset : ℕ} (hoffset : offset < 128) (hfree : FreeBlock v v.disk free) :
    ¬InBlock v free (v.recordAddress n + offset) := by
  obtain ⟨g', hg', k', hk', hplace⟩ := h.reach.record_inTable hrange
  exact fun hblock =>
    h.not_free (.table g' hg' k' hk') hfree hblock (hplace offset hoffset)

/-! ## What stays -/

theorem Held.start (v : Volume) (parent : ℕ) : Held v parent v.disk where
  descriptors _ _ _ _ := rfl
  record _ _ := rfl
  marks _ _ hset := hset

theorem mark_of_change
    (hchange : ∀ k, next k ≠ disk k →
      ∀ g < v.groupCount, ¬InBlock v (v.descriptorWord g 0) k)
    (hbitmaps : v.blocksPerGroup ≤ 8 * v.blockSize)
    (hgroup : (Resource.block block).group v < v.groupCount) :
    next.bit ((Resource.block block).bitAddress v) =
      disk.bit ((Resource.block block).bitAddress v) := by
  have hindex : (Resource.block block).index v < 8 * v.blockSize :=
    (Nat.mod_lt _ v.blocksPerGroup_pos).trans_le hbitmaps
  have hsame : next ((Resource.block block).bitAddress v / 8) =
      disk ((Resource.block block).bitAddress v / 8) := by
    by_contra hne
    refine hchange _ hne _ hgroup ?_
    have haddress : (Resource.block block).bitAddress v =
        8 * v.blockBase (v.descriptorWord
          ((Resource.block block).group v) 0) +
            (Resource.block block).index v := rfl
    unfold InBlock
    omega
  unfold bit
  rw [hsame]

theorem Held.change
    (h : Held v parent disk)
    (hchange : ∀ k, next k ≠ disk k →
      (∀ g < v.groupCount, ¬InBlock v (descriptorBlock g) k ∧
        ¬InBlock v (v.descriptorWord g 0) k) ∧
      ∀ offset < 128, k ≠ v.recordAddress parent + offset)
    (hbitmaps : v.blocksPerGroup ≤ 8 * v.blockSize) :
    Held v parent next where
  descriptors g hg k hk := by
    by_contra hne
    have hchanged : next (v.blockBase (descriptorBlock g) + k) ≠
        disk (v.blockBase (descriptorBlock g) + k) :=
      fun hsame => hne (hsame.trans (h.descriptors g hg k hk))
    refine ((hchange _ hchanged).1 g hg).1 ?_
    unfold InBlock
    omega
  record offset hoffset := by
    by_contra hne
    exact (hchange _ fun hsame => hne (hsame.trans (h.record offset hoffset))).2
      offset hoffset rfl
  marks block hgroup hset := by
    rw [mark_of_change (fun k hk g hg => ((hchange k hk).1 g hg).2) hbitmaps
      hgroup]
    exact h.marks block hgroup hset

theorem Held.setBit
    (h : Held v parent disk) (hprep : Prepared v parent)
    (hg : g < v.groupCount) (hfield : field ∈ [0, 4])
    (hi : i < 8 * v.blockSize) :
    Held v parent
      (disk.setBit (8 * v.blockBase (v.descriptorWord g field) + i)) where
  descriptors := hprep.bitmaps.keeps hg hfield hi
    (fun _ hk => setBit_apply_of_ne disk hk) h.descriptors
  record offset hoffset := by
    have houtside := (hprep.record_outside hprep.parent_mem hoffset hg).2
      field hfield
    rw [setBit_apply_of_ne disk fun hbyte => houtside ?_]
    · exact h.record offset hoffset
    · unfold InBlock
      omega
  marks block hgroup hset := by
    rw [bit_setBit, h.marks block hgroup hset, Bool.true_or]

theorem Held.fill
    (h : Held v parent disk) (hprep : Prepared v parent)
    (hfree : FreeBlock v v.disk free) (bytes : ByteStore) :
    Held v parent (writeBlock (v.withDisk disk) free bytes).disk := by
  refine h.change (fun k hk => ?_) hprep.bitmaps.blocks
  have hinside : InBlock v free k := by
    by_contra hout
    exact hk (writeBlock_outside (v.withDisk disk) bytes
      hprep.bitmaps.blockSize_le hout)
  refine ⟨fun g hg => ⟨?_, ?_⟩, fun offset hoffset hrecord => ?_⟩
  · exact hprep.not_free (.descriptor g hg) hfree hinside
  · exact hprep.not_free (.bitmap g hg 0 (by simp)) hfree hinside
  · rw [hrecord] at hinside
    exact hprep.record_not_free hprep.parent_mem hoffset hfree hinside

theorem Held.writeRecord
    (h : Held v parent disk) (hprep : Prepared v parent)
    (hrange : InodeInRange v.toGeometry n) (hne : n ≠ parent)
    (source : ByteStore) :
    Held v parent (disk.blit (v.recordAddress n) source 128) := by
  have hapart := hprep.tables.records_apart hrange hprep.parent_mem hne
  refine h.change (fun k hk => ?_) hprep.bitmaps.blocks
  obtain ⟨offset, hoffset, rfl⟩ : ∃ offset < 128,
      k = v.recordAddress n + offset := by
    by_contra hout
    refine hk (blit_outside _ _ ?_)
    by_contra hinside
    exact hout ⟨k - v.recordAddress n, by omega, by omega⟩
  refine ⟨fun g hg => ?_, fun other hother => by omega⟩
  obtain ⟨hdescriptor, hbitmap⟩ := hprep.record_outside hrange hoffset hg
  exact ⟨hdescriptor, hbitmap 0 (by simp)⟩

theorem Held.was_free
    (h : Held v parent disk) (hfree : FreeBlock v disk free) :
    FreeBlock v v.disk free := by
  obtain ⟨hgroup, hclear⟩ := hfree
  refine ⟨hgroup, ?_⟩
  by_contra hset
  have hmark := h.marks free hgroup (by simpa using hset)
  rw [hclear] at hmark
  cases hmark

theorem descriptorBlock_zero : descriptorBlock 0 = 2 :=
  u32_of_lt (by norm_num)

theorem Held.descriptor
    (h : Held v parent disk) (hrange : InodeInRange v.toGeometry n) :
    SameBlock v disk 2 := by
  have hgroups : 0 < v.groupCount := Nat.zero_lt_of_lt hrange.2.2
  exact descriptorBlock_zero ▸ h.descriptors 0 hgroups
theorem Prepared.readRecord
    (h : Prepared v parent) (hrange : InodeInRange v.toGeometry n)
    (hsame : SameBlock v disk 2) :
    readInode (v.withDisk disk) n =
      .ok (v.garbage.blit 0 (disk.drop (v.recordAddress n)) 128) := by
  obtain ⟨block, hlocated, hblock, -, haddress⟩ :=
    h.tables.located h.reach hrange
  have hread := @readInode_eq (v.withDisk disk) n block h.reach.blockSize_le
    h.tables.inodeSize_eq ((inodeToBlock_withDisk hsame n).trans hlocated)
    hblock
  unfold storedInode at hread
  have hplace : (v.withDisk disk).blockBase block +
      inodeOffset (v.withDisk disk) n = v.recordAddress n := haddress
  rw [hplace] at hread
  exact hread

theorem Prepared.writeRecord
    (h : Prepared v parent) (hrange : InodeInRange v.toGeometry n)
    (hsame : SameBlock v disk 2) (source : Inode) :
    writeInode (v.withDisk disk) n source =
      .ok (v.withDisk (disk.blit (v.recordAddress n) source 128)) := by
  obtain ⟨block, hlocated, hblock, -, haddress⟩ :=
    h.tables.located h.reach hrange
  have hwrite := @writeInode_withDisk (v.withDisk disk) n block source
    h.reach.blockSize_le h.tables.inodeSize_eq
    ((inodeToBlock_withDisk hsame n).trans hlocated) hblock
  have hplace : (v.withDisk disk).blockBase block +
      inodeOffset (v.withDisk disk) n = v.recordAddress n := haddress
  rw [hplace] at hwrite
  exact hwrite

theorem Prepared.recordExtent_eq
    (h : Prepared v parent) (hrange : InodeInRange v.toGeometry n) :
    recordExtent v n = .ok ⟨v.recordAddress n, 128⟩ := by
  obtain ⟨block, hlocated, -, -, haddress⟩ := h.tables.located h.reach hrange
  unfold recordExtent
  rw [hlocated, ← haddress]
  rfl

theorem Held.readParent
    (h : Held v parent disk) (hprep : Prepared v parent) :
    readInode (v.withDisk disk) parent = readInode v parent := by
  have hrange := hprep.parent_mem
  have hold := @Prepared.readRecord v parent parent v.disk hprep hrange
    fun _ _ => rfl
  rw [hprep.readRecord hrange (h.descriptor hrange)]
  refine (congrArg Except.ok (blit_congr _ fun k hk => ?_)).trans hold.symm
  exact h.record k hk

/-! ## The frame of a new entry -/
/-- The bytes that adding an entry to the directory can change. -/
inductive EntryByte (v : Volume) (parent : ℕ) (disk : ByteStore) (k : ℕ) : Prop
  | record (offset : ℕ) (hoffset : offset < 128)
      (hk : k = v.recordAddress parent + offset)
  | bitmap (g : ℕ) (hg : g < v.groupCount)
      (hk : InBlock v (v.descriptorWord g 0) k)
  | newBlock (free : ℕ) (hfree : FreeBlock v disk free)
      (hk : InBlock v free k)
  | entryBlock (inode : Inode) (block : ℕ)
      (hread : readInode v parent = .ok inode) (hneeds : ¬NeedsBlock v inode)
      (hslot : blockSlot inode (inode.size / v.blockSize) = .ok block)
      (hk : InBlock v block k)

theorem byte_of_setBit
    (hi : i < 8 * v.blockSize)
    (hk : disk.setBit (8 * v.blockBase block + i) k ≠ disk k) :
    InBlock v block k := by
  have hbyte : k = (8 * v.blockBase block + i) / 8 := by
    by_contra hne
    exact hk (setBit_apply_of_ne disk hne)
  unfold InBlock
  omega
theorem Prepared.descriptor_record
    (h : Prepared v parent) (hsame : SameBlock v disk 2)
    (hrange : InodeInRange v.toGeometry n) (source : Inode) :
    SameBlock v (disk.blit (v.recordAddress n) source 128) 2 := by
  have hgroups : 0 < v.groupCount := Nat.zero_lt_of_lt hrange.2.2
  refine sameBlock_of_change hsame fun k hk hinside => ?_
  obtain ⟨offset, hoffset, rfl⟩ := offset_of_blit hk
  rw [← descriptorBlock_zero] at hinside
  exact (h.record_outside hrange hoffset hgroups).1 hinside

theorem Prepared.descriptor_fill
    (h : Prepared v parent) (hsame : SameBlock v disk 2)
    (hrange : InodeInRange v.toGeometry n)
    (hfree : FreeBlock v v.disk free) (bytes : ByteStore) :
    SameBlock v (writeBlock (v.withDisk disk) free bytes).disk 2 := by
  have hgroups : 0 < v.groupCount := Nat.zero_lt_of_lt hrange.2.2
  refine sameBlock_of_change hsame fun k hk hinside => ?_
  rw [← descriptorBlock_zero] at hinside
  exact h.not_free (.descriptor 0 hgroups) hfree
    (block_of_write h.bitmaps.blockSize_le hk) hinside

theorem Prepared.mark_fill
    (h : Prepared v parent) (hfree : FreeBlock v v.disk free)
    (bytes : ByteStore)
    (hgroup : (Resource.block block).group v < v.groupCount) :
    (writeBlock (v.withDisk disk) free bytes).disk.bit
        ((Resource.block block).bitAddress v) =
      disk.bit ((Resource.block block).bitAddress v) :=
  mark_of_change (fun _ hk g hg => h.not_free (.bitmap g hg 0 (by simp)) hfree
    (block_of_write h.bitmaps.blockSize_le hk)) h.bitmaps.blocks hgroup

theorem Prepared.mark_record
    (h : Prepared v parent) (hrange : InodeInRange v.toGeometry n)
    (source : Inode)
    (hgroup : (Resource.block block).group v < v.groupCount) :
    (disk.blit (v.recordAddress n) source 128).bit
        ((Resource.block block).bitAddress v) =
      disk.bit ((Resource.block block).bitAddress v) := by
  refine mark_of_change (fun k hk g hg => ?_) h.bitmaps.blocks hgroup
  obtain ⟨offset, hoffset, rfl⟩ := offset_of_blit hk
  exact (h.record_outside hrange hoffset hg).2 0 (by simp)

/-! ## What is taken -/

theorem findFreeInode_lt
    {u : Volume} (h : findFreeInode v = .ok (n, u)) : n < 4294967296 := by
  unfold findFreeInode at h
  rw [Outcome.bind_eq_ok] at h
  obtain ⟨⟨found, w⟩, -, h⟩ := h
  cases found with
  | none =>
      cases h
      norm_num
  | some place =>
      cases h
      exact u32_lt _

/-- The inode that is taken is another one than the directory's. -/
theorem Prepared.takeInode
    (h : Prepared v parent) {u : Volume}
    (hfind : findFreeInode v = .ok (n, u)) (hn : n ≠ 0) :
    InodeInRange v.toGeometry n ∧ n ≠ parent ∧
      ∃ disk, u = v.withDisk disk ∧ Held v parent disk := by
  obtain ⟨inode, next, hfind', hcases⟩ := @findFreeInode_sets v v.disk h.bitmaps
    fun _ _ _ _ => rfl
  rw [v.withDisk_self, hfind] at hfind'
  cases hfind'
  rcases hcases with ⟨rfl, -⟩ | ⟨g, hg, i, hi, hclear, rfl, hnumber⟩
  · exact absurd rfl hn
  · obtain ⟨hgroup, haddress⟩ := hnumber hn
    refine ⟨⟨Nat.pos_of_ne_zero hn, findFreeInode_lt hfind, hgroup⟩, ?_, _, rfl,
      (Held.start v parent).setBit h hg (by simp)
        (hi.trans_le h.bitmaps.inodes)⟩
    rintro rfl
    rw [← haddress, h.parent_marked] at hclear
    cases hclear

theorem Prepared.free_base
    (h : Prepared v parent) {disk' : ByteStore} (hfree : FreeBlock v disk' free) :
    v.blockBase free = free * v.blockSize := by
  refine @blockBase_of_le v free (le_trans (Nat.mul_le_mul_right _ ?_)
    h.numbers)
  have hgroup : free / v.blocksPerGroup < v.groupCount := hfree.1
  exact (Nat.div_lt_iff_lt_mul v.blocksPerGroup_pos).1 hgroup

theorem Prepared.entry_spares_descriptors
    (h : Prepared v parent) (hheld : Held v parent disk)
    (hentry : EntryByte v parent disk k) : ¬InBlock v 2 k := by
  have hgroups : 0 < v.groupCount := Nat.zero_lt_of_lt h.parent_mem.2.2
  rw [← descriptorBlock_zero]
  cases hentry with
  | record place hplace hk =>
      subst hk
      exact (h.record_outside h.parent_mem hplace hgroups).1
  | bitmap g hg hk =>
      exact fun hblock => h.bitmaps.outside g hg 0 hgroups 0 (by simp)
        (hk.same_base hblock)
  | newBlock free hfree hk =>
      exact h.not_free (.descriptor 0 hgroups) (hheld.was_free hfree) hk
  | entryBlock inode block hread hneeds hslot hk =>
      obtain ⟨hsystem, -⟩ := h.entryBlock inode block hread hneeds hslot
      exact fun hblock => hsystem _ (.descriptor 0 hgroups)
        (hk.same_base hblock)

theorem Prepared.entry_spares
    (h : Prepared v parent) (hheld : Held v parent disk)
    (hrange : InodeInRange v.toGeometry n) (hne : n ≠ parent)
    (hentry : EntryByte v parent disk k) :
    ¬InBlock v 2 k ∧ ∀ offset < 128, k ≠ v.recordAddress n + offset := by
  refine ⟨h.entry_spares_descriptors hheld hentry, fun offset hoffset hplace => ?_⟩
  have hapart := h.tables.records_apart hrange h.parent_mem hne
  cases hentry with
  | record place hplace' hk => omega
  | bitmap g hg hk =>
      rw [hplace] at hk
      exact (h.record_outside hrange hoffset hg).2 0 (by simp) hk
  | newBlock free hfree hk =>
      rw [hplace] at hk
      exact h.record_not_free hrange hoffset (hheld.was_free hfree) hk
  | entryBlock inode block hread hneeds hslot hk =>
      obtain ⟨hsystem, -⟩ := h.entryBlock inode block hread hneeds hslot
      obtain ⟨g', hg', k', hk', htable⟩ := h.reach.record_inTable hrange
      rw [hplace] at hk
      exact hsystem _ (.table g' hg' k' hk')
        (hk.same_base (htable offset hoffset))

theorem Prepared.entry_spares_block
    (h : Prepared v parent)
    (hfree : FreeBlock v v.disk free) (htaken : ¬FreeBlock v disk free)
    (hentry : EntryByte v parent disk k) : ¬InBlock v free k := by
  intro hinside
  cases hentry with
  | record place hplace hk =>
      subst hk
      exact h.record_not_free h.parent_mem hplace hfree hinside
  | bitmap g hg hk =>
      exact h.not_free (.bitmap g hg 0 (by simp)) hfree hinside hk
  | newBlock other hother hk =>
      have hsame := hk.same_base hinside
      rw [h.free_base hother, h.free_base hfree] at hsame
      obtain rfl := Nat.eq_of_mul_eq_mul_right v.blockSize_pos hsame
      exact htaken hother
  | entryBlock inode block hread hneeds hslot hk =>
      obtain ⟨-, hfrees⟩ := h.entryBlock inode block hread hneeds hslot
      exact hfrees free hfree (hinside.same_base hk)

/-- What the driver writes on a prepared volume. -/
theorem entryByte_of_place
    (hheld : Held v parent disk) (hprep : Prepared v parent)
    (h : EntryPlace (v.withDisk disk) parent k) : EntryByte v parent disk k := by
  have hrange := hprep.parent_mem
  obtain ⟨extents, hextents, e, he, hk⟩ := h
  unfold entryExtents at hextents
  rw [hheld.readParent hprep, recordExtent_withDisk (hheld.descriptor hrange),
    hprep.recordExtent_eq hrange, Outcome.bind_eq_ok] at hextents
  obtain ⟨inode, hread, hextents⟩ := hextents
  rw [Outcome.bind_eq_ok] at hextents
  obtain ⟨record, hrecord, hextents⟩ := hextents
  cases hrecord
  have hown : Extent.Contains ⟨v.recordAddress parent, 128⟩ k →
      EntryByte v parent disk k := by
    rintro ⟨hlow, hhigh⟩
    dsimp only at hlow hhigh
    exact .record (k - v.recordAddress parent) (by omega) (by omega)
  split_ifs at hextents with hneeds
  · rw [Outcome.bind_eq_ok] at hextents
    obtain ⟨⟨found, taken⟩, hbit, hextents⟩ := hextents
    rcases findFreeBit_sets hprep.bitmaps hheld.descriptors _
      hprep.bitmaps.blocks hbit with ⟨rfl, -⟩ | ⟨g, hg, i, hi, rfl, hclear, -⟩
    · cases hextents
      cases he
    cases hextents
    have hi : i < v.blocksPerGroup := hi
    have hnumber : u32 (g * v.blocksPerGroup + i) = g * v.blocksPerGroup + i := by
      have hle := Nat.mul_le_mul_right v.blocksPerGroup
        (show g + 1 ≤ v.groupCount from hg)
      rw [Nat.succ_mul] at hle
      have hlt := hprep.blocks_lt
      exact u32_of_lt (by omega)
    simp only [List.mem_cons, List.not_mem_nil, or_false] at he
    rcases he with rfl | rfl | rfl
    · exact hown hk
    · have hbits := hprep.bitmaps.blocks
      unfold bitExtent at hk
      rw [descriptorWord_withDisk (hheld.descriptors g hg)] at hk
      obtain ⟨hlow, hhigh⟩ := hk
      dsimp only [Volume.withDisk_blockBase] at hlow hhigh
      refine .bitmap g hg ?_
      unfold InBlock
      omega
    · obtain ⟨hgroup, hindex⟩ := @div_of_place _ g _ hi
      refine .newBlock (g * v.blocksPerGroup + i) ⟨?_, ?_⟩ (hnumber ▸ hk)
      · exact hgroup.trans_lt hg
      · unfold Resource.bitAddress Resource.group Resource.index
        dsimp only
        rw [hgroup, hindex]
        exact hclear
  · rw [Outcome.bind_eq_ok] at hextents
    obtain ⟨block, hslot, hextents⟩ := hextents
    cases hextents
    simp only [List.mem_cons, List.not_mem_nil, or_false] at he
    rcases he with rfl | rfl
    · exact hown hk
    · exact .entryBlock inode block hread hneeds hslot hk

theorem createDirEntry_frame
    {name : CString} {number type : ℕ} {done : Bool} {w : Volume}
    (hheld : Held v parent disk) (hprep : Prepared v parent)
    (h : createDirEntry (v.withDisk disk) parent name number type =
      .ok (done, w)) :
    ∃ last, w = v.withDisk last ∧
      ChangesOnly (EntryByte v parent disk) disk last := by
  have hbyte := fun k => @entryByte_of_place v parent k disk hheld hprep
  obtain ⟨last, hlast, honly⟩ := @createDirEntry_writes (v.withDisk disk) w parent
    name number type done hprep.bitmaps.blockSize_le hprep.tables.inodeSize_eq
    hprep.bitmaps.blocks
    (fun k hk => hprep.entry_spares_descriptors hheld (hbyte k hk)) h
  exact ⟨last, hlast, honly.mono hbyte⟩

end

/-! ## A small root directory -/

namespace shortLink

theorem free_ge {block : ℕ} (h : FreeBlock shortLink shortLink.disk block) :
    9 ≤ block := by
  by_contra hlow
  have hset : ∀ b < 9, shortLink.disk.bit
      ((Resource.block b).bitAddress shortLink) = true := by
    decide +kernel
  have hclear := h.2
  rw [hset block (by omega)] at hclear
  cases hclear

theorem systemBlock_eq {block : ℕ} (h : SystemBlock shortLink block) :
    block ∈ [2, 3, 4, 5, 6] := by
  have hblocks : ∀ g < shortLink.groupCount, descriptorBlock g = 2 ∧
      (∀ field ∈ [0, 4], shortLink.descriptorWord g field ∈ [3, 4]) ∧
        ∀ k < shortLink.tableBlocks, shortLink.inodeTable g + k ∈ [5, 6] := by
    decide +kernel
  cases h with
  | descriptor g hg => simp [(hblocks g hg).1]
  | bitmap g hg field hfield =>
      have hmem := (hblocks g hg).2.1 field hfield
      simp only [List.mem_cons, List.not_mem_nil, or_false] at hmem ⊢
      omega
  | table g hg k hk =>
      have hmem := (hblocks g hg).2.2 k hk
      simp only [List.mem_cons, List.not_mem_nil, or_false] at hmem ⊢
      omega

theorem bitmapsApart : BitmapsApart shortLink := by
  obtain ⟨hdistinct, houtside⟩ := @apart_of_one_group shortLink
    shortLink.blockBase rfl (by decide +kernel) (by decide +kernel)
      (by decide +kernel)
  exact {
    blockSize_le := by decide
    blocks := by decide
    inodes := by decide
    inodeNumbers := by decide
    distinct := hdistinct
    outside := houtside }

theorem prepared : Prepared shortLink rootInode where
  tables := @inodeTables_of_oneGroup shortLink 5 (by decide +kernel) (by decide)
  reach := ⟨by decide, by decide, by decide +kernel⟩
  bitmaps := bitmapsApart
  numbers := by decide
  tablesApart := by decide +kernel
  marked block hsystem free hfree := by
    have hlow := free_ge hfree
    have hgroup : free / 8192 < 1 := hfree.1
    have hbases : ∀ b ∈ [2, 3, 4, 5, 6], shortLink.blockBase b = b * 1024 := by
      decide +kernel
    have hmem := systemBlock_eq hsystem
    have hsectors : shortLink.blockSize / 512 = 2 := rfl
    have hsize : shortLink.blockSize = 1024 := rfl
    rw [hbases block hmem, blockBase_of_le shortLink (by
      rw [hsectors]
      omega), hsize]
    simp only [List.mem_cons, List.not_mem_nil, or_false] at hmem
    omega
  parent_mem := ⟨by decide, by decide, by decide⟩
  parent_marked := by decide +kernel
  entryBlock inode block hread hneeds := by
    have htest : (readInode shortLink rootInode).satisfies (fun inode =>
        inode.size / 1024 < 12 ∧ inode.block (inode.size / 1024) = 0) = true := by
      decide +kernel
    rw [hread] at htest
    exact absurd (of_decide_eq_true htest) hneeds

end shortLink

end ClOs.Ext3
