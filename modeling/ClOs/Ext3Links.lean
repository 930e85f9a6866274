import ClOs.Ext3Opening
import ClOs.Ext3Prepared

/-!
# Symbolic links that are made and read again

`ext3_create_symlink` keeps a short target in the inode and a long one in a block,
and `ext3_read_symlink` decides by the size in the inode.  In between the entry is
added to the directory.  The target is read back where it fits its buffer and the
entry is written elsewhere.
-/

namespace ClOs.Ext3

open ByteStore

/-! ## The target -/

structure KeepsTarget (v : Volume) (disk : ByteStore) (inode : Inode)
    (target : CString) : Prop where
  link : inode.isLink = true
  size : inode.size = target.length
  short : target.length < 60 → ∀ k < target.length,
    inode (40 + k) = target.getD k 0
  long : 60 ≤ target.length → target.length ≤ v.blockSize ∧
    ∀ k < target.length,
      disk (v.blockBase (inode.block 0) + k) = target.getD k 0

section

variable {v : Volume} {parent n : ℕ} {disk next : ByteStore}
  {inode read : Inode} {target : CString}

theorem KeepsTarget.kept
    (h : KeepsTarget v disk inode target)
    (hread : ∀ k < 128, read k = inode k)
    (hblock : 60 ≤ target.length → SameBlock (v.withDisk disk) next
      (inode.block 0)) :
    KeepsTarget v next read target := by
  have hagree : ByteStore.AgreeOn read inode 0 128 := fun k _ hk => hread k hk
  have hfirst : read.block 0 = inode.block 0 :=
    hagree.le32_eq 40 (by omega) (by omega)
  refine ⟨?_, (hagree.le32_eq 4 (by omega) (by omega)).trans h.size,
    fun hshort k hk => ?_, fun hlong => ?_⟩
  · have hmode : read.mode = inode.mode :=
      hagree.le16_eq 0 (by omega) (by omega)
    unfold Inode.isLink
    rw [hmode]
    exact h.link
  · rw [hread (40 + k) (by omega)]
    exact h.short hshort k hk
  · obtain ⟨hsize, hbytes⟩ := h.long hlong
    refine ⟨hsize, fun k hk => ?_⟩
    rw [hfirst]
    exact (hblock hlong k (hk.trans_le hsize)).trans (hbytes k hk)

/-- The reader finds the target where it is kept. -/
theorem KeepsTarget.linkTarget
    (h : KeepsTarget v v.disk inode target)
    (hsize : v.blockSize ≤ 131072) (htarget : 0 ∉ target) :
    linkTarget v inode = .ok (some target) := by
  have hbytes : ∃ bytes, targetBytes v inode = .ok bytes ∧
      ∀ k < target.length, bytes k = target.getD k 0 := by
    unfold targetBytes
    rw [h.size]
    split_ifs with hshort
    · exact ⟨_, rfl, fun k hk => h.short hshort k hk⟩
    · obtain ⟨hroom, hkept⟩ := h.long (by omega)
      refine ⟨_, Buffer.slice_eq_ok.2 ⟨by rw [fetch_size]; omega, rfl⟩,
        fun k hk => ?_⟩
      rw [drop_apply, Nat.zero_add, fetch_apply v _ hsize (by omega)]
      exact hkept k hk
  have hroom : target.length + 1 < 4294967296 := by
    by_cases hshort : target.length < 60
    · omega
    · have hlong := (h.long (by omega)).1
      omega
  obtain ⟨bytes, hfrom, hcontent⟩ := hbytes
  have hload : (Buffer.mk (target.length + 1) v.garbage).load 0 bytes
      target.length =
        .ok ⟨target.length + 1, v.garbage.blit 0 bytes target.length⟩ :=
    Buffer.load_eq_ok.2 ⟨by simp, rfl⟩
  have hlist : (List.range target.length).map
      (v.garbage.blit 0 bytes target.length) = target := by
    apply List.ext_getElem
    · simp
    · intro k hk hk'
      rw [List.getElem_map, List.getElem_range,
        blit_inside _ _ (Nat.zero_le k) (by omega), Nat.sub_zero,
        hcontent k hk', List.getD_eq_getElem _ _ hk']
  unfold Ext3.linkTarget kmalloc
  rw [h.size, u32_of_lt hroom, if_neg (Nat.succ_ne_zero _)]
  simp only [hfrom, hload, bind, Except.bind, pure, Except.pure, hlist]
  rw [List.takeWhile_eq_self_iff.2 fun b hb => by
    simpa using fun hzero : b = 0 => htarget (hzero ▸ hb)]

theorem newLinkInode_link (target : CString) :
    (newLinkInode target).isLink = true := by
  have hmode : (newLinkInode target).mode = 0xA1FF := by
    unfold newLinkInode Inode.mode Inode.setLinksCount Inode.setSize
      Inode.setMode put16 put32
    rw [(blit_agreeOn _ _ (.inl (by omega))).le16_eq 0 (le_refl 0)
        (show 0 + 2 ≤ 2 by omega),
      (blit_agreeOn _ _ (.inl (by omega))).le16_eq 0 (le_refl 0)
        (show 0 + 2 ≤ 2 by omega)]
    exact le16_put16_same _ 0 0xA1FF
  unfold Inode.isLink
  rw [hmode]
  decide

theorem newLinkInode_size (hlength : target.length < 4294967296) :
    (newLinkInode target).size = target.length := by
  unfold newLinkInode Inode.size Inode.setLinksCount Inode.setSize put16
  rw [le32_blit_outside _ _ 4 (by omega), le32_put32_same, u32_of_lt hlength]

/-- Fields behind the first 28 bytes leave the kind and the size of an inode. -/
theorem sameHead
    {source : ByteStore} {inode : Inode} {address count : ℕ}
    (haddress : 28 ≤ address) :
    Inode.isLink (inode.blit address source count) = inode.isLink ∧
      Inode.size (inode.blit address source count) = inode.size := by
  have hagree : ByteStore.AgreeOn (inode.blit address source count) inode 0
      28 := blit_agreeOn _ _ (.inl haddress)
  have hmode : Inode.mode (inode.blit address source count) = inode.mode :=
    hagree.le16_eq 0 (by omega) (by omega)
  unfold Inode.isLink
  rw [hmode]
  exact ⟨rfl, hagree.le32_eq 4 (by omega) (by omega)⟩

theorem storeTarget_keeps
    {u stored : Volume} (hsize : u.blockSize ≤ 131072)
    (hbitmaps : u.blocksPerGroup ≤ 8 * u.blockSize)
    (hlength : target.length < 4294967296)
    (hstore : storeTarget u target = .ok (some inode, stored)) :
    ∃ next, stored = u.withDisk next ∧ KeepsTarget u next inode target := by
  have hlength' := newLinkInode_size hlength
  have hlink := newLinkInode_link target
  unfold storeTarget at hstore
  simp only [hlength'] at hstore
  split_ifs at hstore with hshort
  · cases hstore
    obtain ⟨hlink', hsize'⟩ := @sameHead (fun k => target.getD k 0)
      (newLinkInode target) 40 target.length (by omega)
    exact ⟨_, rfl, hlink'.trans hlink, hsize'.trans hlength',
      fun _ k hk => blit_add _ _ _ hk, fun hlong => by omega⟩
  · rw [Outcome.bind_eq_ok] at hstore
    obtain ⟨⟨block, taken⟩, hfind, hstore⟩ := hstore
    have hnumber := (findFreeBlock_toGeometry hfind).2
    simp only at hstore
    split_ifs at hstore with hzero
    · cases hstore
    rw [Outcome.bind_eq_ok] at hstore
    obtain ⟨buffer, hload, hstore⟩ := hstore
    obtain ⟨hroom, rfl⟩ := Buffer.load_eq_ok.1 hload
    cases hstore
    rcases findFreeBlock_place hsize hbitmaps hfind with ⟨hnone, -⟩ |
      ⟨g, i, -, -, next, rfl, -⟩
    · exact absurd hnone hzero
    have hblock : Inode.block (((newLinkInode target).setBlock 0 block).setBlocks
        (u.blockSize / 512)) 0 = block := by
      unfold Inode.block Inode.setBlocks Inode.setBlock
      rw [le32_put32_of_disjoint _ _ (by omega), le32_put32_same,
        u32_of_lt hnumber]
    obtain ⟨hlink', hsize'⟩ := @sameHead (byteOf block)
      (newLinkInode target) 40 4 (by omega)
    obtain ⟨hlink'', hsize''⟩ := @sameHead (byteOf (u.blockSize / 512))
      ((newLinkInode target).setBlock 0 block) 28 4 (by omega)
    refine ⟨_, rfl, hlink''.trans (hlink'.trans hlink),
      hsize''.trans (hsize'.trans hlength'), fun hless => absurd hless hshort,
      fun _ => ⟨by simpa using hroom, fun k hk => ?_⟩⟩
    rw [hblock]
    refine (writeBlock_inside (u.withDisk next) _ hsize
      (hk.trans_le (by simpa using hroom))).trans ?_
    exact blit_inside (fun _ => 0) (fun k => target.getD k 0)
      (Nat.zero_le k) (show k < 0 + target.length by omega)

/-! ## The two calls -/

/-- The stages of `ext3_create_symlink` before it stores the target: the parent
directory, the volume without a former object of that name, the inode that is
taken and the volume then. -/
structure Stages (v : Volume) (path : CString) (parent : ℕ) (gone : Volume)
    (n : ℕ) (taken : Volume) : Prop where
  resolved : ∃ name, resolveParent v path = .ok (parent, name)
  parent_ne : parent ≠ 0
  deleted : ∃ done, ext3Delete v path = .ok (done, gone)
  numbered : findFreeInode gone = .ok (n, taken)
  number_ne : n ≠ 0

/-- The target is stored within the block buffer, and a link that is created and
found is read back. -/
def RoundTrips (v : Volume) (target path : CString) : Prop :=
  ∀ parent gone n taken, Stages v path parent gone n taken →
    storeTarget taken target ≠ .error .outOfBounds ∧
      ∀ w, ext3CreateSymlink v target path = .ok (true, w) →
        ∀ inode, findFile w path = .ok (some (inode, n)) →
          ext3ReadSymlink w path = .ok (some target)

/-- The target has room in a block, or there is no block for it. -/
def TargetFits (v : Volume) (target path : CString) : Prop :=
  ∀ parent gone n taken, Stages v path parent gone n taken →
    target.length ≤ v.blockSize ∨
      ∃ next, findFreeBlock taken = .ok (0, next)

def linkExtents (v : Volume) (n : ℕ) (link : Inode) :
    Outcome (List Extent) := do
  let record ← recordExtent v n
  if link.size < 60 then return [blockExtent v 2, record]
  else return [blockExtent v 2, record, blockExtent v (link.block 0)]

/-- What is written after the target leaves it alone: the record of the link
first, which no table in block 0 holds, then the entry. -/
structure WrittenApart (v : Volume) (parent n : ℕ) (link : Inode) : Prop where
  located : inodeToBlock v n ≠ .ok 0
  record : ∀ e, recordExtent v n = .ok e → e.Apart (blockExtent v 2) ∧
    (60 ≤ link.size → e.Apart (blockExtent v (link.block 0)))
  entry : ∀ recorded, writeInode v n link = .ok recorded →
    ∀ written, entryExtents recorded parent = .ok written →
    ∀ kept, linkExtents recorded n link = .ok kept →
      ∀ e ∈ written, ∀ l ∈ kept, e.Apart l

/-- The entry of the link is written elsewhere. -/
def EntrySpares (v : Volume) (target path : CString) : Prop :=
  ∀ parent gone n taken, Stages v path parent gone n taken →
    ∀ link stored, storeTarget taken target = .ok (some link, stored) →
      WrittenApart stored parent n link

end

section

variable {v w : Volume} {target path : CString} {parent n : ℕ}
  {link : Inode} {name : CString} {done : Bool}

theorem WrittenApart.kept
    {recorded : Volume} (h : WrittenApart v parent n link)
    (hsize : v.blockSize ≤ 131072) (hinode : 128 ≤ v.inodeSize)
    (hbitmaps : v.blocksPerGroup ≤ 8 * v.blockSize)
    (hrecorded : writeInode v n link = .ok recorded)
    (hentry : createDirEntry recorded parent name n 7 = .ok (done, w)) :
    ∃ last, w = v.withDisk last ∧
      (∃ inode, readInode w n = .ok inode ∧ ∀ k < 128, inode k = link k) ∧
      (60 ≤ link.size → SameBlock v last (link.block 0)) := by
  have hwrite := hrecorded
  unfold writeInode at hwrite
  rw [Outcome.bind_eq_ok] at hwrite
  obtain ⟨block, hlocated, hwrite⟩ := hwrite
  have hblock : block ≠ 0 := by
    rintro rfl
    exact h.located hlocated
  simp only [hblock, if_false] at hwrite
  split_ifs at hwrite with hlarge
  have hinode : v.inodeSize = 128 := by
    unfold Inode.sizeOf at hlarge
    omega
  have hplace : recordExtent v n =
      .ok ⟨v.blockBase block + inodeOffset v n, Inode.sizeOf⟩ := by
    unfold recordExtent
    rw [hlocated]
    rfl
  obtain ⟨hdescriptors, htarget⟩ := h.record _ hplace
  have hentries := h.entry recorded hrecorded
  rw [writeInode_withDisk link hsize hinode hlocated hblock] at hrecorded
  cases hrecorded
  have hrecord : ∀ k, v.disk.blit (v.blockBase block + inodeOffset v n) link 128 k ≠
      v.disk k → Extent.Contains
        ⟨v.blockBase block + inodeOffset v n, Inode.sizeOf⟩ k := by
    intro k hk
    obtain ⟨offset, hoffset, rfl⟩ := offset_of_blit hk
    unfold Extent.Contains
    dsimp only [Inode.sizeOf]
    omega
  generalize hdisk : v.disk.blit (v.blockBase block + inodeOffset v n) link 128 =
    disk at *
  have hfound : SameBlock v disk 2 := sameBlock_of_change (fun _ _ => rfl)
    fun k hk => hdescriptors k (hrecord k hk)
  obtain ⟨kept, hkept, hrecordMem, hdescriptorMem, htargetMem⟩ :
      ∃ kept, linkExtents (v.withDisk disk) n link = .ok kept ∧
        ⟨v.blockBase block + inodeOffset v n, Inode.sizeOf⟩ ∈ kept ∧
        blockExtent v 2 ∈ kept ∧
        (60 ≤ link.size → blockExtent v (link.block 0) ∈ kept) := by
    unfold linkExtents
    rw [recordExtent_withDisk hfound, hplace]
    simp only [bind, Except.bind]
    split_ifs with hshort
    · exact ⟨_, rfl, by simp, by simp [blockExtent], fun hlong => by omega⟩
    · exact ⟨_, rfl, by simp, by simp [blockExtent], fun _ => by simp [blockExtent]⟩
  obtain ⟨last, rfl, hchange⟩ := @createDirEntry_writes (v.withDisk disk) w parent
    name n 7 done hsize hinode hbitmaps (by
      rintro k ⟨written, hwritten, e, he, hk⟩
      exact hentries written hwritten kept hkept e he _ hdescriptorMem k hk)
    hentry
  have hspared : ∀ l ∈ kept, ∀ k, l.Contains k → last k = disk k := by
    intro l hl k hk
    by_contra hne
    obtain ⟨written, hwritten, e, he, hinside⟩ := hchange k hne
    exact hentries written hwritten kept hkept e he l hl k hinside hk
  have hsame : SameBlock v last 2 := sameBlock_of_change hfound fun k hk hin =>
    hk (hspared _ hdescriptorMem k hin)
  refine ⟨last, rfl, ⟨_, @readInode_eq (v.withDisk last) n block hsize hinode
    ((inodeToBlock_withDisk hsame n).trans hlocated) hblock, fun k hk => ?_⟩,
    fun hlong k hk => ?_⟩
  · have hspare := hspared _ hrecordMem
      (v.blockBase block + inodeOffset v n + k)
      ⟨Nat.le_add_right _ _, Nat.add_lt_add_left hk _⟩
    rw [storedInode_apply hk]
    refine hspare.trans ?_
    rw [← hdisk, blit_add _ _ _ hk]
  · have hin : InBlock v (link.block 0) (v.blockBase (link.block 0) + k) :=
      ⟨Nat.le_add_right _ _, Nat.add_lt_add_left hk _⟩
    refine (hspared _ (htargetMem hlong) _ hin).trans ?_
    by_contra hne
    exact htarget hlong _ (hrecord _ hne) hin

/-- Storing the target leaves the block buffer exactly when it is longer than the
buffer and there is a block for it. -/
theorem storeTarget_outOfBounds_iff
    (v : Volume) (hbitmaps : v.blocksPerGroup ≤ 8 * v.blockSize)
    (hlength : target.length < 4294967296) :
    storeTarget v target = .error .outOfBounds ↔
      v.blockSize < target.length ∧ ∀ next, findFreeBlock v ≠ .ok (0, next) := by
  have hlarge := v.blockSize_ge
  obtain ⟨block, next, hfind⟩ := findFreeBlock_ok v hbitmaps
  unfold storeTarget
  simp only [newLinkInode_size hlength, hfind, bind, Except.bind]
  split_ifs with hshort hzero
  · refine iff_of_false (fun h => by cases h) fun h => ?_
    omega
  · subst hzero
    exact iff_of_false (fun h => by cases h) fun h => h.2 next rfl
  · have hnone : ∀ other, Except.ok (block, next) ≠ (Except.ok (0, other) :
        Outcome (ℕ × Volume)) := by
      intro other hother
      cases hother
      exact hzero rfl
    refine Iff.trans ?_ (and_iff_left hnone).symm
    by_cases hroom : target.length ≤ v.blockSize
    · have hload : (Buffer.mk v.blockSize fun _ => 0).load 0
          (fun k => target.getD k 0) target.length = .ok ⟨v.blockSize, _⟩ :=
        Buffer.load_eq_ok.2 ⟨by simpa using hroom, rfl⟩
      rw [hload]
      exact iff_of_false (fun h => by cases h) (by omega)
    · have hcheck : (Buffer.mk v.blockSize fun _ => 0).check 0 target.length =
          .error .outOfBounds := by
        unfold Buffer.check
        rw [if_neg (by simpa using hroom)]
      unfold Buffer.load
      rw [hcheck]
      exact iff_of_true rfl (by omega)

/-- The volume in which the target is stored. -/
theorem Stages.toGeometry_eq
    {gone taken : Volume} (h : Stages v path parent gone n taken) :
    taken.toGeometry = v.toGeometry := by
  obtain ⟨done, hdelete⟩ := h.deleted
  exact (findFreeInode_toGeometry h.numbered).trans
    (ext3Delete_toGeometry hdelete)

/-- The link survives its own directory entry. -/
theorem ext3ReadSymlink_created
    {gone taken : Volume} {inode : Inode}
    (hsize : v.blockSize ≤ 131072) (hinode : 128 ≤ v.inodeSize)
    (hbitmaps : v.blocksPerGroup ≤ 8 * v.blockSize)
    (htarget : 0 ∉ target) (hlength : target.length < 4294967296)
    (hspares : EntrySpares v target path)
    (hstages : Stages v path parent gone n taken)
    (hcreate : ext3CreateSymlink v target path = .ok (true, w))
    (hfind : findFile w path = .ok (some (inode, n))) :
    ext3ReadSymlink w path = .ok (some target) := by
  have hspare := hspares _ _ _ _ hstages
  rw [← hstages.toGeometry_eq] at hsize hinode hbitmaps
  obtain ⟨⟨name, hresolved⟩, hparent, ⟨done, hdelete⟩, hnumbered, hn⟩ := hstages
  unfold ext3CreateSymlink at hcreate
  rw [hresolved, Outcome.bind_eq_ok] at hcreate
  obtain ⟨resolved, hresolved', hcreate⟩ := hcreate
  cases hresolved'
  simp only [hparent, if_false] at hcreate
  rw [hdelete, Outcome.bind_eq_ok] at hcreate
  obtain ⟨deleted, hdelete', hcreate⟩ := hcreate
  cases hdelete'
  simp only at hcreate
  rw [hnumbered, Outcome.bind_eq_ok] at hcreate
  obtain ⟨numbered, hnumbered', hcreate⟩ := hcreate
  cases hnumbered'
  simp only [hn, if_false] at hcreate
  rw [Outcome.bind_eq_ok] at hcreate
  obtain ⟨⟨found, stored⟩, hstore, hcreate⟩ := hcreate
  cases found with
  | none => cases hcreate
  | some link =>
      have hapart := hspare link stored hstore
      obtain ⟨next, rfl, hkeeps⟩ :=
        storeTarget_keeps hsize hbitmaps hlength hstore
      simp only at hcreate
      rw [Outcome.bind_eq_ok] at hcreate
      obtain ⟨recorded, hrecorded, hcreate⟩ := hcreate
      rw [Outcome.bind_eq_ok] at hcreate
      obtain ⟨⟨entered, last⟩, hentry, hcreate⟩ := hcreate
      cases hcreate
      obtain ⟨final, hfinal, ⟨found, hread, hrecord⟩, hblock⟩ :=
        hapart.kept hsize hinode hbitmaps hrecorded hentry
      rw [taken.withDisk_withDisk] at hfinal
      subst hfinal
      have hinode' := (findFile_eq_some.1 hfind).2.1
      rw [hread] at hinode'
      cases hinode'
      have hkept := hkeeps.kept hrecord fun hlong =>
        hblock (by rwa [hkeeps.size])
      rw [ext3ReadSymlink_eq hfind hkept.link]
      exact KeepsTarget.linkTarget ⟨hkept.link, hkept.size, hkept.short,
        hkept.long⟩ hsize htarget

/-- No target that does not fit makes the round trip, and every one that fits does
where the entry is written elsewhere. -/
theorem ext3CreateSymlink_roundTrips_iff
    (v : Volume) (target path : CString)
    (hsize : v.blockSize ≤ 131072) (hinode : 128 ≤ v.inodeSize)
    (hbitmaps : v.blocksPerGroup ≤ 8 * v.blockSize)
    (htarget : 0 ∉ target) (hlength : target.length < 4294967296) :
    (RoundTrips v target path → TargetFits v target path) ∧
      (EntrySpares v target path →
        (RoundTrips v target path ↔ TargetFits v target path)) := by
  have hforward : RoundTrips v target path → TargetFits v target path := by
    intro h parent gone n taken hstages
    have hgeometry := hstages.toGeometry_eq
    have hstores := (h _ _ _ _ hstages).1
    rw [ne_eq, storeTarget_outOfBounds_iff taken (by rw [hgeometry]; exact hbitmaps)
      hlength, hgeometry] at hstores
    by_contra hneither
    rw [not_or, not_exists] at hneither
    exact hstores ⟨by omega, hneither.2⟩
  refine ⟨hforward, fun hspares => ⟨hforward, fun h => ?_⟩⟩
  intro parent gone n taken hstages
  have hgeometry := hstages.toGeometry_eq
  refine ⟨?_, fun w hcreate inode hfind => ext3ReadSymlink_created hsize hinode
    hbitmaps htarget hlength hspares hstages hcreate hfind⟩
  rw [ne_eq, storeTarget_outOfBounds_iff taken (by rw [hgeometry]; exact hbitmaps)
    hlength, hgeometry]
  rintro ⟨hlong, hfree⟩
  rcases h _ _ _ _ hstages with hshort | ⟨next, hnone⟩
  · omega
  · exact hfree next hnone

end

/-! ## Prepared volumes -/

section

variable {v stored : Volume} {parent n : ℕ} {disk : ByteStore} {link : Inode}
  {target path : CString}

theorem storeTarget_held
    (hprep : Prepared v parent) (hheld : Held v parent disk)
    (hlength : target.length < 4294967296)
    (hstore : storeTarget (v.withDisk disk) target = .ok (some link, stored)) :
    ∃ next, stored = v.withDisk next ∧ Held v parent next ∧
      (60 ≤ target.length → FreeBlock v v.disk (link.block 0) ∧
        ¬FreeBlock v next (link.block 0)) := by
  unfold storeTarget at hstore
  simp only [newLinkInode_size hlength] at hstore
  split_ifs at hstore with hshort
  · cases hstore
    exact ⟨disk, rfl, hheld, fun hlong => by omega⟩
  · rw [Outcome.bind_eq_ok] at hstore
    obtain ⟨⟨block, taken⟩, hfind, hstore⟩ := hstore
    obtain ⟨other, next, hfind', hcases⟩ :=
      findFreeBlock_sets hprep.bitmaps hprep.blocks_lt hheld.descriptors
    have hnumber := (findFreeBlock_toGeometry hfind).2
    rw [hfind] at hfind'
    cases hfind'
    simp only at hstore
    split_ifs at hstore with hzero
    · cases hstore
    rcases hcases with ⟨rfl, -⟩ | ⟨hgroup, hclear, rfl⟩
    · exact absurd rfl hzero
    rw [Outcome.bind_eq_ok] at hstore
    obtain ⟨buffer, hload, hstore⟩ := hstore
    cases hstore
    have hset : Held v parent
        (disk.setBit ((Resource.block block).bitAddress v)) :=
      hheld.setBit hprep hgroup (Resource.block block).field_mem
        ((Resource.block block).index_lt hprep.bitmaps)
    have hfree : FreeBlock v v.disk block := hheld.was_free ⟨hgroup, hclear⟩
    have hblock : Inode.block (((newLinkInode target).setBlock 0 block).setBlocks
        ((v.withDisk disk).blockSize / 512)) 0 = block := by
      unfold Inode.block Inode.setBlocks Inode.setBlock
      rw [le32_put32_of_disjoint _ _ (by omega), le32_put32_same,
        u32_of_lt hnumber]
    refine ⟨_, rfl, hset.fill hprep hfree _, fun _ => ?_⟩
    rw [hblock]
    refine ⟨hfree, fun hstill => ?_⟩
    have hmark := (hprep.mark_fill hfree _ hgroup).symm.trans hstill.2
    rw [bit_setBit, decide_eq_true rfl, Bool.or_true] at hmark
    cases hmark

theorem Prepared.writtenApart
    {taken : Volume} (h : Prepared v parent)
    (hlength : target.length < 4294967296)
    (hnumbered : findFreeInode v = .ok (n, taken)) (hn : n ≠ 0)
    (hstore : storeTarget taken target = .ok (some link, stored)) :
    WrittenApart stored parent n link := by
  obtain ⟨hrange, hne, disk, rfl, hheld⟩ := h.takeInode hnumbered hn
  obtain ⟨_, -, hkeeps⟩ := @storeTarget_keeps _ _ (v.withDisk disk) _
    h.bitmaps.blockSize_le h.bitmaps.blocks hlength hstore
  obtain ⟨next, rfl, hheld, hblock⟩ := storeTarget_held h hheld hlength hstore
  have hsame := hheld.descriptor hrange
  have hgroups : 0 < v.groupCount := Nat.zero_lt_of_lt hrange.2.2
  obtain ⟨block, hlocated, hne', -, -⟩ := h.tables.located h.reach hrange
  have hsize : 60 ≤ link.size ↔ 60 ≤ target.length := by rw [hkeeps.size]
  have hrecord := h.recordExtent_eq hrange
  have hinside : ∀ k, Extent.Contains ⟨v.recordAddress n, 128⟩ k →
      ∃ offset < 128, k = v.recordAddress n + offset := by
    rintro k ⟨hlow, hhigh⟩
    dsimp only at hlow hhigh
    exact ⟨k - v.recordAddress n, by omega, by omega⟩
  constructor
  · rw [inodeToBlock_withDisk hsame, hlocated]
    intro hzero
    cases hzero
    exact hne' rfl
  · intro e he
    rw [recordExtent_withDisk hsame, hrecord] at he
    cases he
    refine ⟨fun k hk => ?_, fun hlong k hk => ?_⟩
    · obtain ⟨offset, hoffset, rfl⟩ := hinside k hk
      have houtside := (h.record_outside hrange hoffset hgroups).1
      rwa [descriptorBlock_zero] at houtside
    · obtain ⟨offset, hoffset, rfl⟩ := hinside k hk
      exact h.record_not_free hrange hoffset (hblock (hsize.1 hlong)).1
  · intro recorded hrecorded written hwritten kept hkept e he l hl k hk hin
    rw [h.writeRecord hrange hsame] at hrecorded
    cases hrecorded
    have hheld' := hheld.writeRecord h hrange hne link
    have hbyte := entryByte_of_place hheld' h ⟨written, hwritten, e, he, hk⟩
    have hspares := h.entry_spares hheld' hrange hne hbyte
    have hrecordSpared : ¬Extent.Contains ⟨v.recordAddress n, 128⟩ k := by
      intro hown
      obtain ⟨offset, hoffset, rfl⟩ := hinside k hown
      exact hspares.2 offset hoffset rfl
    unfold linkExtents at hkept
    rw [recordExtent_withDisk (hheld'.descriptor hrange), hrecord] at hkept
    simp only [bind, Except.bind] at hkept
    split_ifs at hkept with hshort
    · cases hkept
      simp only [List.mem_cons, List.not_mem_nil, or_false] at hl
      rcases hl with rfl | rfl
      · exact hspares.1 hin
      · exact hrecordSpared hin
    · cases hkept
      simp only [List.mem_cons, List.not_mem_nil, or_false] at hl
      rcases hl with rfl | rfl | rfl
      · exact hspares.1 hin
      · exact hrecordSpared hin
      · obtain ⟨hfree, htaken⟩ := hblock (by omega)
        refine h.entry_spares_block hfree (fun hstill => htaken ?_) hbyte hin
        exact ⟨hstill.1,
          (h.mark_record hrange link hstill.1).symm.trans hstill.2⟩

theorem EntrySpares.of_prepared
    {v : Volume} (hlength : target.length < 4294967296)
    (hprep : ∀ parent gone n taken, Stages v path parent gone n taken →
      Prepared gone parent) : EntrySpares v target path :=
  fun _ _ _ _ hstages _ _ hstore => (hprep _ _ _ _ hstages).writtenApart hlength
    hstages.numbered hstages.number_ne hstore

end

/-! ## Links in a small root directory -/

/-- The test of `WrittenApart`. -/
def writtenApart (v : Volume) (parent n : ℕ) (link : Inode) : Bool :=
  (inodeToBlock v n).satisfies (fun block => block ≠ 0) &&
  (recordExtent v n).satisfies (fun e => e.Apart (blockExtent v 2) ∧
    (60 ≤ link.size → e.Apart (blockExtent v (link.block 0)))) &&
  (writeInode v n link).satisfies (fun recorded =>
    (entryExtents recorded parent).satisfies fun written =>
      (linkExtents recorded n link).satisfies fun kept =>
        ∀ e ∈ written, ∀ l ∈ kept, e.Apart l)

theorem WrittenApart.of_test
    {v : Volume} {parent n : ℕ} {link : Inode}
    (h : writtenApart v parent n link = true) : WrittenApart v parent n link := by
  unfold writtenApart at h
  rw [Bool.and_eq_true, Bool.and_eq_true] at h
  obtain ⟨⟨hlocated, hrecord⟩, hentry⟩ := h
  obtain ⟨block, hblock, hne⟩ := Outcome.exists_of_satisfies hlocated
  obtain ⟨e, he, hapart⟩ := Outcome.exists_of_satisfies hrecord
  obtain ⟨recorded, hrecorded, hentry⟩ := Outcome.exists_of_satisfies hentry
  obtain ⟨written, hwritten, hentry⟩ := Outcome.exists_of_satisfies hentry
  obtain ⟨kept, hkept, hall⟩ := Outcome.exists_of_satisfies hentry
  constructor
  · intro hzero
    rw [hblock] at hzero
    cases hzero
    exact of_decide_eq_true hne rfl
  · intro other hother
    rw [he] at hother
    cases hother
    exact of_decide_eq_true hapart
  · intro next hnext extents hextents places hplaces
    rw [hrecorded] at hnext
    cases hnext
    rw [hwritten] at hextents
    cases hextents
    rw [hkept] at hplaces
    cases hplaces
    exact of_decide_eq_true hall

theorem stages_missing_iff
    {v gone taken : Volume} {path name : CString} {parent n : ℕ}
    (hresolve : resolveParent v path = .ok (rootInode, name))
    (hmissing : findFile v path = .ok none) :
    Stages v path parent gone n taken ↔
      parent = rootInode ∧ gone = v ∧ findFreeInode v = .ok (n, taken) ∧
        n ≠ 0 := by
  have hdelete : ext3Delete v path = .ok (false, v) := by
    unfold ext3Delete
    rw [hmissing]
    rfl
  constructor
  · rintro ⟨⟨other, hresolved⟩, -, ⟨done, hdeleted⟩, hnumbered, hn⟩
    rw [hresolve] at hresolved
    rw [hdelete] at hdeleted
    cases hresolved
    cases hdeleted
    exact ⟨rfl, rfl, hnumbered, hn⟩
  · rintro ⟨rfl, rfl, hnumbered, hn⟩
    exact ⟨⟨_, hresolve⟩, by decide, ⟨_, hdelete⟩, hnumbered, hn⟩

/-- A volume of two groups, both described in block 2.  The driver looks for the
second descriptor in block 4. -/
def secondGroup : Volume where
  toGeometry := { smallGeometry with groupCount := 2 }
  disk := (shortLink.disk.put32 4128 0).put32 2088 8196
  garbage := fun _ => 0

/-- The stages of a link under a new name. -/
theorem secondGroup_stages
    {parent n : ℕ} {gone taken : Volume} :
    Stages secondGroup [47, 120] parent gone n taken ↔
      parent = rootInode ∧ gone = secondGroup ∧
        findFreeInode secondGroup = .ok (n, taken) ∧ n ≠ 0 := by
  have hmissing : (findFile secondGroup [47, 120]).satisfies Option.isNone =
      true := by
    decide +kernel
  obtain ⟨found, hfind, hnone⟩ := Outcome.exists_of_satisfies hmissing
  obtain rfl := Option.isNone_iff_eq_none.1 hnone
  exact stages_missing_iff (show resolveParent secondGroup [47, 120] =
    .ok (rootInode, [120]) by rfl) hfind

theorem secondGroup_spares
    {target : CString}
    (htest : (findFreeInode secondGroup).satisfies (fun numbered =>
      (storeTarget numbered.2 target).satisfies fun stored =>
        stored.1.all fun link =>
          writtenApart stored.2 rootInode numbered.1 link) = true) :
    EntrySpares secondGroup target [47, 120] := by
  intro parent gone n taken hstages link stored hstore
  obtain ⟨rfl, -, hnumbered, -⟩ := secondGroup_stages.1 hstages
  obtain ⟨numbered, hnumbered', htest⟩ := Outcome.exists_of_satisfies htest
  rw [hnumbered] at hnumbered'
  cases hnumbered'
  obtain ⟨found, hfound, htest⟩ := Outcome.exists_of_satisfies htest
  rw [hstore] at hfound
  cases hfound
  exact WrittenApart.of_test htest

theorem ext3CreateSymlink_roundTrips_secondGroup :
    RoundTrips secondGroup [97] [47, 120] ∧
      RoundTrips secondGroup (List.replicate 100 97) [47, 120] := by
  constructor
  · refine ((ext3CreateSymlink_roundTrips_iff secondGroup [97] [47, 120]
      (by decide) (by decide) (by decide) (by decide) (by decide)).2
      (secondGroup_spares (by decide +kernel))).2 fun _ _ _ _ _ => .inl (by decide)
  · refine ((ext3CreateSymlink_roundTrips_iff secondGroup
      (List.replicate 100 97) [47, 120] (by decide) (by decide) (by decide)
      (by simp) (by simp)).2 (secondGroup_spares (by decide +kernel))).2
      fun _ _ _ _ _ => .inl (by simp [secondGroup, smallGeometry])

/-- A target of 1025 bytes does not fit the buffer of 1024. -/
theorem ext3CreateSymlink_overflows :
    ¬RoundTrips secondGroup (List.replicate 1025 97) [47, 120] := by
  have htest : (findFreeInode secondGroup).satisfies (fun numbered =>
      decide (numbered.1 ≠ 0 ∧ (findFreeBlock numbered.2).satisfies
        fun found => found.1 ≠ 0)) = true := by
    decide +kernel
  obtain ⟨⟨n, taken⟩, hnumbered, htest⟩ := Outcome.exists_of_satisfies htest
  obtain ⟨hn, htest⟩ := of_decide_eq_true htest
  obtain ⟨⟨block, next⟩, hfound, hblock⟩ := Outcome.exists_of_satisfies htest
  have hlength : (List.replicate 1025 (97 : UInt8)).length = 1025 :=
    List.length_replicate
  have hgeometry := findFreeInode_toGeometry hnumbered
  have hsize : secondGroup.blockSize = 1024 := rfl
  generalize List.replicate 1025 (97 : UInt8) = target at hlength ⊢
  intro h
  have hstores := (h _ _ _ _ (secondGroup_stages.2 ⟨rfl, rfl, hnumbered, hn⟩)).1
  refine hstores ((storeTarget_outOfBounds_iff taken
    (by rw [hgeometry]; decide) (by omega)).2
      ⟨by rw [hgeometry]; omega, fun other hother => ?_⟩)
  simp only at hfound
  rw [hother] at hfound
  cases hfound
  exact absurd rfl (of_decide_eq_true hblock)

end ClOs.Ext3
