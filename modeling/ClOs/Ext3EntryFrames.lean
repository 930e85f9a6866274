import ClOs.Ext3Groups
import ClOs.Ext3InodeRecords

/-!
# What adding an entry writes

`create_dir_entry` writes the inode of the directory and either the block of the
entry or a bit and a block that it takes.  The places are known before the first of
these writes, unless one of them falls on the descriptors of block 2.
-/

namespace ClOs.Ext3

open ByteStore

/-! ## Extents -/

/-- Bytes of the drive that follow each other. -/
structure Extent where
  start : ℕ
  length : ℕ

namespace Extent

def Contains (e : Extent) (k : ℕ) : Prop :=
  e.start ≤ k ∧ k < e.start + e.length

/-- Two extents without a common byte. -/
def Apart (e l : Extent) : Prop := ∀ k, e.Contains k → ¬l.Contains k

theorem apart_iff (e l : Extent) :
    e.Apart l ↔ e.length = 0 ∨ l.length = 0 ∨ e.start + e.length ≤ l.start ∨
      l.start + l.length ≤ e.start := by
  constructor
  · intro hapart
    have hfirst := hapart e.start
    have hsecond := hapart l.start
    unfold Contains at hfirst hsecond
    omega
  · intro hcases k hfirst hsecond
    unfold Contains at hfirst hsecond
    omega

instance (e l : Extent) : Decidable (e.Apart l) :=
  decidable_of_iff _ (e.apart_iff l).symm

end Extent

def ChangesOnly (region : ℕ → Prop) (before after : ByteStore) : Prop :=
  ∀ k, after k ≠ before k → region k

theorem ChangesOnly.trans
    {region : ℕ → Prop} {before between after : ByteStore}
    (h : ChangesOnly region before between)
    (h' : ChangesOnly region between after) :
    ChangesOnly region before after := by
  intro k hk
  by_cases hsame : between k = before k
  · exact h' k fun hlast => hk (hlast.trans hsame)
  · exact h k hsame

theorem ChangesOnly.mono
    {region larger : ℕ → Prop} {before after : ByteStore}
    (h : ChangesOnly region before after) (hle : ∀ k, region k → larger k) :
    ChangesOnly larger before after :=
  fun k hk => hle k (h k hk)

/-! ## The places -/

section

variable (v : Volume)

def blockExtent (block : ℕ) : Extent := ⟨v.blockBase block, v.blockSize⟩

def recordExtent (n : ℕ) : Outcome Extent := do
  let block ← inodeToBlock v n
  return ⟨v.blockBase block + inodeOffset v n, Inode.sizeOf⟩

/-- The byte of the bitmap that holds bit `i` of group `g`. -/
def bitExtent (g i : ℕ) : Extent :=
  ⟨v.blockBase (v.descriptorWord g 0) + i / 8, 1⟩

/-- The directory has no block yet where `create_dir_entry` puts the next entry. -/
def NeedsBlock (inode : Inode) : Prop :=
  inode.size / v.blockSize < 12 ∧ inode.block (inode.size / v.blockSize) = 0

instance (inode : Inode) : Decidable (NeedsBlock v inode) :=
  inferInstanceAs (Decidable (_ ∧ _))

/-- What `create_dir_entry` writes. -/
def entryExtents (parent : ℕ) : Outcome (List Extent) := do
  let inode ← readInode v parent
  let record ← recordExtent v parent
  if NeedsBlock v inode then
    match ← findFreeBit v (blockSearch v) v.groupCount 0 with
    | (none, _) => return []
    | (some (g, i), _) =>
        return [record, bitExtent v g i,
          blockExtent v (u32 (g * v.blocksPerGroup + i))]
  else
    let block ← blockSlot inode (inode.size / v.blockSize)
    return [record, blockExtent v block]

/-- Byte `k` is written. -/
def EntryPlace (parent k : ℕ) : Prop :=
  ∃ extents, entryExtents v parent = .ok extents ∧
    ∃ e ∈ extents, e.Contains k

end

/-! ## The writes -/

section

variable {v w : Volume} {parent n block k : ℕ} {disk : ByteStore} {e : Extent}

theorem offset_of_blit
    {address count : ℕ} {source : ByteStore}
    (hk : disk.blit address source count k ≠ disk k) :
    ∃ offset < count, k = address + offset := by
  by_contra hout
  refine hk (blit_outside _ _ ?_)
  by_contra hinside
  exact hout ⟨k - address, by omega, by omega⟩

theorem block_of_write
    {bytes : ByteStore} (hsize : v.blockSize ≤ 131072)
    (hk : (writeBlock (v.withDisk disk) block bytes).disk k ≠ disk k) :
    InBlock v block k := by
  by_contra hout
  exact hk (writeBlock_outside (v.withDisk disk) bytes hsize hout)

theorem writeBlock_withDisk (bytes : ByteStore) :
    writeBlock (v.withDisk disk) block bytes =
      v.withDisk (writeBlock (v.withDisk disk) block bytes).disk := rfl

theorem recordExtent_withDisk
    (hsame : SameBlock v disk 2) (n : ℕ) :
    recordExtent (v.withDisk disk) n = recordExtent v n := by
  unfold recordExtent
  rw [inodeToBlock_withDisk hsame]
  rfl

theorem writeInode_extent
    {source : Inode} (hsize : v.blockSize ≤ 131072) (hinode : v.inodeSize = 128)
    (hrecord : recordExtent v n = .ok e)
    (h : writeInode v n source = .ok w) :
    ∃ next, w = v.withDisk next ∧ ChangesOnly e.Contains v.disk next := by
  unfold recordExtent at hrecord
  rw [Outcome.bind_eq_ok] at hrecord
  obtain ⟨block, hlocated, hrecord⟩ := hrecord
  cases hrecord
  by_cases hblock : block = 0
  · subst hblock
    unfold writeInode at h
    rw [hlocated] at h
    cases h
    exact ⟨v.disk, rfl, fun k hk => absurd rfl hk⟩
  · rw [writeInode_withDisk source hsize hinode hlocated hblock] at h
    cases h
    refine ⟨_, rfl, fun k hk => ?_⟩
    obtain ⟨offset, hoffset, rfl⟩ := offset_of_blit hk
    unfold Extent.Contains
    dsimp only [Inode.sizeOf]
    omega

theorem readInode_placed
    {inode : Inode} (h : readInode v n = .ok inode) :
    ∃ e, recordExtent v n = .ok e := by
  unfold readInode at h
  rw [Outcome.bind_eq_ok] at h
  obtain ⟨block, hlocated, -⟩ := h
  unfold recordExtent
  rw [hlocated]
  exact ⟨_, rfl⟩

theorem sameBlock_of_change
    {next : ByteStore} (hsame : SameBlock v disk block)
    (hchange : ∀ k, next k ≠ disk k → ¬InBlock v block k) :
    SameBlock v next block := by
  intro k hk
  refine (not_not.1 fun hne => hchange _ hne ?_).trans (hsame k hk)
  unfold InBlock
  omega

theorem descriptors_kept
    (hdescriptors : ∀ k, EntryPlace v parent k → ¬InBlock v 2 k)
    (hchange : ChangesOnly (EntryPlace v parent) v.disk disk) :
    SameBlock v disk 2 :=
  sameBlock_of_change (fun _ _ => rfl) fun k hk => hdescriptors k (hchange k hk)

/-- The inode of the directory is written where it was read. -/
theorem writeInode_place
    {source : Inode} (hsize : v.blockSize ≤ 131072) (hinode : v.inodeSize = 128)
    (hdescriptors : ∀ k, EntryPlace v parent k → ¬InBlock v 2 k)
    (hchange : ChangesOnly (EntryPlace v parent) v.disk disk)
    (hrecord : recordExtent v parent = .ok e)
    (hplace : ∀ k, e.Contains k → EntryPlace v parent k)
    (h : writeInode (v.withDisk disk) parent source = .ok w) :
    ∃ next, w = v.withDisk next ∧
      ChangesOnly (EntryPlace v parent) v.disk next := by
  have hsame := descriptors_kept hdescriptors hchange
  rw [← recordExtent_withDisk hsame] at hrecord
  obtain ⟨next, hnext, honly⟩ :=
    @writeInode_extent (v.withDisk disk) w parent e source hsize hinode hrecord h
  rw [v.withDisk_withDisk] at hnext
  exact ⟨next, hnext, hchange.trans (honly.mono hplace)⟩

theorem entryExtents_taken
    {inode : Inode} {g i : ℕ} {taken : Volume}
    (hread : readInode v parent = .ok inode)
    (hrecord : recordExtent v parent = .ok e) (hneeds : NeedsBlock v inode)
    (hfind : findFreeBit v (blockSearch v) v.groupCount 0 =
      .ok (some (g, i), taken)) :
    entryExtents v parent = .ok [e, bitExtent v g i,
      blockExtent v (u32 (g * v.blocksPerGroup + i))] := by
  unfold entryExtents
  rw [hread, hrecord, hfind]
  simp only [bind, Except.bind, if_pos hneeds]
  rfl

theorem entryExtents_present
    {inode : Inode}
    (hread : readInode v parent = .ok inode)
    (hrecord : recordExtent v parent = .ok e) (hneeds : ¬NeedsBlock v inode)
    (hslot : blockSlot inode (inode.size / v.blockSize) = .ok block) :
    entryExtents v parent = .ok [e, blockExtent v block] := by
  unfold entryExtents
  rw [hread, hrecord]
  simp only [bind, Except.bind, if_neg hneeds, hslot]
  rfl

theorem findFreeBlock_place
    {number : ℕ} {taken : Volume}
    (hsize : v.blockSize ≤ 131072) (hbitmaps : v.blocksPerGroup ≤ 8 * v.blockSize)
    (hfind : findFreeBlock v = .ok (number, taken)) :
    (number = 0 ∧ taken = v) ∨ ∃ g i,
      findFreeBit v (blockSearch v) v.groupCount 0 = .ok (some (g, i), taken) ∧
        number = u32 (g * v.blocksPerGroup + i) ∧
        ∃ next, taken = v.withDisk next ∧
          ChangesOnly (bitExtent v g i).Contains v.disk next := by
  unfold findFreeBlock at hfind
  rw [Outcome.bind_eq_ok] at hfind
  obtain ⟨⟨found, volume⟩, hbit, hfind⟩ := hfind
  rcases findFreeBit_spec hbit with ⟨rfl, rfl⟩ |
    ⟨g, i, -, -, hfree, -, -, rfl, hvolume⟩
  · cases hfind
    exact .inl ⟨rfl, rfl⟩
  · cases hfind
    have hi : i < v.blocksPerGroup := hfree.high
    have hset := writeBlock_setBit v (v.descriptorWord g
      (blockSearch v).bitmapField) hsize (show i < 8 * v.blockSize by omega)
    refine .inr ⟨g, i, hbit, rfl, _, hvolume, fun k hk => ?_⟩
    have hbyte : k = (8 * v.blockBase (v.descriptorWord g
        (blockSearch v).bitmapField) + i) / 8 := by
      by_contra hne
      exact hk ((congrFun hset k).trans (setBit_apply_of_ne v.disk hne))
    have hfield : (blockSearch v).bitmapField = 0 := rfl
    rw [hfield] at hbyte
    unfold Extent.Contains bitExtent
    dsimp only
    omega

theorem createDirEntry_writes
    {name : CString} {number type : ℕ} {done : Bool}
    (hsize : v.blockSize ≤ 131072) (hinode : v.inodeSize = 128)
    (hbitmaps : v.blocksPerGroup ≤ 8 * v.blockSize)
    (hdescriptors : ∀ k, EntryPlace v parent k → ¬InBlock v 2 k)
    (h : createDirEntry v parent name number type = .ok (done, w)) :
    ∃ last, w = v.withDisk last ∧
      ChangesOnly (EntryPlace v parent) v.disk last := by
  have hkept : ChangesOnly (EntryPlace v parent) v.disk v.disk :=
    fun k hk => absurd rfl hk
  cases createDirEntry_returns h with
  | noBuffer => exact ⟨v.disk, rfl, hkept⟩
  | noBlock hfilled hneeds hfind =>
      rcases findFreeBlock_place hsize hbitmaps hfind with ⟨-, rfl⟩ |
        ⟨g, i, hbit, -, next, rfl, hnext⟩
      · exact ⟨_, rfl, hkept⟩
      obtain ⟨e, hrecord⟩ := readInode_placed hfilled.read
      have hextents := entryExtents_taken hfilled.read hrecord hneeds hbit
      exact ⟨next, rfl, hnext.mono fun k hk => ⟨_, hextents, _, by simp, hk⟩⟩
  | newBlock hfilled hneeds hfind hblock _ hlink _ hlast =>
      obtain ⟨e, hrecord⟩ := readInode_placed hfilled.read
      rcases findFreeBlock_place hsize hbitmaps hfind with ⟨rfl, -⟩ |
        ⟨g, i, hbit, rfl, next, rfl, hnext⟩
      · exact absurd rfl hblock
      have hextents := entryExtents_taken hfilled.read hrecord hneeds hbit
      have hset : ChangesOnly (EntryPlace v parent) v.disk next :=
        hnext.mono fun k hk => ⟨_, hextents, _, by simp, hk⟩
      have hrecords : ∀ k, e.Contains k → EntryPlace v parent k :=
        fun k hk => ⟨_, hextents, _, by simp, hk⟩
      obtain ⟨mapped, rfl, hmapped⟩ := writeInode_place hsize hinode
        hdescriptors hset hrecord hrecords hlink
      refine writeInode_place hsize hinode hdescriptors
        (hmapped.trans fun k hk => ?_) hrecord hrecords hlast
      exact ⟨_, hextents, blockExtent v _, by simp, block_of_write hsize hk⟩
  | oldBlock hfilled hneeds hslot _ hlast =>
      obtain ⟨e, hrecord⟩ := readInode_placed hfilled.read
      have hextents := entryExtents_present hfilled.read hrecord hneeds hslot
      refine writeInode_place hsize hinode hdescriptors (fun k hk => ?_) hrecord
        (fun k hk => ⟨_, hextents, _, by simp, hk⟩) hlast
      exact ⟨_, hextents, blockExtent v _, by simp, block_of_write hsize hk⟩

end

end ClOs.Ext3
