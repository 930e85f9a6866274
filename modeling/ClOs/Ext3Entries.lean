import ClOs.Ext3Deletion

/-!
# Adding an entry to a directory

`create_dir_entry` puts the entry where the walk ends, writes the block at
`size / block_size` and adds the length of the entry to the size.  The three
are computed apart.  Here they are brought together for the directories where
they meet in one block.
-/

namespace ClOs.Ext3

open ByteStore

/-! ## Blocks apart -/

theorem sameBlock_of_apart
    {v : Volume} {disk : ByteStore} {block other : ℕ}
    (hdisk : ∀ k, ¬InBlock v block k → disk k = v.disk k)
    (hapart : v.blockBase other ≠ v.blockBase block) :
    SameBlock v disk other := by
  intro k hk
  apply hdisk
  intro hinside
  have hown : InBlock v other (v.blockBase other + k) := by
    unfold InBlock
    omega
  exact hapart (hown.same_base hinside)

theorem writeBlock_outside
    (v : Volume) {block k : ℕ} (bytes : ByteStore)
    (hsize : v.blockSize ≤ 131072)
    (hk : ¬InBlock v block k) :
    (writeBlock v block bytes).disk k = v.disk k := by
  unfold InBlock at hk
  rw [writeBlock_disk, v.transfer_eq (by omega), blit_outside _ _ (by omega)]

theorem writeBlock_inside
    (v : Volume) {block k : ℕ} (bytes : ByteStore)
    (hsize : v.blockSize ≤ 131072)
    (hk : k < v.blockSize) :
    (writeBlock v block bytes).disk (v.blockBase block + k) = bytes k := by
  rw [writeBlock_disk, v.transfer_eq (by omega), blit_add _ _ _ hk]

theorem sameBlock_writeBlock
    {v : Volume} {block other : ℕ} (bytes : ByteStore)
    (hsize : v.blockSize ≤ 131072)
    (hapart : v.blockBase other ≠ v.blockBase block) :
    SameBlock v (writeBlock v block bytes).disk other :=
  sameBlock_of_apart (fun _ hk => writeBlock_outside v bytes hsize hk) hapart

theorem SameBlock.trans
    {v : Volume} {disk disk' : ByteStore} {block : ℕ}
    (h : SameBlock v disk block)
    (h' : SameBlock (v.withDisk disk) disk' block) :
    SameBlock v disk' block :=
  fun k hk => (h' k hk).trans (h k hk)

/-! ## The record of an inode -/

theorem inodeOffset_le
    (v : Volume) (n : ℕ) (hinode : v.inodeSize = 128) :
    inodeOffset v n + 128 ≤ v.blockSize := by
  obtain ⟨shift, -, hblock⟩ := v.blockSize_eq
  have hdvd : 128 ∣ inodeOffset v n := by
    unfold inodeOffset u32
    rw [hinode]
    have hbs : 128 ∣ v.blockSize :=
      ⟨8 * 2 ^ shift, by rw [hblock]; ring⟩
    apply (Nat.dvd_mod_iff hbs).2
    apply (Nat.dvd_mod_iff (by norm_num)).2
    exact Nat.dvd_mul_left _ _
  have hlt : inodeOffset v n < v.blockSize :=
    Nat.mod_lt _ v.blockSize_pos
  omega

/-- The inode that `read_inode` finds in a block. -/
def storedInode (v : Volume) (n block : ℕ) : Inode :=
  v.garbage.blit 0 (v.disk.drop (v.blockBase block + inodeOffset v n)) 128

theorem readInode_eq
    {v : Volume} {n block : ℕ}
    (hsize : v.blockSize ≤ 131072)
    (hinode : v.inodeSize = 128)
    (hlocated : inodeToBlock v n = .ok block)
    (hblock : block ≠ 0) :
    readInode v n = .ok (storedInode v n block) := by
  have hroom := inodeOffset_le v n hinode
  have hslice : (fetch v block).slice (inodeOffset v n) v.inodeSize =
      .ok ((fetch v block).bytes.drop (inodeOffset v n)) :=
    Buffer.slice_eq_ok.2 ⟨by rw [hinode, fetch_size]; exact hroom, rfl⟩
  have hsmall : ¬Inode.sizeOf < v.inodeSize := by
    unfold Inode.sizeOf
    omega
  have hbytes : v.garbage.blit 0
      ((fetch v block).bytes.drop (inodeOffset v n)) v.inodeSize =
        storedInode v n block := by
    rw [hinode]
    apply blit_congr
    intro k hk
    simp only [drop_apply]
    rw [fetch_apply v block (by omega) (by omega), Nat.add_assoc]
  simp [readInode, hlocated, hblock, hslice, hsmall, hbytes, bind,
    Except.bind, pure, Except.pure]

theorem writeInode_eq
    {v : Volume} {n block : ℕ} (source : Inode)
    (hinode : v.inodeSize = 128)
    (hlocated : inodeToBlock v n = .ok block)
    (hblock : block ≠ 0) :
    writeInode v n source = .ok (writeBlock v block
      ((fetch v block).bytes.blit (inodeOffset v n) source 128)) := by
  have hroom := inodeOffset_le v n hinode
  have hload : (fetch v block).load (inodeOffset v n) source v.inodeSize =
      .ok { fetch v block with
        bytes := (fetch v block).bytes.blit (inodeOffset v n) source 128 } :=
    Buffer.load_eq_ok.2 ⟨by rw [hinode, fetch_size]; exact hroom,
      by rw [hinode]⟩
  have hsmall : ¬Inode.sizeOf < v.inodeSize := by
    unfold Inode.sizeOf
    omega
  simp [writeInode, hlocated, hblock, hload, hsmall, bind, Except.bind, pure,
    Except.pure]

theorem storedInode_rest
    (v : Volume) (n block : ℕ) {k : ℕ} (hk : 128 ≤ k) :
    storedInode v n block k = v.garbage k :=
  blit_outside _ _ (by omega)

/-! ## The bytes of an entry -/

/-- An entry put at an offset of a directory. -/
def withEntry (bytes : ByteStore) (o number recLen type : ℕ)
    (name : CString) : ByteStore :=
  ((((bytes.put32 o number).put16 (o + 4) recLen).put8 (o + 6)
    name.length).put8 (o + 7) type).blit (o + 8)
      (fun k => name.getD k 0) name.length

section NewEntry

variable (bytes : ByteStore) (o number recLen type : ℕ) (name : CString)

theorem withEntry_outside {k : ℕ} (hk : k < o ∨ o + 8 + name.length ≤ k) :
    withEntry bytes o number recLen type name k = bytes k := by
  unfold withEntry
  rw [blit_outside _ _ (by omega), put8_apply_of_ne _ (by omega),
    put8_apply_of_ne _ (by omega), put16_outside _ (by omega),
    put32_outside _ (by omega)]

theorem withEntry_number (hnumber : number < 4294967296) :
    (withEntry bytes o number recLen type name).le32 o = number := by
  unfold withEntry
  rw [le32_blit_outside _ _ _ (by omega), le32_put8_of_disjoint _ _ (by omega),
    le32_put8_of_disjoint _ _ (by omega)]
  unfold put16
  rw [le32_blit_outside _ _ _ (by omega), le32_put32_same, u32_of_lt hnumber]

theorem withEntry_recLen (hrecLen : recLen < 65536) :
    (withEntry bytes o number recLen type name).le16 (o + 4) = recLen := by
  have hbyte : ∀ j < 2,
      withEntry bytes o number recLen type name (o + 4 + j) =
        byteOf recLen j := by
    intro j hj
    unfold withEntry
    rw [blit_outside _ _ (by omega), put8_apply_of_ne _ (by omega),
      put8_apply_of_ne _ (by omega)]
    exact blit_add _ _ _ hj
  rw [le16_byteOf _ recLen _ (hbyte 0 (by omega)) (hbyte 1 (by omega)),
    Nat.mod_eq_of_lt hrecLen]

theorem withEntry_nameLength (hlength : name.length < 256) :
    nameLength (withEntry bytes o number recLen type name) o =
      name.length := by
  unfold nameLength withEntry
  rw [blit_outside _ _ (by omega), put8_apply_of_ne _ (by omega), put8_same]
  simp [Nat.mod_eq_of_lt hlength]

theorem withEntry_nameAt (hlength : name.length < 256)
    (hnonzero : ∀ b ∈ name, b ≠ 0) :
    nameAt (withEntry bytes o number recLen type name) o = name := by
  have hbytes : (List.range name.length).map
      ((withEntry bytes o number recLen type name).drop (o + 8)) = name := by
    apply List.ext_getElem
    · simp
    · intro k hk hk'
      rw [List.getElem_map, List.getElem_range, drop_apply]
      unfold withEntry
      rw [blit_add _ _ _ hk', List.getD_eq_getElem _ _ hk']
  unfold nameAt
  rw [withEntry_nameLength _ _ _ _ _ _ hlength, hbytes,
    List.takeWhile_eq_self_iff]
  intro b hb
  simpa using hnonzero b hb

theorem withEntry_congr {bytes' : ByteStore} {k : ℕ}
    (h : bytes k = bytes' k) :
    withEntry bytes o number recLen type name k =
      withEntry bytes' o number recLen type name k := by
  simp only [withEntry, put8, put16, put32, blit, h]

end NewEntry

theorem recordLength_bounds {name : CString} (hlength : name.length ≤ 255) :
    8 + name.length ≤ recordLength name ∧ recordLength name ≤ 264 := by
  unfold recordLength
  omega

/-! ## Slots of an inode -/

theorem directBlocks_of_slots
    {inode : Inode} {blocks : List ℕ}
    (hslots : SlotsHold inode blocks)
    (hnonzero : ∀ b ∈ blocks, b ≠ 0)
    (hlength : blocks.length ≤ 12) :
    inode.directBlocks = blocks := by
  have hall : (List.range 12).map inode.block =
      blocks ++ List.replicate (12 - blocks.length) 0 := by
    apply List.ext_getElem
    · simp
      omega
    · intro k hk hk'
      simp only [List.length_map, List.length_range] at hk
      rw [List.getElem_map, List.getElem_range, hslots k hk]
      rcases Nat.lt_or_ge k blocks.length with hlt | hge
      · rw [List.getElem_append_left hlt, List.getD_eq_getElem _ _ hlt]
      · rw [List.getElem_append_right hge, List.getElem_replicate,
          List.getD_eq_default _ _ hge]
  unfold Inode.directBlocks
  rw [hall, List.takeWhile_append_of_pos (by simpa using hnonzero)]
  cases hrest : 12 - blocks.length with
  | zero => simp
  | succ rest => simp [List.replicate_succ]

/-- What the slots say when a block is put into the first free one. -/
theorem slotsHold_concat
    {inode next : Inode} {blocks : List ℕ} {block : ℕ}
    (hslots : SlotsHold inode blocks)
    (hsame : ∀ k < 12, k ≠ blocks.length → next.block k = inode.block k)
    (hnew : next.block blocks.length = block) :
    SlotsHold next (blocks ++ [block]) := by
  intro k hk
  rcases Nat.lt_trichotomy k blocks.length with hlt | rfl | hgt
  · rw [hsame k hk (by omega), hslots k hk, List.getD_append _ _ _ _ hlt]
  · rw [hnew]
    simp
  · rw [hsame k hk (by omega), hslots k hk,
      List.getD_eq_default _ _ (by omega),
      List.getD_eq_default _ _ (by simp; omega)]

/-! ## A directory on its own blocks -/

/-- The blocks that the driver reads to look a name up in a directory whose
inode is recorded in `table`. -/
def directoryBlocks (table : ℕ) (inode : Inode) : List ℕ :=
  2 :: table :: inode.directBlocks

/-- A directory whose walk stays inside its size and whose blocks, all of them
apart, are mapped one after another up to the size. -/
structure Stands (v : Volume) (d table : ℕ) (inode : Inode)
    (offsets : List ℕ) (last : ℕ) : Prop
    extends Directory v inode offsets last where
  blockSize_le : v.blockSize ≤ 65536
  bitmapFits : v.blocksPerGroup ≤ 8 * v.blockSize
  inodeSize_eq : v.inodeSize = 128
  located : inodeToBlock v d = .ok table
  table_ne : table ≠ 0
  stored : storedInode v d table = inode
  apart : ((directoryBlocks table inode).map v.blockBase).Nodup
  slots : SlotsHold inode inode.directBlocks
  covered : inode.size < (inode.directBlocks.length + 1) * v.blockSize
  last_le : last ≤ inode.size

theorem Stands.read
    {v : Volume} {d table : ℕ} {inode : Inode} {offsets : List ℕ}
    {last : ℕ} (h : Stands v d table inode offsets last) :
    readInode v d = .ok inode := by
  rw [readInode_eq (h.blockSize_le.trans (by norm_num)) h.inodeSize_eq h.located h.table_ne,
    h.stored]

theorem dirBytes_eq
    {v : Volume} {disk bytes : ByteStore} {inode : Inode}
    (hblocks : ∀ j b, inode.directBlocks[j]? = some b →
      ∀ k < v.blockSize,
        disk (v.blockBase b + k) = bytes (j * v.blockSize + k))
    (hrest : ∀ k, inode.directBlocks.length * v.blockSize ≤ k →
      bytes k = 0) :
    dirBytes (v.withDisk disk) inode = bytes := by
  have hpos := v.blockSize_pos
  funext k
  have hsplit := Nat.div_add_mod' k v.blockSize
  unfold dirBytes
  simp only [Volume.withDisk_toGeometry, Volume.withDisk_disk,
    Volume.withDisk_blockBase]
  cases hblock : inode.directBlocks[k / v.blockSize]? with
  | some b =>
      have hbyte := hblocks _ b hblock _ (Nat.mod_lt k hpos)
      rwa [hsplit] at hbyte
  | none =>
      have hlength := List.getElem?_eq_none_iff.1 hblock
      exact (hrest k ((Nat.mul_le_mul_right _ hlength).trans (by omega))).symm

theorem dirBytes_apply
    {v : Volume} {inode : Inode} {j b k : ℕ}
    (hblock : inode.directBlocks[j]? = some b)
    (hk : k < v.blockSize) :
    dirBytes v inode (j * v.blockSize + k) =
      v.disk (v.blockBase b + k) := by
  have hdiv : (j * v.blockSize + k) / v.blockSize = j := by
    rw [Nat.mul_comm, Nat.mul_add_div v.blockSize_pos, Nat.div_eq_of_lt hk,
      Nat.add_zero]
  have hmod : (j * v.blockSize + k) % v.blockSize = k := by
    rw [Nat.mul_comm, Nat.mul_add_mod, Nat.mod_eq_of_lt hk]
  simp only [dirBytes, hdiv, hmod, hblock]

/-! ## The buffer of `create_dir_entry` -/

section Creation

variable {v : Volume} {d table : ℕ} {inode : Inode} {offsets : List ℕ}
  {last : ℕ} {name : CString}

theorem Stands.size_div_le
    (h : Stands v d table inode offsets last) :
    inode.size / v.blockSize ≤ inode.directBlocks.length :=
  Nat.lt_succ_iff.1 ((Nat.div_lt_iff_lt_mul v.blockSize_pos).2 h.covered)

theorem putEntry_eq
    {buffer : Buffer} {o : ℕ} (number recLen type : ℕ)
    (hroom : o + (8 + name.length) ≤ buffer.size) :
    putEntry buffer o number recLen type name = .ok
      { buffer with
        bytes := withEntry buffer.bytes o number recLen type name } := by
  have hcheck : buffer.check o (8 + name.length) = .ok () :=
    Buffer.check_of_le hroom
  simp only [putEntry, hcheck, bind, Except.bind, pure, Except.pure]
  rfl

/-- The directory is read, walked to its end and given the entry there. -/
theorem Stands.fill
    (h : Stands v d table inode offsets last)
    (hname : name.length ≤ 255) (number type : ℕ) :
    ∃ buffer filled,
      loadDirectory v inode (u32 ((u32 (inode.size + v.blockSize) /
          v.blockSize + 1) * v.blockSize)) = .ok (some buffer) ∧
        walkDirectory buffer inode.size (fun _ => return false) =
          .ok (last, false) ∧
        putEntry buffer last number (recordLength name) type name =
          .ok filled ∧
        filled.size = (inode.size / v.blockSize + 2) * v.blockSize ∧
        ∀ k < filled.size, filled.bytes k =
          withEntry (dirBytes v inode) last number (recordLength name) type
            name k := by
  have hpos := v.blockSize_pos
  have hlarge := v.blockSize_ge
  have hsmall := h.blockSize_le
  have hsize := h.size_lt
  have hlast := h.last_le
  have hsplit := Nat.div_add_mod' inode.size v.blockSize
  have hmod := Nat.mod_lt inode.size hpos
  have hlength := h.fits
  have htwo : (inode.size / v.blockSize + 2) * v.blockSize =
      inode.size / v.blockSize * v.blockSize + 2 * v.blockSize := by ring
  have hneeded : (u32 (inode.size + v.blockSize) / v.blockSize + 1) *
      v.blockSize = (inode.size / v.blockSize + 2) * v.blockSize := by
    rw [u32_of_lt (by omega), Nat.add_div_right _ hpos]
  have htwelve := inode.directBlocks_length_le
  have hcovered := h.covered
  have hlow : (inode.size / v.blockSize + 2) * v.blockSize < 4294967296 := by
    have hproduct : (inode.directBlocks.length + 1) * v.blockSize ≤
        13 * 65536 := Nat.mul_le_mul (by omega) hsmall
    omega
  rw [hneeded, u32_of_lt hlow]
  obtain ⟨buffer, hload⟩ := loadDirectory_ok hsmall
    (show 0 < (inode.size / v.blockSize + 2) * v.blockSize by omega)
    (show inode.directBlocks.length * v.blockSize ≤
      (inode.size / v.blockSize + 2) * v.blockSize by omega)
  obtain ⟨hbuffer, -, hbytes⟩ := loadDirectory_some hsmall hload
  have hagree : buffer.bytes.AgreeOn (dirBytes v inode) 0
      ((inode.size / v.blockSize + 2) * v.blockSize) :=
    fun k _ hk => hbytes k hk
  have hcount := h.chain.length_le
  have hnone : offsets.find? (fun _ => false) = none :=
    List.find?_eq_none.2 (by simp)
  have hwalk : walkDirectory buffer inode.size (fun _ => return false) =
      .ok (last, false) := by
    have hfind := @walk_eq_find? buffer inode.size (inode.size + 1) 0 last
      offsets (fun _ => return false) (fun _ => false)
      (entryChain_congr hagree (by omega) h.chain)
      (fun o ho => by
        have hinside := (h.chain.mem_bounds ho).2.1
        omega)
      (by omega) (fun _ _ => rfl) (by omega)
    rw [hnone] at hfind
    exact hfind
  have hroom : last + (8 + name.length) ≤ buffer.size := by omega
  refine ⟨buffer, _, hload, hwalk, putEntry_eq number _ type hroom, hbuffer,
    ?_⟩
  intro k hk
  exact withEntry_congr _ _ _ _ _ _ (hbytes k (by rwa [hbuffer] at hk))

/-! ## The returns of `create_dir_entry` -/

/-- The buffer that has been given the new entry. -/
structure EntryBuffer (v : Volume) (d : ℕ) (name : CString) (number type : ℕ)
    (inode : Inode) (filled : Buffer) : Prop where
  read : readInode v d = .ok inode
  fill : ∃ buffer offset found,
    loadDirectory v inode (u32 ((u32 (inode.size + v.blockSize) /
        v.blockSize + 1) * v.blockSize)) = .ok (some buffer) ∧
      walkDirectory buffer inode.size (fun _ => return false) =
        .ok (offset, found) ∧
      putEntry buffer offset number (recordLength name) type name = .ok filled

/-- What the call has done when it returns. -/
inductive EntryReturns (v : Volume) (d : ℕ) (name : CString)
    (number type : ℕ) : Bool → Volume → Prop
  | noBuffer {inode : Inode} (hread : readInode v d = .ok inode)
      (hload : loadDirectory v inode (u32 ((u32 (inode.size + v.blockSize) /
        v.blockSize + 1) * v.blockSize)) = .ok none) :
      EntryReturns v d name number type false v
  | noBlock {inode : Inode} {filled : Buffer} {taken : Volume}
      (hfilled : EntryBuffer v d name number type inode filled)
      (hneeds : inode.size / v.blockSize < 12 ∧
        inode.block (inode.size / v.blockSize) = 0)
      (hfind : findFreeBlock v = .ok (0, taken)) :
      EntryReturns v d name number type false taken
  | newBlock {inode mapped : Inode} {filled : Buffer}
      {taken linked w : Volume} {block : ℕ} {bytes : ByteStore}
      (hfilled : EntryBuffer v d name number type inode filled)
      (hneeds : inode.size / v.blockSize < 12 ∧
        inode.block (inode.size / v.blockSize) = 0)
      (hfind : findFreeBlock v = .ok (block, taken)) (hblock : block ≠ 0)
      (hmapped : mapped = ((inode.setSize (u32 (inode.size +
        recordLength name))).setBlock (inode.size / v.blockSize)
          block).setBlocks (u32 (inode.blocks + v.blockSize / 512)))
      (hlink : writeInode taken d mapped = .ok linked)
      (hslice : filled.slice (inode.size / v.blockSize * v.blockSize)
        v.transfer = .ok bytes)
      (hlast : writeInode (writeBlock linked block bytes) d mapped = .ok w) :
      EntryReturns v d name number type true w
  | oldBlock {inode : Inode} {filled : Buffer} {w : Volume} {block : ℕ}
      {bytes : ByteStore}
      (hfilled : EntryBuffer v d name number type inode filled)
      (hneeds : ¬(inode.size / v.blockSize < 12 ∧
        inode.block (inode.size / v.blockSize) = 0))
      (hslot : blockSlot inode (inode.size / v.blockSize) = .ok block)
      (hslice : filled.slice (inode.size / v.blockSize * v.blockSize)
        v.transfer = .ok bytes)
      (hlast : writeInode (writeBlock v block bytes) d
        (inode.setSize (u32 (inode.size + recordLength name))) = .ok w) :
      EntryReturns v d name number type true w

theorem createDirEntry_returns
    {number type : ℕ} {done : Bool} {w : Volume}
    (h : createDirEntry v d name number type = .ok (done, w)) :
    EntryReturns v d name number type done w := by
  unfold createDirEntry at h
  rw [Outcome.bind_eq_ok] at h
  obtain ⟨parent, hread, h⟩ := h
  rw [Outcome.bind_eq_ok] at h
  obtain ⟨loaded, hload, h⟩ := h
  cases loaded with
  | none =>
      cases h
      exact .noBuffer hread hload
  | some buffer =>
      rw [Outcome.bind_eq_ok] at h
      obtain ⟨⟨offset, found⟩, hwalk, h⟩ := h
      rw [Outcome.bind_eq_ok] at h
      obtain ⟨filled, hput, h⟩ := h
      have hfilled : EntryBuffer v d name number type parent filled :=
        ⟨hread, buffer, offset, found, hload, hwalk, hput⟩
      simp only at h
      split_ifs at h with hneeds
      · rw [Outcome.bind_eq_ok] at h
        obtain ⟨⟨block, taken⟩, hfind, h⟩ := h
        simp only at h
        split_ifs at h with hzero
        · cases h
          exact .noBlock hfilled hneeds (hzero ▸ hfind)
        · rw [Outcome.bind_eq_ok] at h
          obtain ⟨linked, hlink, h⟩ := h
          rw [Outcome.bind_eq_ok] at h
          obtain ⟨bytes, hslice, h⟩ := h
          rw [Outcome.bind_eq_ok] at h
          obtain ⟨last, hlast, h⟩ := h
          cases h
          exact .newBlock hfilled hneeds hfind hzero rfl hlink hslice hlast
      · rw [Outcome.bind_eq_ok] at h
        obtain ⟨block, hslot, h⟩ := h
        rw [Outcome.bind_eq_ok] at h
        obtain ⟨bytes, hslice, h⟩ := h
        rw [Outcome.bind_eq_ok] at h
        obtain ⟨last, hlast, h⟩ := h
        cases h
        exact .oldBlock hfilled hneeds hslot hslice hlast

/-- The buffer of a directory that stands. -/
theorem Stands.filled
    {other : Inode} {filled : Buffer} {number type : ℕ}
    (h : Stands v d table inode offsets last) (hname : name.length ≤ 255)
    (hfilled : EntryBuffer v d name number type other filled) :
    other = inode ∧
      filled.size = (inode.size / v.blockSize + 2) * v.blockSize ∧
      ∀ k < filled.size, filled.bytes k =
        withEntry (dirBytes v inode) last number (recordLength name) type
          name k := by
  obtain ⟨hread, buffer, offset, found, hload, hwalk, hput⟩ := hfilled
  obtain ⟨loaded, put, hload', hwalk', hput', hsize, hbytes⟩ :=
    h.fill hname number type
  rw [h.read] at hread
  cases hread
  rw [hload'] at hload
  cases hload
  rw [hwalk'] at hwalk
  cases hwalk
  rw [hput'] at hput
  cases hput
  exact ⟨rfl, hsize, hbytes⟩

end Creation

end ClOs.Ext3
