import ClOs.Ext3Additions
import ClOs.Ext3Creation
import ClOs.Ext3Prepared
import ClOs.Ext3Listing

/-!
# Directories that are made

`ext3_create_directory` takes an inode and a block, writes the entries `.` and `..`
into the block and then adds the entry of the directory to its parent, which must
not reach what has been written.
-/

namespace ClOs.Ext3

open ByteStore

/-! ## The call -/

/-- The inode that `ext3_create_directory` writes. -/
def newDirectoryInode (v : Volume) (block : ℕ) : Inode :=
  ((((Inode.zero.setMode 0x41ED).setSize v.blockSize).setLinksCount 2).setBlocks
    (v.blockSize / 512)).setBlock 0 block

/-- The entries `.` and `..` in a cleared buffer. -/
def putDots (v : Volume) (inodeNum parent : ℕ) : Outcome Buffer := do
  let dot ← putEntry { size := v.blockSize, bytes := fun _ => 0 } 0 inodeNum 12 2
    [46]
  putEntry dot 12 parent (v.blockSize - 12) 2 [46, 46]

def ext3CreateDirectory (v : Volume) (path : CString) :
    Outcome (Bool × Volume) := do
  match ← findFile v path with
  | some _ => return (false, v)
  | none =>
      let (parent, dirname) ← resolveParent v path
      if parent = 0 then return (false, v)
      else
        let (inodeNum, numbered) ← findFreeInode v
        if inodeNum = 0 then return (false, numbered)
        else
          let (block, taken) ← findFreeBlock numbered
          if block = 0 then return (false, taken)
          else
            let buffer ← putDots v inodeNum parent
            let written := writeBlock taken block buffer.bytes
            let recorded ← writeInode written inodeNum
              (newDirectoryInode v block)
            let (_, next) ← createDirEntry recorded parent dirname inodeNum 2
            return (true, next)

/-! ## The two entries -/

/-- The bytes of a new directory. -/
def dotBytes (v : Volume) (n parent : ℕ) : ByteStore :=
  withEntry (withEntry (fun _ => 0) 0 n 12 2 [46]) 12 parent (v.blockSize - 12) 2
    [46, 46]

section

variable {v : Volume} {n parent block : ℕ}

theorem putDots_eq (v : Volume) (n parent : ℕ) :
    putDots v n parent = .ok ⟨v.blockSize, dotBytes v n parent⟩ := by
  have hlarge := v.blockSize_ge
  have hfirst := @putEntry_eq [46] { size := v.blockSize, bytes := fun _ => 0 } 0
    n 12 2 (show 0 + (8 + 1) ≤ v.blockSize by omega)
  unfold putDots
  simp only [hfirst, bind, Except.bind]
  exact putEntry_eq parent _ 2 (show 12 + (8 + 2) ≤ v.blockSize by omega)

theorem dotBytes_behind {k : ℕ} (hk : 22 ≤ k) : dotBytes v n parent k = 0 := by
  unfold dotBytes
  rw [withEntry_outside _ _ _ _ _ _ (.inr (by simpa using hk)),
    withEntry_outside _ _ _ _ _ _ (.inr (by simp; omega))]

/-- The entry of the directory itself. -/
theorem dotBytes_self (hn : n < 4294967296) :
    (dotBytes v n parent).le32 0 = n ∧
      (dotBytes v n parent).le16 (0 + 4) = 12 ∧
      nameLength (dotBytes v n parent) 0 = 1 ∧
      nameAt (dotBytes v n parent) 0 = [46] := by
  have hnumber := withEntry_number (fun _ => 0) 0 n 12 2 [46] hn
  have hstep := withEntry_recLen (fun _ => 0) 0 n 12 2 [46] (by norm_num)
  have hlength := withEntry_nameLength (fun _ => 0) 0 n 12 2 [46] (by simp)
  have hname := withEntry_nameAt (fun _ => 0) 0 n 12 2 [46] (by simp) (by simp)
  obtain ⟨hnumber', hstep', hlength', hname'⟩ :=
    @entry_congr (dotBytes v n parent) (withEntry (fun _ => 0) 0 n 12 2 [46]) 0 12
      (fun _ _ hk => withEntry_outside _ _ _ _ _ _ (.inl hk))
      (by rw [hlength, hstep]; simp) (by rw [hstep])
  exact ⟨hnumber'.trans hnumber, hstep'.trans hstep, hlength'.trans hlength,
    hname'.trans hname⟩

theorem dotBytes_parent
    (hparent : parent < 4294967296) (hsize : v.blockSize ≤ 65536) :
    (dotBytes v n parent).le32 12 = parent ∧
      (dotBytes v n parent).le16 (12 + 4) = v.blockSize - 12 ∧
      nameLength (dotBytes v n parent) 12 = 2 ∧
      nameAt (dotBytes v n parent) 12 = [46, 46] :=
  ⟨withEntry_number _ _ _ _ _ _ hparent,
    withEntry_recLen _ _ _ _ _ _ (by omega),
    withEntry_nameLength _ _ _ _ _ _ (by simp),
    withEntry_nameAt _ _ _ _ _ _ (by simp) (by simp)⟩

theorem dotBytes_chain
    (hn : n < 4294967296) (hn' : n ≠ 0)
    (hparent : parent < 4294967296) (hparent' : parent ≠ 0)
    (hsize : v.blockSize ≤ 65536) :
    EntryChain (dotBytes v n parent) v.blockSize 0 [0, 12] v.blockSize := by
  have hlarge := v.blockSize_ge
  obtain ⟨hnumber, hstep, -⟩ := @dotBytes_self v n parent hn
  obtain ⟨hnumber', hstep', -⟩ := @dotBytes_parent v n parent hparent hsize
  refine .cons (by omega) (by simpa [hnumber] using hn') (by rw [hstep]; omega) ?_
  rw [hstep]
  refine .cons (by omega) (by simpa [hnumber'] using hparent')
    (by rw [hstep']; omega) ?_
  have hend : 0 + 12 + (dotBytes v n parent).le16 (0 + 12 + 4) = v.blockSize := by
    rw [hstep']
    omega
  rw [hend]
  exact .stop (.inl le_rfl)

/-! ## A new directory -/

/-- An inode whose first block holds the two entries and nothing else. -/
structure KeepsDots (v : Volume) (disk : ByteStore) (inode : Inode)
    (n parent block : ℕ) : Prop where
  directory : inode.mode = 0x41ED
  size : inode.size = v.blockSize
  slots : SlotsHold inode [block]
  block_ne : block ≠ 0
  bytes : ∀ k < v.blockSize,
    disk (v.blockBase block + k) = dotBytes v n parent k

theorem newDirectoryInode_fields
    (hblock : block < 4294967296) (hsize : v.blockSize ≤ 65536) :
    (newDirectoryInode v block).mode = 0x41ED ∧
      (newDirectoryInode v block).size = v.blockSize ∧
      SlotsHold (newDirectoryInode v block) [block] := by
  refine ⟨?_, ?_, ?_⟩
  · have hagree : ByteStore.AgreeOn (newDirectoryInode v block)
        (Inode.zero.setMode 0x41ED) 0 2 := by
      unfold newDirectoryInode Inode.setBlock Inode.setBlocks Inode.setLinksCount
        Inode.setSize put16 put32
      exact (((blit_agreeOn _ _ (.inl (by omega))).trans
        (blit_agreeOn _ _ (.inl (by omega)))).trans
          (blit_agreeOn _ _ (.inl (by omega)))).trans
            (blit_agreeOn _ _ (.inl (by omega)))
    exact (hagree.le16_eq 0 le_rfl le_rfl).trans (le16_put16_same _ 0 0x41ED)
  · unfold newDirectoryInode
    rw [Inode.size_setBlock, Inode.size_setBlocks]
    unfold Inode.size Inode.setLinksCount Inode.setSize put16
    rw [le32_blit_outside _ _ 4 (by omega), le32_put32_same,
      u32_of_lt (by omega)]
  · unfold newDirectoryInode
    refine @slotsHold_concat (((Inode.zero.setMode 0x41ED).setSize
      v.blockSize).setLinksCount 2) _ [] block (fun k _ => ?_) (fun k _ hk => ?_) ?_
    · unfold Inode.block Inode.setLinksCount Inode.setSize Inode.setMode put16
      rw [le32_blit_outside _ _ _ (by omega),
        le32_put32_of_disjoint _ _ (by omega),
        le32_blit_outside _ _ _ (by omega)]
      simp [le32, Inode.zero]
    · have hother : k ≠ 0 := hk
      rw [Inode.block_setBlock_of_ne _ hother, Inode.block_setBlocks]
    · rw [List.length_nil, Inode.block_setBlock_same, u32_of_lt hblock]

theorem KeepsDots.kept
    {disk next : ByteStore} {inode read : Inode}
    (h : KeepsDots v disk inode n parent block)
    (hread : ∀ k < 128, read k = inode k)
    (hblock : SameBlock (v.withDisk disk) next block) :
    KeepsDots v next read n parent block := by
  have hagree : ByteStore.AgreeOn read inode 0 128 := fun k _ hk => hread k hk
  exact {
    directory := (hagree.le16_eq 0 (by omega) (by omega)).trans h.directory
    size := (hagree.le32_eq 4 (by omega) (by omega)).trans h.size
    slots := fun k hk =>
      (hagree.le32_eq (40 + 4 * k) (by omega) (by omega)).trans (h.slots k hk)
    block_ne := h.block_ne
    bytes := fun k hk => (hblock k hk).trans (h.bytes k hk) }

theorem KeepsDots.directBlocks
    {disk : ByteStore} {inode : Inode}
    (h : KeepsDots v disk inode n parent block) : inode.directBlocks = [block] :=
  directBlocks_of_slots h.slots (by simpa using h.block_ne) (by simp)

theorem KeepsDots.dirBytes
    {disk : ByteStore} {inode : Inode}
    (h : KeepsDots v disk inode n parent block) :
    dirBytes (v.withDisk disk) inode = dotBytes v n parent := by
  have hlarge := v.blockSize_ge
  refine dirBytes_eq ?_ ?_
  · intro j b hb k hk
    rw [h.directBlocks] at hb
    cases j with
    | zero =>
        cases hb
        rw [Nat.zero_mul, Nat.zero_add]
        exact h.bytes k hk
    | succ j => cases hb
  · intro k hk
    rw [h.directBlocks, List.length_singleton] at hk
    exact dotBytes_behind (by omega)

theorem KeepsDots.directory_stands
    {disk : ByteStore} {inode : Inode}
    (h : KeepsDots v disk inode n parent block)
    (hn : n < 4294967296) (hn' : n ≠ 0)
    (hparent : parent < 4294967296) (hparent' : parent ≠ 0)
    (hsize : v.blockSize ≤ 65536) :
    Directory (v.withDisk disk) inode [0, 12] v.blockSize := by
  have hlarge := v.blockSize_ge
  obtain ⟨-, hstep, hlength, hname⟩ := @dotBytes_self v n parent hn
  obtain ⟨-, hstep', hlength', hname'⟩ := @dotBytes_parent v n parent hparent hsize
  have hbytes := h.dirBytes
  refine ⟨by rw [h.size]; omega, ?_, ?_, ?_, ?_, ?_⟩
  · rw [h.directBlocks, h.size, List.length_singleton, Nat.one_mul]
    exact Nat.le_add_left _ _
  · rw [hbytes, h.size]
    exact dotBytes_chain hn hn' hparent hparent' hsize
  · intro o ho
    rw [hbytes]
    rcases List.mem_cons.1 ho with rfl | ho
    · rw [hlength, hstep]
      norm_num
    · rw [List.mem_singleton.1 ho, hlength', hstep']
      omega
  · intro o ho
    have hplace : o ≤ 12 := by
      rcases List.mem_cons.1 ho with rfl | ho
      · omega
      · rw [List.mem_singleton.1 ho]
    have hmod := Nat.mod_le o v.blockSize
    change o % v.blockSize + 8 ≤ v.blockSize
    omega
  · intro o ho
    rw [hbytes]
    rcases List.mem_cons.1 ho with rfl | ho
    · rw [hname]
      simp
    · rw [List.mem_singleton.1 ho, hname']
      simp

theorem isHidden_of_nameAt
    {bytes : ByteStore} {o : ℕ} {name : CString}
    (hname : nameAt bytes o = name) (hlength : nameLength bytes o = name.length)
    (hdot : name ∈ dotNames) : isHidden bytes o = true := by
  have hwhole : nameAt bytes o = rawName bytes o := by
    apply (List.takeWhile_prefix _).eq_of_length
    change (nameAt bytes o).length = (rawName bytes o).length
    unfold rawName
    rw [hname, List.length_map, List.length_range, hlength]
  unfold isHidden
  rw [← hwhole, hname]
  exact decide_eq_true hdot

/-- A buffer with the two entries shows neither. -/
theorem KeepsDots.load
    {disk : ByteStore} {inode : Inode}
    (h : KeepsDots v disk inode n parent block)
    (hn : n < 4294967296) (hn' : n ≠ 0)
    (hparent : parent < 4294967296) (hparent' : parent ≠ 0)
    (hsize : v.blockSize ≤ 65536) :
    ∃ buffer, loadDirectory (v.withDisk disk) inode
        (u32 (inode.size + v.blockSize)) = .ok (some buffer) ∧
      buffer.size = inode.size + v.blockSize ∧
      EntryChain buffer.bytes inode.size 0 [0, 12] inode.size ∧
      ∀ o ∈ [0, 12], o + 263 ≤ buffer.size ∧
        isHidden buffer.bytes o = true := by
  have hlarge := v.blockSize_ge
  obtain ⟨-, -, hlength, hname⟩ := @dotBytes_self v n parent hn
  obtain ⟨-, -, hlength', hname'⟩ := @dotBytes_parent v n parent hparent hsize
  have hstands := h.directory_stands hn hn' hparent hparent' hsize
  obtain ⟨buffer, hload, hbuffer, hbytes⟩ := hstands.load hsize
  rw [h.dirBytes] at hbytes
  have hagree : buffer.bytes.AgreeOn (dotBytes v n parent) 0
      (inode.size + v.blockSize) := fun k _ hk => hbytes k hk
  have hchain := hstands.chain
  rw [h.dirBytes] at hchain
  have hcount : ∀ o, o + 263 ≤ inode.size + v.blockSize →
      nameLength buffer.bytes o = nameLength (dotBytes v n parent) o := by
    intro o ho
    unfold nameLength
    rw [hagree (o + 6) (Nat.zero_le _) (by omega)]
  refine ⟨buffer, hload, hbuffer, ?_, ?_⟩
  · have hbuffered := entryChain_congr hagree (by omega) hchain
    rwa [← h.size] at hbuffered
  · intro o ho
    have hroom : o + 263 ≤ inode.size + v.blockSize := by
      rcases List.mem_cons.1 ho with rfl | ho
      · omega
      · rw [List.mem_singleton.1 ho]
        omega
    refine ⟨hbuffer ▸ hroom, ?_⟩
    rcases List.mem_cons.1 ho with rfl | ho
    · exact @isHidden_of_nameAt _ _ [46] ((nameAt_congr hagree hroom).trans hname)
        ((hcount _ hroom).trans hlength) (by decide)
    · rw [List.mem_singleton.1 ho] at hroom ⊢
      exact @isHidden_of_nameAt _ _ [46, 46]
        ((nameAt_congr hagree hroom).trans hname')
        ((hcount _ hroom).trans hlength') (by decide)

/-- A directory that leads to itself and to its parent and has no other entry: it
is listed as empty, and `ext3_delete` would take it for empty. -/
structure NewDirectory (w : Volume) (n parent : ℕ) : Prop where
  record : ∃ inode, readInode w n = .ok inode ∧ inode.mode = 0x41ED ∧
    inode.size = w.blockSize ∧ isOccupied w inode = .ok (some false)
  self : findDirEntry w n [46] = .ok (some n)
  parent : findDirEntry w n [46, 46] = .ok (some parent)
  nothing : ∀ name, name ∉ dotNames → findDirEntry w n name = .ok none
  listing : ∀ path inode, findFile w path = .ok (some (inode, n)) →
    ∀ calls, 2 < calls → listNames calls w path = .ok []

theorem KeepsDots.isDirectory
    {disk : ByteStore} {inode : Inode}
    (h : KeepsDots v disk inode n parent block) : inode.isDirectory = true := by
  unfold Inode.isDirectory
  rw [h.directory]
  decide

section

variable {u : Volume} {inode : Inode} {buffer : Buffer}

/-- Nothing in the buffer keeps `ext3_delete` from deleting the directory. -/
theorem isOccupied_of_hidden
    {offsets : List ℕ} {last : ℕ}
    (hload : loadDirectory u inode (u32 (inode.size + u.blockSize)) =
      .ok (some buffer))
    (hchain : EntryChain buffer.bytes inode.size 0 offsets last)
    (hroom : ∀ o ∈ offsets,
      o + 263 ≤ buffer.size ∧ o + 65536 ≤ 4294967296)
    (hlast : last < inode.size → last + 4 ≤ buffer.size)
    (hhidden : ∀ o ∈ offsets, isHidden buffer.bytes o = true) :
    isOccupied u inode = .ok (some false) := by
  have hlength := hchain.length_le
  have hnone : offsets.find? (fun _ => false) = none :=
    List.find?_eq_none.2 (by simp)
  unfold isOccupied
  split_ifs
  · unfold hasEntries
    rw [hload, Outcome.bind_eq_ok]
    refine ⟨_, rfl, ?_⟩
    simp only
    rw [Outcome.bind_eq_ok]
    refine ⟨(last, false), ?_, rfl⟩
    have hwalk := fun stop hstop => @walk_eq_find? buffer inode.size
      (inode.size + 1) 0 last offsets stop (fun _ => false) hchain
      (fun o ho => by
        have hplace := hroom o ho
        omega)
      hlast hstop (by omega)
    simp only [hnone] at hwalk
    apply hwalk
    intro o ho
    rw [entryBytes_eq (hroom o ho).1]
    have hmem : rawName buffer.bytes o ∈ dotNames :=
      of_decide_eq_true (hhidden o ho)
    exact congrArg Except.ok (decide_eq_false (not_not.2 hmem))
  · rfl

/-- A directory without an entry that is shown is listed as empty. -/
theorem listNames_of_hidden
    {path : CString} {offsets : List ℕ} {last calls : ℕ}
    (hfind : findFile u path = .ok (some (inode, n)))
    (hdirectory : inode.isDirectory = true)
    (hload : loadDirectory u inode (u32 (inode.size + u.blockSize)) =
      .ok (some buffer))
    (hchain : EntryChain buffer.bytes inode.size 0 offsets last)
    (hroom : ∀ o ∈ offsets,
      o + 263 ≤ buffer.size ∧ o + 65536 ≤ 4294967296)
    (hlast : last < inode.size → last + 4 ≤ buffer.size)
    (hhidden : ∀ o ∈ offsets, isHidden buffer.bytes o = true)
    (hcalls : offsets.length < calls) :
    listNames calls u path = .ok [] := by
  have hnothing : offsets.filter (fun o => !isHidden buffer.bytes o) = [] := by
    refine List.filter_eq_nil_iff.2 fun o ho => ?_
    rw [hhidden o ho]
    decide
  have hall := readAll_eq {
      inodeNum := n
      position := 0
      size := inode.size
      buffer := buffer
      inode := inode
      currentOffset := 0 } hchain hroom hlast hcalls
  simp only [hnothing, List.map_nil] at hall
  rw [← hall]
  simp [listNames, ext3Opendir, hfind, hdirectory, hload, bind, Except.bind,
    pure, Except.pure]

end

theorem KeepsDots.newDirectory
    {disk : ByteStore} {inode : Inode}
    (h : KeepsDots v disk inode n parent block)
    (hread : readInode (v.withDisk disk) n = .ok inode)
    (hn : n < 4294967296) (hn' : n ≠ 0)
    (hparent : parent < 4294967296) (hparent' : parent ≠ 0)
    (hsize : v.blockSize ≤ 65536) :
    NewDirectory (v.withDisk disk) n parent := by
  have hlarge := v.blockSize_ge
  obtain ⟨hnumber, -, -, hname⟩ := @dotBytes_self v n parent hn
  obtain ⟨hnumber', -, -, hname'⟩ := @dotBytes_parent v n parent hparent hsize
  obtain ⟨buffer, hload, hbuffer, hchain, hplaces⟩ :=
    h.load hn hn' hparent hparent' hsize
  have hfinds := @findDirEntry_eq (v.withDisk disk) n inode [0, 12] v.blockSize
    hsize hread (h.directory_stands hn hn' hparent hparent' hsize)
  simp only [h.dirBytes] at hfinds
  have hlimit : buffer.size ≤ 131072 := by
    rw [hbuffer, h.size]
    omega
  have hroom : ∀ o ∈ [0, 12],
      o + 263 ≤ buffer.size ∧ o + 65536 ≤ 4294967296 := by
    intro o ho
    have hplace := (hplaces o ho).1
    omega
  have hhidden := fun o ho => (hplaces o ho).2
  have hlast : inode.size < inode.size → inode.size + 4 ≤ buffer.size := by
    omega
  refine ⟨⟨inode, hread, h.directory, h.size, ?_⟩, ?_, ?_, ?_, ?_⟩
  · exact @isOccupied_of_hidden (v.withDisk disk) inode buffer [0, 12] inode.size
      hload hchain hroom hlast hhidden
  · rw [hfinds]
    simp [hname, hnumber]
  · rw [hfinds]
    simp [hname, hname', hnumber']
  · intro name hnot
    have hne : name ≠ [46] ∧ name ≠ [46, 46] := by
      simpa [dotNames] using hnot
    rw [hfinds]
    simp [hname, hname', hne.1.symm, hne.2.symm]
  · intro path other hfind calls hcalls
    have hother := (findFile_eq_some.1 hfind).2.1
    rw [hread] at hother
    cases hother
    exact @listNames_of_hidden n (v.withDisk disk) inode buffer path [0, 12]
      inode.size calls hfind h.isDirectory hload hchain hroom hlast hhidden hcalls

end

/-! ## What adding the entry leaves -/

def SameRecord (v : Volume) (n : ℕ) (before after : ByteStore) : Prop :=
  ∀ k < 128, after (v.recordAddress n + k) = before (v.recordAddress n + k)

section

variable {v w : Volume} {parent n m block : ℕ} {disk next : ByteStore}

theorem sameRecord_of_change
    (hchange : ∀ k, next k ≠ disk k →
      ∀ offset < 128, k ≠ v.recordAddress m + offset) :
    SameRecord v m disk next := by
  intro k hk
  by_contra hne
  exact hchange _ hne k hk rfl

theorem SameRecord.trans
    {last : ByteStore} (h : SameRecord v m disk next)
    (h' : SameRecord v m next last) : SameRecord v m disk last :=
  fun k hk => (h' k hk).trans (h k hk)

theorem Prepared.record_setBit
    (h : Prepared v parent) (hrange : InodeInRange v.toGeometry m)
    {g field i : ℕ} (hg : g < v.groupCount) (hfield : field ∈ [0, 4])
    (hi : i < 8 * v.blockSize) :
    SameRecord v m disk
      (disk.setBit (8 * v.blockBase (v.descriptorWord g field) + i)) := by
  refine sameRecord_of_change fun k hk offset hoffset hplace => ?_
  rw [hplace] at hk
  exact (h.record_outside hrange hoffset hg).2 field hfield (byte_of_setBit hi hk)

theorem Prepared.record_fill
    (h : Prepared v parent) (hrange : InodeInRange v.toGeometry m)
    (hfree : FreeBlock v v.disk block) (bytes : ByteStore) :
    SameRecord v m disk (writeBlock (v.withDisk disk) block bytes).disk := by
  refine sameRecord_of_change fun k hk offset hoffset hplace => ?_
  rw [hplace] at hk
  exact h.record_not_free hrange hoffset hfree
    (block_of_write h.bitmaps.blockSize_le hk)

theorem Prepared.record_takeInode
    (h : Prepared v parent) (hrange : InodeInRange v.toGeometry m)
    (hfind : findFreeInode v = .ok (n, v.withDisk disk)) (hn : n ≠ 0) :
    SameRecord v m v.disk disk := by
  obtain ⟨inode, next, hfind', hcases⟩ := @findFreeInode_sets v v.disk h.bitmaps
    fun _ _ _ _ => rfl
  rw [v.withDisk_self, hfind] at hfind'
  cases hfind'
  rcases hcases with ⟨rfl, -⟩ | ⟨g, hg, i, hi, -, htaken, -⟩
  · exact absurd rfl hn
  · obtain rfl : disk = _ := congrArg Volume.disk htaken
    exact h.record_setBit hrange hg (by simp) (hi.trans_le h.bitmaps.inodes)

/-- Behind the record of another inode an entry is added: the record is read back,
and the other records and the blocks that have been taken stay. -/
theorem Prepared.recorded_stays
    {number type : ℕ} {name : CString} {done : Bool} {source : Inode}
    (h : Prepared v parent) (hheld : Held v parent disk)
    (hrange : InodeInRange v.toGeometry n) (hne : n ≠ parent)
    (hentry : createDirEntry (v.withDisk
      (disk.blit (v.recordAddress n) source 128)) parent name number type =
        .ok (done, w)) :
    ∃ last read, w = v.withDisk last ∧ SameBlock v last 2 ∧
      readInode (v.withDisk last) n = .ok read ∧
      (∀ k < 128, read k = source k) ∧
      (∀ block, FreeBlock v v.disk block → ¬FreeBlock v disk block →
        SameBlock (v.withDisk disk) last block) ∧
      ∀ m, InodeInRange v.toGeometry m → m ≠ n → m ≠ parent →
        SameRecord v m disk last := by
  have hheld' := hheld.writeRecord h hrange hne source
  obtain ⟨last, rfl, honly⟩ := createDirEntry_frame hheld' h hentry
  have hspares := fun k hk => h.entry_spares hheld' hrange hne (honly k hk)
  have hdescriptor : SameBlock v last 2 :=
    sameBlock_of_change (hheld'.descriptor hrange) fun k hk => (hspares k hk).1
  refine ⟨last, _, rfl, hdescriptor, h.readRecord hrange hdescriptor,
    fun k hk => ?_, fun block hfree htaken => ?_, fun m hm hmn hmparent => ?_⟩
  · rw [blit_inside _ _ (Nat.zero_le k) (by omega), Nat.sub_zero, drop_apply]
    have hsame : SameRecord v n (disk.blit (v.recordAddress n) source 128) last :=
      sameRecord_of_change fun k hk => (hspares k hk).2
    exact (hsame k hk).trans (blit_add _ _ _ hk)
  · have hwritten : SameBlock (v.withDisk disk)
        (disk.blit (v.recordAddress n) source 128) block := by
      refine sameBlock_of_change (fun _ _ => rfl) fun k hk hinside => ?_
      obtain ⟨offset, hoffset, rfl⟩ := offset_of_blit hk
      exact h.record_not_free hrange hoffset hfree hinside
    refine sameBlock_of_change hwritten fun k hk => ?_
    refine h.entry_spares_block hfree (fun hstill => htaken ?_) (honly k hk)
    exact ⟨hstill.1, (h.mark_record hrange source hstill.1).symm.trans hstill.2⟩
  · have hapart := h.tables.records_apart hrange hm hmn.symm
    have hwritten : SameRecord v m disk
        (disk.blit (v.recordAddress n) source 128) := by
      refine sameRecord_of_change fun k hk place hplace hsame => ?_
      obtain ⟨offset, hoffset, rfl⟩ := offset_of_blit hk
      omega
    exact hwritten.trans (sameRecord_of_change fun k hk =>
      (h.entry_spares hheld' hm hmparent (honly k hk)).2)

end

/-! ## What the changes leave alone -/

def Reserved (v : Volume) (k : ℕ) : Prop :=
  (∃ block, SystemBlock v block ∧ InBlock v block k) ∨
    ∃ free, FreeBlock v v.disk free ∧ InBlock v free k

section

variable {v w : Volume} {d n table block number type : ℕ}
  {inode : Inode} {offsets : List ℕ} {last : ℕ} {name : CString}
  {disk next : ByteStore}

theorem reserved_setBit
    {g field i : ℕ} (hg : g < v.groupCount) (hfield : field ∈ [0, 4])
    (hi : i < 8 * v.blockSize) :
    ChangesOnly (Reserved v) disk
      (disk.setBit (8 * v.blockBase (v.descriptorWord g field) + i)) :=
  fun _ hk => .inl ⟨_, .bitmap g hg field hfield, byte_of_setBit hi hk⟩

theorem reserved_takeInode
    (h : Prepared v d) (hfind : findFreeInode v = .ok (n, v.withDisk disk))
    (hn : n ≠ 0) : ChangesOnly (Reserved v) v.disk disk := by
  obtain ⟨inode, next, hfind', hcases⟩ := @findFreeInode_sets v v.disk h.bitmaps
    fun _ _ _ _ => rfl
  rw [v.withDisk_self, hfind] at hfind'
  cases hfind'
  rcases hcases with ⟨rfl, -⟩ | ⟨g, hg, i, hi, -, htaken, -⟩
  · exact absurd rfl hn
  · obtain rfl : disk = _ := congrArg Volume.disk htaken
    exact reserved_setBit hg (by simp) (hi.trans_le h.bitmaps.inodes)

theorem reserved_fill
    (h : Prepared v d) (hfree : FreeBlock v v.disk block) (bytes : ByteStore) :
    ChangesOnly (Reserved v) disk (writeBlock (v.withDisk disk) block bytes).disk :=
  fun _ hk => .inr ⟨block, hfree, block_of_write h.bitmaps.blockSize_le hk⟩

theorem reserved_record
    (h : Prepared v d) (hrange : InodeInRange v.toGeometry n) (source : Inode) :
    ChangesOnly (Reserved v) disk (disk.blit (v.recordAddress n) source 128) := by
  obtain ⟨g, hg, k', hk', hplace⟩ := h.reach.record_inTable hrange
  intro k hk
  obtain ⟨offset, hoffset, rfl⟩ := offset_of_blit hk
  exact .inl ⟨_, .table g hg k' hk', hplace offset hoffset⟩

theorem Owned.same
    (howned : Owned v inode) (hblock : block ∈ inode.directBlocks)
    (hchange : ChangesOnly (Reserved v) v.disk next) : SameBlock v next block := by
  refine sameBlock_of_change (fun _ _ => rfl) fun k hk hinside => ?_
  rcases hchange k hk with ⟨other, hsystem, hother⟩ | ⟨free, hfree, hother⟩
  · exact howned.system block hblock other hsystem (hinside.same_base hother)
  · exact howned.taken block hblock free hfree (hother.same_base hinside)

theorem Owned.dirBytes
    (howned : Owned v inode) (hchange : ChangesOnly (Reserved v) v.disk next) :
    dirBytes (v.withDisk next) inode = dirBytes v inode := by
  funext k
  unfold Ext3.dirBytes
  simp only [Volume.withDisk_toGeometry, Volume.withDisk_disk,
    Volume.withDisk_blockBase]
  cases hblock : inode.directBlocks[k / v.blockSize]? with
  | none => rfl
  | some block =>
      exact howned.same (List.mem_of_getElem? hblock) hchange _
        (Nat.mod_lt k v.blockSize_pos)

/-- A directory stands as long as the changes stay outside its blocks. -/
theorem Stands.moved
    (hstands : Stands v d table inode offsets last) (h : Prepared v d)
    (hheld : Held v d next) (howned : Owned v inode)
    (hchange : ChangesOnly (Reserved v) v.disk next) :
    Stands (v.withDisk next) d table inode offsets last := by
  have hbytes := howned.dirBytes hchange
  have hdescriptor := hheld.descriptor h.parent_mem
  exact {
    size_lt := hstands.size_lt
    fits := hstands.fits
    chain := hbytes ▸ hstands.chain
    holdsName := hbytes ▸ hstands.holdsName
    inBlock := hstands.inBlock
    named := hbytes ▸ hstands.named
    blockSize_le := hstands.blockSize_le
    bitmapFits := hstands.bitmapFits
    inodeSize_eq := hstands.inodeSize_eq
    located := (inodeToBlock_withDisk hdescriptor d).trans hstands.located
    table_ne := hstands.table_ne
    stored := by
      have hold := @Prepared.storedInode_eq v d table v.disk h hstands.located
        hstands.table_ne fun _ _ => rfl
      rw [v.withDisk_self, hstands.stored] at hold
      rw [h.storedInode_eq hstands.located hstands.table_ne hdescriptor, hold]
      exact blit_congr _ hheld.record
    apart := hstands.apart
    slots := hstands.slots
    covered := hstands.covered
    last_le := hstands.last_le }

theorem Stands.findDirEntry_moved
    (hstands : Stands v d table inode offsets last) (h : Prepared v d)
    (hheld : Held v d next) (howned : Owned v inode)
    (hchange : ChangesOnly (Reserved v) v.disk next) (name : CString) :
    findDirEntry (v.withDisk next) d name = findDirEntry v d name := by
  have hmoved := hstands.moved h hheld howned hchange
  rw [@findDirEntry_eq (v.withDisk next) d inode offsets last hstands.blockSize_le
      hmoved.read hmoved.toDirectory name,
    findDirEntry_eq hstands.blockSize_le hstands.read hstands.toDirectory name,
    howned.dirBytes hchange]

/-- A call that fails leaves the directory alone, and it needed a block. -/
theorem createDirEntry_failed
    {done : Bool} (h : Prepared v d) (hheld : Held v d disk)
    (hstands : Stands (v.withDisk disk) d table inode offsets last)
    (hname : name.length ≤ 255) (hdone : done = false)
    (hcreate : createDirEntry (v.withDisk disk) d name number type =
      .ok (done, w)) :
    NeedsBlock v inode ∧ ∃ final, w = v.withDisk final ∧ Held v d final ∧
      ChangesOnly (Reserved v) disk final := by
  subst hdone
  cases createDirEntry_returns hcreate with
  | noBuffer hread hload =>
      obtain ⟨buffer, -, hload', -⟩ := hstands.fill hname number type
      rw [hstands.read] at hread
      cases hread
      rw [hload'] at hload
      cases hload
  | noBlock hfilled hneeds hfind =>
      obtain ⟨rfl, -, -⟩ := hstands.filled hname hfilled
      refine ⟨hneeds, ?_⟩
      obtain ⟨found, after, hfind', hcases⟩ :=
        findFreeBlock_sets h.bitmaps h.blocks_lt hheld.descriptors
      rw [hfind] at hfind'
      cases hfind'
      rcases hcases with ⟨-, rfl⟩ | ⟨hgroup, -, rfl⟩
      · exact ⟨disk, rfl, hheld, fun k hk => absurd rfl hk⟩
      · have hindex := (Resource.block 0).index_lt h.bitmaps
        have hfield := (Resource.block 0).field_mem
        exact ⟨_, rfl, hheld.setBit h hgroup hfield hindex,
          reserved_setBit hgroup hfield hindex⟩

end

/-! ## The whole call -/

/-- A call that returns `true`: the inode and the block that it took, and the disk
that it had filled when it wrote the inode and added the entry. -/
structure Makes (v w : Volume) (path : CString) (parent n block : ℕ)
    (name : CString) (filled : ByteStore) : Prop where
  missing : findFile v path = .ok none
  resolved : resolveParent v path = .ok (parent, name)
  numbered : ∃ numbered, findFreeInode v = .ok (n, numbered)
  range : InodeInRange v.toGeometry n
  number_ne : n ≠ parent
  held : Held v parent filled
  changes : ChangesOnly (Reserved v) v.disk filled
  free : FreeBlock v v.disk block
  taken : ¬FreeBlock v filled block
  dots : KeepsDots v filled (newDirectoryInode v block) n parent block
  records : ∀ m, InodeInRange v.toGeometry m → SameRecord v m v.disk filled
  entry : ∃ done, createDirEntry (v.withDisk (filled.blit (v.recordAddress n)
    (newDirectoryInode v block) 128)) parent name n 2 = .ok (done, w)

section

variable {v w : Volume} {path : CString}

theorem ext3CreateDirectory_makes
    (hsize : v.blockSize ≤ 65536)
    (hprep : ∀ parent name, resolveParent v path = .ok (parent, name) →
      parent ≠ 0 → Prepared v parent)
    (hcreate : ext3CreateDirectory v path = .ok (true, w)) :
    ∃ parent n block name filled, Prepared v parent ∧
      Makes v w path parent n block name filled := by
  unfold ext3CreateDirectory at hcreate
  rw [Outcome.bind_eq_ok] at hcreate
  obtain ⟨found, hfind, hcreate⟩ := hcreate
  cases found with
  | some pair => cases hcreate
  | none =>
      simp only at hcreate
      rw [Outcome.bind_eq_ok] at hcreate
      obtain ⟨⟨parent, name⟩, hresolved, hcreate⟩ := hcreate
      simp only at hcreate
      split_ifs at hcreate with hparent
      · cases hcreate
      rw [Outcome.bind_eq_ok] at hcreate
      obtain ⟨⟨n, numbered⟩, hnumbered, hcreate⟩ := hcreate
      simp only at hcreate
      split_ifs at hcreate with hn
      · cases hcreate
      have h := hprep parent name hresolved hparent
      obtain ⟨hrange, hne, disk, rfl, hheld⟩ := h.takeInode hnumbered hn
      rw [Outcome.bind_eq_ok] at hcreate
      obtain ⟨⟨block, taken⟩, hfound, hcreate⟩ := hcreate
      simp only at hcreate
      split_ifs at hcreate with hzero
      · cases hcreate
      obtain ⟨other, next, hfound', hcases⟩ :=
        findFreeBlock_sets h.bitmaps h.blocks_lt hheld.descriptors
      rw [hfound] at hfound'
      cases hfound'
      rcases hcases with ⟨rfl, -⟩ | ⟨hgroup, hclear, rfl⟩
      · exact absurd rfl hzero
      simp only [putDots_eq] at hcreate
      rw [Outcome.bind_eq_ok] at hcreate
      obtain ⟨buffer, hdots, hcreate⟩ := hcreate
      cases hdots
      have hfree : FreeBlock v v.disk block := hheld.was_free ⟨hgroup, hclear⟩
      have hindex := (Resource.block block).index_lt h.bitmaps
      have hfield := (Resource.block block).field_mem
      have hset : Held v parent
          (disk.setBit ((Resource.block block).bitAddress v)) :=
        hheld.setBit h hgroup hfield hindex
      have hfill := hset.fill h hfree (dotBytes v n parent)
      have hnumber : block < 4294967296 := by
        have hlt : block < v.groupCount * v.blocksPerGroup :=
          (Nat.div_lt_iff_lt_mul v.blocksPerGroup_pos).1 hgroup
        exact hlt.trans h.blocks_lt
      obtain ⟨hmode, hlength, hslots⟩ := newDirectoryInode_fields hnumber hsize
      simp only at hcreate
      rw [writeBlock_withDisk, h.writeRecord hrange (hfill.descriptor hrange),
        Outcome.bind_eq_ok] at hcreate
      obtain ⟨recorded, hrecorded, hcreate⟩ := hcreate
      cases hrecorded
      rw [Outcome.bind_eq_ok] at hcreate
      obtain ⟨⟨entered, last⟩, hentry, hcreate⟩ := hcreate
      cases hcreate
      refine ⟨parent, n, block, name, _, h, {
        missing := hfind
        resolved := hresolved
        numbered := ⟨_, hnumbered⟩
        range := hrange
        number_ne := hne
        held := hfill
        changes := ((reserved_takeInode h hnumbered hn).trans
          (reserved_setBit hgroup hfield hindex)).trans (reserved_fill h hfree _)
        free := hfree
        taken := ?_
        dots := ⟨hmode, hlength, hslots, hzero, fun k hk =>
          writeBlock_inside _ _ h.bitmaps.blockSize_le hk⟩
        records := fun m hm => ((h.record_takeInode hm hnumbered hn).trans
          (h.record_setBit hm hgroup hfield hindex)).trans
            (h.record_fill hm hfree _)
        entry := ⟨entered, hentry⟩ }⟩
      intro hstill
      have hmark := (h.mark_fill hfree _ hgroup).symm.trans hstill.2
      rw [bit_setBit, decide_eq_true rfl, Bool.or_true] at hmark
      cases hmark

/-- A directory that `ext3_create_directory` makes leads to itself and to its parent
and is empty, and of the other inodes only that of the parent can change. -/
theorem ext3CreateDirectory_new
    (hsize : v.blockSize ≤ 65536)
    (hprep : ∀ parent name, resolveParent v path = .ok (parent, name) →
      parent ≠ 0 → Prepared v parent)
    (hcreate : ext3CreateDirectory v path = .ok (true, w)) :
    findFile v path = .ok none ∧
      ∃ parent name n numbered, resolveParent v path = .ok (parent, name) ∧
        findFreeInode v = .ok (n, numbered) ∧ NewDirectory w n parent ∧
        ∀ m, InodeInRange v.toGeometry m → m ≠ n → m ≠ parent →
          readInode w m = readInode v m := by
  obtain ⟨parent, n, block, name, filled, h, hmakes⟩ :=
    ext3CreateDirectory_makes hsize hprep hcreate
  obtain ⟨numbered, hnumbered⟩ := hmakes.numbered
  obtain ⟨done, hentry⟩ := hmakes.entry
  obtain ⟨final, read, rfl, hdescriptor, hread, hsource, hstays, hrecords⟩ :=
    h.recorded_stays hmakes.held hmakes.range hmakes.number_ne hentry
  have hkept := hmakes.dots.kept hsource (hstays block hmakes.free hmakes.taken)
  refine ⟨hmakes.missing, parent, name, n, numbered, hmakes.resolved, hnumbered,
    hkept.newDirectory hread hmakes.range.2.1 (Nat.ne_of_gt hmakes.range.1)
      h.parent_mem.2.1 (Nat.ne_of_gt h.parent_mem.1) hsize,
    fun m hm hmn hmparent => ?_⟩
  have hrecord := (hmakes.records m hm).trans (hrecords m hm hmn hmparent)
  have hold := h.readRecord hm fun _ _ => rfl
  rw [v.withDisk_self] at hold
  rw [h.readRecord hm hdescriptor, hold]
  exact congrArg Except.ok (blit_congr _ hrecord)

end

/-- The directory `/x` in a small root directory. -/
theorem ext3CreateDirectory_new_shortLink :
    ∃ w, findFile shortLink [47, 120] = .ok none ∧
      ∃ parent name n numbered,
        resolveParent shortLink [47, 120] = .ok (parent, name) ∧
        findFreeInode shortLink = .ok (n, numbered) ∧ NewDirectory w n parent ∧
        ∀ m, InodeInRange shortLink.toGeometry m → m ≠ n → m ≠ parent →
          readInode w m = readInode shortLink m := by
  have htest : (ext3CreateDirectory shortLink [47, 120]).satisfies
      (fun result => result.1) = true := by
    decide +kernel
  have hresolve : resolveParent shortLink [47, 120] = .ok (rootInode, [120]) := by
    rfl
  obtain ⟨⟨done, w⟩, hcreate, hdone⟩ := Outcome.exists_of_satisfies htest
  cases hdone
  refine ⟨w, ext3CreateDirectory_new (by decide) (fun parent name hresolved _ => ?_)
    hcreate⟩
  rw [hresolve] at hresolved
  cases hresolved
  exact shortLink.prepared

section

variable {v w : Volume} {path : CString}

/-- The parent has the entry of the new directory, unless it needed a block for it
and has got none; every other name is found as before. -/
theorem ext3CreateDirectory_linked
    {parent table last : ℕ} {name : CString} {inode : Inode} {offsets : List ℕ}
    (hresolved : resolveParent v path = .ok (parent, name))
    (hprep : Prepared v parent)
    (hstands : Stands v parent table inode offsets last)
    (howned : Owned v inode) (hname : IsName name)
    (hfits : ∀ number, number ≠ 0 → number < 4294967296 →
      Fits v inode last number name)
    (habsent : findDirEntry v parent name = .ok none)
    (hcreate : ext3CreateDirectory v path = .ok (true, w)) :
    (∀ other ≠ name, findDirEntry w parent other = findDirEntry v parent other) ∧
      ((∃ n numbered, findFreeInode v = .ok (n, numbered) ∧
          findDirEntry w parent name = .ok (some n)) ∨
        NeedsBlock v inode ∧ findDirEntry w parent name = .ok none) := by
  obtain ⟨other, n, block, name', filled, -, hmakes⟩ :=
    ext3CreateDirectory_makes hstands.blockSize_le (fun other name' hother _ => by
      rw [hresolved] at hother
      cases hother
      exact hprep) hcreate
  obtain ⟨rfl, rfl⟩ : parent = other ∧ name = name' := by
    have hboth := hresolved.symm.trans hmakes.resolved
    cases hboth
    exact ⟨rfl, rfl⟩
  obtain ⟨numbered, hnumbered⟩ := hmakes.numbered
  obtain ⟨done, hentry⟩ := hmakes.entry
  have hheld := hmakes.held.writeRecord hprep hmakes.range hmakes.number_ne
    (newDirectoryInode v block)
  have hchanges := hmakes.changes.trans
    (reserved_record hprep hmakes.range (newDirectoryInode v block))
  have hmoved := hstands.moved hprep hheld howned hchanges
  have hbefore := hstands.findDirEntry_moved hprep hheld howned hchanges
  cases done with
  | true =>
      have hroom := hfits n (Nat.ne_of_gt hmakes.range.1) hmakes.range.2.1
      have hbytes := howned.dirBytes hchanges
      have hroom' : Fits (v.withDisk (filled.blit (v.recordAddress n)
          (newDirectoryInode v block) 128)) inode last n name :=
        ⟨hroom.number_ne, hroom.number_lt, hroom.sameBlock, hroom.inBlock,
          hroom.direct, hbytes ▸ hroom.ends⟩
      obtain ⟨hfound, hothers, -⟩ := createDirEntry_finds hprep hheld hmoved howned
        hname hroom' ((hbefore name).trans habsent) hentry
      exact ⟨fun other hother => (hothers other hother).trans (hbefore other),
        .inl ⟨n, numbered, hnumbered, hfound⟩⟩
  | false =>
      obtain ⟨hneeds, final, rfl, hheld', hlast⟩ := createDirEntry_failed hprep hheld
        hmoved hname.length_le rfl hentry
      have hafter := hstands.findDirEntry_moved hprep hheld' howned
        (hchanges.trans hlast)
      exact ⟨fun other _ => hafter other,
        .inr ⟨hneeds, (hafter name).trans habsent⟩⟩

end

theorem ext3CreateDirectory_linked_shortLink :
    ∃ w, (∀ other ≠ [120],
        findDirEntry w rootInode other = findDirEntry shortLink rootInode other) ∧
      ((∃ n numbered, findFreeInode shortLink = .ok (n, numbered) ∧
          findDirEntry w rootInode [120] = .ok (some n)) ∨
        NeedsBlock shortLink (storedInode shortLink rootInode 5) ∧
          findDirEntry w rootInode [120] = .ok none) := by
  have htest : (ext3CreateDirectory shortLink [47, 120]).satisfies
      (fun result => result.1) = true := by
    decide +kernel
  have habsent : (findDirEntry shortLink rootInode [120]).satisfies
      Option.isNone = true := by
    decide +kernel
  obtain ⟨⟨done, w⟩, hcreate, hdone⟩ := Outcome.exists_of_satisfies htest
  obtain ⟨found, hfind, hnone⟩ := Outcome.exists_of_satisfies habsent
  obtain rfl := Option.isNone_iff_eq_none.1 hnone
  cases hdone
  have hsize : (storedInode shortLink rootInode 5).size = 1024 := by
    decide +kernel
  have hblock : shortLink.blockSize = 1024 := rfl
  exact ⟨w, ext3CreateDirectory_linked (show resolveParent shortLink [47, 120] =
      .ok (rootInode, [120]) by rfl) shortLink.prepared shortLink.root_stands
    shortLink.root_owned ⟨by simp, by simp, by simp⟩
    (fun number hne hlt => ⟨hne, hlt, by rw [hsize], by rw [hblock]; decide,
      by rw [hsize, hblock]; decide, .inl (by rw [hsize])⟩) hfind hcreate⟩

end ClOs.Ext3
