import ClOs.Ext3Blocks

/-!
# Reading a file

The format maps block `k` of a file through twelve direct pointers, an
indirect block and a doubly indirect block.  `ext3_read_file` takes the branch
for symbolic links whenever `mode & 0xA000` is not zero, and that mask meets
the type of a regular file as well.
-/

namespace ClOs.Ext3

open ByteStore

def Volume.blockWord (v : Volume) (block i : ℕ) : ℕ :=
  v.disk.le32 (v.blockBase block + 4 * i)

/-- The block map of the format; 0 is a hole. -/
def logicalBlock (v : Volume) (inode : Inode) (k : ℕ) : ℕ :=
  let entries := v.blockSize / 4
  let word := fun block i => if block = 0 then 0 else v.blockWord block i
  if k < 12 then inode.block k
  else if k - 12 < entries then word (inode.block 12) (k - 12)
  else if k - 12 - entries < entries * entries then
    word (word (inode.block 13) ((k - 12 - entries) / entries))
      ((k - 12 - entries) % entries)
  else 0

/-- The number of blocks of a file. -/
def Volume.blockCount (v : Volume) (size : ℕ) : ℕ :=
  (size + v.blockSize - 1) / v.blockSize

theorem Volume.lt_blockCount (v : Volume) {k size : ℕ} :
    k < v.blockCount size ↔ k * v.blockSize < size := by
  have hpos := v.blockSize_pos
  unfold Volume.blockCount
  rw [← Nat.succ_le_iff, Nat.le_div_iff_mul_le hpos, Nat.succ_mul]
  omega

/-- A file whose blocks are all there, within the double indirect range. -/
def NoHoles (v : Volume) (inode : Inode) : Prop :=
  ∀ k < v.blockCount inode.size, logicalBlock v inode k ≠ 0

instance (v : Volume) (inode : Inode) : Decidable (NoHoles v inode) :=
  inferInstanceAs (Decidable (∀ k < _, _))

def fileContent (v : Volume) (inode : Inode) : ByteStore := fun k =>
  let block := logicalBlock v inode (k / v.blockSize)
  if block = 0 then 0 else v.disk (v.blockBase block + k % v.blockSize)

/-- `ext3_read_file` returns the size and stores exactly the content, whatever
the caller's buffer held. -/
def ReadsExactly (v : Volume) (path : CString) (inode : Inode) : Prop :=
  ∀ buffer, ext3ReadFile v path buffer =
    .ok (inode.size, buffer.blit 0 (fileContent v inode) inode.size)

/-- The type of a regular file in the top four bits of the mode. -/
def Inode.IsRegular (inode : Inode) : Prop := inode.mode / 4096 = 8

theorem Inode.IsRegular.isLink {inode : Inode} (h : inode.IsRegular) :
    inode.isLink = true := by
  have hbit : inode.mode.testBit 15 = true := by
    rw [Nat.testBit_eq_decide_div_mod_eq]
    unfold Inode.IsRegular at h
    have hdiv : inode.mode / 2 ^ 15 = 1 := by omega
    rw [hdiv]
    rfl
  have hand : (inode.mode &&& 0xA000).testBit 15 = true := by
    rw [Nat.testBit_and, hbit]
    rfl
  have hne : inode.mode &&& 0xA000 ≠ 0 := by
    intro hzero
    rw [hzero] at hand
    simp at hand
  simpa [Inode.isLink] using hne

theorem ext3ReadFile_of_isLink
    {v : Volume} {path : CString} {inode : Inode} {number : ℕ}
    (hfind : findFile v path = .ok (some (inode, number)))
    (hlink : inode.isLink = true)
    (buffer : ByteStore) :
    ext3ReadFile v path buffer =
      if inode.size < 60 then
        .ok (inode.size, buffer.blit 0 (inode.drop 40) inode.size)
      else if inode.size ≤ v.blockSize then
        .ok (inode.size,
          buffer.blit 0 (fetch v (inode.block 0)).bytes inode.size)
      else .error .outOfBounds := by
  unfold ext3ReadFile
  simp only [hfind, hlink, if_true, bind, Except.bind, pure, Except.pure]
  split_ifs with hshort hfits
  · rfl
  · have hslice : (fetch v (inode.block 0)).slice 0 inode.size =
        .ok ((fetch v (inode.block 0)).bytes.drop 0) :=
      Buffer.slice_eq_ok.2 ⟨by simpa using hfits, rfl⟩
    have hdrop : (fetch v (inode.block 0)).bytes.drop 0 =
        (fetch v (inode.block 0)).bytes := by
      funext k
      simp
    rw [hslice, hdrop]
  · simp [Buffer.slice, Buffer.check, hfits, bind, Except.bind]

theorem blit_eq_blit_iff
    (first second : ByteStore) (count : ℕ) :
    (∀ store : ByteStore,
        store.blit 0 first count = store.blit 0 second count) ↔
      ∀ k < count, first k = second k := by
  constructor
  · intro h k hk
    have hat := congrFun (h first) k
    rw [blit_inside _ _ (Nat.zero_le k) (by omega),
      blit_inside _ _ (Nat.zero_le k) (by omega)] at hat
    simpa using hat
  · intro h store
    funext k
    by_cases hk : k < count
    · rw [blit_inside _ _ (Nat.zero_le k) (by omega),
        blit_inside _ _ (Nat.zero_le k) (by omega)]
      simpa using h k hk
    · rw [blit_outside _ _ (by omega), blit_outside _ _ (by omega)]

theorem fileContent_first
    {v : Volume} {inode : Inode} {k : ℕ}
    (hsize : v.blockSize ≤ 65536)
    (hholes : NoHoles v inode)
    (hk : k < inode.size)
    (hblock : k < v.blockSize) :
    fileContent v inode k = (fetch v (inode.block 0)).bytes k := by
  have hcount : 0 < v.blockCount inode.size :=
    v.lt_blockCount.2 (by omega)
  have hfirst := hholes 0 hcount
  have hlogical : logicalBlock v inode 0 = inode.block 0 := by
    simp [logicalBlock]
  rw [hlogical] at hfirst
  rw [fetch_apply v _ (by omega) hblock]
  simp [fileContent, Nat.div_eq_of_lt hblock, Nat.mod_eq_of_lt hblock,
    hlogical, hfirst]

/-- A regular file is read right exactly when it fills one block at most and
either has 60 bytes or more or is, byte by byte, what its block pointers spell
out. -/
theorem ext3ReadFile_regular_iff
    (v : Volume) (path : CString) (inode : Inode) (number : ℕ)
    (hsize : v.blockSize ≤ 65536)
    (hfind : findFile v path = .ok (some (inode, number)))
    (hregular : inode.IsRegular)
    (hholes : NoHoles v inode) :
    ReadsExactly v path inode ↔
      (60 ≤ inode.size ∧ inode.size ≤ v.blockSize) ∨
        (inode.size < 60 ∧
          ∀ k < inode.size,
            inode (40 + k) = v.disk (v.blockBase (inode.block 0) + k)) := by
  have hread := ext3ReadFile_of_isLink hfind hregular.isLink
  have hlarge := v.blockSize_ge
  unfold ReadsExactly
  rcases Nat.lt_or_ge inode.size 60 with hshort | hlong
  · have hcontent : ∀ k < inode.size, fileContent v inode k =
        v.disk (v.blockBase (inode.block 0) + k) := by
      intro k hk
      rw [fileContent_first hsize hholes hk (by omega),
        fetch_apply v _ (by omega) (by omega)]
    have hgoal : (∀ buffer, ext3ReadFile v path buffer = .ok (inode.size,
        buffer.blit 0 (fileContent v inode) inode.size)) ↔
          ∀ k < inode.size, inode.drop 40 k = fileContent v inode k := by
      rw [← blit_eq_blit_iff]
      simp [hread, hshort]
    rw [hgoal]
    constructor
    · intro h
      refine .inr ⟨hshort, fun k hk => ?_⟩
      rw [← hcontent k hk, ← h k hk, drop_apply]
    · rintro (⟨hlong, -⟩ | ⟨-, h⟩)
      · omega
      · intro k hk
        rw [hcontent k hk, ← h k hk, drop_apply]
  · have hnot : ¬inode.size < 60 := by omega
    by_cases hfits : inode.size ≤ v.blockSize
    · have hblit : ∀ buffer : ByteStore,
          buffer.blit 0 (fetch v (inode.block 0)).bytes inode.size =
            buffer.blit 0 (fileContent v inode) inode.size := by
        rw [blit_eq_blit_iff]
        intro k hk
        exact (fileContent_first hsize hholes hk (by omega)).symm
      simp [hread, hnot, hfits, hlong, hblit]
    · simp [hread, hnot, hfits]

/-! ## A volume with two small files -/

/-- One group of 8192 blocks of 1 KiB. -/
def smallGeometry : Geometry where
  blockSize := 1024
  inodeSize := 128
  inodesPerGroup := 16
  blocksPerGroup := 8192
  groupCount := 1
  firstDataBlock := 1
  blockSize_eq := ⟨0, by decide, by decide⟩
  inodesPerGroup_pos := by decide
  blocksPerGroup_pos := by decide

/-- The descriptor in block 2, the bitmaps in blocks 3 and 4, the inodes 2, 12 and 13 in the table at block 5,
the root directory in block 7 with the files `h` of 5 bytes in block 8 and `l`
of 100 bytes in block 9. -/
def twoFiles : Volume where
  toGeometry := smallGeometry
  disk := ofWords [
    (2048, 3), (2052, 4), (2056, 5), (2060, 0x00031FF7),
    (3072, 0x1FF), (4096, 0x1FFF),
    (5248, 0x41ED), (5252, 1024), (5288, 7),
    (6528, 0x81A4), (6532, 5), (6568, 8),
    (6656, 0x81A4), (6660, 100), (6696, 9),
    (7168, 2), (7172, 0x0201000C), (7176, 0x2E),
    (7180, 2), (7184, 0x0202000C), (7188, 0x2E2E),
    (7192, 12), (7196, 0x01010010), (7200, 0x68),
    (7208, 13), (7212, 0x010103D8), (7216, 0x6C),
    (8192, 0x6C6C6568), (8196, 0x6F),
    (9216, 0x676E6F6C)]
  garbage := fun _ => 0

/-- `/l` has 100 bytes, so it is read right. -/
theorem ext3ReadFile_regular_iff_twoFiles :
    ∃ inode number,
      findFile twoFiles [47, 108] = .ok (some (inode, number)) ∧
        inode.size = 100 ∧ ReadsExactly twoFiles [47, 108] inode := by
  have hfound : (findFile twoFiles [47, 108]).satisfies (fun found =>
      found.any fun file => decide (file.1.size = 100 ∧
        file.1.mode / 4096 = 8 ∧ NoHoles twoFiles file.1)) = true := by
    decide +kernel
  obtain ⟨found, hfind, htest⟩ := Outcome.exists_of_satisfies hfound
  cases found with
  | none => simp at htest
  | some pair =>
      obtain ⟨inode, number⟩ := pair
      simp only [Option.any_some, decide_eq_true_eq] at htest
      obtain ⟨hlength, hregular, hholes⟩ := htest
      have hiff := ext3ReadFile_regular_iff twoFiles [47, 108] inode number
        (by decide) hfind hregular hholes
      exact ⟨inode, number, hfind, hlength,
        hiff.2 (.inl ⟨by omega, by rw [hlength]; decide⟩)⟩

/-- `/h` holds `hello`, and the call stores the bytes of its block number. -/
theorem ext3ReadFile_hello :
    ∃ inode number,
      findFile twoFiles [47, 104] = .ok (some (inode, number)) ∧
        inode.IsRegular ∧ NoHoles twoFiles inode ∧
          ¬ReadsExactly twoFiles [47, 104] inode := by
  have hfound : (findFile twoFiles [47, 104]).satisfies (fun found =>
      found.any fun file => decide (file.1.size = 5 ∧
        file.1.mode / 4096 = 8 ∧ NoHoles twoFiles file.1 ∧
          fileContent twoFiles file.1 0 = 104)) = true := by
    decide +kernel
  have hread : (ext3ReadFile twoFiles [47, 104] (fun _ => 0)).satisfies
      (fun result => result.2 0 = 8) = true := by
    decide +kernel
  obtain ⟨found, hfind, htest⟩ := Outcome.exists_of_satisfies hfound
  cases found with
  | none => simp at htest
  | some pair =>
      obtain ⟨inode, number⟩ := pair
      simp only [Option.any_some, decide_eq_true_eq] at htest
      obtain ⟨hlength, hregular, hholes, hbyte⟩ := htest
      refine ⟨inode, number, hfind, hregular, hholes, fun hexact => ?_⟩
      rw [hexact (fun _ => 0)] at hread
      have hstored : blit (fun _ => 0) 0 (fileContent twoFiles inode)
          inode.size 0 = 8 := of_decide_eq_true hread
      rw [blit_inside _ _ (Nat.zero_le 0) (by omega)] at hstored
      simp [hbyte] at hstored

end ClOs.Ext3
