import ClOs.Ext3Paths
import ClOs.Ext3Writing

/-!
# Deleting on an ext3 volume

`ext3_delete` clears one bit of the drive for each block number it frees and
then the inode field of one directory entry.  The bits are those the driver
computes from the numbers, whatever the numbers stand for.
-/

namespace ClOs.Ext3

open ByteStore

/-! ## The bits that are cleared -/

def driverBit (v : Volume) (block : ℕ) : ℕ :=
  8 * v.blockBase (v.freeBitmap block) + block % v.blocksPerGroup

def freedBits : Volume → List ℕ → List ℕ
  | _, [] => []
  | v, block :: rest =>
      driverBit v block ::
        freedBits (v.withDisk (v.disk.clearBit (driverBit v block))) rest

theorem freeBlock_clearBit
    {v next : Volume} {block : ℕ}
    (hsize : v.blockSize ≤ 65536)
    (hfree : freeBlock v block = .ok next) :
    next = v.withDisk (v.disk.clearBit (driverBit v block)) := by
  have hindex : block % v.blocksPerGroup < 8 * v.blockSize := by
    unfold freeBlock at hfree
    rw [Outcome.bind_eq_ok] at hfree
    obtain ⟨bitmap, -, hfree⟩ := hfree
    rw [Outcome.bind_eq_ok] at hfree
    obtain ⟨_, hcheck, -⟩ := hfree
    have hroom := Buffer.check_eq_ok.1 hcheck
    rw [fetch_size] at hroom
    omega
  have hdisk := writeBlock_clearBit v (v.freeBitmap block) (by omega) hindex
  rw [freeBlock_eq_ok hfree, driverBit, ← hdisk]
  rfl

theorem freeBlocks_bits
    {v next : Volume} {blocks : List ℕ}
    (hsize : v.blockSize ≤ 65536)
    (hfree : freeBlocks v blocks = .ok next) :
    next = v.withDisk next.disk ∧
      ∀ x, next.disk.bit x = true ↔
        v.disk.bit x = true ∧ x ∉ freedBits v blocks := by
  induction blocks generalizing v with
  | nil =>
      simp only [freeBlocks, List.foldlM_nil, pure, Except.pure,
        Except.ok.injEq] at hfree
      subst hfree
      simp [freedBits]
  | cons block rest ih =>
      rw [freeBlocks_cons, Outcome.bind_eq_ok] at hfree
      obtain ⟨middle, hfirst, hrest⟩ := hfree
      have hmiddle := freeBlock_clearBit hsize hfirst
      subst hmiddle
      obtain ⟨hvolume, hbits⟩ := ih
        (v := v.withDisk (v.disk.clearBit (driverBit v block))) hsize hrest
      refine ⟨hvolume, fun x => ?_⟩
      rw [hbits x, Volume.withDisk_disk, bit_clearBit, freedBits,
        List.mem_cons]
      simp only [Bool.and_eq_true, Bool.not_eq_true', decide_eq_false_iff_not,
        not_or]
      constructor
      · rintro ⟨⟨hset, hne⟩, hnot⟩
        exact ⟨hset, Ne.symm hne, hnot⟩
      · rintro ⟨hset, hne, hnot⟩
        exact ⟨⟨hset, Ne.symm hne⟩, hnot⟩

theorem byte_eq_of_bits
    {s t : ByteStore} {k : ℕ}
    (h : ∀ x, x / 8 = k → (s.bit x = true ↔ t.bit x = true)) :
    s k = t k := by
  apply UInt8.toNat_inj.1
  apply Nat.eq_of_testBit_eq
  intro i
  rcases Nat.lt_or_ge i 8 with hi | hi
  · have hbit := h (8 * k + i) (by omega)
    have hdiv : (8 * k + i) / 8 = k := by omega
    have hmod : (8 * k + i) % 8 = i := by omega
    rw [bit, bit, hdiv, hmod] at hbit
    exact Bool.eq_iff_iff.2 hbit
  · have hpow : 256 ≤ 2 ^ i :=
      calc 256 = 2 ^ 8 := by norm_num
        _ ≤ 2 ^ i := Nat.pow_le_pow_right (by norm_num) hi
    rw [Nat.testBit_lt_two_pow ((s k).toNat_lt.trans_le hpow),
      Nat.testBit_lt_two_pow ((t k).toNat_lt.trans_le hpow)]

theorem bit_zero {s : ByteStore} {x : ℕ} (h : s (x / 8) = 0) :
    s.bit x = false := by
  simp [bit, h]

/-- The end of `ext3_delete` leaves every byte as it is or makes it 0. -/
theorem removeEntry_zeroes
    {v next : Volume} {number : ℕ} {name : CString} {removed : Bool}
    (hsize : v.blockSize ≤ 65536)
    (hremove : removeEntry v number name = .ok (removed, next)) :
    ∀ k, next.disk k = v.disk k ∨ next.disk k = 0 := by
  have hpos := v.blockSize_pos
  unfold removeEntry at hremove
  rw [Outcome.bind_eq_ok] at hremove
  obtain ⟨directory, -, hremove⟩ := hremove
  rw [Outcome.bind_eq_ok] at hremove
  obtain ⟨loaded, hload, hremove⟩ := hremove
  cases loaded with
  | none =>
      simp only [pure, Except.pure, Except.ok.injEq, Prod.mk.injEq] at hremove
      intro k
      rw [hremove.2]
      exact .inl rfl
  | some buffer =>
      simp only at hremove
      rw [Outcome.bind_eq_ok] at hremove
      obtain ⟨⟨o, found⟩, hwalk, hremove⟩ := hremove
      cases found with
      | false =>
          simp only [Bool.false_eq_true, if_false, pure, Except.pure,
            Except.ok.injEq, Prod.mk.injEq] at hremove
          intro k
          rw [hremove.2]
          exact .inl rfl
      | true =>
          obtain ⟨-, hroom, hlive, -⟩ := walk_found hwalk
          obtain ⟨hbuffer, hfits, hbytes⟩ := loadDirectory_some hsize hload
          simp only [if_true] at hremove
          rw [Outcome.bind_eq_ok] at hremove
          obtain ⟨block, hslot, hremove⟩ := hremove
          rw [Outcome.bind_eq_ok] at hremove
          obtain ⟨bytes, hslice, hremove⟩ := hremove
          obtain ⟨hend, rfl⟩ := Buffer.slice_eq_ok.1 hslice
          simp only [pure, Except.pure, Except.ok.injEq,
            Prod.mk.injEq] at hremove
          obtain ⟨-, rfl⟩ := hremove
          rw [v.transfer_eq (by omega)] at hend
          simp only at hend
          have hblock : block = directory.block (o / v.blockSize) := by
            unfold blockSlot at hslot
            split_ifs at hslot
            simp only [pure, Except.pure, Except.ok.injEq] at hslot
            exact hslot.symm
          have hfirst : ∃ b, directory.directBlocks[o / v.blockSize]? =
              some b := by
            by_contra hnone
            have hlength : directory.directBlocks.length ≤
                o / v.blockSize := by
              by_contra hlt
              exact hnone ⟨_, List.getElem?_eq_getElem (by omega)⟩
            have hzero : ∀ j < 4, buffer.bytes (o + j) = 0 := by
              intro j hj
              have hdiv : directory.directBlocks.length ≤
                  (o + j) / v.blockSize :=
                hlength.trans (Nat.div_le_div_right (by omega))
              rw [hbytes _ (by omega)]
              simp only [dirBytes, List.getElem?_eq_none_iff.2 hdiv]
            apply hlive
            have h0 := hzero 0 (by omega)
            simp only [Nat.add_zero] at h0
            simp [le32, h0, hzero 1 (by omega), hzero 2 (by omega),
              hzero 3 (by omega)]
          obtain ⟨b, hb⟩ := hfirst
          have hsame := (directory.directBlocks_getElem? hb).1
          intro k
          rw [writeBlock_disk, v.transfer_eq (by omega)]
          by_cases hk : v.blockBase block ≤ k ∧
              k < v.blockBase block + v.blockSize
          · rw [blit_inside _ _ hk.1 hk.2, drop_apply]
            generalize hplace : o / v.blockSize * v.blockSize +
              (k - v.blockBase block) = place
            have hdiv : place / v.blockSize = o / v.blockSize := by
              rw [← hplace, Nat.mul_comm, Nat.mul_add_div hpos,
                Nat.div_eq_of_lt
                  (show k - v.blockBase block < v.blockSize by omega),
                Nat.add_zero]
            have hmod : place % v.blockSize = k - v.blockBase block := by
              rw [← hplace, Nat.mul_comm, Nat.mul_add_mod,
                Nat.mod_eq_of_lt
                  (show k - v.blockBase block < v.blockSize by omega)]
            by_cases hfield : o ≤ place ∧ place < o + 4
            · rw [put32_zero_inside _ hfield.1 hfield.2]
              exact .inr rfl
            · rw [put32_outside _ (by omega), hbytes _ (by omega)]
              simp only [dirBytes, hdiv, hmod, hb]
              rw [hsame, ← hblock, Nat.add_sub_cancel' hk.1]
              exact .inl rfl
          · rw [blit_outside _ _ (by omega)]
            exact .inl rfl

theorem removeEntry_bit
    {v next : Volume} {number : ℕ} {name : CString} {removed : Bool}
    (hsize : v.blockSize ≤ 65536)
    (hremove : removeEntry v number name = .ok (removed, next))
    {x : ℕ} (hset : next.disk.bit x = true) : v.disk.bit x = true := by
  rcases removeEntry_zeroes hsize hremove (x / 8) with hsame | hzero
  · rwa [bit, hsame] at hset
  · rw [bit_zero hzero] at hset
    cases hset

/-! ## Well-formed volumes -/

def blockTree (v : Volume) : ℕ → ℕ → List ℕ
  | depth, block =>
      if block = 0 then []
      else block ::
        match depth with
        | 0 => []
        | depth + 1 =>
            (List.range (v.blockSize / 4)).flatMap
              (fun i => blockTree v depth (v.blockWord block i))

/-- The data and indirect blocks of an inode in the format.  A symbolic link
below 60 bytes keeps its target in the pointers. -/
def ownedBlocks (v : Volume) (inode : Inode) : List ℕ :=
  if inode.mode / 4096 = 10 ∧ inode.size < 60 then []
  else
    (List.range 12).flatMap (fun k => blockTree v 0 (inode.block k)) ++
      blockTree v 1 (inode.block 12) ++ blockTree v 2 (inode.block 13) ++
        blockTree v 3 (inode.block 14)

def inodeBit (v : Volume) (n : ℕ) : ℕ :=
  8 * v.blockBase (v.disk.le32
      (v.descriptorAddress ((n - 1) / v.inodesPerGroup) + 4)) +
    (n - 1) % v.inodesPerGroup

def requiredBits (v : Volume) (inode : Inode) (n : ℕ) : List ℕ :=
  (ownedBlocks v inode).map v.blockBit ++ [inodeBit v n]

/-- A volume on which paths are resolved from directories with blocks of their
own, apart from the descriptors, the inode tables and the bitmaps. -/
structure WellFormed (v : Volume) : Prop where
  blockSize_le : v.blockSize ≤ 65536
  noInodeZero :
    v.blockSize < u32 (sub32 0 1 / v.inodesPerGroup * 32) + 12
  root : ∃ inode, readInode v rootInode = .ok inode ∧
    inode.isDirectory = true
  directories : ∀ d, Reach v d → ∃ inode offsets last,
    readInode v d = .ok inode ∧ Directory v inode offsets last
  tablesApart : ∀ (d : ℕ) (inode : Inode) (block : ℕ),
    Reach v d → readInode v d = .ok inode →
      block ∈ inode.directBlocks →
      v.blockBase block ≠ v.blockBase 2 ∧
        ∀ n b, Named v n → inodeToBlock v n = .ok b →
          v.blockBase block ≠ v.blockBase b
  blocksApart : ∀ (d d' : ℕ) (inode inode' : Inode) (j j' b b' : ℕ),
    Reach v d → Reach v d' →
    readInode v d = .ok inode → readInode v d' = .ok inode' →
      inode.directBlocks[j]? = some b → inode'.directBlocks[j']? = some b' →
        v.blockBase b = v.blockBase b' → d = d' ∧ j = j'
  bitmapsApart : ∀ (path : CString) (inode : Inode) (n : ℕ),
    findFile v path = .ok (some (inode, n)) →
    ∀ x ∈ requiredBits v inode n, ¬PathByte v (x / 8)

theorem InBlock.same_base
    {v : Volume} {block other k : ℕ}
    (h : InBlock v block k) (h' : InBlock v other k) :
    v.blockBase block = v.blockBase other := by
  have hpos := v.blockSize_pos
  obtain ⟨m, hm⟩ := v.blockSize_dvd_blockBase block
  obtain ⟨n, hn⟩ := v.blockSize_dvd_blockBase other
  have hdiv : ∀ {b c : ℕ}, v.blockBase b = v.blockSize * c →
      InBlock v b k → k / v.blockSize = c := by
    intro b c hb hk
    obtain ⟨hlow, hhigh⟩ := hk
    rw [hb] at hlow hhigh
    apply Nat.div_eq_of_lt_le
    · rwa [Nat.mul_comm]
    · rwa [Nat.succ_mul, Nat.mul_comm]
  rw [hm, hn, ← hdiv hm h, hdiv hn h']

theorem readInode_zero
    {v : Volume} (hwf : WellFormed v) (disk : ByteStore) (inode : Inode) :
    readInode (v.withDisk disk) 0 ≠ .ok inode := by
  have hzero := hwf.noInodeZero
  intro hread
  unfold readInode inodeToBlock at hread
  rw [Outcome.bind_eq_ok] at hread
  obtain ⟨block, hblock, -⟩ := hread
  rw [Outcome.bind_eq_ok] at hblock
  obtain ⟨word, hword, -⟩ := hblock
  have hroom := (Buffer.get32_eq_ok.1 hword).1
  simp only [fetch_size, Volume.withDisk_toGeometry] at hroom
  omega

theorem Directory.withDisk
    {v : Volume} {disk : ByteStore} {inode : Inode} {offsets : List ℕ}
    {last : ℕ}
    (h : Directory v inode offsets last)
    (hbytes : dirBytes (v.withDisk disk) inode = dirBytes v inode) :
    Directory (v.withDisk disk) inode offsets last where
  size_lt := h.size_lt
  fits := h.fits
  chain := by
    rw [hbytes]
    exact h.chain
  holdsName := by
    rw [hbytes]
    exact h.holdsName
  inBlock := h.inBlock
  named := by
    rw [hbytes]
    exact h.named

theorem SamePaths.dirBytes
    {v : Volume} {disk : ByteStore} {d : ℕ} {inode : Inode}
    (h : SamePaths v disk)
    (hreach : Reach v d)
    (hread : Ext3.readInode v d = .ok inode) :
    dirBytes (v.withDisk disk) inode = Ext3.dirBytes v inode := by
  funext k
  unfold Ext3.dirBytes
  simp only [Volume.withDisk_toGeometry, Volume.withDisk_disk,
    Volume.withDisk_blockBase]
  cases hblock : inode.directBlocks[k / v.blockSize]? with
  | none => rfl
  | some block =>
      exact h.directBlocks hreach hread block
        (List.mem_of_getElem? hblock) _ (Nat.mod_lt k v.blockSize_pos)

/-- The field that is cleared lies in the directory. -/
theorem Directory.inDirectory
    {v : Volume} {d o : ℕ} {inode : Inode} {offsets : List ℕ} {last : ℕ}
    (h : Directory v inode offsets last)
    (hread : readInode v d = .ok inode)
    (ho : o ∈ offsets) :
    inode.directBlocks[o / v.blockSize]? =
        some (inode.block (o / v.blockSize)) ∧
      ∀ k, dirAddress v inode o ≤ k → k < dirAddress v inode o + 4 →
        InBlock v (inode.block (o / v.blockSize)) k ∧
          InDirectory v d k := by
  have hinBlock := h.inBlock o ho
  have hlive := (h.chain.mem_bounds ho).2.2.1
  have hblock := dirBytes_block (v := v) (by omega)
    (show (dirBytes v inode).le32 o ≠ 0 by simpa using hlive)
  refine ⟨hblock, fun k hlow hhigh => ?_⟩
  unfold dirAddress at hlow hhigh
  have hplace : InBlock v (inode.block (o / v.blockSize)) k := by
    unfold InBlock
    omega
  exact ⟨hplace, inode, _, hread, List.mem_of_getElem? hblock, hplace⟩

/-- The end of `ext3_delete` on a disk that agrees wherever paths are read. -/
theorem unlink_spec
    {v next : Volume} {disk : ByteStore} {parent : ℕ} {name : CString}
    {removed : Bool}
    (hwf : WellFormed v)
    (hsame : SamePaths v disk)
    (hparent : parent = 0 ∨ Reach v parent)
    (hremove : removeEntry (v.withDisk disk) parent name =
      .ok (removed, next)) :
    removed = true ∧ Reach v parent ∧ ∃ inode offsets last,
      readInode v parent = .ok inode ∧ Directory v inode offsets last ∧
        next = v.withDisk
          (match offsets.find?
              (fun o => nameAt (dirBytes v inode) o = name) with
            | some o => disk.put32 (dirAddress v inode o) 0
            | none => disk) := by
  rcases hparent with rfl | hreach
  · unfold removeEntry at hremove
    rw [Outcome.bind_eq_ok] at hremove
    obtain ⟨inode, hread, -⟩ := hremove
    exact absurd hread (readInode_zero hwf disk inode)
  · obtain ⟨inode, offsets, last, hread, hdirectory⟩ :=
      hwf.directories parent hreach
    have hread' := (hsame.readInode hreach.named).trans hread
    have hbytes := hsame.dirBytes hreach hread
    have heq := removeEntry_eq (v := v.withDisk disk) hwf.blockSize_le hread'
      (hdirectory.withDisk hbytes) name
    rw [hremove, hbytes] at heq
    simp only [Except.ok.injEq, Prod.mk.injEq] at heq
    obtain ⟨hremoved, hnext⟩ := heq
    refine ⟨hremoved, hreach, inode, offsets, last, hread, hdirectory, ?_⟩
    rw [hnext]
    cases offsets.find? (fun o => nameAt (dirBytes v inode) o = name) with
    | none => rfl
    | some o => rfl

/-! ## The frame of a deletion -/

/-- Outside the parent directory, exactly the bits of the inode and of its
blocks are cleared. -/
def ClearsExactly (v next : Volume) (parent : ℕ) (inode : Inode) (n : ℕ) :
    Prop :=
  ∀ x, ¬InDirectory v parent (x / 8) →
    (next.disk.bit x = true ↔
      v.disk.bit x = true ∧ x ∉ requiredBits v inode n)

/-- The block numbers that the driver frees address, among the bits that are
set, exactly the required ones. -/
def FreesExactly (v : Volume) (inode : Inode) (n : ℕ) : Prop :=
  ∀ x, v.disk.bit x = true →
    (x ∈ freedBits v (freedWords inode) ↔ x ∈ requiredBits v inode n)

/-- No freed number addresses a bit that a path is read from. -/
def FreesNoPath (v : Volume) (inode : Inode) : Prop :=
  ∀ x ∈ freedBits v (freedWords inode), v.disk.bit x = true →
    ¬PathByte v (x / 8)

theorem FreesNoPath.samePaths
    {v freed : Volume} {inode : Inode}
    (h : FreesNoPath v inode)
    (hbits : ∀ x, freed.disk.bit x = true ↔
      v.disk.bit x = true ∧ x ∉ freedBits v (freedWords inode)) :
    SamePaths v freed.disk := by
  intro k hk
  apply byte_eq_of_bits
  rintro x rfl
  rw [hbits x]
  constructor
  · exact fun hset => hset.1
  · exact fun hset => ⟨hset, fun hmem => h x hmem hset hk⟩

theorem ext3Delete_spec
    {v next : Volume} {path : CString} {inode : Inode} {n : ℕ}
    (hwf : WellFormed v)
    (hfind : findFile v path = .ok (some (inode, n)))
    (hdelete : ext3Delete v path = .ok (true, next))
    (hfrees : FreesNoPath v inode) :
    ∃ freed parent name directory offsets last,
      freed = v.withDisk freed.disk ∧ SamePaths v freed.disk ∧
      (∀ x, freed.disk.bit x = true ↔
        v.disk.bit x = true ∧ x ∉ freedBits v (freedWords inode)) ∧
      resolveParent v path = .ok (parent, name) ∧ Reach v parent ∧
      readInode v parent = .ok directory ∧
      Directory v directory offsets last ∧
      next = v.withDisk
        (match offsets.find?
            (fun o => nameAt (dirBytes v directory) o = name) with
          | some o => freed.disk.put32 (dirAddress v directory o) 0
          | none => freed.disk) := by
  rcases ext3Delete_cases hdelete with ⟨hfalse, -⟩ |
    ⟨inode', n', freed, parent, name, hfind', -, hfreed, hparent, hremove⟩
  · cases hfalse
  · rw [hfind] at hfind'
    cases hfind'
    obtain ⟨hvolume, hbits⟩ := freeBlocks_bits hwf.blockSize_le hfreed
    have hsame := hfrees.samePaths hbits
    rw [hvolume] at hparent hremove
    rw [hsame.resolveParent] at hparent
    have hplace : parent = 0 ∨ Reach v parent := by
      by_cases hzero : parent = 0
      · exact .inl hzero
      · exact .inr (resolveParent_reach hparent hzero)
    obtain ⟨-, hreach, directory, offsets, last, hread, hdirectory,
      hnext⟩ := unlink_spec hwf hsame hplace hremove
    exact ⟨freed, parent, name, directory, offsets, last, hvolume, hsame,
      hbits, hparent, hreach, hread, hdirectory, hnext⟩

theorem ext3Delete_outside
    {v next : Volume} {path name : CString} {inode : Inode} {n parent : ℕ}
    (hwf : WellFormed v)
    (hfind : findFile v path = .ok (some (inode, n)))
    (hdelete : ext3Delete v path = .ok (true, next))
    (hparent : resolveParent v path = .ok (parent, name))
    (hfrees : FreesNoPath v inode)
    {x : ℕ} (hx : ¬InDirectory v parent (x / 8)) :
    next.disk.bit x = true ↔
      v.disk.bit x = true ∧ x ∉ freedBits v (freedWords inode) := by
  obtain ⟨freed, parent', name', directory, offsets, last, -, -, hbits,
    hparent', -, hread, hdirectory, hnext⟩ :=
    ext3Delete_spec hwf hfind hdelete hfrees
  rw [hparent] at hparent'
  cases hparent'
  rw [← hbits x, hnext]
  cases hentry : offsets.find?
      (fun o => nameAt (dirBytes v directory) o = name) with
  | none => rfl
  | some o =>
      have ho := List.mem_of_find?_eq_some hentry
      have hfield := (hdirectory.inDirectory hread ho).2
      have houtside : x / 8 < dirAddress v directory o ∨
          dirAddress v directory o + 4 ≤ x / 8 := by
        by_contra hinside
        exact hx (hfield (x / 8) (by omega) (by omega)).2
      simp only [Volume.withDisk_disk, bit, put32_outside _ houtside]

/-- Deleting clears exactly the bits it should if and only if the numbers it
frees happen to address them, unless one of them addresses a bit of the parent
directory itself. -/
theorem ext3Delete_clearsExactly_iff
    (v next : Volume) (path name : CString) (inode : Inode) (n parent : ℕ)
    (hwf : WellFormed v)
    (hfind : findFile v path = .ok (some (inode, n)))
    (hdelete : ext3Delete v path = .ok (true, next))
    (hparent : resolveParent v path = .ok (parent, name))
    (hspared : ∀ x ∈ freedBits v (freedWords inode),
      v.disk.bit x = true → ¬InDirectory v parent (x / 8)) :
    ClearsExactly v next parent inode n ↔ FreesExactly v inode n := by
  have hapart := hwf.bitmapsApart path inode n hfind
  constructor
  · intro hclears
    have hrequired : ∀ x ∈ freedBits v (freedWords inode),
        v.disk.bit x = true → x ∈ requiredBits v inode n := by
      intro x hx hset
      by_contra hother
      have hkept := (hclears x (hspared x hx hset)).2 ⟨hset, hother⟩
      rcases ext3Delete_cases hdelete with ⟨hfalse, -⟩ |
        ⟨inode', n', freed, _, _, hfind', -, hfreed, -, hremove⟩
      · cases hfalse
      · rw [hfind] at hfind'
        cases hfind'
        obtain ⟨hvolume, hbits⟩ := freeBlocks_bits hwf.blockSize_le hfreed
        have hsize : freed.blockSize ≤ 65536 := by
          rw [freeBlocks_toGeometry hfreed]
          exact hwf.blockSize_le
        exact ((hbits x).1 (removeEntry_bit hsize hremove hkept)).2 hx
    have hfrees : FreesNoPath v inode := fun x hx hset =>
      hapart x (hrequired x hx hset)
    intro x hset
    refine ⟨fun hx => hrequired x hx hset, fun hx => ?_⟩
    by_contra hnot
    have hplace : ¬InDirectory v parent (x / 8) := by
      intro hdirectory
      obtain ⟨_, parent', _, _, _, _, -, -, -, hparent', hreach, -⟩ :=
        ext3Delete_spec hwf hfind hdelete hfrees
      rw [hparent] at hparent'
      cases hparent'
      exact hapart x hx (.directory parent hreach hdirectory)
    have hkept := (ext3Delete_outside hwf hfind hdelete hparent hfrees
      hplace).2 ⟨hset, hnot⟩
    exact ((hclears x hplace).1 hkept).2 hx
  · intro hexact x hplace
    have hfrees : FreesNoPath v inode := fun x hx hset =>
      hapart x ((hexact x hset).1 hx)
    rw [ext3Delete_outside hwf hfind hdelete hparent hfrees hplace]
    constructor
    · rintro ⟨hset, hnot⟩
      exact ⟨hset, fun hx => hnot ((hexact x hset).2 hx)⟩
    · rintro ⟨hset, hnot⟩
      exact ⟨hset, fun hx => hnot ((hexact x hset).1 hx)⟩

/-! ## A root directory with two files and a short link -/

/-- The files `h` and `l` and the link `s` with the target bytes `0D 20`.  Read
as a block number they make 8205, and block 4 names itself as the bitmap of
group 1. -/
def shortLink : Volume where
  toGeometry := smallGeometry
  disk := ofWords [
    (2048, 3), (2052, 4), (2056, 5), (2060, 0x00021FF7),
    (3072, 0x1FF), (4096, 0x3FFF), (4128, 4),
    (5248, 0x41ED), (5252, 1024), (5288, 7),
    (6528, 0x81A4), (6532, 5), (6568, 8),
    (6656, 0x81A4), (6660, 100), (6696, 9),
    (6784, 0xA1FF), (6788, 2), (6824, 0x200D),
    (7168, 2), (7172, 0x0201000C), (7176, 0x2E),
    (7180, 2), (7184, 0x0202000C), (7188, 0x2E2E),
    (7192, 12), (7196, 0x01010010), (7200, 0x68),
    (7208, 13), (7212, 0x01010010), (7216, 0x6C),
    (7224, 14), (7228, 0x070103C8), (7232, 0x73)]
  garbage := fun _ => 0

namespace shortLink

def rootBytes : ByteStore := fun k =>
  match [7][k / 1024]? with
  | some block => shortLink.disk (shortLink.blockBase block + k % 1024)
  | none => 0

theorem geometry_values :
    shortLink.blockBase 2 = 2048 ∧ shortLink.blockBase 7 = 7168 ∧
      shortLink.blockSize = 1024 ∧
      shortLink.blockSize <
        u32 (sub32 0 1 / shortLink.inodesPerGroup * 32) + 12 := by
  decide +kernel

/-- What the inodes of the volume give when they are read. -/
theorem inode_values :
    (readInode shortLink rootInode).satisfies (fun inode =>
        inode.size = 1024 ∧ inode.directBlocks = [7] ∧
          inode.isDirectory = true) = true ∧
      (∀ n ∈ [12, 13, 14], (enterDirectory shortLink n).satisfies
        (fun child => child = none) = true) ∧
      ∀ n ∈ [rootInode, 12, 13, 14],
        (inodeToBlock shortLink n).satisfies (fun block =>
            5120 ≤ shortLink.blockBase block ∧
              shortLink.blockBase block ≤ 6144) = true ∧
          (readInode shortLink n).satisfies (fun inode => ∀ x ∈
            requiredBits shortLink inode n,
              3072 ≤ x / 8 ∧ x / 8 < 5120) = true := by
  decide +kernel

/-- The records of the root directory. -/
theorem root_values :
    recordsFrom (fun o => decide (rootBytes.le32 o ≠ 0))
        (fun o => rootBytes.le16 (o + 4)) 1024 6 0 =
          some ([0, 12, 24, 40, 56], 1024) ∧
      ∀ o ∈ [0, 12, 24, 40, 56],
        8 + nameLength rootBytes o ≤ rootBytes.le16 (o + 4) ∧
          nameAt rootBytes o ≠ [] ∧
          (rootBytes.le32 o = 2 ∨ rootBytes.le32 o = 12 ∨
            rootBytes.le32 o = 13 ∨ rootBytes.le32 o = 14) := by
  decide +kernel

theorem readInode_root :
    ∃ inode, readInode shortLink rootInode = .ok inode ∧
      inode.size = 1024 ∧ inode.directBlocks = [7] ∧
        inode.isDirectory = true := by
  obtain ⟨inode, hread, hfields⟩ :=
    Outcome.exists_of_satisfies inode_values.1
  exact ⟨inode, hread, of_decide_eq_true hfields⟩

theorem dirBytes_root {inode : Inode} (h : inode.directBlocks = [7]) :
    dirBytes shortLink inode = rootBytes := by
  unfold dirBytes rootBytes
  rw [h]
  rfl

theorem directory_root {inode : Inode} (hsize : inode.size = 1024)
    (hblocks : inode.directBlocks = [7]) :
    Directory shortLink inode [0, 12, 24, 40, 56] 1024 := by
  have hbytes := dirBytes_root hblocks
  exact {
    size_lt := by omega
    fits := by
      rw [hblocks, hsize]
      decide
    chain := by
      rw [hbytes, hsize]
      exact recordChain_of_recordsFrom 6 root_values.1
    holdsName := by
      rw [hbytes]
      exact fun o ho => (root_values.2 o ho).1
    inBlock := by decide
    named := by
      rw [hbytes]
      exact fun o ho => (root_values.2 o ho).2.1 }

theorem findDirEntry_root {name : CString} {n : ℕ}
    (h : findDirEntry shortLink rootInode name = .ok (some n)) :
    n = rootInode ∨ n = 12 ∨ n = 13 ∨ n = 14 := by
  obtain ⟨inode, hread, hsize, hblocks, -⟩ := readInode_root
  rw [findDirEntry_eq (by decide) hread (directory_root hsize hblocks),
    dirBytes_root hblocks] at h
  cases hfind : [0, 12, 24, 40, 56].find?
      (fun o => decide (nameAt rootBytes o = name)) with
  | none => simp [hfind] at h
  | some o =>
      simp only [hfind, Option.map_some, Except.ok.injEq,
        Option.some.injEq] at h
      have ho := (root_values.2 o (List.mem_of_find?_eq_some hfind)).2.2
      rw [h] at ho
      exact ho

theorem reach_eq {d : ℕ} (h : Reach shortLink d) : d = rootInode := by
  induction h with
  | root => rfl
  | entry hparent hfound hdirectory ih =>
      subst ih
      have hfile := inode_values.2.1
      rcases findDirEntry_root hfound with rfl | rfl | rfl | rfl
      · rfl
      · have hnone := hfile 12 (by decide)
        rw [hdirectory] at hnone
        cases hnone
      · have hnone := hfile 13 (by decide)
        rw [hdirectory] at hnone
        cases hnone
      · have hnone := hfile 14 (by decide)
        rw [hdirectory] at hnone
        cases hnone

theorem mem_of_named {n : ℕ} (h : Named shortLink n) :
    n ∈ [rootInode, 12, 13, 14] := by
  rcases h with rfl | ⟨d, name, hreach, hfound⟩
  · decide
  · rw [reach_eq hreach] at hfound
    have hn := findDirEntry_root hfound
    simpa using hn

theorem pathByte_bounds {k : ℕ} (h : PathByte shortLink k) :
    (2048 ≤ k ∧ k < 3072) ∨ (5120 ≤ k ∧ k < 8192) := by
  obtain ⟨htwo, hseven, hsize, -⟩ := geometry_values
  cases h with
  | table h =>
      obtain ⟨hlow, hhigh⟩ := h
      omega
  | inode n block hnamed hblock h =>
      have htable := (inode_values.2.2 n (mem_of_named hnamed)).1
      rw [hblock] at htable
      obtain ⟨hfirst, hlast⟩ := of_decide_eq_true htable
      obtain ⟨hlow, hhigh⟩ := h
      omega
  | directory d hreach h =>
      obtain ⟨inode, block, hread, hblock, hlow, hhigh⟩ := h
      obtain ⟨root, hroot, -, hblocks, -⟩ := readInode_root
      rw [reach_eq hreach, hroot] at hread
      cases hread
      rw [hblocks] at hblock
      have hseven : block = 7 := by simpa using hblock
      subst hseven
      omega

theorem wellFormed : WellFormed shortLink where
  blockSize_le := by decide
  noInodeZero := geometry_values.2.2.2
  root := by
    obtain ⟨inode, hread, -, -, hdirectory⟩ := readInode_root
    exact ⟨inode, hread, hdirectory⟩
  directories d hreach := by
    obtain ⟨inode, hread, hsize, hblocks, -⟩ := readInode_root
    rw [reach_eq hreach]
    exact ⟨inode, _, _, hread, directory_root hsize hblocks⟩
  tablesApart d inode block hreach hread hblock := by
    obtain ⟨root, hroot, -, hblocks, -⟩ := readInode_root
    rw [reach_eq hreach, hroot] at hread
    cases hread
    rw [hblocks] at hblock
    have hseven : block = 7 := by simpa using hblock
    subst hseven
    obtain ⟨htwo, hbase, -, -⟩ := geometry_values
    refine ⟨by omega, fun n b hnamed hb => ?_⟩
    have htable := (inode_values.2.2 n (mem_of_named hnamed)).1
    rw [hb] at htable
    obtain ⟨-, hlast⟩ := of_decide_eq_true htable
    omega
  blocksApart d d' inode inode' j j' b b' hreach hreach' hread hread' hb hb'
      _ := by
    obtain ⟨root, hroot, -, hblocks, -⟩ := readInode_root
    rw [reach_eq hreach, hroot] at hread
    rw [reach_eq hreach', hroot] at hread'
    cases hread
    cases hread'
    rw [hblocks] at hb hb'
    have hj := (List.getElem?_eq_some_iff.1 hb).1
    have hj' := (List.getElem?_eq_some_iff.1 hb').1
    simp only [List.length_singleton] at hj hj'
    exact ⟨by rw [reach_eq hreach, reach_eq hreach'], by omega⟩
  bitmapsApart path inode n hfind x hx hpath := by
    have hread := (findFile_eq_some.1 hfind).2.1
    have htest := (inode_values.2.2 n (mem_of_named (findFile_named hfind))).2
    rw [hread] at htest
    have hbounds := of_decide_eq_true htest x hx
    have hplace := pathByte_bounds hpath
    omega

end shortLink

/-- The target of `/s` happens to address the bit of its own inode. -/
theorem ext3Delete_clearsExactly_iff_shortLink :
    ∃ next inode,
      findFile shortLink [47, 115] = .ok (some (inode, 14)) ∧
        ext3Delete shortLink [47, 115] = .ok (true, next) ∧
          ClearsExactly shortLink next rootInode inode 14 := by
  have hfound : (findFile shortLink [47, 115]).satisfies (fun found =>
      found.any fun file => decide (file.2 = 14 ∧
        freedBits shortLink (freedWords file.1) = [32781] ∧
          requiredBits shortLink file.1 file.2 = [32781])) = true := by
    decide +kernel
  have hdeleted : (ext3Delete shortLink [47, 115]).satisfies
      (fun result => result.1) = true := by
    decide +kernel
  have hparent : (resolveParent shortLink [47, 115]).satisfies
      (fun result => result.1 = rootInode) = true := by
    decide +kernel
  obtain ⟨found, hfind, htest⟩ := Outcome.exists_of_satisfies hfound
  obtain ⟨⟨deleted, next⟩, hdelete, htrue⟩ :=
    Outcome.exists_of_satisfies hdeleted
  obtain ⟨⟨parent, name⟩, hresolve, hroot⟩ :=
    Outcome.exists_of_satisfies hparent
  cases found with
  | none => simp at htest
  | some pair =>
      obtain ⟨inode, n⟩ := pair
      simp only [Option.any_some, decide_eq_true_eq] at htest
      obtain ⟨rfl, hfreed, hrequired⟩ := htest
      have hdeletedTrue : deleted = true := htrue
      have hparentRoot : parent = rootInode := of_decide_eq_true hroot
      subst hdeletedTrue hparentRoot
      have hspared : ∀ x ∈ freedBits shortLink (freedWords inode),
          shortLink.disk.bit x = true →
            ¬InDirectory shortLink rootInode (x / 8) := by
        intro x hx _ hplace
        rw [hfreed, List.mem_singleton] at hx
        subst hx
        have hbounds :=
          shortLink.pathByte_bounds (.directory rootInode .root hplace)
        omega
      refine ⟨next, inode, hfind, hdelete,
        (ext3Delete_clearsExactly_iff shortLink next [47, 115] name inode 14
          rootInode shortLink.wellFormed hfind hdelete hresolve
          hspared).2 ?_⟩
      intro x _
      rw [hfreed, hrequired]

/-- Deleting `/h` leaves its inode marked in the bitmap. -/
theorem ext3Delete_keepsInodeBit :
    ∃ next inode,
      findFile shortLink [47, 104] = .ok (some (inode, 12)) ∧
        inode.IsRegular ∧
        ext3Delete shortLink [47, 104] = .ok (true, next) ∧
          ¬ClearsExactly shortLink next rootInode inode 12 := by
  have hfound : (findFile shortLink [47, 104]).satisfies (fun found =>
      found.any fun file => decide (file.2 = 12 ∧ file.1.mode / 4096 = 8 ∧
        32779 ∈ requiredBits shortLink file.1 file.2)) = true := by
    decide +kernel
  have hdeleted : (ext3Delete shortLink [47, 104]).satisfies
      (fun result => result.1 ∧ result.2.disk.bit 32779) = true := by
    decide +kernel
  obtain ⟨found, hfind, htest⟩ := Outcome.exists_of_satisfies hfound
  obtain ⟨⟨deleted, next⟩, hdelete, hkept⟩ :=
    Outcome.exists_of_satisfies hdeleted
  cases found with
  | none => simp at htest
  | some pair =>
      obtain ⟨inode, n⟩ := pair
      simp only [Option.any_some, decide_eq_true_eq] at htest
      obtain ⟨rfl, hregular, hrequired⟩ := htest
      obtain ⟨htrue, hset⟩ := of_decide_eq_true hkept
      simp only at htrue hset
      subst htrue
      refine ⟨next, inode, hfind, hregular, hdelete, fun hclears => ?_⟩
      have hplace : ¬InDirectory shortLink rootInode (32779 / 8) := by
        intro hplace
        have hbounds :=
          shortLink.pathByte_bounds (.directory rootInode .root hplace)
        omega
      exact ((hclears 32779 hplace).1 hset).2 hrequired

end ClOs.Ext3
