import ClOs.Ext3Entries
import ClOs.Ext3Removal

/-!
# Entries that are added and found again

A directory keeps its shape as long as every entry is added where the three
places that `create_dir_entry` computes meet: the end of the walk, the block of
the size, and the size.
-/

namespace ClOs.Ext3

open ByteStore

/-! ## The longer chain -/

section

variable {v w : Volume} {d table : ℕ} {inode next : Inode}
  {offsets : List ℕ} {last number type : ℕ} {name : CString}

/-- The entry fits behind the last one, and nothing that stands behind it
begins an entry. -/
structure Fits (v : Volume) (inode : Inode) (last number : ℕ)
    (name : CString) : Prop where
  number_ne : number ≠ 0
  number_lt : number < 4294967296
  sameBlock : last / v.blockSize = inode.size / v.blockSize
  inBlock : last % v.blockSize + (8 + name.length) ≤ v.blockSize
  direct : inode.size / v.blockSize < 12
  ends : inode.size ≤ last ∨
    (dirBytes v inode).le32 (last + recordLength name) = 0

/-- A name that `strlen` and `name_len` can hold. -/
structure IsName (name : CString) : Prop where
  nonempty : name ≠ []
  length_le : name.length ≤ 255
  nonzero : ∀ b ∈ name, b ≠ 0

theorem entry_kept
    (h : Directory v inode offsets last) {i : ℕ} (hi : i ∈ offsets) :
    (withEntry (dirBytes v inode) last number (recordLength name) type
        name).le32 i = (dirBytes v inode).le32 i ∧
      (withEntry (dirBytes v inode) last number (recordLength name) type
        name).le16 (i + 4) = (dirBytes v inode).le16 (i + 4) ∧
      nameLength (withEntry (dirBytes v inode) last number (recordLength name)
        type name) i = nameLength (dirBytes v inode) i ∧
      nameAt (withEntry (dirBytes v inode) last number (recordLength name)
        type name) i = nameAt (dirBytes v inode) i :=
  entry_congr
    (fun _ _ hk => withEntry_outside _ _ _ _ _ _ (.inl hk))
    (h.holdsName i hi) (h.chain.mem_bounds hi).2.2.2.2

theorem Directory.addEntry
    (h : Directory v inode offsets last)
    (hname : IsName name) (hfits : Fits v inode last number name)
    (hlast : last ≤ inode.size)
    (hgeometry : w.toGeometry = v.toGeometry)
    (hsize : next.size = inode.size + recordLength name)
    (hsize_lt : next.size + 131072 ≤ 4294967296)
    (hblocks : next.directBlocks.length * w.blockSize ≤
      next.size + w.blockSize)
    (hbytes : dirBytes w next = withEntry (dirBytes v inode) last number
      (recordLength name) type name) :
    Directory w next (offsets ++ [last]) (last + recordLength name) := by
  obtain ⟨hlow, hhigh⟩ := recordLength_bounds hname.length_le
  have hlength : name.length < 256 := by
    have := hname.length_le
    omega
  have hstep : (withEntry (dirBytes v inode) last number (recordLength name)
      type name).le16 (last + 4) = recordLength name :=
    withEntry_recLen _ _ _ _ _ _ (by omega)
  have hblockSize : w.blockSize = v.blockSize := by rw [hgeometry]
  have hinBlock := hfits.inBlock
  have hchain : EntryChain (dirBytes w next) next.size 0 (offsets ++ [last])
      (last + (dirBytes w next).le16 (last + 4)) := by
    rw [hbytes]
    refine h.chain.extend (by omega) ?_ ?_ (by omega) ?_ (by omega) ?_
    · intro i hi
      simp only [(entry_kept h hi).1]
    · intro i hi
      exact (entry_kept h hi).2.1
    · simpa [withEntry_number _ _ _ _ _ _ hfits.number_lt] using
        hfits.number_ne
    · rw [hstep]
      rcases hfits.ends with hend | hzero
      · exact .inl (by omega)
      · right
        have hword : (withEntry (dirBytes v inode) last number
            (recordLength name) type name).le32 (last + recordLength name) =
              0 := by
          rw [← hzero]
          have hagree : (withEntry (dirBytes v inode) last number
              (recordLength name) type name).AgreeOn (dirBytes v inode)
                (last + recordLength name)
                  (last + recordLength name + 4) :=
            fun k hk _ => withEntry_outside _ _ _ _ _ _ (.inr (by omega))
          exact hagree.le32_eq _ le_rfl le_rfl
        simp [hword]
  rw [hbytes, hstep, ← hbytes] at hchain
  refine ⟨hsize_lt, hblocks, hchain, ?_, ?_, ?_⟩
  · intro i hi
    rw [hbytes]
    rcases List.mem_append.1 hi with hold | hnew
    · rw [(entry_kept h hold).2.2.1, (entry_kept h hold).2.1]
      exact h.holdsName i hold
    · rw [List.mem_singleton.1 hnew, hstep,
        withEntry_nameLength _ _ _ _ _ _ hlength]
      exact hlow
  · intro i hi
    rw [hblockSize]
    rcases List.mem_append.1 hi with hold | hnew
    · exact h.inBlock i hold
    · rw [List.mem_singleton.1 hnew]
      omega
  · intro i hi
    rw [hbytes]
    rcases List.mem_append.1 hi with hold | hnew
    · rw [(entry_kept h hold).2.2.2]
      exact h.named i hold
    · rw [List.mem_singleton.1 hnew,
        withEntry_nameAt _ _ _ _ _ _ hlength hname.nonzero]
      exact hname.nonempty

theorem findDirEntry_added
    (hblock : v.blockSize ≤ 65536)
    (hread : readInode v d = .ok inode)
    (h : Directory v inode offsets last)
    (hgeometry : w.toGeometry = v.toGeometry)
    (hreadNext : readInode w d = .ok next)
    (hnext : Directory w next (offsets ++ [last])
      (last + recordLength name))
    (hname : IsName name) (hnumber : number < 4294967296)
    (hbytes : dirBytes w next = withEntry (dirBytes v inode) last number
      (recordLength name) type name)
    (habsent : findDirEntry v d name = .ok none) :
    findDirEntry w d name = .ok (some number) ∧
      ∀ other ≠ name, findDirEntry w d other = findDirEntry v d other := by
  have hlength : name.length < 256 := by
    have := hname.length_le
    omega
  have hblockNext : w.blockSize ≤ 65536 := by rwa [hgeometry]
  have hlast : nameAt (dirBytes w next) last = name := by
    rw [hbytes]
    exact withEntry_nameAt _ _ _ _ _ _ hlength hname.nonzero
  have hold : ∀ sought, offsets.find? (fun o => decide
      (nameAt (dirBytes w next) o = sought)) =
        offsets.find? (fun o => nameAt (dirBytes v inode) o = sought) := by
    intro sought
    apply List.find?_congr
    intro i hi
    rw [hbytes, (entry_kept h hi).2.2.2]
  constructor
  · rw [findDirEntry_eq hblock hread h, Except.ok.injEq,
      Option.map_eq_none_iff] at habsent
    rw [findDirEntry_eq hblockNext hreadNext hnext, List.find?_append,
      hold name, habsent]
    simp only [Option.none_or, List.find?_singleton, hlast, decide_true,
      if_true, Option.map_some]
    rw [hbytes, withEntry_number _ _ _ _ _ _ hnumber]
  · intro other hother
    rw [findDirEntry_eq hblockNext hreadNext hnext,
      findDirEntry_eq hblock hread h, List.find?_append, hold other]
    have hnot : ¬nameAt (dirBytes w next) last = other := by
      rw [hlast]
      exact hother.symm
    simp only [List.find?_singleton, hnot, decide_false, Bool.false_eq_true,
      if_false, Option.or_none]
    cases hfind : offsets.find?
        (fun o => decide (nameAt (dirBytes v inode) o = other)) with
    | none => rfl
    | some o =>
        have ho := List.mem_of_find?_eq_some hfind
        simp only [Option.map_some]
        rw [hbytes, (entry_kept h ho).1]

end

/-! ## What the writes leave -/

/-- `next` is the record of the directory on `disk`, block `b` has the bytes of
block `index` of a buffer, and the other blocks of the directory are as before. -/
structure Placed (v : Volume) (disk : ByteStore) (d table index b : ℕ)
    (inode next : Inode) (bytes : ByteStore) : Prop where
  descriptor : SameBlock v disk 2
  stored : storedInode (v.withDisk disk) d table = next
  others : ∀ j block, inode.directBlocks[j]? = some block → j ≠ index →
    SameBlock v disk block
  placed : ∀ k < v.blockSize,
    disk (v.blockBase b + k) = bytes (index * v.blockSize + k)

/-- `next` has block `b` at place `index` and otherwise the blocks of
`inode`. -/
structure Grown (inode next : Inode) (index b : ℕ) (name : CString) :
    Prop where
  size_eq : next.size = inode.size + recordLength name
  placed : next.directBlocks[index]? = some b
  others : ∀ j, j ≠ index →
    next.directBlocks[j]? = inode.directBlocks[j]?
  length : next.directBlocks.length = index + 1
  slots : SlotsHold next next.directBlocks

section

variable {v : Volume} {disk : ByteStore} {d table index b : ℕ}
  {inode next : Inode} {offsets : List ℕ} {last number type : ℕ}
  {name : CString} {bytes : ByteStore}

theorem Placed.located (h : Placed v disk d table index b inode next bytes)
    (hlocated : inodeToBlock v d = .ok table) :
    inodeToBlock (v.withDisk disk) d = .ok table := by
  rw [inodeToBlock_withDisk h.descriptor, hlocated]

/-- The bytes of the directory are those of the buffer. -/
theorem Placed.dirBytes_eq
    (h : Placed v disk d table index b inode next bytes)
    (hgrown : Grown inode next index b name)
    (hlow : index * v.blockSize ≤ last)
    (hhigh : last + (8 + name.length) ≤ (index + 1) * v.blockSize)
    (hbytes : ∀ k < (index + 1) * v.blockSize, bytes k =
      withEntry (dirBytes v inode) last number (recordLength name) type
        name k) :
    dirBytes (v.withDisk disk) next = withEntry (dirBytes v inode) last number
      (recordLength name) type name := by
  have hsucc : (index + 1) * v.blockSize =
      index * v.blockSize + v.blockSize := Nat.succ_mul _ _
  refine Ext3.dirBytes_eq ?_ ?_
  · intro j block hblock k hk
    by_cases hj : j = index
    · subst hj
      rw [hgrown.placed, Option.some.injEq] at hblock
      subst hblock
      rw [h.placed k hk, hbytes _ (by omega)]
    · have hold := hblock
      rw [hgrown.others j hj] at hold
      rw [h.others j block hold hj k hk, withEntry_outside,
        dirBytes_apply hold hk]
      rcases Nat.lt_or_gt_of_ne hj with hbefore | hafter
      · have hmul : (j + 1) * v.blockSize ≤ index * v.blockSize :=
          Nat.mul_le_mul_right _ hbefore
        rw [Nat.succ_mul] at hmul
        exact .inl (by omega)
      · have hmul : (index + 1) * v.blockSize ≤ j * v.blockSize :=
          Nat.mul_le_mul_right _ hafter
        exact .inr (by omega)
  · intro k hk
    rw [hgrown.length] at hk
    have hdiv : index + 1 ≤ k / v.blockSize :=
      (Nat.le_div_iff_mul_le v.blockSize_pos).2 hk
    have hnone : inode.directBlocks[k / v.blockSize]? = none := by
      rw [← hgrown.others _ (by omega)]
      exact List.getElem?_eq_none_iff.2 (by rw [hgrown.length]; exact hdiv)
    rw [withEntry_outside _ _ _ _ _ _ (.inr (by omega))]
    simp only [dirBytes, hnone]

theorem Stands.addEntry
    (h : Stands v d table inode offsets last)
    (hname : IsName name) (hfits : Fits v inode last number name)
    (hplaced : Placed v disk d table (inode.size / v.blockSize) b inode next
      bytes)
    (hgrown : Grown inode next (inode.size / v.blockSize) b name)
    (hapart : ((directoryBlocks table next).map v.blockBase).Nodup)
    (hbytes : ∀ k < (inode.size / v.blockSize + 1) * v.blockSize, bytes k =
      withEntry (dirBytes v inode) last number (recordLength name) type
        name k) :
    Stands (v.withDisk disk) d table next (offsets ++ [last])
        (last + recordLength name) ∧
      dirBytes (v.withDisk disk) next = withEntry (dirBytes v inode) last
        number (recordLength name) type name := by
  have hpos := v.blockSize_pos
  have hlarge := v.blockSize_ge
  have hsmall := h.blockSize_le
  have hlast := h.last_le
  have hdirect := hfits.direct
  have hinBlock := hfits.inBlock
  obtain ⟨hshort, hlong⟩ := recordLength_bounds hname.length_le
  have hsplit := Nat.div_add_mod' inode.size v.blockSize
  have hmod := Nat.mod_lt inode.size hpos
  have hlastSplit := Nat.div_add_mod' last v.blockSize
  rw [hfits.sameBlock] at hlastSplit
  have hsucc : (inode.size / v.blockSize + 1) * v.blockSize =
      inode.size / v.blockSize * v.blockSize + v.blockSize :=
    Nat.succ_mul _ _
  have hproduct : (inode.size / v.blockSize + 1) * v.blockSize ≤
      12 * 65536 := Nat.mul_le_mul (by omega) hsmall
  have hdirBytes := hplaced.dirBytes_eq hgrown (by omega) (by omega) hbytes
  have hcovered : next.size <
      (next.directBlocks.length + 1) * v.blockSize := by
    rw [hgrown.size_eq, hgrown.length, Nat.succ_mul]
    omega
  have hdirectory : Directory (v.withDisk disk) next (offsets ++ [last])
      (last + recordLength name) := by
    refine h.toDirectory.addEntry hname hfits hlast rfl hgrown.size_eq ?_ ?_
      hdirBytes
    · rw [hgrown.size_eq]
      omega
    · rw [hgrown.length, hgrown.size_eq]
      change (inode.size / v.blockSize + 1) * v.blockSize ≤
        inode.size + recordLength name + v.blockSize
      omega
  refine ⟨?_, hdirBytes⟩
  exact {
    toDirectory := hdirectory
    blockSize_le := hsmall
    bitmapFits := h.bitmapFits
    inodeSize_eq := h.inodeSize_eq
    located := hplaced.located h.located
    table_ne := h.table_ne
    stored := hplaced.stored
    apart := hapart
    slots := hgrown.slots
    covered := hcovered
    last_le := by
      rw [hgrown.size_eq]
      omega }

end

/-! ## The blocks that are written -/

section

variable {v : Volume} {d table : ℕ} {inode : Inode} {offsets : List ℕ}
  {last : ℕ}

theorem Stands.block_ne
    (h : Stands v d table inode offsets last) {j k block other : ℕ}
    (hblock : inode.directBlocks[j]? = some block)
    (hother : inode.directBlocks[k]? = some other) (hne : j ≠ k) :
    v.blockBase block ≠ v.blockBase other := by
  have hnodup : (inode.directBlocks.map v.blockBase).Nodup :=
    (List.nodup_cons.1 (List.nodup_cons.1 h.apart).2).2
  obtain ⟨hj, rfl⟩ := List.getElem?_eq_some_iff.1 hblock
  obtain ⟨hk, rfl⟩ := List.getElem?_eq_some_iff.1 hother
  have hj' : j < (inode.directBlocks.map v.blockBase).length := by simpa
  have hk' : k < (inode.directBlocks.map v.blockBase).length := by simpa
  intro hbase
  apply hne
  apply (@List.Nodup.getElem_inj_iff _ _ hnodup j hj' k hk').1
  simpa using hbase

end

/-! ## The grown inode -/

namespace Inode

theorem size_setSize (inode : Inode) (value : ℕ) :
    (inode.setSize value).size = u32 value :=
  le32_put32_same _ _ _

@[simp] theorem block_setSize (inode : Inode) (k value : ℕ) :
    (inode.setSize value).block k = inode.block k := by
  unfold block setSize
  exact le32_put32_of_disjoint inode _ (by omega)

end Inode

theorem directBlocks_congr
    {inode next : Inode} (h : ∀ k < 12, next.block k = inode.block k) :
    next.directBlocks = inode.directBlocks := by
  unfold Inode.directBlocks
  congr 1
  apply List.map_congr_left
  intro k hk
  exact h k (List.mem_range.1 hk)

section

variable {v : Volume} {d table : ℕ} {inode : Inode} {offsets : List ℕ}
  {last number type : ℕ} {name : CString}

theorem Stands.size_lt_blocks
    (h : Stands v d table inode offsets last) {index : ℕ}
    (hindex : index = inode.size / v.blockSize) :
    index ≤ inode.directBlocks.length ∧
      inode.directBlocks.length ≤ index + 1 ∧
      inode.size + 264 < 4294967296 := by
  have hfits := h.fits
  have hsplit := Nat.div_add_mod' inode.size v.blockSize
  have hmod := Nat.mod_lt inode.size v.blockSize_pos
  have hsize := h.size_lt
  refine ⟨hindex ▸ h.size_div_le, ?_, by omega⟩
  have htwo : inode.directBlocks.length * v.blockSize <
      (index + 2) * v.blockSize := by
    have hdouble : (index + 2) * v.blockSize =
        index * v.blockSize + 2 * v.blockSize := by ring
    rw [← hindex] at hsplit
    omega
  have := Nat.lt_of_mul_lt_mul_right htwo
  omega

theorem Stands.block_existing
    (h : Stands v d table inode offsets last)
    (hdirect : inode.size / v.blockSize < 12)
    (hblock : inode.block (inode.size / v.blockSize) ≠ 0) :
    inode.directBlocks[inode.size / v.blockSize]? =
        some (inode.block (inode.size / v.blockSize)) ∧
      inode.directBlocks.length = inode.size / v.blockSize + 1 := by
  have hslot := h.slots _ hdirect
  obtain ⟨-, hlength, -⟩ := h.size_lt_blocks rfl
  have hlt : inode.size / v.blockSize < inode.directBlocks.length := by
    by_contra hge
    rw [List.getD_eq_default _ _ (by omega)] at hslot
    exact hblock hslot
  rw [List.getD_eq_getElem _ _ hlt] at hslot
  refine ⟨?_, by omega⟩
  rw [List.getElem?_eq_getElem hlt, hslot]

theorem Stands.block_new
    (h : Stands v d table inode offsets last)
    (hdirect : inode.size / v.blockSize < 12)
    (hblock : inode.block (inode.size / v.blockSize) = 0) :
    inode.directBlocks.length = inode.size / v.blockSize := by
  have hslot := h.slots _ hdirect
  obtain ⟨hlow, -, -⟩ := h.size_lt_blocks rfl
  by_contra hne
  have hlt : inode.size / v.blockSize < inode.directBlocks.length := by omega
  have hmem := List.getElem_mem hlt
  rw [hblock, List.getD_eq_getElem _ _ hlt] at hslot
  have hnonzero := List.mem_takeWhile_imp hmem
  simp [← hslot] at hnonzero

theorem Stands.grown_existing
    (h : Stands v d table inode offsets last)
    (hname : IsName name)
    (hdirect : inode.size / v.blockSize < 12)
    (hblock : inode.block (inode.size / v.blockSize) ≠ 0) :
    Grown inode (inode.setSize (u32 (inode.size + recordLength name)))
      (inode.size / v.blockSize) (inode.block (inode.size / v.blockSize))
        name := by
  obtain ⟨hindex, hlength⟩ := h.block_existing hdirect hblock
  obtain ⟨-, -, hroom⟩ := h.size_lt_blocks rfl
  obtain ⟨-, hlong⟩ := recordLength_bounds hname.length_le
  have hsame : (inode.setSize
      (u32 (inode.size + recordLength name))).directBlocks =
        inode.directBlocks :=
    directBlocks_congr (fun k _ => inode.block_setSize k _)
  refine ⟨?_, ?_, ?_, ?_, ?_⟩
  · rw [Inode.size_setSize, u32_of_lt (u32_lt _), u32_of_lt (by omega)]
  · rw [hsame]
    exact hindex
  · intro j _
    rw [hsame]
  · rw [hsame, hlength]
  · rw [hsame]
    intro k hk
    rw [Inode.block_setSize]
    exact h.slots k hk

theorem Stands.grown_new
    (h : Stands v d table inode offsets last)
    (hname : IsName name)
    (hdirect : inode.size / v.blockSize < 12)
    (hblock : inode.block (inode.size / v.blockSize) = 0)
    {b blocks : ℕ} (hb : b ≠ 0) (hb_lt : b < 4294967296) :
    Grown inode (((inode.setSize
        (u32 (inode.size + recordLength name))).setBlock
          (inode.size / v.blockSize) b).setBlocks blocks)
      (inode.size / v.blockSize) b name ∧
    (((inode.setSize (u32 (inode.size + recordLength name))).setBlock
        (inode.size / v.blockSize) b).setBlocks blocks).directBlocks =
      inode.directBlocks ++ [b] := by
  have hlength := h.block_new hdirect hblock
  obtain ⟨-, -, hroom⟩ := h.size_lt_blocks rfl
  obtain ⟨-, hlong⟩ := recordLength_bounds hname.length_le
  obtain ⟨next, hnext⟩ : ∃ next, next = ((inode.setSize
      (u32 (inode.size + recordLength name))).setBlock
        (inode.size / v.blockSize) b).setBlocks blocks := ⟨_, rfl⟩
  have hslots : SlotsHold next (inode.directBlocks ++ [b]) := by
    refine slotsHold_concat h.slots ?_ ?_
    · intro k _ hk
      rw [hlength] at hk
      rw [hnext, Inode.block_setBlocks, Inode.block_setBlock_of_ne _ hk,
        Inode.block_setSize]
    · rw [hnext, hlength, Inode.block_setBlocks, Inode.block_setBlock_same,
        u32_of_lt hb_lt]
  have hdirectBlocks : next.directBlocks = inode.directBlocks ++ [b] := by
    refine directBlocks_of_slots hslots ?_ ?_
    · intro block hmem
      rcases List.mem_append.1 hmem with hold | hnew
      · simpa using List.mem_takeWhile_imp hold
      · rw [List.mem_singleton.1 hnew]
        exact hb
    · rw [List.length_append, List.length_singleton]
      omega
  rw [← hnext]
  refine ⟨⟨?_, ?_, ?_, ?_, ?_⟩, hdirectBlocks⟩
  · rw [hnext, Inode.size_setBlocks, Inode.size_setBlock, Inode.size_setSize,
      u32_of_lt (u32_lt _), u32_of_lt (by omega)]
  · rw [hdirectBlocks, ← hlength]
    simp
  · intro j hj
    rw [hdirectBlocks]
    rcases Nat.lt_or_gt_of_ne hj with hlt | hgt
    · rw [List.getElem?_append_left (by omega)]
    · rw [List.getElem?_eq_none_iff.2 (by simp; omega),
        List.getElem?_eq_none_iff.2 (by omega)]
  · rw [hdirectBlocks, List.length_append, List.length_singleton, hlength]
  · rw [hdirectBlocks]
    exact hslots

end

end ClOs.Ext3
