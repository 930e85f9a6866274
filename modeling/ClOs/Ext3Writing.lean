import ClOs.Ext3Bitmaps
import Mathlib.Data.List.GetD

/-!
# Writing a file

`ext3_write_file` takes one block after another and hands each to
`add_block_to_inode`, which has the twelve direct slots only and cannot say
that they are full.
-/

namespace ClOs.Ext3

open ByteStore

/-! ## Fields of an inode -/

namespace Inode

@[simp] theorem block_setBlock_same (inode : Inode) (k value : ℕ) :
    (inode.setBlock k value).block k = u32 value := by
  simp [block, setBlock]

theorem block_setBlock_of_ne
    (inode : Inode) {k j value : ℕ} (h : j ≠ k) :
    (inode.setBlock k value).block j = inode.block j := by
  unfold block setBlock
  exact le32_put32_of_disjoint inode _ (by omega)

@[simp] theorem block_setBlocks (inode : Inode) (k value : ℕ) :
    (inode.setBlocks value).block k = inode.block k := by
  unfold block setBlocks
  exact le32_put32_of_disjoint inode _ (by omega)

@[simp] theorem size_setBlocks (inode : Inode) (value : ℕ) :
    (inode.setBlocks value).size = inode.size := by
  unfold size setBlocks
  exact le32_put32_of_disjoint inode _ (by omega)

@[simp] theorem size_setBlock (inode : Inode) (k value : ℕ) :
    (inode.setBlock k value).size = inode.size := by
  unfold size setBlock
  exact le32_put32_of_disjoint inode _ (by omega)

end Inode

theorem newFileInode_size {size : ℕ} (hsize : size < 4294967296) :
    (newFileInode size).size = size := by
  unfold newFileInode Inode.size Inode.setLinksCount Inode.setSize put16
  rw [le32_blit_outside _ _ 4 (by omega), le32_put32_same, u32_of_lt hsize]

theorem newFileInode_block (size k : ℕ) :
    (newFileInode size).block k = 0 := by
  unfold newFileInode Inode.block Inode.setLinksCount Inode.setSize
    Inode.setMode put16
  rw [le32_blit_outside _ _ _ (by omega),
    le32_put32_of_disjoint _ _ (by omega),
    le32_blit_outside _ _ _ (by omega)]
  simp [le32, Inode.zero]

/-! ## Filling the direct slots -/

theorem addBlockFrom_free
    (v : Volume) (inode : Inode) (block : ℕ) {count i j : ℕ}
    (hlow : i ≤ j) (hhigh : j < i + count)
    (hfull : ∀ m, i ≤ m → m < j → inode.block m ≠ 0)
    (hfree : inode.block j = 0) :
    addBlockFrom v inode block count i =
      (inode.setBlock j block).setBlocks
        (u32 (inode.blocks + v.blockSize / 512)) := by
  induction count generalizing i with
  | zero => omega
  | succ count ih =>
      rcases Nat.eq_or_lt_of_le hlow with rfl | hlater
      · simp [addBlockFrom, hfree]
      · have hset : inode.block i ≠ 0 := hfull i le_rfl hlater
        rw [addBlockFrom, if_neg hset]
        exact ih hlater (by omega)
          (fun m hm hmj => hfull m (by omega) hmj)

theorem addBlockFrom_full
    (v : Volume) (inode : Inode) (block : ℕ) {count i : ℕ}
    (hfull : ∀ m, i ≤ m → m < i + count → inode.block m ≠ 0) :
    addBlockFrom v inode block count i = inode := by
  induction count generalizing i with
  | zero => rfl
  | succ count ih =>
      rw [addBlockFrom, if_neg (hfull i le_rfl (by omega))]
      exact ih (fun m hm hmi => hfull m (by omega) (by omega))

def SlotsHold (inode : Inode) (blocks : List ℕ) : Prop :=
  ∀ k < 12, inode.block k = blocks.getD k 0

theorem addBlockToInode_slots
    (v : Volume) {inode : Inode} {blocks : List ℕ} {block : ℕ}
    (hslots : SlotsHold inode blocks)
    (hnonzero : ∀ b ∈ blocks, b ≠ 0)
    (hblock : block < 4294967296) :
    SlotsHold (addBlockToInode v inode block) (blocks ++ [block]) ∧
      (addBlockToInode v inode block).size = inode.size ∧
      (addBlockToInode v inode block).block 12 = inode.block 12 ∧
      (addBlockToInode v inode block).block 13 = inode.block 13 := by
  have hfilled : ∀ m < 12, m < blocks.length → inode.block m ≠ 0 := by
    intro m hm hlength
    rw [hslots m hm, List.getD_eq_getElem _ _ hlength]
    exact hnonzero _ (List.getElem_mem hlength)
  rcases Nat.lt_or_ge blocks.length 12 with hroom | hfull
  · have hfree : inode.block blocks.length = 0 := by
      rw [hslots _ hroom]
      simp
    have hadd := @addBlockFrom_free v inode block 12 0 blocks.length
      (Nat.zero_le blocks.length) (by omega)
      (fun m _ hm => hfilled m (by omega) hm) hfree
    rw [addBlockToInode, hadd]
    refine ⟨fun k hk => ?_, by simp, ?_, ?_⟩
    · rw [Inode.block_setBlocks]
      rcases Nat.lt_trichotomy k blocks.length with hlt | rfl | hgt
      · rw [Inode.block_setBlock_of_ne _ (by omega), hslots k hk,
          List.getD_append _ _ _ _ hlt]
      · rw [Inode.block_setBlock_same, u32_of_lt hblock]
        simp
      · rw [Inode.block_setBlock_of_ne _ (by omega), hslots k hk,
          List.getD_eq_default _ _ (by omega),
          List.getD_eq_default _ _ (by simp; omega)]
    · rw [Inode.block_setBlocks, Inode.block_setBlock_of_ne _ (by omega)]
    · rw [Inode.block_setBlocks, Inode.block_setBlock_of_ne _ (by omega)]
  · have hsame : addBlockToInode v inode block = inode :=
      addBlockFrom_full v inode block
        (fun m _ hm => hfilled m (by omega) (by omega))
    rw [hsame]
    refine ⟨fun k hk => ?_, rfl, rfl, rfl⟩
    rw [hslots k hk, List.getD_append _ _ _ _ (by omega)]

/-! ## The loop -/

/-- What the loop of `ext3_write_file` keeps: the blocks taken so far hold the
data in order, and the direct slots hold as many of them as they can. -/
structure Storing (v : Volume) (buffer : ByteStore) (size : ℕ)
    (s : WriteState) : Prop where
  geometry : s.volume.toGeometry = v.toGeometry
  written : s.totalWritten = min size (s.stored.length * v.blockSize)
  needed : s.stored ≠ [] → (s.stored.length - 1) * v.blockSize < size
  nonzero : ∀ b ∈ s.stored.map Prod.fst, b ≠ 0
  chunks : ∀ k pair, s.stored[k]? = some pair → ∀ i < v.blockSize,
    k * v.blockSize + i < size →
      pair.2 i = buffer (k * v.blockSize + i)
  slots : SlotsHold s.inode (s.stored.map Prod.fst)
  size_eq : s.inode.size = size
  indirect : s.inode.block 12 = 0
  doubly : s.inode.block 13 = 0

/-- One round of the loop. -/
theorem Storing.step
    {v taken : Volume} {buffer : ByteStore} {size block : ℕ}
    {s : WriteState}
    (h : Storing v buffer size s)
    (hmore : s.totalWritten < size)
    (hfind : findFreeBlock s.volume = .ok (block, taken))
    (hblock : block ≠ 0) :
    Storing v buffer size {
      volume := writeBlock taken block
        (blit (fun _ => 0) 0 (buffer.drop s.totalWritten)
          (min (size - s.totalWritten) taken.blockSize))
      inode := addBlockToInode taken s.inode block
      totalWritten := s.totalWritten +
        min (size - s.totalWritten) taken.blockSize
      stored := s.stored ++ [(block,
        blit (fun _ => 0) 0 (buffer.drop s.totalWritten)
          (min (size - s.totalWritten) taken.blockSize))] } := by
  obtain ⟨hgeometry, hbound⟩ := findFreeBlock_toGeometry hfind
  have hsame : taken.toGeometry = v.toGeometry := hgeometry.trans h.geometry
  have hblockSize : taken.blockSize = v.blockSize :=
    congrArg Geometry.blockSize hsame
  have hpos := v.blockSize_pos
  have hwritten : s.totalWritten = s.stored.length * v.blockSize := by
    have hmin := h.written
    omega
  obtain ⟨hslots, hsize, hindirect, hdoubly⟩ :=
    addBlockToInode_slots taken h.slots h.nonzero hbound
  rw [hblockSize]
  exact {
    geometry := by simpa using hsame
    written := by
      simp only [List.length_append, List.length_singleton, Nat.add_mul,
        one_mul]
      omega
    needed := by
      intro _
      simp only [List.length_append, List.length_singleton,
        Nat.add_sub_cancel]
      omega
    nonzero := by
      intro b hb
      simp only [List.map_append, List.map_cons, List.map_nil,
        List.mem_append, List.mem_singleton] at hb
      rcases hb with hb | rfl
      · exact h.nonzero b hb
      · exact hblock
    chunks := by
      intro k pair hpair i hi hinside
      rcases Nat.lt_or_ge k s.stored.length with hk | hk
      · rw [List.getElem?_append_left hk] at hpair
        exact h.chunks k pair hpair i hi hinside
      · have hlast : k = s.stored.length := by
          have hlength := (List.getElem?_eq_some_iff.1 hpair).1
          simp only [List.length_append, List.length_singleton] at hlength
          omega
        subst hlast
        simp only [List.getElem?_concat_length, Option.some.injEq] at hpair
        rw [← hpair]
        simp only
        rw [blit_inside _ _ (Nat.zero_le i) (by omega), drop_apply,
          hwritten, Nat.sub_zero]
    slots := by simpa using hslots
    size_eq := hsize.trans h.size_eq
    indirect := hindirect.trans h.indirect
    doubly := hdoubly.trans h.doubly }

theorem Storing.run
    {v : Volume} {buffer : ByteStore} {size fuel : ℕ}
    {s last : WriteState}
    (h : Storing v buffer size s)
    (hrun : writeBlocks buffer size fuel s = .ok last) :
    Storing v buffer size last := by
  induction fuel generalizing s with
  | zero => simp [writeBlocks] at hrun
  | succ fuel ih =>
      simp only [writeBlocks] at hrun
      split_ifs at hrun with hdone
      · simp only [pure, Except.pure, Except.ok.injEq] at hrun
        rwa [← hrun]
      · rw [Outcome.bind_eq_ok] at hrun
        obtain ⟨⟨block, taken⟩, hfind, hrun⟩ := hrun
        simp only at hrun
        split_ifs at hrun with hblock
        · simp only [pure, Except.pure, Except.ok.injEq] at hrun
          rw [← hrun]
          exact { h with
            geometry :=
              (findFreeBlock_toGeometry hfind).1.trans h.geometry }
        · exact ih (h.step (by omega) hfind hblock) hrun

theorem Storing.start
    (v numbered : Volume) (buffer : ByteStore) {size : ℕ}
    (hgeometry : numbered.toGeometry = v.toGeometry)
    (hsize : size < 4294967296) :
    Storing v buffer size {
      volume := numbered
      inode := newFileInode size
      totalWritten := 0
      stored := [] } where
  geometry := hgeometry
  written := by simp
  needed := by simp
  nonzero := by simp
  chunks := by simp
  slots := by
    intro k _
    simpa using newFileInode_block size k
  size_eq := newFileInode_size hsize
  indirect := newFileInode_block size 12
  doubly := newFileInode_block size 13

/-! ## The whole call -/

theorem removeEntry_toGeometry
    {v next : Volume} {parent : ℕ} {name : CString} {removed : Bool}
    (hremove : removeEntry v parent name = .ok (removed, next)) :
    next.toGeometry = v.toGeometry := by
  unfold removeEntry at hremove
  rw [Outcome.bind_eq_ok] at hremove
  obtain ⟨directory, -, hremove⟩ := hremove
  rw [Outcome.bind_eq_ok] at hremove
  obtain ⟨loaded, -, hremove⟩ := hremove
  cases loaded with
  | none =>
      simp only [pure, Except.pure, Except.ok.injEq, Prod.mk.injEq] at hremove
      rw [hremove.2]
  | some buffer =>
      simp only at hremove
      rw [Outcome.bind_eq_ok] at hremove
      obtain ⟨⟨offset, found⟩, -, hremove⟩ := hremove
      simp only at hremove
      split_ifs at hremove
      · rw [Outcome.bind_eq_ok] at hremove
        obtain ⟨block, -, hremove⟩ := hremove
        rw [Outcome.bind_eq_ok] at hremove
        obtain ⟨bytes, -, hremove⟩ := hremove
        simp only [pure, Except.pure, Except.ok.injEq,
          Prod.mk.injEq] at hremove
        rw [← hremove.2]
        simp
      · simp only [pure, Except.pure, Except.ok.injEq,
          Prod.mk.injEq] at hremove
        rw [hremove.2]

/-- A call of `ext3_delete` that frees something: what it found, what it freed
and the search in the parent that ends it. -/
theorem ext3Delete_cases
    {v next : Volume} {path : CString} {deleted : Bool}
    (hdelete : ext3Delete v path = .ok (deleted, next)) :
    (deleted = false ∧ next = v) ∨
      ∃ inode number freed parent name,
        findFile v path = .ok (some (inode, number)) ∧
        isOccupied v inode = .ok (some false) ∧
        freeBlocks v (freedWords inode) = .ok freed ∧
        resolveParent freed path = .ok (parent, name) ∧
        removeEntry freed parent name = .ok (deleted, next) := by
  unfold ext3Delete at hdelete
  rw [Outcome.bind_eq_ok] at hdelete
  obtain ⟨found, hfind, hdelete⟩ := hdelete
  cases found with
  | none =>
      simp only [pure, Except.pure, Except.ok.injEq, Prod.mk.injEq] at hdelete
      exact .inl ⟨hdelete.1.symm, hdelete.2.symm⟩
  | some pair =>
      obtain ⟨inode, number⟩ := pair
      simp only at hdelete
      rw [Outcome.bind_eq_ok] at hdelete
      obtain ⟨occupied, hoccupied, hdelete⟩ := hdelete
      split_ifs at hdelete with hempty
      · rw [Outcome.bind_eq_ok] at hdelete
        obtain ⟨freed, hfreed, hdelete⟩ := hdelete
        rw [Outcome.bind_eq_ok] at hdelete
        obtain ⟨⟨parent, name⟩, hparent, hremove⟩ := hdelete
        rw [hempty] at hoccupied
        exact .inr ⟨inode, number, freed, parent, name, hfind, hoccupied,
          hfreed, hparent, hremove⟩
      · simp only [pure, Except.pure, Except.ok.injEq,
          Prod.mk.injEq] at hdelete
        exact .inl ⟨hdelete.1.symm, hdelete.2.symm⟩

theorem ext3Delete_toGeometry
    {v next : Volume} {path : CString} {deleted : Bool}
    (hdelete : ext3Delete v path = .ok (deleted, next)) :
    next.toGeometry = v.toGeometry := by
  rcases ext3Delete_cases hdelete with ⟨-, rfl⟩ |
    ⟨inode, number, freed, parent, name, -, -, hfreed, -, hremove⟩
  · rfl
  · exact (removeEntry_toGeometry hremove).trans
      (freeBlocks_toGeometry hfreed)

theorem storeFile_storing
    {v : Volume} {path filename : CString} {buffer : ByteStore}
    {size parent inodeNum : ℕ} {state : WriteState}
    (hstore : storeFile v path buffer size =
      .ok (.inr (parent, filename, inodeNum, state)))
    (hsize : size < 4294967296) :
    Storing v buffer size state := by
  unfold storeFile at hstore
  rw [Outcome.bind_eq_ok] at hstore
  obtain ⟨⟨directory, name⟩, -, hstore⟩ := hstore
  simp only at hstore
  split_ifs at hstore
  · simp [pure, Except.pure] at hstore
  · rw [Outcome.bind_eq_ok] at hstore
    obtain ⟨⟨existed, deleted⟩, hdelete, hstore⟩ := hstore
    rw [Outcome.bind_eq_ok] at hstore
    obtain ⟨⟨number, numbered⟩, hinode, hstore⟩ := hstore
    simp only at hstore
    split_ifs at hstore
    · simp [pure, Except.pure] at hstore
    · rw [Outcome.bind_eq_ok] at hstore
      obtain ⟨last, hrun, hstore⟩ := hstore
      simp only [pure, Except.pure, Except.ok.injEq, Sum.inr.injEq,
        Prod.mk.injEq] at hstore
      obtain ⟨-, -, -, rfl⟩ := hstore
      have hgeometry := (findFreeInode_toGeometry hinode).trans
        (ext3Delete_toGeometry hdelete)
      exact (Storing.start v numbered buffer hgeometry hsize).run hrun

/-- What the caller of `ext3_write_file` expects of the inode it writes: its
size, block `k` of the file where block `k` of the data went, and no block
taken in vain. -/
structure MapsData (v next : Volume) (buffer : ByteStore) (size : ℕ)
    (state : WriteState) : Prop where
  size_eq : state.inode.size = size
  mapped : ∀ k < v.blockCount size, ∃ block bytes,
    state.stored[k]? = some (block, bytes) ∧
      blockFromInode next state.inode k = .ok block ∧
        ∀ i < v.blockSize, k * v.blockSize + i < size →
          bytes i = buffer (k * v.blockSize + i)
  reachable : ∀ block ∈ state.stored.map Prod.fst,
    ∃ k, logicalBlock next state.inode k = block

/-- The indirect pointers stay 0, so every mapped block is in a direct slot. -/
theorem Storing.logicalBlock_eq
    {v next : Volume} {buffer : ByteStore} {size k : ℕ} {s : WriteState}
    (h : Storing v buffer size s)
    (hblock : logicalBlock next s.inode k ≠ 0) :
    k < 12 ∧ logicalBlock next s.inode k = s.inode.block k := by
  by_cases hk : k < 12
  · exact ⟨hk, by simp [logicalBlock, hk]⟩
  · simp [logicalBlock, hk, h.indirect, h.doubly] at hblock

theorem Storing.length_le
    {v next : Volume} {buffer : ByteStore} {size : ℕ} {s : WriteState}
    (h : Storing v buffer size s)
    (hdistinct : (s.stored.map Prod.fst).Nodup)
    (hreachable : ∀ block ∈ s.stored.map Prod.fst,
      ∃ k, logicalBlock next s.inode k = block) :
    s.stored.length ≤ 12 := by
  have hsubset : (s.stored.map Prod.fst).toFinset ⊆
      (Finset.range 12).image s.inode.block := by
    intro block hblock
    have hmem := List.mem_toFinset.1 hblock
    obtain ⟨k, hk⟩ := hreachable block hmem
    have hnonzero : logicalBlock next s.inode k ≠ 0 := by
      rw [hk]
      exact h.nonzero block hmem
    obtain ⟨hsmall, hslot⟩ := h.logicalBlock_eq hnonzero
    rw [← hk, hslot]
    exact Finset.mem_image_of_mem _ (Finset.mem_range.2 hsmall)
  have hcard := (Finset.card_le_card hsubset).trans Finset.card_image_le
  rw [List.toFinset_card_of_nodup hdistinct] at hcard
  simpa using hcard

/-- With distinct blocks handed out, the inode maps the data exactly when the
data fits the twelve direct blocks. -/
theorem ext3WriteFile_mapsData_iff
    (v next : Volume) (path filename : CString) (buffer : ByteStore)
    (size parent inodeNum : ℕ) (state : WriteState)
    (hsize : size < 4294967296)
    (hstore : storeFile v path buffer size =
      .ok (.inr (parent, filename, inodeNum, state)))
    (hwrite : ext3WriteFile v path buffer size = .ok (size, next))
    (hdistinct : (state.stored.map Prod.fst).Nodup) :
    MapsData v next buffer size state ↔ size ≤ 12 * v.blockSize := by
  have hstoring := storeFile_storing hstore hsize
  have hpos := v.blockSize_pos
  have htotal : state.totalWritten = size := by
    unfold ext3WriteFile at hwrite
    rw [hstore] at hwrite
    simp only [bind, Except.bind] at hwrite
    cases hrecord : writeInode state.volume inodeNum state.inode with
    | error halt => simp [hrecord] at hwrite
    | ok recorded =>
        cases hcreate : createDirEntry recorded parent filename inodeNum 1 with
        | error halt => simp [hrecord, hcreate] at hwrite
        | ok created =>
            simp only [hrecord, hcreate, pure, Except.pure, Except.ok.injEq,
              Prod.mk.injEq] at hwrite
            exact hwrite.1
  have hcovered : size ≤ state.stored.length * v.blockSize := by
    have hmin := hstoring.written
    omega
  constructor
  · intro hmaps
    have hlength := hstoring.length_le hdistinct hmaps.reachable
    exact hcovered.trans (Nat.mul_le_mul_right _ hlength)
  · intro hfits
    have hlength : state.stored.length ≤ 12 := by
      by_contra hlong
      have hne : state.stored ≠ [] := by
        rintro hnil
        simp [hnil] at hlong
      have hneeded := hstoring.needed hne
      have hmul := Nat.mul_le_mul_right v.blockSize
        (show 12 ≤ state.stored.length - 1 by omega)
      omega
    have hslot : ∀ k (hk : k < state.stored.length),
        state.inode.block k = (state.stored[k]).1 := by
      intro k hk
      rw [hstoring.slots k (by omega), List.getD_eq_getElem _ _ (by simpa),
        List.getElem_map]
    exact {
      size_eq := hstoring.size_eq
      mapped := by
        intro k hk
        have hk' : k < state.stored.length := by
          have hbelow : k * v.blockSize < size := v.lt_blockCount.1 hk
          exact Nat.lt_of_mul_lt_mul_right (hbelow.trans_le hcovered)
        refine ⟨(state.stored[k]).1, (state.stored[k]).2,
          List.getElem?_eq_getElem hk', ?_, ?_⟩
        · have hdirect : k < 12 := by omega
          simp [blockFromInode, hdirect, hslot k hk', pure, Except.pure]
        · exact hstoring.chunks k _ (List.getElem?_eq_getElem hk')
      reachable := by
        intro block hblock
        obtain ⟨k, hk, rfl⟩ := List.getElem_of_mem hblock
        have hk' : k < state.stored.length := by simpa using hk
        have hdirect : k < 12 := by omega
        exact ⟨k, by simp [logicalBlock, hdirect, hslot k hk']⟩ }

/-- Three blocks for `/g` of the small volume. -/
theorem ext3WriteFile_mapsData_iff_three :
    ∃ next parent filename inodeNum state,
      storeFile twoFiles [47, 103] (fun _ => 7) 2500 =
          .ok (.inr (parent, filename, inodeNum, state)) ∧
        state.stored.length = 3 ∧
        MapsData twoFiles next (fun _ => 7) 2500 state := by
  have hstored : (storeFile twoFiles [47, 103] (fun _ => 7) 2500).satisfies
      (fun result => result.elim (fun _ => false) fun file =>
        decide ((file.2.2.2.stored.map Prod.fst).Nodup ∧
          file.2.2.2.stored.length = 3)) = true := by
    decide +kernel
  have hwritten : (ext3WriteFile twoFiles [47, 103] (fun _ => 7) 2500).satisfies
      (fun result => result.1 = 2500) = true := by
    decide +kernel
  obtain ⟨stored, hstore, htest⟩ := Outcome.exists_of_satisfies hstored
  obtain ⟨⟨written, next⟩, hwrite, htotal⟩ :=
    Outcome.exists_of_satisfies hwritten
  cases stored with
  | inl volume => simp at htest
  | inr result =>
      obtain ⟨parent, filename, inodeNum, state⟩ := result
      obtain ⟨hdistinct, hlength⟩ := of_decide_eq_true htest
      have hall : written = 2500 := of_decide_eq_true htotal
      rw [hall] at hwrite
      exact ⟨next, parent, filename, inodeNum, state, hstore, hlength,
        (ext3WriteFile_mapsData_iff twoFiles next _ filename _ 2500 parent
          inodeNum state (by norm_num) hstore hwrite hdistinct).2 (by decide)⟩

/-- 12289 bytes need thirteen blocks of 1 KiB, and the last one is lost. -/
theorem ext3WriteFile_thirteenBlocks :
    ∃ next parent filename inodeNum state,
      storeFile twoFiles [47, 103] (fun _ => 7) 12289 =
          .ok (.inr (parent, filename, inodeNum, state)) ∧
        ext3WriteFile twoFiles [47, 103] (fun _ => 7) 12289 =
          .ok (12289, next) ∧
        (state.stored.map Prod.fst).Nodup ∧
        ¬MapsData twoFiles next (fun _ => 7) 12289 state := by
  have hstored : (storeFile twoFiles [47, 103] (fun _ => 7) 12289).satisfies
      (fun result => result.elim (fun _ => false) fun file =>
        decide ((file.2.2.2.stored.map Prod.fst).Nodup ∧
          file.2.2.2.stored.length = 13)) = true := by
    decide +kernel
  have hwritten :
      (ext3WriteFile twoFiles [47, 103] (fun _ => 7) 12289).satisfies
        (fun result => result.1 = 12289) = true := by
    decide +kernel
  obtain ⟨stored, hstore, htest⟩ := Outcome.exists_of_satisfies hstored
  obtain ⟨⟨written, next⟩, hwrite, htotal⟩ :=
    Outcome.exists_of_satisfies hwritten
  cases stored with
  | inl volume => simp at htest
  | inr result =>
      obtain ⟨parent, filename, inodeNum, state⟩ := result
      simp only [Sum.elim_inr, decide_eq_true_eq] at htest
      obtain ⟨hdistinct, hlength⟩ := htest
      have hall : written = 12289 := of_decide_eq_true htotal
      rw [hall] at hwrite
      refine ⟨next, parent, filename, inodeNum, state, hstore, hwrite,
        hdistinct, fun hmaps => ?_⟩
      have hfew := (storeFile_storing hstore (by norm_num)).length_le
        hdistinct hmaps.reachable
      omega

end ClOs.Ext3
