import ClOs.Ext3Bitmaps

/-!
# Block groups

In the format, bit `i` of group `g` describes block
`first_data_block + g * blocks_per_group + i`, and the descriptors stand one
after another from the block behind the superblock on.  The driver drops
`first_data_block` from the number and reads the descriptor of group `g` in
block `2 + 2 * g`.
-/

namespace ClOs.Ext3

open ByteStore

namespace Volume

def groupOf (v : Volume) (block : ℕ) : ℕ :=
  (block - v.firstDataBlock) / v.blocksPerGroup

def indexOf (v : Volume) (block : ℕ) : ℕ :=
  (block - v.firstDataBlock) % v.blocksPerGroup

/-- Where the format keeps the descriptor of a group. -/
def descriptorAddress (v : Volume) (g : ℕ) : ℕ :=
  v.blockBase (v.firstDataBlock + 1 + g * 32 / v.blockSize) +
    g * 32 % v.blockSize

def blockBitmap (v : Volume) (g : ℕ) : ℕ :=
  v.disk.le32 (v.descriptorAddress g)

def blockBit (v : Volume) (block : ℕ) : ℕ :=
  8 * v.blockBase (v.blockBitmap (v.groupOf block)) + v.indexOf block

def groups (v : Volume) (count : ℕ) : ℕ :=
  (count - v.firstDataBlock + v.blocksPerGroup - 1) / v.blocksPerGroup

end Volume

/-- A volume of `count` blocks laid out by the format, with the blocks that
hold metadata or file data. -/
structure LaidOut (v : Volume) (count : ℕ) (inUse : Set ℕ) : Prop where
  blockSize_le : v.blockSize ≤ 65536
  bitmapFits : v.blocksPerGroup ≤ 8 * v.blockSize
  count_lt : count < 4294967296
  groupCount_eq : v.groupCount = count / v.blocksPerGroup
  first_lt : v.firstDataBlock < v.blocksPerGroup
  inside : ∀ b ∈ inUse, v.firstDataBlock ≤ b ∧ b < count
  marked : ∀ b ∈ inUse, v.disk.bit (v.blockBit b) = true
  superblock : v.firstDataBlock ∈ inUse
  bitmaps : ∀ g < v.groups count,
    v.blockBitmap g ∈ inUse ∧ v.groupOf (v.blockBitmap g) = g

/-- A block that `find_free_block` returns was free, and its own bit is set
and nothing else. -/
def TakesOwnBit (v : Volume) (inUse : Set ℕ) : Prop :=
  ∀ block next, findFreeBlock v = .ok (block, next) → block ≠ 0 →
    block ∉ inUse ∧ next.disk = v.disk.setBit (v.blockBit block)

/-- `free_block` clears the bit of the block and nothing else. -/
def ClearsOwnBit (v : Volume) (count : ℕ) : Prop :=
  ∀ block, v.firstDataBlock ≤ block → block < count →
    ∃ next, freeBlock v block = .ok next ∧
      next.disk = v.disk.clearBit (v.blockBit block)

/-- The driver finds every bitmap where the format has it. -/
def SameBitmaps (v : Volume) (count : ℕ) : Prop :=
  ∀ g < v.groups count,
    v.blockBase (v.descriptorWord g 0) = v.blockBase (v.blockBitmap g)

/-! ## The driver's own bits -/

theorem descriptorOffset_le (v : Volume) (g : ℕ) :
    descriptorOffset v g + 32 ≤ v.blockSize := by
  have hlarge := v.blockSize_ge
  have hmod : g % (v.blockSize / 32) < v.blockSize / 32 :=
    Nat.mod_lt _ (by omega)
  unfold descriptorOffset
  omega

theorem freeBlock_ok
    (v : Volume) (block : ℕ)
    (hsize : v.blockSize ≤ 131072)
    (hfits : v.blocksPerGroup ≤ 8 * v.blockSize) :
    ∃ next, freeBlock v block = .ok next ∧
      next.disk = v.disk.clearBit
        (8 * v.blockBase (v.freeBitmap block) +
          block % v.blocksPerGroup) := by
  have hoffset := descriptorOffset_le v (block / v.blocksPerGroup)
  have hindex := Nat.mod_lt block v.blocksPerGroup_pos
  have hword : (fetch v (descriptorBlock (block / v.blocksPerGroup))).get32
      (descriptorOffset v (block / v.blocksPerGroup)) =
        .ok (v.freeBitmap block) :=
    Buffer.get32_eq_ok.2 ⟨by rw [fetch_size]; omega, rfl⟩
  have hcheck : (fetch v (v.freeBitmap block)).check
      (block % v.blocksPerGroup / 8) 1 = .ok () :=
    Buffer.check_of_le (by rw [fetch_size]; omega)
  refine ⟨_, ?_, writeBlock_clearBit v (v.freeBitmap block) hsize
    (by omega)⟩
  simp [freeBlock, hword, hcheck, bind, Except.bind, pure, Except.pure]

theorem findFreeBlock_cases
    {v taken : Volume} {block : ℕ}
    (hfind : findFreeBlock v = .ok (block, taken)) :
    (block = 0 ∧ taken = v) ∨ ∃ g i, (blockSearch v).FirstFree v g i ∧
      block = u32 (g * v.blocksPerGroup + i) ∧
      taken = writeBlock v (v.descriptorWord g 0)
        ((fetch v (v.descriptorWord g 0)).bytes.setBit i) := by
  unfold findFreeBlock at hfind
  rw [Outcome.bind_eq_ok] at hfind
  obtain ⟨⟨found, volume⟩, hbit, hfind⟩ := hfind
  rcases findFreeBit_spec hbit with ⟨rfl, rfl⟩ |
    ⟨g, i, -, hg, hfree, hgroups, hbits, rfl, rfl⟩
  · simp only [pure, Except.pure, Except.ok.injEq, Prod.mk.injEq] at hfind
    exact .inl ⟨hfind.1.symm, hfind.2.symm⟩
  · simp only [pure, Except.pure, Except.ok.injEq, Prod.mk.injEq] at hfind
    refine .inr ⟨g, i, ?_, hfind.1.symm, hfind.2.symm⟩
    exact {
      free := hfree
      group := by omega
      noEarlierGroup := fun g' hg' i' =>
        hgroups g' i' (Nat.zero_le _) hg'
      noEarlierBit := hbits }

theorem findFreeBlock_spec
    {v next : Volume} {block : ℕ}
    (hsize : v.blockSize ≤ 131072)
    (hfits : v.blocksPerGroup ≤ 8 * v.blockSize)
    (hfind : findFreeBlock v = .ok (block, next))
    (hblock : block ≠ 0) :
    ∃ g i, (blockSearch v).FirstFree v g i ∧ i < v.blocksPerGroup ∧
      block = u32 (g * v.blocksPerGroup + i) ∧
      v.disk.bit (8 * v.blockBase (v.descriptorWord g 0) + i) = false ∧
      next.disk =
        v.disk.setBit (8 * v.blockBase (v.descriptorWord g 0) + i) := by
  rcases findFreeBlock_cases hfind with ⟨rfl, -⟩ | ⟨g, i, hfirst, rfl, rfl⟩
  · exact absurd rfl hblock
  · have hi : i < v.blocksPerGroup := hfirst.free.high
    refine ⟨g, i, hfirst, hi, rfl, ?_, ?_⟩
    · rw [← fetch_bit v _ hsize (by omega)]
      exact hfirst.free.clear
    · exact writeBlock_setBit v _ hsize (by omega)

theorem findFreeBlock_ok
    (v : Volume) (hfits : v.blocksPerGroup ≤ 8 * v.blockSize) :
    ∃ block taken, findFreeBlock v = .ok (block, taken) := by
  have hbit : ∀ count g, ∃ found next,
      findFreeBit v (blockSearch v) count g = .ok (found, next) := by
    intro count
    induction count with
    | zero => exact fun g => ⟨none, v, rfl⟩
    | succ count ih =>
        intro g
        have hoffset := descriptorOffset_le v g
        have hcounter : (fetch v (descriptorBlock g)).get16
            (descriptorOffset v g + (blockSearch v).counterField) =
              .ok (v.descriptorHalf g (blockSearch v).counterField) :=
          Buffer.get16_eq_ok.2
            ⟨by simp only [fetch_size, blockSearch]; omega, rfl⟩
        have hword : (fetch v (descriptorBlock g)).get32
            (descriptorOffset v g + (blockSearch v).bitmapField) =
              .ok (v.descriptorWord g (blockSearch v).bitmapField) :=
          Buffer.get32_eq_ok.2
            ⟨by simp only [fetch_size, blockSearch]; omega, rfl⟩
        obtain ⟨scanned, hscan⟩ := @scanBitmap_ok
          (fetch v (v.descriptorWord g (blockSearch v).bitmapField))
          ((blockSearch v).usable g)
          ((blockSearch v).perGroup - (blockSearch v).start g)
          ((blockSearch v).start g)
          (by simp only [fetch_size, blockSearch]; omega)
        simp only [findFreeBit, hcounter, hword, hscan, bind, Except.bind]
        split_ifs
        · exact ih (g + 1)
        · cases scanned with
          | none => exact ih (g + 1)
          | some i => exact ⟨_, _, rfl⟩
  obtain ⟨found, next, hfound⟩ := hbit v.groupCount 0
  simp only [findFreeBlock, hfound, bind, Except.bind]
  cases found with
  | none => exact ⟨_, _, rfl⟩
  | some place => exact ⟨_, _, rfl⟩

theorem clearBit_inj
    {store : ByteStore} {i j : ℕ}
    (hset : store.bit j = true)
    (h : store.clearBit i = store.clearBit j) : i = j := by
  have hbit := congrArg (fun s => ByteStore.bit s j) h
  simp only [bit_clearBit, hset] at hbit
  simpa using hbit

/-! ## When the two conventions agree -/

theorem LaidOut.blockSize_small
    {v : Volume} {count : ℕ} {inUse : Set ℕ}
    (h : LaidOut v count inUse) : v.blockSize ≤ 131072 :=
  h.blockSize_le.trans (by norm_num)

/-- Freeing a used block right means that the driver's bit is its own. -/
theorem LaidOut.same_bit
    {v : Volume} {count b : ℕ} {inUse : Set ℕ}
    (h : LaidOut v count inUse)
    (hclears : ClearsOwnBit v count)
    (hb : b ∈ inUse) :
    v.blockBase (v.freeBitmap b) =
        v.blockBase (v.blockBitmap (v.groupOf b)) ∧
      b % v.blocksPerGroup = v.indexOf b := by
  obtain ⟨hlow, hhigh⟩ := h.inside b hb
  obtain ⟨next, hfree, hdisk⟩ := hclears b hlow hhigh
  obtain ⟨next', hfree', hdisk'⟩ :=
    freeBlock_ok v b h.blockSize_small h.bitmapFits
  rw [hfree] at hfree'
  cases hfree'
  have haddress := clearBit_inj (h.marked b hb) (hdisk'.symm.trans hdisk)
  have hdriver := Nat.mod_lt b v.blocksPerGroup_pos
  have hformat :=
    Nat.mod_lt (b - v.firstDataBlock) v.blocksPerGroup_pos
  have hfits := h.bitmapFits
  exact v.bitAddress_inj (by omega)
    (by unfold Volume.indexOf; omega) haddress

theorem LaidOut.groupOf_lt
    {v : Volume} {count b : ℕ} {inUse : Set ℕ}
    (_h : LaidOut v count inUse)
    (hlow : v.firstDataBlock ≤ b)
    (hhigh : b < count) :
    v.groupOf b < v.groups count := by
  have hpos := v.blocksPerGroup_pos
  unfold Volume.groupOf Volume.groups
  rw [← Nat.succ_le_iff, Nat.le_div_iff_mul_le hpos, Nat.succ_mul]
  have hdiv := Nat.div_mul_le_self (b - v.firstDataBlock) v.blocksPerGroup
  omega

/-- On a volume laid out by the format the driver takes and clears the right
bits exactly when blocks are counted from 0 and the descriptors it reads name
the bitmaps of the format. -/
theorem bitmaps_right_iff
    (v : Volume) (count : ℕ) (inUse : Set ℕ)
    (h : LaidOut v count inUse) :
    (TakesOwnBit v inUse ∧ ClearsOwnBit v count) ↔
      v.firstDataBlock = 0 ∧ SameBitmaps v count := by
  constructor
  · rintro ⟨-, hclears⟩
    have hfirst : v.firstDataBlock = 0 := by
      have hindex := (h.same_bit hclears h.superblock).2
      rw [Nat.mod_eq_of_lt h.first_lt] at hindex
      simpa [Volume.indexOf] using hindex
    refine ⟨hfirst, fun g hg => ?_⟩
    obtain ⟨hused, hgroup⟩ := h.bitmaps g hg
    have hsame := (h.same_bit hclears hused).1
    have hdriver : v.blockBitmap g / v.blocksPerGroup = g := by
      simpa [Volume.groupOf, hfirst] using hgroup
    rwa [Volume.freeBitmap, hdriver, hgroup] at hsame
  · rintro ⟨hfirst, hsame⟩
    have hgroup : ∀ b, v.groupOf b = b / v.blocksPerGroup := by
      intro b
      rw [Volume.groupOf, hfirst, Nat.sub_zero]
    have hindex : ∀ b, v.indexOf b = b % v.blocksPerGroup := by
      intro b
      rw [Volume.indexOf, hfirst, Nat.sub_zero]
    constructor
    · intro block next hfind hblock
      obtain ⟨g, i, hfirstFree, hi, hnumber, hclear, hdisk⟩ :=
        findFreeBlock_spec h.blockSize_small h.bitmapFits hfind hblock
      have hg : g < count / v.blocksPerGroup := by
        rw [← h.groupCount_eq]
        exact hfirstFree.group
      have hbelow : g * v.blocksPerGroup + i < count := by
        have hmul := (Nat.le_div_iff_mul_le v.blocksPerGroup_pos).1
          (Nat.succ_le_iff.2 hg)
        rw [Nat.succ_mul] at hmul
        omega
      have hcount := h.count_lt
      rw [u32_of_lt (by omega)] at hnumber
      have hdiv : block / v.blocksPerGroup = g := by
        rw [hnumber, Nat.mul_comm, Nat.mul_add_div v.blocksPerGroup_pos,
          Nat.div_eq_of_lt hi, Nat.add_zero]
      have hmod : block % v.blocksPerGroup = i := by
        rw [hnumber, Nat.mul_comm, Nat.mul_add_mod, Nat.mod_eq_of_lt hi]
      have hgroups := h.groupOf_lt (b := block) (by omega) (by omega)
      rw [hgroup, hdiv] at hgroups
      have haddress : v.blockBit block =
          8 * v.blockBase (v.descriptorWord g 0) + i := by
        rw [Volume.blockBit, hgroup, hindex, hdiv, hmod, hsame g hgroups]
      refine ⟨fun hused => ?_, by rw [haddress, hdisk]⟩
      have hmarked := h.marked block hused
      rw [haddress, hclear] at hmarked
      cases hmarked
    · intro block hlow hhigh
      obtain ⟨next, hfree, hdisk⟩ :=
        freeBlock_ok v block h.blockSize_small h.bitmapFits
      have hgroups := h.groupOf_lt hlow hhigh
      rw [hgroup] at hgroups
      refine ⟨next, hfree, ?_⟩
      rw [hdisk, Volume.blockBit, hgroup, hindex, Volume.freeBitmap,
        hsame _ hgroups]

/-- Blocks of 2 KiB counted from 0; block 2 repeats the descriptor. -/
def twoKilobyteBlocks : Volume where
  blockSize := 2048
  inodeSize := 128
  inodesPerGroup := 16
  blocksPerGroup := 16384
  groupCount := 1
  firstDataBlock := 0
  blockSize_eq := ⟨1, by decide, by decide⟩
  inodesPerGroup_pos := smallGeometry.inodesPerGroup_pos
  blocksPerGroup_pos := by decide
  disk := ofWords [(2048, 3), (2060, 100), (4096, 3), (4108, 100),
    (6144, 0x3F)]
  garbage := fun _ => 0

theorem laidOut_twoKilobyteBlocks :
    LaidOut twoKilobyteBlocks 16384 { b | b < 6 } where
  blockSize_le := by decide
  bitmapFits := by decide
  count_lt := by decide
  groupCount_eq := by decide
  first_lt := by decide
  inside b hb := ⟨Nat.zero_le b, hb.trans (by decide)⟩
  marked := by
    have hall : ∀ b < 6, twoKilobyteBlocks.disk.bit
        (twoKilobyteBlocks.blockBit b) = true := by
      decide +kernel
    exact hall
  superblock := by
    show 0 < 6
    decide
  bitmaps := by
    have hall : ∀ g < twoKilobyteBlocks.groups 16384,
        twoKilobyteBlocks.blockBitmap g < 6 ∧
          twoKilobyteBlocks.groupOf (twoKilobyteBlocks.blockBitmap g) =
            g := by
      decide +kernel
    exact hall

theorem bitmaps_right_iff_twoKilobyteBlocks :
    TakesOwnBit twoKilobyteBlocks { b | b < 6 } ∧
      ClearsOwnBit twoKilobyteBlocks 16384 :=
  (bitmaps_right_iff twoKilobyteBlocks 16384 { b | b < 6 }
    laidOut_twoKilobyteBlocks).2 ⟨rfl, by
      unfold SameBitmaps
      decide +kernel⟩

/-- With blocks of 1 KiB the first block handed out is the last one in use. -/
theorem findFreeBlock_inUse :
    LaidOut twoFiles 8193 { b | 1 ≤ b ∧ b < 10 } ∧
      ¬(TakesOwnBit twoFiles { b | 1 ≤ b ∧ b < 10 } ∧
        ClearsOwnBit twoFiles 8193) := by
  constructor
  · exact {
      blockSize_le := by decide
      bitmapFits := by decide
      count_lt := by decide
      groupCount_eq := by decide
      first_lt := by decide
      inside := fun b hb => ⟨hb.1, hb.2.trans (by decide)⟩
      marked := by
        have hall : ∀ b < 10, 1 ≤ b →
            twoFiles.disk.bit (twoFiles.blockBit b) = true := by
          decide +kernel
        exact fun b hb => hall b hb.2 hb.1
      superblock := ⟨le_rfl, by decide⟩
      bitmaps := by
        have hall : ∀ g < twoFiles.groups 8193,
            (1 ≤ twoFiles.blockBitmap g ∧ twoFiles.blockBitmap g < 10) ∧
              twoFiles.groupOf (twoFiles.blockBitmap g) = g := by
          decide +kernel
        exact hall }
  · rintro ⟨htakes, -⟩
    have htaken : (findFreeBlock twoFiles).satisfies
        (fun result => result.1 = 9) = true := by
      decide +kernel
    obtain ⟨⟨block, next⟩, hfind, hnine⟩ :=
      Outcome.exists_of_satisfies htaken
    have hblock : block = 9 := of_decide_eq_true hnine
    subst hblock
    exact (htakes 9 next hfind (by decide)).1 ⟨by decide, by decide⟩

end ClOs.Ext3
