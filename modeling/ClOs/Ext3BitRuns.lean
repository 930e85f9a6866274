import ClOs.Ext3FileReads
import ClOs.Ext3Mounting
import ClOs.Ext3Paths
import ClOs.TokenLedgers

/-!
# Runs over the bitmaps

Any order of `find_free_block`, `find_free_inode` and `free_block` keeps a
ledger of blocks and inodes.  Each number stands for one bit of the drive, and
as long as no bitmap shares a block with a descriptor or another bitmap, the
bits are the marks that the ledger needs.
-/

namespace ClOs

namespace ByteStore

theorem setBit_apply_of_ne (store : ByteStore) {index k : ℕ}
    (hk : k ≠ index / 8) : store.setBit index k = store k :=
  Function.update_of_ne hk _ _

theorem clearBit_apply_of_ne (store : ByteStore) {index k : ℕ}
    (hk : k ≠ index / 8) : store.clearBit index k = store k :=
  Function.update_of_ne hk _ _

/-- A store is known by its bits. -/
theorem eq_of_bit {s t : ByteStore} (h : ∀ i, s.bit i = t.bit i) : s = t := by
  funext k
  apply UInt8.toNat_inj.1
  apply Nat.eq_of_testBit_eq
  intro j
  rcases Nat.lt_or_ge j 8 with hj | hj
  · have hbit := h (8 * k + j)
    unfold bit at hbit
    rwa [show (8 * k + j) / 8 = k by omega, show (8 * k + j) % 8 = j by omega]
      at hbit
  · have hbyte : 256 ≤ 2 ^ j :=
      (show 256 = 2 ^ 8 by norm_num) ▸ Nat.pow_le_pow_right (by norm_num) hj
    rw [Nat.testBit_lt_two_pow (lt_of_lt_of_le (s k).toNat_lt hbyte),
      Nat.testBit_lt_two_pow (lt_of_lt_of_le (t k).toNat_lt hbyte)]

theorem clearBit_setBit (store : ByteStore) {index : ℕ}
    (hclear : store.bit index = false) :
    (store.setBit index).clearBit index = store := by
  refine eq_of_bit fun i => ?_
  rw [bit_clearBit, bit_setBit]
  by_cases hi : index = i
  · subst hi
    simp [hclear]
  · simp [hi]

end ByteStore

namespace Ext3

open ByteStore

/-- A block or an inode by its number. -/
inductive Resource
  | block (number : ℕ)
  | inode (number : ℕ)

namespace Resource

def number : Resource → ℕ
  | .block number => number
  | .inode number => number

/-- The field of the descriptor that names the bitmap. -/
def field : Resource → ℕ
  | .block _ => 0
  | .inode _ => 4

def group (v : Volume) : Resource → ℕ
  | .block number => number / v.blocksPerGroup
  | .inode number => (number - 1) / v.inodesPerGroup

def index (v : Volume) : Resource → ℕ
  | .block number => number % v.blocksPerGroup
  | .inode number => (number - 1) % v.inodesPerGroup

def bitAddress (v : Volume) (resource : Resource) : ℕ :=
  8 * v.blockBase
    (v.descriptorWord (resource.group v) resource.field) + resource.index v

end Resource

/-- The bitmaps of a volume, as the driver finds them: they and the descriptors
lie in blocks of their own on the drive, and one command moves a block. -/
structure BitmapsApart (v : Volume) : Prop where
  blockSize_le : v.blockSize ≤ 131072
  blocks : v.blocksPerGroup ≤ 8 * v.blockSize
  inodes : v.inodesPerGroup ≤ 8 * v.blockSize
  inodeNumbers : v.groupCount * v.inodesPerGroup ≤ 4294967296
  distinct : ∀ g < v.groupCount, ∀ g' < v.groupCount,
    ∀ field ∈ [0, 4], ∀ field' ∈ [0, 4],
      v.blockBase (v.descriptorWord g field) =
          v.blockBase (v.descriptorWord g' field') →
        g = g' ∧ field = field'
  outside : ∀ g < v.groupCount, ∀ g' < v.groupCount, ∀ field ∈ [0, 4],
    v.blockBase (v.descriptorWord g field) ≠
      v.blockBase (descriptorBlock g')

/-- The ledger after a call that returned a number, 0 if it found nothing. -/
def logged (resource : ℕ → Resource) (number : ℕ)
    (ledger : List (Movement Resource)) : List (Movement Resource) :=
  if number = 0 then ledger else .taken (resource number) :: ledger

/-- A run of the three functions, with `free_block` on blocks obtained earlier,
and its ledger, the latest entry first. -/
inductive BitRun (v : Volume) : List (Movement Resource) → Volume → Prop
  | start : BitRun v [] v
  | findFreeBlock {ledger : List (Movement Resource)} {w next : Volume}
      {block : ℕ} (h : BitRun v ledger w)
      (hfind : findFreeBlock w = .ok (block, next)) :
      BitRun v (logged .block block ledger) next
  | findFreeInode {ledger : List (Movement Resource)} {w next : Volume}
      {inode : ℕ} (h : BitRun v ledger w)
      (hfind : findFreeInode w = .ok (inode, next)) :
      BitRun v (logged .inode inode ledger) next
  | freeBlock {ledger : List (Movement Resource)} {w next : Volume}
      {block : ℕ} (h : BitRun v ledger w)
      (hobtained : .taken (.block block) ∈ ledger)
      (hfree : freeBlock w block = .ok next) :
      BitRun v (.returned (.block block) :: ledger) next

/-- A call changes one bit of one bitmap of `v` at most. -/
def ChangesOneBit (v w next : Volume) : Prop :=
  next.disk = w.disk ∨ ∃ g < v.groupCount, ∃ field ∈ [0, 4],
    ∃ i < 8 * v.blockSize, ∀ j,
      j ≠ 8 * v.blockBase (v.descriptorWord g field) + i →
        next.disk.bit j = w.disk.bit j

/-- What the three functions do in a state that a run has reached. -/
structure CallsRight (v : Volume) (ledger : List (Movement Resource))
    (w : Volume) : Prop where
  findFreeBlock : ∃ block next, findFreeBlock w = .ok (block, next) ∧
    (block ≠ 0 → ¬Holds (.block block) ledger) ∧ ChangesOneBit v w next ∧
      (block ≠ 0 → ∃ last, freeBlock next block = .ok last ∧
        last.disk = w.disk)
  findFreeInode : ∃ inode next, findFreeInode w = .ok (inode, next) ∧
    (inode ≠ 0 → .taken (.inode inode) ∉ ledger) ∧ ChangesOneBit v w next
  freeBlock : ∀ block, .taken (.block block) ∈ ledger →
    ∃ next, freeBlock w block = .ok next ∧ ChangesOneBit v w next

/-! ## Numbers and bits -/

section

variable {v : Volume}

theorem Resource.field_mem (resource : Resource) :
    resource.field ∈ [0, 4] := by
  cases resource <;> simp [Resource.field]

theorem Resource.index_lt
    (h : BitmapsApart v) (resource : Resource) :
    resource.index v < 8 * v.blockSize := by
  cases resource with
  | block number =>
      exact (Nat.mod_lt _ v.blocksPerGroup_pos).trans_le h.blocks
  | inode number =>
      exact (Nat.mod_lt _ v.inodesPerGroup_pos).trans_le h.inodes

theorem Resource.bitAddress_inj
    (h : BitmapsApart v) {resource other : Resource}
    (hnumber : resource.number ≠ 0) (hother : other.number ≠ 0)
    (hgroup : resource.group v < v.groupCount)
    (hotherGroup : other.group v < v.groupCount)
    (hsame : resource.bitAddress v = other.bitAddress v) :
    resource = other := by
  obtain ⟨hbase, hindex⟩ := v.bitAddress_inj (resource.index_lt h)
    (other.index_lt h) hsame
  obtain ⟨hgroups, hfields⟩ := h.distinct _ hgroup _ hotherGroup _
    resource.field_mem _ other.field_mem hbase
  cases resource with
  | block number =>
      cases other with
      | inode _ => simp [Resource.field] at hfields
      | block number' =>
          simp only [Resource.group, Resource.index] at hgroups hindex
          rw [← Nat.div_add_mod number v.blocksPerGroup,
            ← Nat.div_add_mod number' v.blocksPerGroup, hgroups, hindex]
  | inode number =>
      cases other with
      | block _ => simp [Resource.field] at hfields
      | inode number' =>
          simp only [Resource.group, Resource.index] at hgroups hindex
          simp only [Resource.number] at hnumber hother
          have hpred : number - 1 = number' - 1 := by
            rw [← Nat.div_add_mod (number - 1) v.inodesPerGroup,
              ← Nat.div_add_mod (number' - 1) v.inodesPerGroup, hgroups,
              hindex]
          rw [show number = number' by omega]

theorem BitmapsApart.keeps
    (h : BitmapsApart v) {disk next : ByteStore} {g field i : ℕ}
    (hg : g < v.groupCount) (hfield : field ∈ [0, 4])
    (hi : i < 8 * v.blockSize)
    (hnext : ∀ k,
      k ≠ (8 * v.blockBase (v.descriptorWord g field) + i) / 8 →
        next k = disk k)
    (hsame : ∀ g < v.groupCount, SameBlock v disk (descriptorBlock g)) :
    ∀ g < v.groupCount, SameBlock v next (descriptorBlock g) := by
  intro g' hg' k hk
  rw [hnext _ fun hbyte => ?_, hsame g' hg' k hk]
  have hplace : v.blockBase (descriptorBlock g') + k =
      v.blockBase (v.descriptorWord g field) + i / 8 := by omega
  have haddress : 8 * v.blockBase (descriptorBlock g') + 8 * k =
      8 * v.blockBase (v.descriptorWord g field) + 8 * (i / 8) := by omega
  exact h.outside g hg g' hg' field hfield
    (v.bitAddress_inj (by omega) (by omega) haddress).1.symm

end

/-! ## The three functions -/

section

variable {v : Volume} {disk : ByteStore}

theorem descriptorWord_withDisk {g : ℕ}
    (hsame : SameBlock v disk (descriptorBlock g)) (field : ℕ) :
    (v.withDisk disk).descriptorWord g field = v.descriptorWord g field := by
  unfold Volume.descriptorWord
  rw [fetch_withDisk hsame]
  rfl

theorem findFreeBit_sets
    (h : BitmapsApart v)
    (hsame : ∀ g < v.groupCount, SameBlock v disk (descriptorBlock g))
    (search : BitSearch) {found : Option (ℕ × ℕ)} {next : Volume}
    (hbits : search.perGroup ≤ 8 * v.blockSize)
    (hfind : findFreeBit (v.withDisk disk) search v.groupCount 0 =
      .ok (found, next)) :
    (found = none ∧ next = v.withDisk disk) ∨
      ∃ g < v.groupCount, ∃ i < search.perGroup, found = some (g, i) ∧
        disk.bit (8 * v.blockBase
          (v.descriptorWord g search.bitmapField) + i) = false ∧
        next = v.withDisk (disk.setBit (8 * v.blockBase
          (v.descriptorWord g search.bitmapField) + i)) := by
  rcases findFreeBit_spec hfind with hnone |
    ⟨g, i, -, hg, hfree, -, -, rfl, rfl⟩
  · exact .inl hnone
  · have hgroup : g < v.groupCount := by omega
    have hi : i < search.perGroup := hfree.high
    have hword := descriptorWord_withDisk (hsame g hgroup) search.bitmapField
    have hclear := hfree.clear
    rw [hword, fetch_bit (v.withDisk disk) _ h.blockSize_le
      (show i < 8 * v.blockSize by omega)] at hclear
    refine .inr ⟨g, hgroup, i, hi, rfl, hclear, ?_⟩
    have hwrite := writeBlock_setBit (v.withDisk disk)
      (v.descriptorWord g search.bitmapField) h.blockSize_le
      (show i < 8 * v.blockSize by omega)
    rw [hword]
    exact congrArg v.withDisk hwrite

theorem findFreeBlock_eq
    {w next : Volume} {found : Option (ℕ × ℕ)}
    (hfind : findFreeBit w (blockSearch w) w.groupCount 0 =
      .ok (found, next)) :
    findFreeBlock w = .ok
      (found.elim 0 (fun place => u32 (place.1 * w.blocksPerGroup + place.2)),
        next) := by
  unfold findFreeBlock
  rw [hfind]
  cases found <;> rfl

theorem findFreeInode_eq
    {w next : Volume} {found : Option (ℕ × ℕ)}
    (hfind : findFreeBit w (inodeSearch w) w.groupCount 0 =
      .ok (found, next)) :
    findFreeInode w = .ok
      (found.elim 0
        (fun place => u32 (place.1 * w.inodesPerGroup + place.2 + 1)),
        next) := by
  unfold findFreeInode
  rw [hfind]
  cases found <;> rfl

theorem findFreeBlock_sets
    (h : BitmapsApart v)
    (hcount : v.groupCount * v.blocksPerGroup < 4294967296)
    (hsame : ∀ g < v.groupCount, SameBlock v disk (descriptorBlock g)) :
    ∃ block next, findFreeBlock (v.withDisk disk) = .ok (block, next) ∧
      (block = 0 ∧ next = v.withDisk disk ∨
        (Resource.block block).group v < v.groupCount ∧
          disk.bit ((Resource.block block).bitAddress v) = false ∧
          next = v.withDisk
            (disk.setBit ((Resource.block block).bitAddress v))) := by
  obtain ⟨⟨found, next⟩, hfind⟩ := findFreeBit_inBounds (v.withDisk disk)
    (blockSearch (v.withDisk disk)) h.blocks (by norm_num [blockSearch])
    (by norm_num [blockSearch]) v.groupCount 0
  rw [findFreeBlock_eq hfind]
  rcases findFreeBit_sets h hsame (blockSearch (v.withDisk disk)) h.blocks
    hfind with ⟨rfl, rfl⟩ | ⟨g, hg, i, hi, rfl, hclear, rfl⟩
  · exact ⟨0, _, rfl, .inl ⟨rfl, rfl⟩⟩
  · have hi' : i < v.blocksPerGroup := hi
    have hmul := Nat.mul_le_mul_right v.blocksPerGroup hg
    rw [Nat.succ_mul] at hmul
    obtain ⟨hgroup, hindex⟩ := @div_of_place _ g _ hi'
    refine ⟨_, _, rfl, .inr ?_⟩
    simp only [Option.elim, Volume.withDisk_toGeometry]
    rw [u32_of_lt (by omega)]
    have haddress : (Resource.block (g * v.blocksPerGroup + i)).bitAddress v =
        8 * v.blockBase (v.descriptorWord g 0) + i := by
      simp only [Resource.bitAddress, Resource.group, Resource.index,
        Resource.field, hgroup, hindex]
    rw [haddress]
    exact ⟨by simpa only [Resource.group, hgroup] using hg, hclear, rfl⟩

theorem findFreeInode_sets
    (h : BitmapsApart v)
    (hsame : ∀ g < v.groupCount, SameBlock v disk (descriptorBlock g)) :
    ∃ inode next, findFreeInode (v.withDisk disk) = .ok (inode, next) ∧
      (inode = 0 ∧ next = v.withDisk disk ∨
        ∃ g < v.groupCount, ∃ i < v.inodesPerGroup,
          disk.bit (8 * v.blockBase (v.descriptorWord g 4) + i) = false ∧
          next = v.withDisk
            (disk.setBit (8 * v.blockBase (v.descriptorWord g 4) + i)) ∧
          (inode ≠ 0 → (Resource.inode inode).group v < v.groupCount ∧
            (Resource.inode inode).bitAddress v =
              8 * v.blockBase (v.descriptorWord g 4) + i)) := by
  obtain ⟨⟨found, next⟩, hfind⟩ := findFreeBit_inBounds (v.withDisk disk)
    (inodeSearch (v.withDisk disk)) h.inodes (by norm_num [inodeSearch])
    (by norm_num [inodeSearch]) v.groupCount 0
  rw [findFreeInode_eq hfind]
  rcases findFreeBit_sets h hsame (inodeSearch (v.withDisk disk)) h.inodes
    hfind with ⟨rfl, rfl⟩ | ⟨g, hg, i, hi, rfl, hclear, rfl⟩
  · exact ⟨0, _, rfl, .inl ⟨rfl, rfl⟩⟩
  · have hi' : i < v.inodesPerGroup := hi
    have hmul := Nat.mul_le_mul_right v.inodesPerGroup hg
    have hnumbers := h.inodeNumbers
    rw [Nat.succ_mul] at hmul
    obtain ⟨hgroup, hindex⟩ := @div_of_place _ g _ hi'
    refine ⟨_, _, rfl, .inr ⟨g, hg, i, hi', hclear, rfl, fun hnumber => ?_⟩⟩
    simp only [Option.elim, Volume.withDisk_toGeometry] at hnumber ⊢
    -- Only the last number of all can wrap around, and then to 0.
    have hlow : g * v.inodesPerGroup + i + 1 < 4294967296 := by
      by_contra hhigh
      have hwrapped : g * v.inodesPerGroup + i + 1 = 4294967296 := by omega
      rw [hwrapped] at hnumber
      exact hnumber (by unfold u32; rfl)
    rw [u32_of_lt hlow]
    simp only [Resource.bitAddress, Resource.group, Resource.index,
      Resource.field, Nat.add_sub_cancel, hgroup, hindex]
    exact ⟨hg, trivial⟩

theorem freeBlock_clears
    (h : BitmapsApart v)
    (hsame : ∀ g < v.groupCount, SameBlock v disk (descriptorBlock g))
    {block : ℕ} (hgroup : (Resource.block block).group v < v.groupCount) :
    freeBlock (v.withDisk disk) block = .ok (v.withDisk
      (disk.clearBit ((Resource.block block).bitAddress v))) := by
  obtain ⟨next, hfree⟩ := freeBlock_inBounds (v.withDisk disk) h.blocks block
  have hbitmap : (v.withDisk disk).freeBitmap block =
      v.descriptorWord (block / v.blocksPerGroup) 0 :=
    descriptorWord_withDisk (hsame _ hgroup) 0
  have hindex := (Nat.mod_lt block v.blocksPerGroup_pos).trans_le h.blocks
  have hwrite := writeBlock_clearBit (v.withDisk disk)
    (v.descriptorWord (block / v.blocksPerGroup) 0) h.blockSize_le hindex
  rw [hfree, Except.ok.injEq, freeBlock_eq_ok hfree, hbitmap]
  exact congrArg v.withDisk hwrite

end

/-! ## Runs -/

def marked (v : Volume) (disk : ByteStore) : Set Resource :=
  { resource | resource.number ≠ 0 ∧ resource.group v < v.groupCount ∧
    disk.bit (resource.bitAddress v) = true }

section

variable {v : Volume} {disk : ByteStore} {resource : Resource}

theorem marked_subset_setBit (v : Volume) (disk : ByteStore) (address : ℕ) :
    marked v disk ⊆ marked v (disk.setBit address) := by
  rintro resource ⟨hnumber, hgroup, hbit⟩
  exact ⟨hnumber, hgroup, by rw [bit_setBit, hbit, Bool.true_or]⟩

theorem marked_setBit
    (h : BitmapsApart v) (hnumber : resource.number ≠ 0)
    (hgroup : resource.group v < v.groupCount) :
    marked v (disk.setBit (resource.bitAddress v)) =
      insert resource (marked v disk) := by
  ext other
  constructor
  · rintro ⟨hother, hotherGroup, hbit⟩
    rw [bit_setBit, Bool.or_eq_true, decide_eq_true_eq] at hbit
    rcases hbit with hset | hsame
    · exact .inr ⟨hother, hotherGroup, hset⟩
    · exact .inl (Resource.bitAddress_inj h hother hnumber hotherGroup hgroup
        hsame.symm)
  · rintro (rfl | hmarked)
    · exact ⟨hnumber, hgroup, by simp [bit_setBit]⟩
    · exact marked_subset_setBit _ _ _ hmarked

theorem marked_clearBit
    (h : BitmapsApart v) (hnumber : resource.number ≠ 0)
    (hgroup : resource.group v < v.groupCount) :
    marked v (disk.clearBit (resource.bitAddress v)) =
      marked v disk \ {resource} := by
  ext other
  constructor
  · rintro ⟨hother, hotherGroup, hbit⟩
    rw [bit_clearBit, Bool.and_eq_true, Bool.not_eq_true',
      decide_eq_false_iff_not] at hbit
    exact ⟨⟨hother, hotherGroup, hbit.1⟩, fun hsame => hbit.2 (by
      rw [Set.mem_singleton_iff.1 hsame])⟩
  · rintro ⟨⟨hother, hotherGroup, hset⟩, hne⟩
    refine ⟨hother, hotherGroup, ?_⟩
    rw [bit_clearBit, hset, Bool.true_and, Bool.not_eq_true',
      decide_eq_false_iff_not]
    exact fun hsame => hne (Resource.bitAddress_inj h hother hnumber
      hotherGroup hgroup hsame.symm)

end

structure Kept (v : Volume) (ledger : List (Movement Resource))
    (disk : ByteStore) : Prop where
  descriptors : ∀ g < v.groupCount, SameBlock v disk (descriptorBlock g)
  marks : LedgerRun (marked v v.disk) ledger (marked v disk)
  blocks : ∀ block, .taken (.block block) ∈ ledger →
    block ≠ 0 ∧ (Resource.block block).group v < v.groupCount
  inodes : ∀ inode, .returned (.inode inode) ∉ ledger

section

variable {v : Volume} {disk : ByteStore} {ledger : List (Movement Resource)}

theorem Kept.start (v : Volume) : Kept v [] v.disk where
  descriptors _ _ _ _ := rfl
  marks := .start
  blocks _ hmem := absurd hmem List.not_mem_nil
  inodes _ := List.not_mem_nil

theorem Kept.setBit
    (h : Kept v ledger disk) (hapart : BitmapsApart v) {g field i : ℕ}
    (hg : g < v.groupCount) (hfield : field ∈ [0, 4])
    (hi : i < 8 * v.blockSize) :
    Kept v ledger (disk.setBit
      (8 * v.blockBase (v.descriptorWord g field) + i)) where
  descriptors := hapart.keeps hg hfield hi
    (fun _ hk => setBit_apply_of_ne disk hk) h.descriptors
  marks := h.marks.grow (marked_subset_setBit _ _ _)
  blocks := h.blocks
  inodes := h.inodes

theorem Kept.take
    (h : Kept v ledger disk) (hapart : BitmapsApart v) {resource : Resource}
    (hnumber : resource.number ≠ 0)
    (hgroup : resource.group v < v.groupCount)
    (hclear : disk.bit (resource.bitAddress v) = false) :
    Kept v (.taken resource :: ledger)
      (disk.setBit (resource.bitAddress v)) where
  descriptors := hapart.keeps hgroup resource.field_mem
    (resource.index_lt hapart) (fun _ hk => setBit_apply_of_ne disk hk)
    h.descriptors
  marks := by
    rw [marked_setBit hapart hnumber hgroup]
    exact h.marks.take fun hmarked => by simp [hmarked.2.2] at hclear
  blocks block hmem := by
    rcases List.mem_cons.1 hmem with hsame | hearlier
    · injection hsame with hsame
      subst hsame
      exact ⟨hnumber, hgroup⟩
    · exact h.blocks block hearlier
  inodes inode hmem := by
    rcases List.mem_cons.1 hmem with hsame | hearlier
    · cases hsame
    · exact h.inodes inode hearlier

/-- A block obtained earlier is freed. -/
theorem Kept.giveBack
    (h : Kept v ledger disk) (hapart : BitmapsApart v) {block : ℕ}
    (hobtained : .taken (.block block) ∈ ledger) :
    Kept v (.returned (.block block) :: ledger)
      (disk.clearBit ((Resource.block block).bitAddress v)) where
  descriptors := hapart.keeps (h.blocks block hobtained).2
    (Resource.field_mem _) (Resource.index_lt hapart _)
    (fun _ hk => clearBit_apply_of_ne disk hk) h.descriptors
  marks := by
    obtain ⟨hnumber, hgroup⟩ := h.blocks block hobtained
    have hmarked := @marked_clearBit v disk (.block block) hapart hnumber hgroup
    rw [hmarked]
    exact h.marks.giveBack
  blocks other hmem := by
    rcases List.mem_cons.1 hmem with hsame | hearlier
    · cases hsame
    · exact h.blocks other hearlier
  inodes inode hmem := by
    rcases List.mem_cons.1 hmem with hsame | hearlier
    · cases hsame
    · exact h.inodes inode hearlier

/-- A number that `find_free_block` or `find_free_inode` returns is new, if it is
not 0. -/
theorem Kept.fresh
    (h : Kept v ledger disk) {resource : Resource}
    (hclear : disk.bit (resource.bitAddress v) = false) :
    ¬Holds resource ledger :=
  h.marks.fresh fun hmarked => by simp [hmarked.2.2] at hclear

end

theorem BitRun.kept
    {v w : Volume} {ledger : List (Movement Resource)}
    (hapart : BitmapsApart v)
    (hcount : v.groupCount * v.blocksPerGroup < 4294967296)
    (hrun : BitRun v ledger w) :
    ∃ disk, w = v.withDisk disk ∧ Kept v ledger disk := by
  induction hrun with
  | start => exact ⟨v.disk, rfl, Kept.start v⟩
  | findFreeBlock _ hfind ih =>
      obtain ⟨disk, rfl, hkept⟩ := ih
      obtain ⟨block, next, hcall, hcases⟩ :=
        findFreeBlock_sets hapart hcount hkept.descriptors
      rw [hcall] at hfind
      cases hfind
      unfold logged
      rcases hcases with ⟨rfl, rfl⟩ | ⟨hgroup, hclear, rfl⟩
      · exact ⟨disk, rfl, hkept⟩
      · split_ifs with hzero
        · exact ⟨_, rfl, hkept.setBit hapart hgroup (Resource.field_mem _)
            (Resource.index_lt hapart _)⟩
        · exact ⟨_, rfl, hkept.take hapart hzero hgroup hclear⟩
  | findFreeInode _ hfind ih =>
      obtain ⟨disk, rfl, hkept⟩ := ih
      obtain ⟨inode, next, hcall, hcases⟩ :=
        findFreeInode_sets hapart hkept.descriptors
      rw [hcall] at hfind
      cases hfind
      unfold logged
      rcases hcases with ⟨rfl, rfl⟩ | ⟨g, hg, i, hi, hclear, rfl, hnumber⟩
      · exact ⟨disk, rfl, hkept⟩
      · split_ifs with hzero
        · exact ⟨_, rfl, hkept.setBit hapart hg (by simp)
            (hi.trans_le hapart.inodes)⟩
        · obtain ⟨hgroup, haddress⟩ := hnumber hzero
          rw [← haddress] at hclear ⊢
          exact ⟨_, rfl, hkept.take hapart hzero hgroup hclear⟩
  | freeBlock _ hobtained hfree ih =>
      obtain ⟨disk, rfl, hkept⟩ := ih
      rw [freeBlock_clears hapart hkept.descriptors
        (hkept.blocks _ hobtained).2] at hfree
      cases hfree
      exact ⟨_, rfl, hkept.giveBack hapart hobtained⟩

theorem changesOneBit_setBit
    (v : Volume) (disk : ByteStore) {g field i : ℕ}
    (hg : g < v.groupCount) (hfield : field ∈ [0, 4])
    (hi : i < 8 * v.blockSize) :
    ChangesOneBit v (v.withDisk disk) (v.withDisk (disk.setBit
      (8 * v.blockBase (v.descriptorWord g field) + i))) := by
  refine .inr ⟨g, hg, field, hfield, i, hi, fun j hj => ?_⟩
  simp [bit_setBit, Ne.symm hj]

theorem changesOneBit_clearBit
    (v : Volume) (disk : ByteStore) {g field i : ℕ}
    (hg : g < v.groupCount) (hfield : field ∈ [0, 4])
    (hi : i < 8 * v.blockSize) :
    ChangesOneBit v (v.withDisk disk) (v.withDisk (disk.clearBit
      (8 * v.blockBase (v.descriptorWord g field) + i))) := by
  refine .inr ⟨g, hg, field, hfield, i, hi, fun j hj => ?_⟩
  simp [bit_clearBit, Ne.symm hj]

/-- The numbers of a superblock keep block numbers within 32 bits. -/
theorem initExt3_blocks_lt
    {disk garbage : ByteStore} {v : Volume}
    (hinit : initExt3 disk garbage = .ok (some v)) :
    v.groupCount * v.blocksPerGroup < 4294967296 := by
  have hmounted := initExt3_mounted hinit
  have hcount := (readSectors disk 2).le32_lt 4
  rw [hmounted.groupCount, hmounted.blocksPerGroup]
  exact (Nat.div_mul_le_self _ _).trans_lt hcount

theorem bitRun_callsRight
    (drive garbage : ByteStore) (v w : Volume)
    (ledger : List (Movement Resource))
    (hinit : initExt3 drive garbage = .ok (some v))
    (hapart : BitmapsApart v)
    (hrun : BitRun v ledger w) :
    CallsRight v ledger w := by
  have hcount := initExt3_blocks_lt hinit
  obtain ⟨disk, rfl, hkept⟩ := hrun.kept hapart hcount
  constructor
  · obtain ⟨block, next, hcall, hcases⟩ :=
      findFreeBlock_sets hapart hcount hkept.descriptors
    refine ⟨block, next, hcall, ?_⟩
    rcases hcases with ⟨rfl, rfl⟩ | ⟨hgroup, hclear, rfl⟩
    · exact ⟨fun h => absurd rfl h, .inl rfl, fun h => absurd rfl h⟩
    · have hfield := (Resource.block block).field_mem
      have hindex := (Resource.block block).index_lt hapart
      have hnext := hapart.keeps hgroup hfield hindex
        (fun _ hk => setBit_apply_of_ne disk hk) hkept.descriptors
      refine ⟨fun _ => hkept.fresh hclear,
        changesOneBit_setBit v disk hgroup hfield hindex, fun _ => ?_⟩
      refine ⟨_, freeBlock_clears hapart hnext hgroup, ?_⟩
      exact clearBit_setBit disk hclear
  · obtain ⟨inode, next, hcall, hcases⟩ :=
      findFreeInode_sets hapart hkept.descriptors
    refine ⟨inode, next, hcall, ?_⟩
    rcases hcases with ⟨rfl, rfl⟩ | ⟨g, hg, i, hi, hclear, rfl, hnumber⟩
    · exact ⟨fun h => absurd rfl h, .inl rfl⟩
    · refine ⟨fun hzero hmem => ?_, changesOneBit_setBit v disk hg (by simp)
        (hi.trans_le hapart.inodes)⟩
      rw [← (hnumber hzero).2] at hclear
      exact hkept.fresh hclear (holds_of_taken hmem (hkept.inodes inode))
  · intro block hobtained
    have hgroup := (hkept.blocks block hobtained).2
    exact ⟨_, freeBlock_clears hapart hkept.descriptors hgroup,
      changesOneBit_clearBit v disk hgroup (Resource.field_mem _)
        (Resource.index_lt hapart _)⟩

/-- Two groups of 8 blocks of 1 KiB and 8 inodes.  Block 7 is the last one free in
the first group, and the second is empty.  Its descriptor stands in block 2 for
the inode table and in block 4 for the bitmaps. -/
def pairedGroups : ByteStore :=
  ofWords [(1028, 16), (1044, 1), (1056, 8), (1064, 8), (1080, 0xEF53),
    (1112, 128), (2048, 3), (2052, 5), (2056, 6), (2060, 0x00010001),
    (2088, 9), (3072, 0x7F), (4128, 7), (4132, 8), (4140, 0x00010001)]

/-- Two blocks and an inode are taken, and the first block is given back. -/
theorem bitRun_callsRight_pairedGroups :
    ∃ v w, initExt3 pairedGroups (fun _ => 0) = .ok (some v) ∧
      BitRun v [.returned (.block 7), .taken (.inode 3), .taken (.block 8),
        .taken (.block 7)] w ∧
      CallsRight v [.returned (.block 7), .taken (.inode 3), .taken (.block 8),
        .taken (.block 7)] w := by
  have hmount : (initExt3 pairedGroups (fun _ => 0)).satisfies (fun found =>
      found.any fun v => decide (v.blockSize = 1024 ∧ v.blocksPerGroup = 8 ∧
        v.inodesPerGroup = 8 ∧ v.groupCount = 2 ∧
        (∀ g < v.groupCount, ∀ g' < v.groupCount, ∀ field ∈ [0, 4],
          ∀ field' ∈ [0, 4], v.blockBase (v.descriptorWord g field) =
            v.blockBase (v.descriptorWord g' field') →
              g = g' ∧ field = field') ∧
        (∀ g < v.groupCount, ∀ g' < v.groupCount, ∀ field ∈ [0, 4],
          v.blockBase (v.descriptorWord g field) ≠
            v.blockBase (descriptorBlock g')) ∧
        (findFreeBlock v).satisfies (fun first => first.1 = 7 ∧
          (findFreeBlock first.2).satisfies (fun second => second.1 = 8 ∧
            (findFreeInode second.2).satisfies (fun third => third.1 = 3 ∧
              (freeBlock third.2 7).satisfies fun _ => true))))) = true := by
    decide +kernel
  obtain ⟨v, hinit, htest⟩ := Outcome.exists_some_of_satisfies hmount
  obtain ⟨hsize, hblocks, hinodes, hgroups, hdistinct, houtside, hcalls⟩ :=
    of_decide_eq_true htest
  have hapart : BitmapsApart v := {
    blockSize_le := by omega
    blocks := by omega
    inodes := by omega
    inodeNumbers := by rw [hgroups, hinodes]; norm_num
    distinct := hdistinct
    outside := houtside }
  obtain ⟨⟨first, one⟩, hfirst, hcalls⟩ := Outcome.exists_of_satisfies hcalls
  obtain ⟨hseven, hcalls⟩ := of_decide_eq_true hcalls
  obtain ⟨⟨second, two⟩, hsecond, hcalls⟩ := Outcome.exists_of_satisfies hcalls
  obtain ⟨height, hcalls⟩ := of_decide_eq_true hcalls
  obtain ⟨⟨third, three⟩, hthird, hcalls⟩ := Outcome.exists_of_satisfies hcalls
  obtain ⟨hthree, hcalls⟩ := of_decide_eq_true hcalls
  obtain ⟨w, hfree, -⟩ := Outcome.exists_of_satisfies hcalls
  simp only at hseven height hthree hsecond hthird hfree
  subst hseven height hthree
  have htaken := ((BitRun.start.findFreeBlock hfirst).findFreeBlock
    hsecond).findFreeInode hthird
  have hrun := @BitRun.freeBlock v _ three w 7 htaken (by simp [logged]) hfree
  exact ⟨v, w, hinit, hrun, bitRun_callsRight _ _ v w _ hinit hapart hrun⟩

/-! ## Small volumes -/

/-- The bitmaps have numbers of their own. -/
structure BitmapsNamedApart (v : Volume) : Prop where
  blocks : v.blocksPerGroup ≤ 8 * v.blockSize
  inodes : v.inodesPerGroup ≤ 8 * v.blockSize
  distinct : ∀ g < v.groupCount, ∀ g' < v.groupCount,
    ∀ field ∈ [0, 4], ∀ field' ∈ [0, 4],
      v.descriptorWord g field = v.descriptorWord g' field' →
        g = g' ∧ field = field'
  outside : ∀ g < v.groupCount, ∀ g' < v.groupCount, ∀ field ∈ [0, 4],
    v.descriptorWord g field ≠ descriptorBlock g'

theorem apart_of_one_group
    {v : Volume} (place : ℕ → ℕ) (hgroups : v.groupCount = 1)
    (hbitmaps : place (v.descriptorWord 0 0) ≠ place (v.descriptorWord 0 4))
    (hblock : place (v.descriptorWord 0 0) ≠ place (descriptorBlock 0))
    (hinode : place (v.descriptorWord 0 4) ≠ place (descriptorBlock 0)) :
    (∀ g < v.groupCount, ∀ g' < v.groupCount,
      ∀ field ∈ [0, 4], ∀ field' ∈ [0, 4],
        place (v.descriptorWord g field) =
            place (v.descriptorWord g' field') →
          g = g' ∧ field = field') ∧
    ∀ g < v.groupCount, ∀ g' < v.groupCount, ∀ field ∈ [0, 4],
      place (v.descriptorWord g field) ≠ place (descriptorBlock g') := by
  rw [hgroups]
  constructor
  · intro g hg g' hg' field hfield field' hfield' hsame
    obtain rfl : g = 0 := by omega
    obtain rfl : g' = 0 := by omega
    simp only [List.mem_cons, List.not_mem_nil, or_false] at hfield hfield'
    rcases hfield with rfl | rfl <;> rcases hfield' with rfl | rfl
    · exact ⟨rfl, rfl⟩
    · exact absurd hsame hbitmaps
    · exact absurd hsame.symm hbitmaps
    · exact ⟨rfl, rfl⟩
  · intro g hg g' hg' field hfield
    obtain rfl : g = 0 := by omega
    obtain rfl : g' = 0 := by omega
    simp only [List.mem_cons, List.not_mem_nil, or_false] at hfield
    rcases hfield with rfl | rfl
    · exact hblock
    · exact hinode

/-- A superblock with one group of 8192 blocks of 1 KiB, and the words of a
descriptor. -/
def oneGroup (bitmap counters : ℕ) : ByteStore :=
  ofWords [(1028, 8192), (1044, 1), (1056, 8192), (1064, 16),
    (1080, 0xEF53), (1112, 128), (2048, bitmap), (2052, 4), (2056, 5),
    (2060, counters), (3072, 0xFF)]

/-- In blocks of 256 KiB the bit that is set is not written, and the same block
is handed out again. -/
theorem handsOutAgain_bigBlocks :
    ∃ v, initExt3 bigBlocks (fun _ => 0) = .ok (some v) ∧
      BitmapsNamedApart v ∧
        ∃ ledger w, BitRun v ledger w ∧ ¬CallsRight v ledger w := by
  have hmount : (initExt3 bigBlocks (fun _ => 0)).satisfies (fun found =>
      found.any fun v => decide (v.blockSize = 262144 ∧
        v.blocksPerGroup = 1048577 ∧ v.inodesPerGroup = 16 ∧
        v.groupCount = 1 ∧ v.descriptorWord 0 0 = 3 ∧
        v.descriptorWord 0 4 = 4 ∧ descriptorBlock 0 = 2 ∧
        (findFreeBlock v).satisfies (fun taken => taken.1 = 1048576 ∧
          (findFreeBlock taken.2).satisfies
            (fun again => again.1 = 1048576)))) = true := by
    decide +kernel
  obtain ⟨v, hinit, htest⟩ := Outcome.exists_some_of_satisfies hmount
  obtain ⟨hsize, hblocks, hinodes, hgroups, hblock, hinode, htable, hcalls⟩ :=
    of_decide_eq_true htest
  obtain ⟨⟨first, next⟩, hfirst, hcalls⟩ := Outcome.exists_of_satisfies hcalls
  obtain ⟨hnumber, hagain⟩ := of_decide_eq_true hcalls
  obtain ⟨⟨second, last⟩, hsecond, hagain⟩ :=
    Outcome.exists_of_satisfies hagain
  have hsame : second = 1048576 := of_decide_eq_true hagain
  simp only at hnumber hsecond
  subst hnumber hsame
  obtain ⟨hdistinct, houtside⟩ := apart_of_one_group id hgroups
    (by rw [hblock, hinode]; decide) (by rw [hblock, htable]; decide)
    (by rw [hinode, htable]; decide)
  refine ⟨v, hinit, ⟨by omega, by omega, hdistinct, houtside⟩, _, next,
    BitRun.start.findFreeBlock hfirst, fun hright => ?_⟩
  obtain ⟨block, other, hcall, hfresh, -⟩ := hright.findFreeBlock
  rw [hsecond] at hcall
  cases hcall
  exact hfresh (by norm_num) (by simp [logged, Holds])

/-- Block 134217730 of 1 KiB is block 2 on the drive: the bit that is set is one
of the descriptor, which then names another bitmap. -/
theorem handsOutAgain_sharedBlock :
    ∃ v, initExt3 (oneGroup 134217730 0x00010001) (fun _ => 0) =
        .ok (some v) ∧ v.blockSize = 1024 ∧
      BitmapsNamedApart v ∧
        ∃ ledger w, BitRun v ledger w ∧ ¬CallsRight v ledger w := by
  have hmount : (initExt3 (oneGroup 134217730 0x00010001)
      (fun _ => 0)).satisfies (fun found =>
      found.any fun v => decide (v.blockSize = 1024 ∧
        v.blocksPerGroup = 8192 ∧ v.inodesPerGroup = 16 ∧
        v.groupCount = 1 ∧ v.descriptorWord 0 0 = 134217730 ∧
        v.descriptorWord 0 4 = 4 ∧ descriptorBlock 0 = 2 ∧
        (findFreeBlock v).satisfies (fun taken => taken.1 = 2 ∧
          (findFreeBlock taken.2).satisfies (fun other => other.1 = 1 ∧
            (findFreeBlock other.2).satisfies
              (fun again => again.1 = 2))))) = true := by
    decide +kernel
  obtain ⟨v, hinit, htest⟩ := Outcome.exists_some_of_satisfies hmount
  obtain ⟨hsize, hblocks, hinodes, hgroups, hblock, hinode, htable, hcalls⟩ :=
    of_decide_eq_true htest
  obtain ⟨⟨first, next⟩, hfirst, hcalls⟩ := Outcome.exists_of_satisfies hcalls
  obtain ⟨hnumber, hcalls⟩ := of_decide_eq_true hcalls
  obtain ⟨⟨second, w⟩, hsecond, hcalls⟩ := Outcome.exists_of_satisfies hcalls
  obtain ⟨hother, hagain⟩ := of_decide_eq_true hcalls
  obtain ⟨⟨third, last⟩, hthird, hagain⟩ := Outcome.exists_of_satisfies hagain
  have hsame : third = 2 := of_decide_eq_true hagain
  simp only at hnumber hother hsecond hthird
  subst hnumber hother hsame
  obtain ⟨hdistinct, houtside⟩ := apart_of_one_group id hgroups
    (by rw [hblock, hinode]; decide) (by rw [hblock, htable]; decide)
    (by rw [hinode, htable]; decide)
  refine ⟨v, hinit, hsize, ⟨by omega, by omega, hdistinct, houtside⟩, _, w,
    (BitRun.start.findFreeBlock hfirst).findFreeBlock hsecond,
    fun hright => ?_⟩
  obtain ⟨block, after, hcall, hfresh, -⟩ := hright.findFreeBlock
  rw [hthird] at hcall
  cases hcall
  exact hfresh (by norm_num) (by simp [logged, Holds])

theorem clearsFirstBit_full :
    ∃ v last, initExt3 (oneGroup 3 0) (fun _ => 0) = .ok (some v) ∧
      findFreeBlock v = .ok (0, v) ∧ freeBlock v 0 = .ok last ∧
        last.disk 3072 ≠ v.disk 3072 := by
  have hmount : (initExt3 (oneGroup 3 0) (fun _ => 0)).satisfies
      (fun found => found.any fun v => decide (v.groupCount = 1 ∧
        v.descriptorHalf 0 12 = 0 ∧ (freeBlock v 0).satisfies
          (fun last => last.disk 3072 ≠ v.disk 3072))) = true := by
    decide +kernel
  obtain ⟨v, hinit, htest⟩ := Outcome.exists_some_of_satisfies hmount
  obtain ⟨hgroups, hcounter, hfree⟩ := of_decide_eq_true htest
  obtain ⟨last, hlast, hchanged⟩ := Outcome.exists_of_satisfies hfree
  refine ⟨v, last, hinit, ?_, hlast, of_decide_eq_true hchanged⟩
  have hoffset := descriptorOffset_le v 0
  have hread : (fetch v (descriptorBlock 0)).get16
      (descriptorOffset v 0 + 12) = .ok 0 :=
    Buffer.get16_eq_ok.2 ⟨by rw [fetch_size]; omega, hcounter⟩
  unfold findFreeBlock
  rw [hgroups, findFreeBit]
  simp only [blockSearch, hread, bind, Except.bind, if_true, findFreeBit,
    pure, Except.pure]

/-- Blocks of more than 128 KiB, bitmaps that share a block of the drive with a
descriptor, and the result 0 each break the rules. -/
theorem bitRun_breaks :
    (∃ v, initExt3 bigBlocks (fun _ => 0) = .ok (some v) ∧
      BitmapsNamedApart v ∧
        ∃ ledger w, BitRun v ledger w ∧ ¬CallsRight v ledger w) ∧
    (∃ v, initExt3 (oneGroup 134217730 0x00010001) (fun _ => 0) =
        .ok (some v) ∧ v.blockSize = 1024 ∧
      BitmapsNamedApart v ∧
        ∃ ledger w, BitRun v ledger w ∧ ¬CallsRight v ledger w) ∧
    ∃ v last, initExt3 (oneGroup 3 0) (fun _ => 0) = .ok (some v) ∧
      findFreeBlock v = .ok (0, v) ∧ freeBlock v 0 = .ok last ∧
        last.disk 3072 ≠ v.disk 3072 :=
  ⟨handsOutAgain_bigBlocks, handsOutAgain_sharedBlock, clearsFirstBit_full⟩

end Ext3

end ClOs
