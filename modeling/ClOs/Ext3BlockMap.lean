import ClOs.Ext3Handles
import ClOs.Ext3Reading

/-!
# The block map

`block_from_inode` follows the pointers of an inode through one or two indirect
blocks.  It does not look whether an indirect block is there: for a pointer that
is 0 it takes the words of block 0.
-/

namespace ClOs.Ext3

open ByteStore

/-! ## Blocks of any size -/

theorem fetch_inside
    (v : Volume) (block : ℕ) {k : ℕ} (hk : k < v.transfer) :
    (fetch v block).bytes k = v.disk (v.blockBase block + k) := by
  simp only [fetch]
  rw [blit_inside _ _ (Nat.zero_le k) (by omega)]
  rfl

theorem fetch_outside
    (v : Volume) (block : ℕ) {k : ℕ} (hk : v.transfer ≤ k) :
    (fetch v block).bytes k = v.garbage k :=
  blit_outside _ _ (by omega)

def Volume.deliveredWord (v : Volume) (block i : ℕ) : ℕ :=
  (fetch v block).bytes.le32 (4 * i)

theorem deliveredWord_inside
    (v : Volume) (block : ℕ) {i : ℕ} (hi : 4 * i < v.transfer) :
    v.deliveredWord block i = v.blockWord block i := by
  have htransfer := v.transfer_eq_min
  obtain ⟨shift, -, hsize⟩ := v.blockSize_eq
  have hagree : (fetch v block).bytes.AgreeOn
      (v.disk.drop (v.blockBase block)) 0 v.transfer :=
    fun k _ hk => fetch_inside v block hk
  unfold Volume.deliveredWord Volume.blockWord
  rw [hagree.le32_eq (4 * i) (Nat.zero_le _) (by omega), drop_le32]

theorem deliveredWord_outside
    (v : Volume) (block : ℕ) {i : ℕ} (hi : v.transfer ≤ 4 * i) :
    v.deliveredWord block i = v.garbage.le32 (4 * i) := by
  unfold Volume.deliveredWord le32
  rw [fetch_outside v block hi, fetch_outside v block (by omega),
    fetch_outside v block (by omega), fetch_outside v block (by omega)]

/-! ## What the driver follows -/

/-- The pointer that `block_from_inode` arrives at. -/
def driverBlock (v : Volume) (inode : Inode) (index : ℕ) : ℕ :=
  let entries := v.blockSize / 4
  if index < 12 then inode.block index
  else if index - 12 < entries then
    v.deliveredWord (inode.block 12) (index - 12)
  else if index - 12 - entries < u32 (entries * entries) then
    v.deliveredWord
      (v.deliveredWord (inode.block 13) ((index - 12 - entries) / entries))
      ((index - 12 - entries) % entries)
  else 0

/-- The blocks whose words `block_from_inode` takes as pointers. -/
def pointerReads (v : Volume) (inode : Inode) (index : ℕ) : List ℕ :=
  let entries := v.blockSize / 4
  if index < 12 then []
  else if index - 12 < entries then [inode.block 12]
  else if index - 12 - entries < u32 (entries * entries) then
    [inode.block 13,
      v.deliveredWord (inode.block 13) ((index - 12 - entries) / entries)]
  else []

theorem u32_le (n : ℕ) : u32 n ≤ n := by
  unfold u32
  exact Nat.mod_le _ _

theorem fetch_get32_word
    (v : Volume) (block : ℕ) {i : ℕ} (hi : i < v.blockSize / 4) :
    (fetch v block).get32 (4 * i) = .ok (v.deliveredWord block i) :=
  Buffer.get32_eq_ok.2 ⟨by rw [fetch_size]; omega, rfl⟩

theorem blockFromInode_eq (v : Volume) (inode : Inode) (index : ℕ) :
    blockFromInode v inode index = .ok (driverBlock v inode index) := by
  have hpos : 0 < v.blockSize / 4 := by
    have hlarge := v.blockSize_ge
    omega
  unfold blockFromInode driverBlock
  dsimp only
  generalize hentries : v.blockSize / 4 = entries at *
  split_ifs with hdirect hsingle hdouble
  · rfl
  · exact fetch_get32_word v _ (by omega)
  · have hfirst : (index - 12 - entries) / entries < entries :=
      Nat.div_lt_of_lt_mul (hdouble.trans_le (u32_le _))
    have hsecond : (index - 12 - entries) % entries < entries :=
      Nat.mod_lt _ hpos
    rw [fetch_get32_word v _ (by omega)]
    exact fetch_get32_word v _ (by omega)
  · rfl

/-! ## When the map is followed right -/

def OwnsPointers (v : Volume) (inode : Inode) (block : ℕ) : Prop :=
  block ≠ 0 ∧ (block = inode.block 12 ∨ block = inode.block 13 ∨
    inode.block 13 ≠ 0 ∧
      ∃ i < v.blockSize / 4, block = v.blockWord (inode.block 13) i)

/-- `block_from_inode` returns the entry of the block map and takes its pointers
from indirect blocks of the inode only. -/
def FollowsMap (v : Volume) (inode : Inode) (index : ℕ) : Prop :=
  blockFromInode v inode index = .ok (logicalBlock v inode index) ∧
    ∀ block ∈ pointerReads v inode index, OwnsPointers v inode block

/-- The indirect blocks on the way to an index are there.  Of blocks above
128 KiB a read delivers the first 128 KiB, and their double indirect range is
cut off. -/
def PointersThere (v : Volume) (inode : Inode) (index : ℕ) : Prop :=
  let entries := v.blockSize / 4
  if index < 12 then True
  else if index - 12 < entries then
    inode.block 12 ≠ 0 ∧ (4 * (index - 12) < 131072 ∨
      v.garbage.le32 (4 * (index - 12)) =
        v.blockWord (inode.block 12) (index - 12))
  else
    let middle := v.blockWord (inode.block 13)
      ((index - 12 - entries) / entries)
    if v.blockSize ≤ 131072 then inode.block 13 ≠ 0 ∧ middle ≠ 0
    else inode.block 13 = 0 ∨ middle = 0 ∨
      v.blockWord middle ((index - 12 - entries) % entries) = 0

instance (v : Volume) (inode : Inode) (index : ℕ) :
    Decidable (PointersThere v inode index) := by
  unfold PointersThere
  infer_instance

/-- The number of double indirect indexes fits 32 bits for blocks of up to
128 KiB, and is a multiple of 2^32 for larger ones. -/
theorem doubleRange (v : Volume) :
    u32 (v.blockSize / 4 * (v.blockSize / 4)) =
      if v.blockSize ≤ 131072 then v.blockSize / 4 * (v.blockSize / 4)
      else 0 := by
  obtain ⟨shift, hshift, hsize⟩ := v.blockSize_eq
  split_ifs with hsmall
  · refine u32_of_lt ?_
    calc v.blockSize / 4 * (v.blockSize / 4) ≤ 32768 * 32768 :=
          Nat.mul_le_mul (by omega) (by omega)
      _ < 4294967296 := by norm_num
  · have hlarge : 8 ≤ shift := by
      by_contra hless
      have hpow : 2 ^ shift ≤ 2 ^ 7 :=
        Nat.pow_le_pow_right (by norm_num) (by omega)
      omega
    obtain ⟨extra, rfl⟩ := Nat.exists_eq_add_of_le hlarge
    rw [pow_add] at hsize
    have hentries : v.blockSize / 4 = 65536 * 2 ^ extra := by omega
    rw [hentries, show 65536 * 2 ^ extra * (65536 * 2 ^ extra) =
      4294967296 * (2 ^ extra * 2 ^ extra) by ring]
    unfold u32
    exact Nat.mul_mod_right _ _

theorem followsMap_iff
    (v : Volume) (inode : Inode) (index : ℕ)
    (hindex : index < 12 + v.blockSize / 4 +
      v.blockSize / 4 * (v.blockSize / 4)) :
    FollowsMap v inode index ↔ PointersThere v inode index := by
  have htransfer := v.transfer_eq_min
  have hlarge := v.blockSize_ge
  have hrange := doubleRange v
  unfold FollowsMap PointersThere
  rw [blockFromInode_eq, Except.ok.injEq]
  unfold driverBlock logicalBlock pointerReads
  dsimp only
  rw [hrange]
  by_cases hdirect : index < 12
  · simp [hdirect]
  simp only [if_neg hdirect]
  by_cases hsingle : index - 12 < v.blockSize / 4
  · simp only [if_pos hsingle, List.mem_singleton, forall_eq]
    by_cases hpointer : inode.block 12 = 0
    · simp [hpointer, OwnsPointers]
    have howns : OwnsPointers v inode (inode.block 12) :=
      ⟨hpointer, .inl rfl⟩
    simp only [howns, and_true, ne_eq, hpointer, not_false_eq_true, true_and]
    rcases Nat.lt_or_ge (4 * (index - 12)) 131072 with hmoved | hcut
    · exact iff_of_true (deliveredWord_inside v _ (by omega)) (.inl hmoved)
    · rw [deliveredWord_outside v _ (by omega)]
      exact ⟨.inr, fun h => h.resolve_left (by omega)⟩
  simp only [if_neg hsingle]
  generalize hplace : index - 12 - v.blockSize / 4 = place
  have hplace_lt : place < v.blockSize / 4 * (v.blockSize / 4) := by omega
  have hfirst : place / (v.blockSize / 4) < v.blockSize / 4 :=
    Nat.div_lt_of_lt_mul hplace_lt
  have hsecond : place % (v.blockSize / 4) < v.blockSize / 4 :=
    Nat.mod_lt _ (by omega)
  by_cases hsmall : v.blockSize ≤ 131072
  · simp only [if_pos hsmall, if_pos hplace_lt]
    rw [deliveredWord_inside v (inode.block 13) (by omega)]
    generalize hmiddle : v.blockWord (inode.block 13)
      (place / (v.blockSize / 4)) = middle
    rw [deliveredWord_inside v middle (by omega)]
    simp only [List.mem_cons, List.not_mem_nil, or_false, forall_eq_or_imp,
      forall_eq]
    constructor
    · rintro ⟨-, hpointer, hinner⟩
      exact ⟨hpointer.1, hinner.1⟩
    · rintro ⟨hpointer, hinner⟩
      refine ⟨by simp [hpointer, hinner], ⟨hpointer, .inr (.inl rfl)⟩,
        hinner, .inr (.inr ⟨hpointer, _, hfirst, hmiddle.symm⟩)⟩
  · simp only [if_neg hsmall, Nat.not_lt_zero, if_false, if_pos hplace_lt,
      List.not_mem_nil, IsEmpty.forall_iff, implies_true, and_true]
    by_cases hpointer : inode.block 13 = 0
    · simp [hpointer]
    simp only [hpointer, if_false, false_or]
    by_cases hmiddle : v.blockWord (inode.block 13)
        (place / (v.blockSize / 4)) = 0
    · simp [hmiddle]
    · simp only [hmiddle, if_false, false_or]
      exact eq_comm

def bootCode : Volume where
  toGeometry := smallGeometry
  disk := ofWords [(0, 7)]
  garbage := fun _ => 0

theorem followsMap_iff_bootCode :
    FollowsMap bootCode (Inode.zero.setBlock 12 3) 12 :=
  (followsMap_iff bootCode (Inode.zero.setBlock 12 3) 12 (by decide)).2
    (by decide +kernel)

/-- A file without indirect blocks: the boot code is taken for the pointer to
its block 12. -/
theorem blockFromInode_hole :
    logicalBlock bootCode Inode.zero 12 = 0 ∧
      ¬FollowsMap bootCode Inode.zero 12 := by
  have hformat : logicalBlock bootCode Inode.zero 12 = 0 := by
    decide +kernel
  have hdriver : driverBlock bootCode Inode.zero 12 = 7 := by
    decide +kernel
  refine ⟨hformat, fun h => ?_⟩
  have hsame := h.1
  rw [blockFromInode_eq, Except.ok.injEq, hformat, hdriver] at hsame
  exact absurd hsame (by decide)

end ClOs.Ext3
