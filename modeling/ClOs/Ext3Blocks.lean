import ClOs.Ext3Model

/-!
# Blocks of an ext3 volume

Where a block lies on the drive, what `fetch` reads and what `writeBlock`
changes.  One command moves 128 KiB at most, so most of it is about blocks of up
to that size; the largest the format knows have 64 KiB.
-/

namespace ClOs.Ext3

open ByteStore

theorem Geometry.sectors_mul (g : Geometry) :
    512 * (g.blockSize / 512) = g.blockSize := by
  obtain ⟨shift, -, hsize⟩ := g.blockSize_eq
  omega

theorem Geometry.blockSize_ge (g : Geometry) : 1024 ≤ g.blockSize := by
  obtain ⟨shift, -, hsize⟩ := g.blockSize_eq
  have hpow := Nat.one_le_two_pow (n := shift)
  omega

theorem Geometry.blockSize_pos (g : Geometry) : 0 < g.blockSize := by
  have h := g.blockSize_ge
  omega

/-- Places inside one block or one group. -/
theorem div_of_place
    {size index place : ℕ} (hplace : place < size) :
    (index * size + place) / size = index ∧
      (index * size + place) % size = place := by
  have hpos : 0 < size := by omega
  rw [Nat.mul_comm]
  exact ⟨by rw [Nat.mul_add_div hpos, Nat.div_eq_of_lt hplace, Nat.add_zero],
    by rw [Nat.mul_add_mod, Nat.mod_eq_of_lt hplace]⟩

/-- The byte address of a block on the drive. -/
def Volume.blockBase (v : Volume) (block : ℕ) : ℕ :=
  sectorBase (blockToLba v block)

/-- One command moves 256 sectors at most. -/
theorem Volume.transfer_eq_min (v : Volume) :
    v.transfer = min v.blockSize 131072 := by
  obtain ⟨shift, hshift, hsize⟩ := v.blockSize_eq
  rcases Nat.lt_or_ge shift 8 with hsmall | hlarge
  · have hpow : 2 ^ shift ≤ 2 ^ 7 := Nat.pow_le_pow_right (by norm_num) (by omega)
    unfold Volume.transfer
    rw [sectorsMoved_of_le (by omega), v.sectors_mul]
    omega
  · obtain ⟨extra, rfl⟩ := Nat.exists_eq_add_of_le hlarge
    have hpos := Nat.one_le_two_pow (n := extra)
    rw [pow_add] at hsize
    unfold Volume.transfer sectorsMoved
    omega

theorem Volume.transfer_eq (v : Volume) (hsize : v.blockSize ≤ 131072) :
    v.transfer = v.blockSize := by
  rw [v.transfer_eq_min]
  exact Nat.min_eq_left hsize

theorem Volume.transfer_le (v : Volume) : v.transfer ≤ v.blockSize := by
  have hmoved := sectorsMoved_le (v.blockSize / 512)
  have hsectors := v.sectors_mul
  unfold Volume.transfer
  omega

@[simp] theorem fetch_size (v : Volume) (block : ℕ) :
    (fetch v block).size = v.blockSize := rfl

theorem fetch_apply
    (v : Volume) (block : ℕ) {k : ℕ}
    (hsize : v.blockSize ≤ 131072)
    (hk : k < v.blockSize) :
    (fetch v block).bytes k = v.disk (v.blockBase block + k) := by
  have hinside : k < 0 + v.transfer := by
    rw [v.transfer_eq hsize]
    omega
  simp only [fetch]
  rw [blit_inside _ _ (Nat.zero_le k) hinside]
  rfl

theorem fetch_agreeOn
    (v : Volume) (block : ℕ)
    (hsize : v.blockSize ≤ 131072) :
    (fetch v block).bytes.AgreeOn (v.disk.drop (v.blockBase block))
      0 v.blockSize := by
  intro k _ hk
  exact fetch_apply v block hsize hk

theorem fetch_le32
    (v : Volume) (block : ℕ) {k : ℕ}
    (hsize : v.blockSize ≤ 131072)
    (hk : k + 4 ≤ v.blockSize) :
    (fetch v block).bytes.le32 k = v.disk.le32 (v.blockBase block + k) := by
  rw [(fetch_agreeOn v block hsize).le32_eq k (Nat.zero_le k) hk, drop_le32]

theorem fetch_get32
    (v : Volume) (block : ℕ) {k : ℕ}
    (hsize : v.blockSize ≤ 131072)
    (hk : k + 4 ≤ v.blockSize) :
    (fetch v block).get32 k =
      .ok (v.disk.le32 (v.blockBase block + k)) :=
  Buffer.get32_eq_ok.2 ⟨hk, fetch_le32 v block hsize hk⟩

@[simp] theorem writeBlock_disk
    (v : Volume) (block : ℕ) (bytes : ByteStore) :
    (writeBlock v block bytes).disk =
      v.disk.blit (v.blockBase block) bytes v.transfer := by
  simp [writeBlock, writeSectors, Volume.blockBase, Volume.transfer]

@[simp] theorem writeBlock_toGeometry
    (v : Volume) (block : ℕ) (bytes : ByteStore) :
    (writeBlock v block bytes).toGeometry = v.toGeometry := by
  simp [writeBlock]

@[simp] theorem writeBlock_garbage
    (v : Volume) (block : ℕ) (bytes : ByteStore) :
    (writeBlock v block bytes).garbage = v.garbage := by
  simp [writeBlock]

/-! ## Single bits of a block -/

theorem blit_update
    (disk source : ByteStore) (base : ℕ) {count j : ℕ} (value : UInt8)
    (hsource : source.AgreeOn (disk.drop base) 0 count)
    (hj : j < count) :
    disk.blit base (Function.update source j value) count =
      Function.update disk (base + j) value := by
  funext k
  by_cases hk : base ≤ k ∧ k < base + count
  · rw [blit_inside _ _ hk.1 hk.2]
    by_cases hkj : k = base + j
    · subst hkj
      simp
    · rw [Function.update_of_ne hkj, Function.update_of_ne (by omega),
        hsource (k - base) (Nat.zero_le _) (by omega), drop_apply,
        Nat.add_sub_cancel' hk.1]
  · rw [blit_outside _ _ (by omega), Function.update_of_ne (by omega)]

theorem fetch_bit
    (v : Volume) (block : ℕ) {i : ℕ}
    (hsize : v.blockSize ≤ 131072)
    (hi : i < 8 * v.blockSize) :
    (fetch v block).bytes.bit i =
      v.disk.bit (8 * v.blockBase block + i) := by
  have hbyte : (8 * v.blockBase block + i) / 8 =
      v.blockBase block + i / 8 := by omega
  have hmod : (8 * v.blockBase block + i) % 8 = i % 8 := by omega
  rw [bit, bit, fetch_apply v block hsize (by omega), hbyte, hmod]

theorem writeBlock_setBit
    (v : Volume) (block : ℕ) {i : ℕ}
    (hsize : v.blockSize ≤ 131072)
    (hi : i < 8 * v.blockSize) :
    (writeBlock v block ((fetch v block).bytes.setBit i)).disk =
      v.disk.setBit (8 * v.blockBase block + i) := by
  have hbyte : (8 * v.blockBase block + i) / 8 =
      v.blockBase block + i / 8 := by omega
  have hmod : (8 * v.blockBase block + i) % 8 = i % 8 := by omega
  rw [writeBlock_disk, v.transfer_eq hsize, setBit,
    blit_update _ _ _ _ (fetch_agreeOn v block hsize) (by omega),
    fetch_apply v block hsize (by omega), setBit, hbyte, hmod]

theorem writeBlock_clearBit
    (v : Volume) (block : ℕ) {i : ℕ}
    (hsize : v.blockSize ≤ 131072)
    (hi : i < 8 * v.blockSize) :
    (writeBlock v block ((fetch v block).bytes.clearBit i)).disk =
      v.disk.clearBit (8 * v.blockBase block + i) := by
  have hbyte : (8 * v.blockBase block + i) / 8 =
      v.blockBase block + i / 8 := by omega
  have hmod : (8 * v.blockBase block + i) % 8 = i % 8 := by omega
  rw [writeBlock_disk, v.transfer_eq hsize, clearBit,
    blit_update _ _ _ _ (fetch_agreeOn v block hsize) (by omega),
    fetch_apply v block hsize (by omega), clearBit, hbyte, hmod]

theorem Volume.blockSize_dvd_blockBase (v : Volume) (block : ℕ) :
    v.blockSize ∣ v.blockBase block := by
  obtain ⟨shift, hshift, hsize⟩ := v.blockSize_eq
  have hpow : 2 ^ (shift + 1) ∣ 268435456 := by
    have h28 : (268435456 : ℕ) = 2 ^ 28 := by norm_num
    rw [h28]
    exact Nat.pow_dvd_pow 2 (by omega)
  have hsectors : v.blockSize / 512 = 2 ^ (shift + 1) := by
    rw [hsize, pow_succ]
    omega
  have hlba : 2 ^ (shift + 1) ∣ blockToLba v block := by
    unfold blockToLba
    rw [hsectors]
    generalize u32 (partitionOffset + block) = number
    unfold u32
    have h32 : 2 ^ (shift + 1) ∣ 4294967296 := by
      have hbig : (4294967296 : ℕ) = 268435456 * 16 := by norm_num
      rw [hbig]
      exact hpow.mul_right 16
    exact (Nat.dvd_mod_iff h32).2 (Nat.dvd_mul_left _ _)
  unfold Volume.blockBase sectorBase
  rw [← v.sectors_mul, hsectors]
  exact Nat.mul_dvd_mul_left 512 ((Nat.dvd_mod_iff hpow).2 hlba)

/-- Two bits of the drive, each given by its block and its place there. -/
theorem Volume.bitAddress_inj
    (v : Volume) {block other i j : ℕ}
    (hi : i < 8 * v.blockSize)
    (hj : j < 8 * v.blockSize)
    (h : 8 * v.blockBase block + i = 8 * v.blockBase other + j) :
    v.blockBase block = v.blockBase other ∧ i = j := by
  obtain ⟨m, hm⟩ := v.blockSize_dvd_blockBase block
  obtain ⟨n, hn⟩ := v.blockSize_dvd_blockBase other
  have hpos := v.blockSize_pos
  have hmn : m = n := by
    have hleft : (8 * v.blockBase block + i) / (8 * v.blockSize) = m := by
      rw [hm, ← Nat.mul_assoc, Nat.mul_add_div (by omega),
        Nat.div_eq_of_lt hi, Nat.add_zero]
    have hright : (8 * v.blockBase other + j) / (8 * v.blockSize) = n := by
      rw [hn, ← Nat.mul_assoc, Nat.mul_add_div (by omega),
        Nat.div_eq_of_lt hj, Nat.add_zero]
    rw [← hleft, h, hright]
  subst hmn
  omega

end ClOs.Ext3
