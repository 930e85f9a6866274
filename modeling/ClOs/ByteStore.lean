import Mathlib.Tactic

/-!
# Byte stores

A byte store is a total map from addresses to bytes.  Physical memory, a disk
and a buffer are all byte stores.  This file gives the little-endian 16- and
32-bit views of a store, block copies, and the rules by which a write is seen
at its own address and not seen anywhere else.
-/

namespace ClOs

abbrev ByteStore := ℕ → UInt8

/-- The value of an unsigned 32-bit computation. -/
@[irreducible] def u32 (n : ℕ) : ℕ := n % 4294967296

theorem u32_lt (n : ℕ) : u32 n < 4294967296 := by
  unfold u32
  exact Nat.mod_lt _ (by norm_num)

theorem u32_of_lt {n : ℕ} (hn : n < 4294967296) : u32 n = n := by
  unfold u32
  exact Nat.mod_eq_of_lt hn

/-- Unsigned 32-bit subtraction. -/
@[irreducible] def sub32 (a b : ℕ) : ℕ := u32 (4294967296 - u32 b + a)

theorem sub32_of_le {a b : ℕ} (hba : b ≤ a) (ha : a < 4294967296) :
    sub32 a b = a - b := by
  unfold sub32 u32
  omega

/-- Byte number `i` of a little-endian value. -/
def byteOf (value i : ℕ) : UInt8 := UInt8.ofNat (value / 256 ^ i)

theorem byteOf_toNat (value i : ℕ) :
    (byteOf value i).toNat = value / 256 ^ i % 256 := by
  simp [byteOf]

namespace ByteStore

/-- The little-endian 16-bit value at an address. -/
def le16 (store : ByteStore) (address : ℕ) : ℕ :=
  (store address).toNat + 256 * (store (address + 1)).toNat

/-- The little-endian 32-bit value at an address. -/
def le32 (store : ByteStore) (address : ℕ) : ℕ :=
  (store address).toNat + 256 * (store (address + 1)).toNat +
    65536 * (store (address + 2)).toNat +
      16777216 * (store (address + 3)).toNat

/-- Overwrite `count` bytes from `address` by the first bytes of `source`. -/
def blit (store : ByteStore) (address : ℕ) (source : ByteStore)
    (count : ℕ) : ByteStore :=
  fun k =>
    if address ≤ k ∧ k < address + count then source (k - address)
    else store k

def put8 (store : ByteStore) (address value : ℕ) : ByteStore :=
  store.blit address (byteOf value) 1

def put16 (store : ByteStore) (address value : ℕ) : ByteStore :=
  store.blit address (byteOf value) 2

def put32 (store : ByteStore) (address value : ℕ) : ByteStore :=
  store.blit address (byteOf value) 4

/-- Two stores hold the same bytes on `[low, high)`. -/
def AgreeOn (s t : ByteStore) (low high : ℕ) : Prop :=
  ∀ k, low ≤ k → k < high → s k = t k

theorem le16_lt (store : ByteStore) (address : ℕ) :
    store.le16 address < 65536 := by
  have h0 := (store address).toNat_lt
  have h1 := (store (address + 1)).toNat_lt
  unfold le16
  omega

theorem le32_lt (store : ByteStore) (address : ℕ) :
    store.le32 address < 4294967296 := by
  have h0 := (store address).toNat_lt
  have h1 := (store (address + 1)).toNat_lt
  have h2 := (store (address + 2)).toNat_lt
  have h3 := (store (address + 3)).toNat_lt
  unfold le32
  omega

/-! ## Copies -/

theorem blit_inside
    (store source : ByteStore) {address count k : ℕ}
    (hlow : address ≤ k) (hhigh : k < address + count) :
    store.blit address source count k = source (k - address) := by
  simp [blit, hlow, hhigh]

theorem blit_outside
    (store source : ByteStore) {address count k : ℕ}
    (hk : k < address ∨ address + count ≤ k) :
    store.blit address source count k = store k := by
  have hnot : ¬(address ≤ k ∧ k < address + count) := by omega
  simp [blit, hnot]

theorem blit_congr
    (store : ByteStore) {first second : ByteStore} {address count : ℕ}
    (h : ∀ k < count, first k = second k) :
    store.blit address first count = store.blit address second count := by
  funext k
  by_cases hk : address ≤ k ∧ k < address + count
  · rw [blit_inside _ _ hk.1 hk.2, blit_inside _ _ hk.1 hk.2]
    exact h _ (by omega)
  · rw [blit_outside _ _ (by omega), blit_outside _ _ (by omega)]

/-! ## Agreement -/

theorem AgreeOn.refl (s : ByteStore) (low high : ℕ) : s.AgreeOn s low high :=
  fun _ _ _ => rfl

theorem AgreeOn.symm {s t : ByteStore} {low high : ℕ}
    (h : s.AgreeOn t low high) : t.AgreeOn s low high :=
  fun k hlow hhigh => (h k hlow hhigh).symm

theorem AgreeOn.trans {s t r : ByteStore} {low high : ℕ}
    (hst : s.AgreeOn t low high) (htr : t.AgreeOn r low high) :
    s.AgreeOn r low high :=
  fun k hlow hhigh => (hst k hlow hhigh).trans (htr k hlow hhigh)

theorem AgreeOn.mono {s t : ByteStore} {low high low' high' : ℕ}
    (h : s.AgreeOn t low high) (hlow : low ≤ low') (hhigh : high' ≤ high) :
    s.AgreeOn t low' high' :=
  fun k hk hk' => h k (hlow.trans hk) (hk'.trans_le hhigh)

theorem blit_agreeOn
    (store source : ByteStore) {address count low high : ℕ}
    (h : high ≤ address ∨ address + count ≤ low) :
    (store.blit address source count).AgreeOn store low high := by
  intro k hlow hhigh
  exact blit_outside store source (by omega)

theorem AgreeOn.le16_eq {s t : ByteStore} {low high : ℕ}
    (h : s.AgreeOn t low high) (address : ℕ)
    (hlow : low ≤ address) (hhigh : address + 2 ≤ high) :
    s.le16 address = t.le16 address := by
  unfold le16
  rw [h address hlow (by omega), h (address + 1) (by omega) (by omega)]

theorem AgreeOn.le32_eq {s t : ByteStore} {low high : ℕ}
    (h : s.AgreeOn t low high) (address : ℕ)
    (hlow : low ≤ address) (hhigh : address + 4 ≤ high) :
    s.le32 address = t.le32 address := by
  unfold le32
  rw [h address hlow (by omega), h (address + 1) (by omega) (by omega),
    h (address + 2) (by omega) (by omega),
    h (address + 3) (by omega) (by omega)]

/-! ## Reading back a write -/

theorem put8_same (store : ByteStore) (address value : ℕ) :
    store.put8 address value address = UInt8.ofNat value := by
  unfold put8
  rw [blit_inside store _ le_rfl (by omega)]
  simp [byteOf]

theorem le16_byteOf (source : ByteStore) (value address : ℕ)
    (h0 : source address = byteOf value 0)
    (h1 : source (address + 1) = byteOf value 1) :
    source.le16 address = value % 65536 := by
  unfold le16
  rw [h0, h1]
  simp only [byteOf_toNat]
  omega

theorem le32_byteOf (source : ByteStore) (value address : ℕ)
    (h0 : source address = byteOf value 0)
    (h1 : source (address + 1) = byteOf value 1)
    (h2 : source (address + 2) = byteOf value 2)
    (h3 : source (address + 3) = byteOf value 3) :
    source.le32 address = u32 value := by
  unfold le32 u32
  rw [h0, h1, h2, h3]
  simp only [byteOf_toNat]
  omega

theorem blit_add
    (store source : ByteStore) (address : ℕ) {count i : ℕ}
    (hi : i < count) :
    store.blit address source count (address + i) = source i := by
  rw [blit_inside store source (by omega) (by omega),
    Nat.add_sub_cancel_left]

@[simp] theorem le16_put16_same (store : ByteStore) (address value : ℕ) :
    (store.put16 address value).le16 address = value % 65536 := by
  apply le16_byteOf
  · exact blit_add store _ address (i := 0) (by omega)
  · exact blit_add store _ address (i := 1) (by omega)

@[simp] theorem le32_put32_same (store : ByteStore) (address value : ℕ) :
    (store.put32 address value).le32 address = u32 value := by
  apply le32_byteOf
  · exact blit_add store _ address (i := 0) (by omega)
  · exact blit_add store _ address (i := 1) (by omega)
  · exact blit_add store _ address (i := 2) (by omega)
  · exact blit_add store _ address (i := 3) (by omega)

theorem put8_apply_of_ne (store : ByteStore) {address value k : ℕ}
    (hk : k ≠ address) : store.put8 address value k = store k := by
  apply blit_outside
  omega

theorem put16_outside (store : ByteStore) {address value k : ℕ}
    (hk : k < address ∨ address + 2 ≤ k) :
    store.put16 address value k = store k :=
  blit_outside _ _ hk

theorem put32_outside (store : ByteStore) {address value k : ℕ}
    (hk : k < address ∨ address + 4 ≤ k) :
    store.put32 address value k = store k :=
  blit_outside _ _ hk

theorem le32_blit_outside
    (store source : ByteStore) (other : ℕ) {address count : ℕ}
    (h : other + 4 ≤ address ∨ address + count ≤ other) :
    (store.blit address source count).le32 other = store.le32 other :=
  (blit_agreeOn store source h).le32_eq other le_rfl le_rfl

theorem le32_put32_of_disjoint
    (store : ByteStore) (other : ℕ) {address value : ℕ}
    (h : other + 4 ≤ address ∨ address + 4 ≤ other) :
    (store.put32 address value).le32 other = store.le32 other :=
  le32_blit_outside _ _ other h

theorem le32_put8_of_disjoint
    (store : ByteStore) (other : ℕ) {address value : ℕ}
    (h : other + 4 ≤ address ∨ address + 1 ≤ other) :
    (store.put8 address value).le32 other = store.le32 other :=
  le32_blit_outside _ _ other h

/-! ## Bitmaps -/

/-- Bit `index` of a bitmap, in the order `byte = index / 8`,
`bit = index % 8`. -/
def bit (store : ByteStore) (index : ℕ) : Bool :=
  (store (index / 8)).toNat.testBit (index % 8)

def setBit (store : ByteStore) (index : ℕ) : ByteStore :=
  Function.update store (index / 8)
    (store (index / 8) ||| UInt8.ofNat (2 ^ (index % 8)))

def clearBit (store : ByteStore) (index : ℕ) : ByteStore :=
  Function.update store (index / 8)
    (store (index / 8) &&& ~~~ UInt8.ofNat (2 ^ (index % 8)))

theorem testBit_or_two_pow (x : UInt8) {i j : ℕ} (hi : i < 8) :
    (x ||| UInt8.ofNat (2 ^ i)).toNat.testBit j =
      (x.toNat.testBit j || decide (i = j)) := by
  have hpow : 2 ^ i < 256 :=
    lt_of_lt_of_eq (Nat.pow_lt_pow_right (by norm_num) hi) (by norm_num)
  rw [UInt8.toNat_or, Nat.testBit_or, UInt8.toNat_ofNat',
    Nat.mod_eq_of_lt hpow, Nat.testBit_two_pow]

theorem testBit_and_not_two_pow (x : UInt8) {i j : ℕ}
    (hi : i < 8) (hj : j < 8) :
    (x &&& ~~~ UInt8.ofNat (2 ^ i)).toNat.testBit j =
      (x.toNat.testBit j && !decide (i = j)) := by
  have hpow : 2 ^ i < 256 :=
    lt_of_lt_of_eq (Nat.pow_lt_pow_right (by norm_num) hi) (by norm_num)
  have hnot : (~~~ UInt8.ofNat (2 ^ i)).toNat = 2 ^ 8 - (2 ^ i + 1) := by
    rw [UInt8.toNat_not, UInt8.toNat_ofNat', Nat.mod_eq_of_lt hpow]
    have hsize : UInt8.size = 256 := rfl
    omega
  rw [UInt8.toNat_and, Nat.testBit_and, hnot,
    Nat.testBit_two_pow_sub_succ (by simpa using hpow),
    Nat.testBit_two_pow]
  simp [hj]

theorem bit_setBit (store : ByteStore) (index other : ℕ) :
    (store.setBit index).bit other =
      (store.bit other || decide (index = other)) := by
  unfold bit setBit
  by_cases hbyte : other / 8 = index / 8
  · have hsame : (index % 8 = other % 8) = (index = other) := by
      apply propext
      omega
    rw [hbyte, Function.update_self,
      testBit_or_two_pow _ (Nat.mod_lt _ (by norm_num))]
    simp only [hsame]
  · have hne : index ≠ other := by
      rintro rfl
      exact hbyte rfl
    rw [Function.update_of_ne hbyte]
    simp [hne]

theorem bit_clearBit (store : ByteStore) (index other : ℕ) :
    (store.clearBit index).bit other =
      (store.bit other && !decide (index = other)) := by
  unfold bit clearBit
  by_cases hbyte : other / 8 = index / 8
  · have hsame : (index % 8 = other % 8) = (index = other) := by
      apply propext
      omega
    rw [hbyte, Function.update_self,
      testBit_and_not_two_pow _ (Nat.mod_lt _ (by norm_num))
        (Nat.mod_lt _ (by norm_num))]
    simp only [hsame]
  · have hne : index ≠ other := by
      rintro rfl
      exact hbyte rfl
    rw [Function.update_of_ne hbyte]
    simp [hne]

end ByteStore

end ClOs
