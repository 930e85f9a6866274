import ClOs.PageFrames

/-!
# Sectors and kernel buffers

`read_sectors` and `write_sectors` move whole sectors between the drive and a
buffer.  The drive answers every command here; the ports and the time-outs of
`disk.c` are the matter of `AtaTransfers`.  A buffer carries its size, and a
transfer or a load that leaves it is reported as a halt.
-/

namespace ClOs

/-- Only 28 bits of a sector number reach the drive. -/
def sectorBase (lba : ℕ) : ℕ := 512 * (lba % 268435456)

/-- The sector-count register holds 8 bits, and `0` stands for 256. -/
def sectorsMoved (count : ℕ) : ℕ := min count ((count + 255) % 256 + 1)

theorem sectorsMoved_le (count : ℕ) : sectorsMoved count ≤ count :=
  Nat.min_le_left _ _

theorem sectorsMoved_of_le {count : ℕ} (hcount : count ≤ 256) :
    sectorsMoved count = count := by
  unfold sectorsMoved
  omega

namespace ByteStore

def drop (store : ByteStore) (address : ℕ) : ByteStore :=
  fun k => store (address + k)

@[simp] theorem drop_apply (store : ByteStore) (address k : ℕ) :
    store.drop address k = store (address + k) := rfl

theorem drop_le32 (store : ByteStore) (address k : ℕ) :
    (store.drop address).le32 k = store.le32 (address + k) := by
  simp [le32, Nat.add_assoc]

/-- The store that is 0 outside a list of aligned words. -/
def ofWords (words : List (ℕ × ℕ)) : ByteStore := fun k =>
  match words.lookup (k / 4 * 4) with
  | some value => byteOf value (k % 4)
  | none => 0

theorem ofWords_le32 (words : List (ℕ × ℕ)) (k : ℕ) :
    (ofWords words).le32 (4 * k) = u32 ((words.lookup (4 * k)).getD 0) := by
  have hbyte : ∀ i < 4, ofWords words (4 * k + i) =
      byteOf ((words.lookup (4 * k)).getD 0) i := by
    intro i hi
    unfold ofWords
    rw [show (4 * k + i) / 4 * 4 = 4 * k by omega,
      show (4 * k + i) % 4 = i by omega]
    cases words.lookup (4 * k) with
    | none => simp [byteOf]
    | some value => rfl
  exact le32_byteOf _ _ _ (hbyte 0 (by norm_num)) (hbyte 1 (by norm_num))
    (hbyte 2 (by norm_num)) (hbyte 3 (by norm_num))

end ByteStore

/-- The bytes that `read_sectors` delivers. -/
def readSectors (disk : ByteStore) (lba : ℕ) : ByteStore :=
  disk.drop (sectorBase lba)

def writeSectors (disk : ByteStore) (lba count : ℕ) (source : ByteStore) :
    ByteStore :=
  disk.blit (sectorBase lba) source (512 * sectorsMoved count)

/-- A block of memory returned by `kmalloc`. -/
structure Buffer where
  size : ℕ
  bytes : ByteStore

namespace Buffer

/-- Reading or writing `count` bytes at an offset. -/
def check (buffer : Buffer) (offset count : ℕ) : Outcome Unit :=
  if offset + count ≤ buffer.size then .ok () else .error .outOfBounds

def get8 (buffer : Buffer) (offset : ℕ) : Outcome ℕ := do
  buffer.check offset 1
  return (buffer.bytes offset).toNat

def get16 (buffer : Buffer) (offset : ℕ) : Outcome ℕ := do
  buffer.check offset 2
  return buffer.bytes.le16 offset

def get32 (buffer : Buffer) (offset : ℕ) : Outcome ℕ := do
  buffer.check offset 4
  return buffer.bytes.le32 offset

/-- The source operand of a copy out of the buffer. -/
def slice (buffer : Buffer) (offset count : ℕ) : Outcome ByteStore := do
  buffer.check offset count
  return buffer.bytes.drop offset

def load (buffer : Buffer) (offset : ℕ) (source : ByteStore) (count : ℕ) :
    Outcome Buffer := do
  buffer.check offset count
  return { buffer with bytes := buffer.bytes.blit offset source count }

theorem check_eq_ok {buffer : Buffer} {offset count : ℕ} {result : Unit} :
    buffer.check offset count = .ok result ↔
      offset + count ≤ buffer.size := by
  unfold check
  split_ifs with h <;> simp [h]

theorem check_of_le {buffer : Buffer} {offset count : ℕ}
    (h : offset + count ≤ buffer.size) :
    buffer.check offset count = .ok () :=
  check_eq_ok.2 h

theorem get8_eq_ok {buffer : Buffer} {offset value : ℕ} :
    buffer.get8 offset = .ok value ↔
      offset + 1 ≤ buffer.size ∧ (buffer.bytes offset).toNat = value := by
  simp [get8, Outcome.bind_eq_ok, check_eq_ok, pure, Except.pure]

theorem get16_eq_ok {buffer : Buffer} {offset value : ℕ} :
    buffer.get16 offset = .ok value ↔
      offset + 2 ≤ buffer.size ∧ buffer.bytes.le16 offset = value := by
  simp [get16, Outcome.bind_eq_ok, check_eq_ok, pure, Except.pure]

theorem get32_eq_ok {buffer : Buffer} {offset value : ℕ} :
    buffer.get32 offset = .ok value ↔
      offset + 4 ≤ buffer.size ∧ buffer.bytes.le32 offset = value := by
  simp [get32, Outcome.bind_eq_ok, check_eq_ok, pure, Except.pure]

theorem slice_eq_ok {buffer : Buffer} {offset count : ℕ} {bytes : ByteStore} :
    buffer.slice offset count = .ok bytes ↔
      offset + count ≤ buffer.size ∧ buffer.bytes.drop offset = bytes := by
  simp [slice, Outcome.bind_eq_ok, check_eq_ok, pure, Except.pure]

theorem load_eq_ok {buffer next : Buffer} {offset count : ℕ}
    {source : ByteStore} :
    buffer.load offset source count = .ok next ↔
      offset + count ≤ buffer.size ∧
        { buffer with bytes := buffer.bytes.blit offset source count } =
          next := by
  simp [load, Outcome.bind_eq_ok, check_eq_ok, pure, Except.pure]

end Buffer

end ClOs
