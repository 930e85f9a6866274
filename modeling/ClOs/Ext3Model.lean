import ClOs.Disk
import ClOs.Paths

/-!
# The ext3 driver

The functions of `ext3.c` over a mounted volume.  A volume is what `init_ext3`
leaves behind, so the tests of `ext3_initialized` are part of its type.
`last_allocated_block` is left out: it is set and never used.  Every buffer
access is checked, and the walk over a directory halts as endless when it
comes back to an offset it has seen.
-/

namespace ClOs.Ext3

open ByteStore

/-- The numbers `init_ext3` takes from the superblock. -/
structure Geometry where
  blockSize : ℕ
  inodeSize : ℕ
  inodesPerGroup : ℕ
  blocksPerGroup : ℕ
  groupCount : ℕ
  firstDataBlock : ℕ
  blockSize_eq : ∃ shift < 22, blockSize = 1024 * 2 ^ shift
  inodesPerGroup_pos : 0 < inodesPerGroup
  blocksPerGroup_pos : 0 < blocksPerGroup

/-- A mounted volume.  `garbage` is what uninitialised memory holds. -/
structure Volume extends Geometry where
  disk : ByteStore
  garbage : ByteStore

/-- `init_ext3`.  Dividing by `blocks_per_group = 0` is a CPU exception. -/
def initExt3 (disk garbage : ByteStore) : Outcome (Option Volume) :=
  let superblock := readSectors disk 2
  if superblock.le16 56 ≠ 0xEF53 then .ok none
  else if hblocks : superblock.le32 32 = 0 then .error .kernelPanic
  else if hvalid : superblock.le32 40 = 0 ∨ 22 ≤ superblock.le32 24 % 32 then
    .ok none
  else
    .ok (some {
      blockSize := 1024 * 2 ^ (superblock.le32 24 % 32)
      inodeSize := superblock.le16 88
      inodesPerGroup := superblock.le32 40
      blocksPerGroup := superblock.le32 32
      groupCount := superblock.le32 4 / superblock.le32 32
      firstDataBlock := superblock.le32 20
      blockSize_eq := ⟨_, by omega, rfl⟩
      inodesPerGroup_pos := by omega
      blocksPerGroup_pos := by omega
      disk := disk
      garbage := garbage })

def partitionOffset : ℕ := 0

def blockToLba (v : Volume) (block : ℕ) : ℕ :=
  u32 (u32 (partitionOffset + block) * (v.blockSize / 512))

/-- The number of bytes that reading or writing one block moves. -/
def Volume.transfer (v : Volume) : ℕ :=
  512 * sectorsMoved (v.blockSize / 512)

/-- `kmalloc(block_size)` filled by `read_sectors`. -/
def fetch (v : Volume) (block : ℕ) : Buffer where
  size := v.blockSize
  bytes := v.garbage.blit 0 (readSectors v.disk (blockToLba v block)) v.transfer

def writeBlock (v : Volume) (block : ℕ) (bytes : ByteStore) : Volume :=
  { v with
    disk := writeSectors v.disk (blockToLba v block) (v.blockSize / 512) bytes }

/-- `kmalloc`, which returns `NULL` for size 0 only. -/
def kmalloc (v : Volume) (size : ℕ) : Option Buffer :=
  if size = 0 then none else some { size := size, bytes := v.garbage }

/-! ## Inodes -/

/-- The bytes of an `EXT3_INODE_T`. -/
abbrev Inode := ByteStore

namespace Inode

def sizeOf : ℕ := 128

def mode (inode : Inode) : ℕ := inode.le16 0
def size (inode : Inode) : ℕ := inode.le32 4
def blocks (inode : Inode) : ℕ := inode.le32 28
def block (inode : Inode) (k : ℕ) : ℕ := inode.le32 (40 + 4 * k)

def setMode (inode : Inode) (value : ℕ) : Inode := inode.put16 0 value
def setSize (inode : Inode) (value : ℕ) : Inode := inode.put32 4 value
def setLinksCount (inode : Inode) (value : ℕ) : Inode := inode.put16 26 value
def setBlocks (inode : Inode) (value : ℕ) : Inode := inode.put32 28 value
def setBlock (inode : Inode) (k value : ℕ) : Inode :=
  inode.put32 (40 + 4 * k) value

def zero : Inode := fun _ => 0

def isDirectory (inode : Inode) : Bool := inode.mode &&& 0x4000 ≠ 0

/-- The test `inode.mode & 0xA000` by which the driver knows a symlink. -/
def isLink (inode : Inode) : Bool := inode.mode &&& 0xA000 ≠ 0

/-- The direct blocks up to the first that is 0. -/
def directBlocks (inode : Inode) : List ℕ :=
  ((List.range 12).map inode.block).takeWhile (· ≠ 0)

end Inode

def inodeToBlock (v : Volume) (inode : ℕ) : Outcome ℕ := do
  let group := sub32 inode 1 / v.inodesPerGroup
  let index := sub32 inode 1 % v.inodesPerGroup
  let table ← (fetch v 2).get32 (u32 (group * 32) + 8)
  return u32 (table + u32 (index * v.inodeSize) / v.blockSize)

def inodeOffset (v : Volume) (inode : ℕ) : ℕ :=
  u32 (sub32 inode 1 % v.inodesPerGroup * v.inodeSize) % v.blockSize

/-- `read_inode` into an uninitialised variable. -/
def readInode (v : Volume) (inode : ℕ) : Outcome Inode := do
  let block ← inodeToBlock v inode
  if block = 0 then return v.garbage
  else
    let record ← (fetch v block).slice (inodeOffset v inode) v.inodeSize
    if Inode.sizeOf < v.inodeSize then .error .outOfBounds
    else return v.garbage.blit 0 record v.inodeSize

def writeInode (v : Volume) (inode : ℕ) (source : Inode) : Outcome Volume := do
  let block ← inodeToBlock v inode
  if block = 0 then return v
  else if Inode.sizeOf < v.inodeSize then .error .outOfBounds
  else
    let buffer ← (fetch v block).load (inodeOffset v inode) source v.inodeSize
    return writeBlock v block buffer.bytes

/-! ## Bitmaps -/

/-- The first of `count` bits from `i` on that is clear and usable. -/
def scanBitmap (buffer : Buffer) (usable : ℕ → Bool) :
    ℕ → ℕ → Outcome (Option ℕ)
  | 0, _ => return none
  | count + 1, i => do
      let byte ← buffer.get8 (i / 8)
      if byte.testBit (i % 8) || !usable i then
        scanBitmap buffer usable count (i + 1)
      else return some i

/-- The block and the offset at which the driver reads the descriptor of a
group. -/
def descriptorBlock (g : ℕ) : ℕ := u32 (2 + g * 2)

def descriptorOffset (v : Volume) (g : ℕ) : ℕ :=
  g % (v.blockSize / 32) * 32

/-- What `find_free_inode` and `find_free_block` differ in: the fields of the
descriptor, the number of bits of a group, the first bit looked at, and the
bits that may be taken. -/
structure BitSearch where
  counterField : ℕ
  bitmapField : ℕ
  perGroup : ℕ
  start : ℕ → ℕ
  usable : ℕ → ℕ → Bool

/-- The loop over `count` groups from `g` on.  The bit found is set on disk. -/
def findFreeBit (v : Volume) (search : BitSearch) :
    ℕ → ℕ → Outcome (Option (ℕ × ℕ) × Volume)
  | 0, _ => return (none, v)
  | count + 1, g => do
      let table := fetch v (descriptorBlock g)
      let free ← table.get16 (descriptorOffset v g + search.counterField)
      if free = 0 then findFreeBit v search count (g + 1)
      else
        let bitmap ← table.get32 (descriptorOffset v g + search.bitmapField)
        let buffer := fetch v bitmap
        match ← scanBitmap buffer (search.usable g)
            (search.perGroup - search.start g) (search.start g) with
        | none => findFreeBit v search count (g + 1)
        | some i =>
            return (some (g, i), writeBlock v bitmap (buffer.bytes.setBit i))

def inodeSearch (v : Volume) : BitSearch where
  counterField := 14
  bitmapField := 4
  perGroup := v.inodesPerGroup
  start g := if g = 0 then 2 else 0
  usable _ _ := true

def blockSearch (v : Volume) : BitSearch where
  counterField := 12
  bitmapField := 0
  perGroup := v.blocksPerGroup
  start g := if g = 0 then v.firstDataBlock else 0
  usable g i := v.firstDataBlock ≤ u32 (g * v.blocksPerGroup + i)

def findFreeInode (v : Volume) : Outcome (ℕ × Volume) := do
  match ← findFreeBit v (inodeSearch v) v.groupCount 0 with
  | (none, next) => return (0, next)
  | (some (g, i), next) => return (u32 (g * v.inodesPerGroup + i + 1), next)

def findFreeBlock (v : Volume) : Outcome (ℕ × Volume) := do
  match ← findFreeBit v (blockSearch v) v.groupCount 0 with
  | (none, next) => return (0, next)
  | (some (g, i), next) => return (u32 (g * v.blocksPerGroup + i), next)

def freeBlock (v : Volume) (block : ℕ) : Outcome Volume := do
  let group := block / v.blocksPerGroup
  let index := block % v.blocksPerGroup
  let bitmap ← (fetch v (descriptorBlock group)).get32
    (descriptorOffset v group)
  let buffer := fetch v bitmap
  buffer.check (index / 8) 1
  return writeBlock v bitmap (buffer.bytes.clearBit index)

def freeBlocks (v : Volume) (blocks : List ℕ) : Outcome Volume :=
  blocks.foldlM freeBlock v

/-! ## The block map -/

def blockFromInode (v : Volume) (inode : Inode) (index : ℕ) : Outcome ℕ := do
  let entries := v.blockSize / 4
  if index < 12 then return inode.block index
  else if index - 12 < entries then
    (fetch v (inode.block 12)).get32 (4 * (index - 12))
  else if index - 12 - entries < u32 (entries * entries) then
    let block ← (fetch v (inode.block 13)).get32
      (4 * ((index - 12 - entries) / entries))
    (fetch v block).get32 (4 * ((index - 12 - entries) % entries))
  else return 0

/-- The loop of `add_block_to_inode` over the next `count` slots. -/
def addBlockFrom (v : Volume) (inode : Inode) (block : ℕ) : ℕ → ℕ → Inode
  | 0, _ => inode
  | count + 1, i =>
      if inode.block i = 0 then
        (inode.setBlock i block).setBlocks
          (u32 (inode.blocks + v.blockSize / 512))
      else addBlockFrom v inode block count (i + 1)

def addBlockToInode (v : Volume) (inode : Inode) (block : ℕ) : Inode :=
  addBlockFrom v inode block 12 0

/-! ## Directories -/

def entrySizeOf : ℕ := 263

def loadBlocks (v : Volume) : List ℕ → ℕ → Buffer → Outcome Buffer
  | [], _, buffer => return buffer
  | block :: rest, i, buffer => do
      let next ← buffer.load (i * v.blockSize)
        (readSectors v.disk (blockToLba v block)) v.transfer
      loadBlocks v rest (i + 1) next

/-- `kmalloc`, `memset` and the loop that reads the direct blocks. -/
def loadDirectory (v : Volume) (inode : Inode) (size : ℕ) :
    Outcome (Option Buffer) :=
  match kmalloc v size with
  | none => return none
  | some buffer => do
      let loaded ← loadBlocks v inode.directBlocks 0
        { buffer with bytes := buffer.bytes.blit 0 (fun _ => 0) size }
      return some loaded

def entryBytes (buffer : Buffer) (offset : ℕ) : Outcome (List UInt8) := do
  let nameLen ← buffer.get8 (offset + 6)
  let name ← buffer.slice (offset + 8) nameLen
  return (List.range nameLen).map name

def entryName (buffer : Buffer) (offset : ℕ) : Outcome CString := do
  return (← entryBytes buffer offset).takeWhile (· ≠ 0)

def dotNames : List CString := [[46], [46, 46]]

/-- Step by `rec_len` from an offset.  The walk ends at `size`, at an entry
with inode 0, or at the first entry that `stop` accepts; the result is the
offset reached and whether `stop` accepted it. -/
def walk (buffer : Buffer) (size : ℕ) (stop : ℕ → Outcome Bool) :
    ℕ → ℕ → Outcome (ℕ × Bool)
  | 0, _ => .error .endless
  | fuel + 1, offset =>
      if size ≤ offset then return (offset, false)
      else do
        let inode ← buffer.get32 offset
        if inode = 0 then return (offset, false)
        else if ← stop offset then return (offset, true)
        else
          let recLen ← buffer.get16 (offset + 4)
          walk buffer size stop fuel (u32 (offset + recLen))

/-- A walk over the whole directory.  It sees no offset twice unless it is
endless. -/
def walkDirectory (buffer : Buffer) (size : ℕ) (stop : ℕ → Outcome Bool) :
    Outcome (ℕ × Bool) :=
  walk buffer size stop (size + 1) 0

def hasName (buffer : Buffer) (name : CString) (offset : ℕ) :
    Outcome Bool := do
  return (← entryName buffer offset) = name

/-- `find_dir_entry`.  The whole entry is copied out, and its callers read the
inode number alone. -/
def findDirEntry (v : Volume) (inode : ℕ) (name : CString) :
    Outcome (Option ℕ) := do
  let directory ← readInode v inode
  match ← loadDirectory v directory (u32 (directory.size + v.blockSize)) with
  | none => return none
  | some buffer =>
      let (offset, found) ←
        walkDirectory buffer directory.size (hasName buffer name)
      if found then
        let entry ← buffer.slice offset entrySizeOf
        return some (entry.le32 0)
      else return none

/-- Where the token loop of `find_file` goes on: an inode that is a
directory. -/
def enterDirectory (v : Volume) (number : ℕ) : Outcome (Option ℕ) := do
  let inode ← readInode v number
  return if inode.isDirectory then some number else none

def rootInode : ℕ := 2

def findFile (v : Volume) (path : CString) : Outcome (Option (Inode × ℕ)) := do
  let copy ← copyPath path
  let stripped := stripSlashes copy
  if stripped = [] then return some (← readInode v rootInode, rootInode)
  else
    match ← findTokens (findDirEntry v) (enterDirectory v) rootInode
        (stripped.splitOn slash) with
    | none => return none
    | some (_, number) => return some (← readInode v number, number)

/-- `resolve_parent`: the inode number of the directory, 0 if there is none,
and the file name. -/
def resolveParent (v : Volume) (path : CString) : Outcome (ℕ × CString) := do
  let copy ← copyPath path
  let stripped := stripSlash copy
  match lastSlash stripped with
  | none => return (rootInode, stripped)
  | some i =>
      match ← findFile v (stripped.take i) with
      | none => return (0, stripped.drop (i + 1))
      | some (inode, number) =>
          return (if inode.isDirectory then number else 0,
            stripped.drop (i + 1))

/-- `rec_len` of a new entry. -/
def recordLength (name : CString) : ℕ := (8 + name.length + 7) / 8 * 8

def putEntry (buffer : Buffer) (offset inode recLen type : ℕ)
    (name : CString) : Outcome Buffer := do
  buffer.check offset (8 + name.length)
  return { buffer with
    bytes := ((((buffer.bytes.put32 offset inode).put16 (offset + 4)
      recLen).put8 (offset + 6) name.length).put8 (offset + 7) type).blit
        (offset + 8) (fun k => name.getD k 0) name.length }

/-- `inode.block[k]`.  Past the array the other fields of the structure are
read, and past its end there is nothing. -/
def blockSlot (inode : Inode) (k : ℕ) : Outcome ℕ :=
  if 40 + 4 * k + 4 ≤ Inode.sizeOf then return inode.block k
  else .error .outOfBounds

def createDirEntry (v : Volume) (parentInode : ℕ) (name : CString)
    (inodeNum type : ℕ) : Outcome (Bool × Volume) := do
  let parent ← readInode v parentInode
  let size := parent.size
  let blocksNeeded := u32 (size + v.blockSize) / v.blockSize
  match ← loadDirectory v parent (u32 ((blocksNeeded + 1) * v.blockSize)) with
  | none => return (false, v)
  | some buffer =>
      let (offset, _) ← walkDirectory buffer size (fun _ => return false)
      let recLen := recordLength name
      let filled ← putEntry buffer offset inodeNum recLen type name
      let grown := parent.setSize (u32 (size + recLen))
      let blockIndex := size / v.blockSize
      if blockIndex < 12 ∧ parent.block blockIndex = 0 then
        let (newBlock, taken) ← findFreeBlock v
        if newBlock = 0 then return (false, taken)
        else
          let mapped := (grown.setBlock blockIndex newBlock).setBlocks
            (u32 (parent.blocks + v.blockSize / 512))
          let linked ← writeInode taken parentInode mapped
          let bytes ← filled.slice (blockIndex * v.blockSize) v.transfer
          let written := writeBlock linked newBlock bytes
          return (true, ← writeInode written parentInode mapped)
      else
        let block ← blockSlot parent blockIndex
        let bytes ← filled.slice (blockIndex * v.blockSize) v.transfer
        let written := writeBlock v block bytes
        return (true, ← writeInode written parentInode grown)

/-! ## Files -/

/-- The loop of `ext3_read_file`. -/
def readBlocks (v : Volume) (inode : Inode) (size : ℕ) :
    ℕ → ℕ → ℕ → ByteStore → Outcome (ℕ × ByteStore)
  | 0, _, _, _ => .error .endless
  | fuel + 1, totalRead, blockIndex, buffer =>
      if size ≤ totalRead then return (totalRead, buffer)
      else do
        let block ← blockFromInode v inode blockIndex
        if block = 0 then return (totalRead, buffer)
        else
          let chunk := min (size - totalRead) v.blockSize
          let bytes ← (fetch v block).slice 0 chunk
          readBlocks v inode size fuel (totalRead + chunk) (blockIndex + 1)
            (buffer.blit totalRead bytes chunk)

/-- `ext3_read_file`.  The result is the number of bytes and the caller's
buffer. -/
def ext3ReadFile (v : Volume) (path : CString) (buffer : ByteStore) :
    Outcome (ℕ × ByteStore) := do
  match ← findFile v path with
  | none => return (0, buffer)
  | some (inode, _) =>
      if inode.isLink then
        if inode.size < 60 then
          return (inode.size, buffer.blit 0 (inode.drop 40) inode.size)
        else
          let bytes ← (fetch v (inode.block 0)).slice 0 inode.size
          return (inode.size, buffer.blit 0 bytes inode.size)
      else
        readBlocks v inode inode.size (inode.size / v.blockSize + 2) 0 0 buffer

/-! ## Deletion -/

/-- Whether a directory has an entry other than `.` and `..`; nothing if its
buffer cannot be had. -/
def hasEntries (v : Volume) (inode : Inode) : Outcome (Option Bool) := do
  match ← loadDirectory v inode (u32 (inode.size + v.blockSize)) with
  | none => return none
  | some buffer =>
      let (_, found) ← walkDirectory buffer inode.size (fun offset => do
        return (← entryBytes buffer offset) ∉ dotNames)
      return some found

/-- The blocks that `ext3_delete` hands to `free_block`, in order. -/
def freedWords (inode : Inode) : List ℕ :=
  (if inode.isDirectory then inode.directBlocks else []) ++
    (if inode.isLink ∧ 60 ≤ inode.size then [inode.block 0] else []) ++
      inode.directBlocks

/-- The last part of `ext3_delete`: mark the entry by inode 0. -/
def removeEntry (v : Volume) (parentInode : ℕ) (name : CString) :
    Outcome (Bool × Volume) := do
  let parent ← readInode v parentInode
  match ← loadDirectory v parent (u32 (parent.size + v.blockSize)) with
  | none => return (false, v)
  | some buffer =>
      let (offset, found) ←
        walkDirectory buffer parent.size (hasName buffer name)
      if found then
        let block ← blockSlot parent (offset / v.blockSize)
        let bytes ← Buffer.slice
          { buffer with bytes := buffer.bytes.put32 offset 0 }
          (offset / v.blockSize * v.blockSize) v.transfer
        return (true, writeBlock v block bytes)
      else return (true, v)

/-- The test by which `ext3_delete` keeps a directory. -/
def isOccupied (v : Volume) (inode : Inode) : Outcome (Option Bool) :=
  if inode.isDirectory then hasEntries v inode else return some false

def ext3Delete (v : Volume) (path : CString) : Outcome (Bool × Volume) := do
  match ← findFile v path with
  | none => return (false, v)
  | some (inode, _) =>
      if (← isOccupied v inode) = some false then
        let freed ← freeBlocks v (freedWords inode)
        let (parentInode, name) ← resolveParent freed path
        removeEntry freed parentInode name
      else return (false, v)

/-! ## Creation -/

/-- The state of the loop of `ext3_write_file`.  `stored` lists the blocks
taken so far with the bytes written to each. -/
structure WriteState where
  volume : Volume
  inode : Inode
  totalWritten : ℕ
  stored : List (ℕ × ByteStore)

/-- The loop of `ext3_write_file`. -/
def writeBlocks (buffer : ByteStore) (size : ℕ) :
    ℕ → WriteState → Outcome WriteState
  | 0, _ => .error .endless
  | fuel + 1, s =>
      if size ≤ s.totalWritten then return s
      else do
        let (block, taken) ← findFreeBlock s.volume
        if block = 0 then return { s with volume := taken }
        else
          let chunk := min (size - s.totalWritten) taken.blockSize
          let bytes : ByteStore :=
            blit (fun _ => 0) 0 (buffer.drop s.totalWritten) chunk
          writeBlocks buffer size fuel {
            volume := writeBlock taken block bytes
            inode := addBlockToInode taken s.inode block
            totalWritten := s.totalWritten + chunk
            stored := s.stored ++ [(block, bytes)] }

/-- The inode `ext3_write_file` starts from. -/
def newFileInode (size : ℕ) : Inode :=
  ((Inode.zero.setMode 0x81A4).setSize size).setLinksCount 1

/-- What `ext3_write_file` does up to the end of its loop: the parent, the file
name, the inode number and the state of the loop. -/
def storeFile (v : Volume) (path : CString) (buffer : ByteStore) (size : ℕ) :
    Outcome (Volume ⊕ (ℕ × CString × ℕ × WriteState)) := do
  let (parent, filename) ← resolveParent v path
  if parent = 0 then return .inl v
  else
    let (_, deleted) ← ext3Delete v path
    let (inodeNum, numbered) ← findFreeInode deleted
    if inodeNum = 0 then return .inl numbered
    else
      let state ← writeBlocks buffer size (size / v.blockSize + 2) {
        volume := numbered
        inode := newFileInode size
        totalWritten := 0
        stored := [] }
      return .inr (parent, filename, inodeNum, state)

def ext3WriteFile (v : Volume) (path : CString) (buffer : ByteStore)
    (size : ℕ) : Outcome (ℕ × Volume) := do
  match ← storeFile v path buffer size with
  | .inl next => return (0, next)
  | .inr (parent, filename, inodeNum, state) =>
      let recorded ← writeInode state.volume inodeNum state.inode
      let (_, next) ← createDirEntry recorded parent filename inodeNum 1
      return (state.totalWritten, next)

end ClOs.Ext3
