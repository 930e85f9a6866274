import ClOs.Ext3Model

/-!
# Handles, listings and symbolic links

The functions of `ext3.c` that work on an open file, on an open directory and on
symbolic links.  `kmalloc` fails for size 0 only, as elsewhere.  `ext3_open`
calls itself on the target of a link and carries the number of calls it may
still make.
-/

namespace ClOs.Ext3

open ByteStore

/-! ## Open files -/

/-- An `EXT3_FILE_T`. -/
structure File where
  inodeNum : ℕ
  position : ℕ
  size : ℕ
  flags : ℕ
  inode : Inode
  path : CString
  size_lt : size < 4294967296

/-- The loop of `ext3_read`. -/
def readChunks (v : Volume) (inode : Inode) (toRead : ℕ) :
    ℕ → ℕ → ℕ → ℕ → ByteStore → Outcome (ℕ × ByteStore)
  | 0, _, _, _, _ => .error .endless
  | fuel + 1, totalRead, blockIndex, offsetInBlock, buffer =>
      if toRead ≤ totalRead then return (totalRead, buffer)
      else do
        let block ← blockFromInode v inode blockIndex
        if block = 0 then return (totalRead, buffer)
        else
          let chunk := min (v.blockSize - offsetInBlock) (toRead - totalRead)
          let bytes ← (fetch v block).slice offsetInBlock chunk
          readChunks v inode toRead fuel (totalRead + chunk) (blockIndex + 1) 0
            (buffer.blit totalRead bytes chunk)

/-- `ext3_read`.  The result is the number of bytes, the caller's buffer and the
handle. -/
def ext3Read (v : Volume) (file : File) (buffer : ByteStore) (size : ℕ) :
    Outcome (ℕ × ByteStore × File) :=
  if file.size ≤ file.position then return (0, buffer, file)
  else do
    let toRead := min size (file.size - file.position)
    let (totalRead, filled) ← readChunks v file.inode toRead
      (toRead / v.blockSize + 3) 0 (file.position / v.blockSize)
      (file.position % v.blockSize) buffer
    return (totalRead, filled,
      { file with position := u32 (file.position + totalRead) })

/-! ## Open directories -/

/-- An `EXT3_DIR_T`. -/
structure Dir where
  inodeNum : ℕ
  position : ℕ
  size : ℕ
  buffer : Buffer
  inode : Inode
  currentOffset : ℕ

def ext3Opendir (v : Volume) (path : CString) : Outcome (Option Dir) := do
  match ← findFile v path with
  | none => return none
  | some (inode, inodeNum) =>
      if inode.isDirectory then
        match ← loadDirectory v inode (u32 (inode.size + v.blockSize)) with
        | none => return none
        | some buffer =>
            return some {
              inodeNum := inodeNum
              position := 0
              size := inode.size
              buffer := buffer
              inode := inode
              currentOffset := 0 }
      else return none

/-- The loop of `ext3_readdir`: the name, or `NULL`, and the offset that is
left. -/
def readEntries (buffer : Buffer) (size : ℕ) :
    ℕ → ℕ → Outcome (Option CString × ℕ)
  | 0, _ => .error .endless
  | fuel + 1, offset =>
      if size ≤ offset then return (none, offset)
      else do
        let inode ← buffer.get32 offset
        if inode = 0 then return (none, size)
        else
          let name ← entryBytes buffer offset
          let recLen ← buffer.get16 (offset + 4)
          if name ∈ dotNames then
            readEntries buffer size fuel (u32 (offset + recLen))
          else return (some (name.takeWhile (· ≠ 0)), u32 (offset + recLen))

def ext3Readdir (dir : Dir) : Outcome (Option CString × Dir) := do
  let (name, offset) ←
    readEntries dir.buffer dir.size (dir.size + 1) dir.currentOffset
  return (name, { dir with currentOffset := offset })

/-! ## Listings -/

/-- What `ext3_list_directory` prints for one entry. -/
def listingLine (inode : Inode) (name : CString) : CString :=
  (if inode.isDirectory then asciiBytes "[DIR]  "
    else if inode.isLink then asciiBytes "[LINK] "
    else asciiBytes "[FILE] ") ++ name ++
  (if inode.isDirectory = false ∧ inode.isLink = false then
    asciiBytes "  (" ++ decimalBytes inode.size ++ asciiBytes " bytes)"
    else []) ++ asciiBytes "\n"

/-- The loop of `ext3_list_directory`, with what it has printed. -/
def listEntries (v : Volume) (buffer : Buffer) (size : ℕ) :
    ℕ → ℕ → CString → Outcome CString
  | 0, _, _ => .error .endless
  | fuel + 1, offset, printed =>
      if size ≤ offset then return printed
      else do
        let number ← buffer.get32 offset
        if number = 0 then return printed
        else
          let name ← entryBytes buffer offset
          let recLen ← buffer.get16 (offset + 4)
          if name ∈ dotNames then
            listEntries v buffer size fuel (u32 (offset + recLen)) printed
          else
            let inode ← readInode v number
            listEntries v buffer size fuel (u32 (offset + recLen))
              (printed ++ listingLine inode (name.takeWhile (· ≠ 0)))

/-- `ext3_list_directory`: the result and what is printed. -/
def ext3ListDirectory (v : Volume) (path : CString) :
    Outcome (Bool × CString) := do
  match ← findFile v path with
  | none => return (false, asciiBytes "Directory not found\n")
  | some (inode, _) =>
      if inode.isDirectory then
        match ← loadDirectory v inode (u32 (inode.size + v.blockSize)) with
        | none => return (false, [])
        | some buffer =>
            return (true, ← listEntries v buffer inode.size (inode.size + 1) 0
              (asciiBytes "Contents:\n"))
      else return (false, asciiBytes "Not a directory\n")

/-! ## Symbolic links -/

/-- Where `ext3_read_symlink` copies the target from. -/
def targetBytes (v : Volume) (inode : Inode) : Outcome ByteStore :=
  if inode.size < 60 then return inode.drop 40
  else (fetch v (inode.block 0)).slice 0 inode.size

/-- `ext3_read_symlink`, as the C string it returns. -/
def ext3ReadSymlink (v : Volume) (path : CString) :
    Outcome (Option CString) := do
  match ← findFile v path with
  | none => return none
  | some (inode, _) =>
      if inode.isLink then
        match kmalloc v (u32 (inode.size + 1)) with
        | none => return none
        | some result => do
            let bytes ← targetBytes v inode
            let filled ← result.load 0 bytes inode.size
            return some (((List.range inode.size).map filled.bytes).takeWhile
              (· ≠ 0))
      else return none

/-- The inode `ext3_create_symlink` starts from. -/
def newLinkInode (target : CString) : Inode :=
  ((Inode.zero.setMode 0xA1FF).setSize target.length).setLinksCount 1

/-- The part of `ext3_create_symlink` that stores the target: the inode, or
nothing if no block is free. -/
def storeTarget (v : Volume) (target : CString) :
    Outcome (Option Inode × Volume) := do
  let inode := newLinkInode target
  if inode.size < 60 then
    return (some (inode.blit 40 (fun k => target.getD k 0) inode.size), v)
  else
    let (block, taken) ← findFreeBlock v
    if block = 0 then return (none, taken)
    else
      let buffer ← Buffer.load { size := v.blockSize, bytes := fun _ => 0 } 0
        (fun k => target.getD k 0) inode.size
      return (some ((inode.setBlock 0 block).setBlocks (v.blockSize / 512)),
        writeBlock taken block buffer.bytes)

def ext3CreateSymlink (v : Volume) (target path : CString) :
    Outcome (Bool × Volume) := do
  let (parent, filename) ← resolveParent v path
  if parent = 0 then return (false, v)
  else
    let (_, deleted) ← ext3Delete v path
    let (inodeNum, numbered) ← findFreeInode deleted
    if inodeNum = 0 then return (false, numbered)
    else
      match ← storeTarget numbered target with
      | (none, taken) => return (false, taken)
      | (some inode, stored) =>
          let recorded ← writeInode stored inodeNum inode
          let (_, next) ← createDirEntry recorded parent filename inodeNum 7
          return (true, next)

def ext3Open : ℕ → Volume → CString → ℕ → Outcome (Option File × Volume)
  | 0, _, _, _ => .error .endless
  | calls + 1, v, path, flags => do
      let (found, next) ← (do
        match ← findFile v path with
        | some found => return (some found, v)
        | none =>
            if flags &&& 0x02 ≠ 0 then
              let (written, next) ← ext3WriteFile v path (fun _ => 0) 0
              if written = 0 then return (none, next)
              else return (← findFile next path, next)
            else return (none, v))
      match found with
      | none => return (none, next)
      | some (inode, inodeNum) =>
          if inode.isLink then
            match ← ext3ReadSymlink next path with
            | some target => ext3Open calls next target flags
            | none => return (none, next)
          else
            return (some {
              inodeNum := inodeNum
              position := 0
              size := inode.size
              flags := flags
              inode := inode
              path := path
              size_lt := le32_lt inode 4 }, next)

end ClOs.Ext3
