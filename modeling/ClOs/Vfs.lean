import ClOs.Ext3Model
import ClOs.Fat32Model

/-!
# The virtual file system

`vfs_read` and `vfs_write` call the drivers through a table of function
pointers.  The table declares an offset and a size where the drivers take less,
so a call hands the driver its own leading parameters and drops the rest.  The
buffer of a caller is the memory from its address on.
-/

namespace ClOs

open ByteStore

/-! ## Drivers -/

/-- The functions of a driver under their own parameter lists. -/
structure Driver (Device : Type) where
  fileExists : Device → CString → Outcome Bool
  fileSize : Device → CString → Outcome ℕ
  readFile : Device → CString → ByteStore → Outcome (ℕ × ByteStore)
  writeFile : Device → CString → ByteStore → ℕ → Outcome (ℕ × Device)

namespace Ext3

def ext3FileExists (v : Volume) (path : CString) : Outcome Bool := do
  return (← findFile v path).isSome

def ext3FileSize (v : Volume) (path : CString) : Outcome ℕ := do
  match ← findFile v path with
  | none => return 0
  | some (inode, _) => return inode.size

def driver : Driver Volume where
  fileExists := ext3FileExists
  fileSize := ext3FileSize
  readFile := ext3ReadFile
  writeFile := ext3WriteFile

end Ext3

def Fat32.driver : Driver Fat32.Volume where
  fileExists := fat32FileExists
  fileSize := fat32FileSize
  readFile := fat32ReadFile
  writeFile := fat32WriteFile

/-- The fields of `vfs_ops_t` that the descriptor functions call. -/
structure VfsOps (Device : Type) where
  fileExists : Device → CString → Outcome Bool
  size : Device → CString → Outcome ℕ
  read : Device → CString → ByteStore → ℕ → ℕ → Outcome (ℕ × ByteStore)
  write : Device → CString → ByteStore → ℕ → ℕ → Outcome (ℕ × Device)

variable {Device : Type}

/-- A table of a driver's functions.  The driver takes its parameters from the
front of the argument list. -/
def VfsOps.ofDriver (driver : Driver Device) : VfsOps Device where
  fileExists := driver.fileExists
  size := driver.fileSize
  read device path buffer _offset _size := driver.readFile device path buffer
  write device path buffer offset _size :=
    driver.writeFile device path buffer offset

def vfsFat32Ops : VfsOps Fat32.Volume := .ofDriver Fat32.driver

def vfsExt3Ops : VfsOps Ext3.Volume := .ofDriver Ext3.driver

/-! ## Descriptors -/

/-- A `vfs_file_t`.  `private` is never used. -/
structure VfsFile where
  path : CString
  position : ℕ
  size : ℕ
  flags : ℕ
  refCount : ℕ

/-- An `fd_table_t`: the address of a file object in each open slot. -/
structure FdTable where
  files : ℕ → Option ℕ
  count : ℕ

/-- The state of `vfs.c`: `vfs_current_fs`, the file objects and the tables by
their addresses, and `vfs_fd_table`.  `printed` is what `printc` got. -/
structure Vfs (Device : Type) where
  device : Device
  vfsCurrentFs : Option (VfsOps Device)
  objects : ℕ → Option VfsFile
  tables : ℕ → Option FdTable
  vfsFdTable : Option ℕ
  printed : List UInt8

namespace Vfs

def fdMax : ℕ := 256

def fdStdout : ℤ := 1

def oAppend : ℕ := 0x0400

def vfsFdGet (s : Vfs Device) (fd : ℤ) : Option ℕ :=
  if fd < 0 ∨ (fdMax : ℤ) ≤ fd then none
  else ((s.vfsFdTable.bind s.tables).bind (fun table => table.files fd.toNat))

/-- The object behind a pointer.  Nothing is known about a freed one. -/
def object (s : Vfs Device) (address : ℕ) : Outcome VfsFile :=
  match s.objects address with
  | none => .error .outOfBounds
  | some file => .ok file

def setObject (s : Vfs Device) (address : ℕ) (file : VfsFile) : Vfs Device :=
  { s with objects := Function.update s.objects address (some file) }

def vfsFileRead (s : Vfs Device) (address : ℕ) (buffer : ByteStore)
    (size : ℕ) : Outcome (ℕ × ByteStore × Vfs Device) := do
  let file ← s.object address
  if file.size ≤ file.position then return (0, buffer, s)
  else
    match s.vfsCurrentFs with
    | none => return (0, buffer, s)
    | some ops =>
        let remaining := file.size - file.position
        let toRead := if size < remaining then size else remaining
        let (read, filled) ←
          ops.read s.device file.path buffer file.position toRead
        return (read, filled, if 0 < read then
            s.setObject address
              { file with position := u32 (file.position + read) }
          else s)

def vfsRead (s : Vfs Device) (fd : ℤ) (buffer : ByteStore) (size : ℕ) :
    Outcome (ℕ × ByteStore × Vfs Device) :=
  match s.vfsFdGet fd with
  | none => return (0, buffer, s)
  | some address => s.vfsFileRead address buffer size

/-- The object after a driver has written `written` bytes. -/
def advanceFile (file : VfsFile) (written : ℕ) : VfsFile :=
  if 0 < written then
    { file with
      position := u32 (file.position + written)
      size := max file.size (u32 (file.position + written)) }
  else file

/-- The object that `vfs_file_write` starts from: `O_APPEND` moves it to the
end. -/
def startFile (file : VfsFile) : VfsFile :=
  if file.flags &&& oAppend ≠ 0 then { file with position := file.size }
  else file

def vfsFileWrite (s : Vfs Device) (address : ℕ) (buffer : ByteStore)
    (size : ℕ) : Outcome (ℕ × Vfs Device) := do
  let file ← s.object address
  match s.vfsCurrentFs with
  | none => return (0, s)
  | some ops =>
      let start := startFile file
      let (written, device) ←
        ops.write s.device start.path buffer start.position size
      return (written,
        { s with device := device }.setObject address
          (advanceFile start written))

/-- `vfs_write`.  The bytes for the standard output go to `printc`. -/
def vfsWrite (s : Vfs Device) (fd : ℤ) (buffer : ByteStore) (size : ℕ) :
    Outcome (ℕ × Vfs Device) :=
  if s.vfsFdTable = none then return (0, s)
  else if fd = fdStdout then
    return (size,
      { s with printed := s.printed ++ (List.range size).map buffer })
  else
    match s.vfsFdGet fd with
    | none => return (0, s)
    | some address => s.vfsFileWrite address buffer size

end Vfs

end ClOs
