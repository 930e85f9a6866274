import ClOs.PageTables
import ClOs.ReferenceCounts
import ClOs.Vfs

/-!
# Descriptors of the virtual file system

`vfs_open`, `vfs_close`, `vfs_seek` and the creation and destruction of
descriptor tables.  What `kmalloc` gives is an argument.  The object for the
standard output is static: `stdOutFile` is its address.  A table or an object
that has been freed is not there any more, and its use is reported.
-/

namespace ClOs

open ByteStore

variable {Device : Type}

namespace Vfs

def oCreat : ℕ := 0x0040

def oTrunc : ℕ := 0x0200

/-- The index `FD_STDOUT`. -/
def stdoutSlot : ℕ := 1

/-- The table behind a pointer. -/
def fdTable (s : Vfs Device) (address : ℕ) : Outcome FdTable :=
  match s.tables address with
  | none => .error .outOfBounds
  | some table => .ok table

def setTable (s : Vfs Device) (address : ℕ) (table : FdTable) : Vfs Device :=
  { s with tables := Function.update s.tables address (some table) }

/-- `kfree` of a file object. -/
def freeObject (s : Vfs Device) (address : ℕ) : Vfs Device :=
  { s with objects := Function.update s.objects address none }

def retain (s : Vfs Device) (address : ℕ) : Outcome (Vfs Device) := do
  let file ← s.object address
  return s.setObject address { file with refCount := u32 (file.refCount + 1) }

/-- `ref_count--`, and `kfree` at 0. -/
def release (s : Vfs Device) (address : ℕ) : Outcome (Vfs Device) := do
  let file ← s.object address
  if sub32 file.refCount 1 = 0 then return s.freeObject address
  else
    return s.setObject address { file with refCount := sub32 file.refCount 1 }

/-! ## Tables -/

def vfsFdTableCreate (s : Vfs Device) (allocated : Option ℕ) :
    Option ℕ × Vfs Device :=
  match allocated with
  | none => (none, s)
  | some address => (some address, s.setTable address ⟨fun _ => none, 0⟩)

/-- The loop of `vfs_fd_table_destroy`. -/
def releaseSlots (table : FdTable) :
    List ℕ → Vfs Device → Outcome (Vfs Device)
  | [], s => return s
  | i :: rest, s => do
      match table.files i with
      | none => releaseSlots table rest s
      | some address => releaseSlots table rest (← s.release address)

def vfsFdTableDestroy (s : Vfs Device) (address : ℕ) :
    Outcome (Vfs Device) := do
  let table ← s.fdTable address
  let s ← releaseSlots table (List.range fdMax) s
  return { s with tables := Function.update s.tables address none }

/-! ## Opening -/

/-- The first lines of `vfs_fd_alloc`. -/
def installStdout (stdOutFile : ℕ) (s : Vfs Device) (current : ℕ) :
    Outcome (Vfs Device) := do
  let table ← s.fdTable current
  if table.files stdoutSlot = none then
    (s.setTable current
      { files := Function.update table.files stdoutSlot (some stdOutFile)
        count := u32 (table.count + 1) }).retain stdOutFile
  else return s

/-- The loop of `vfs_fd_alloc`. -/
def freeSlot (table : FdTable) : Option ℕ :=
  (List.range' 3 253).find? (fun i => (table.files i).isNone)

def vfsFdAlloc (stdOutFile : ℕ) (s : Vfs Device) (current file : ℕ) :
    Outcome (ℤ × Vfs Device) := do
  let s ← s.installStdout stdOutFile current
  let table ← s.fdTable current
  match freeSlot table with
  | none => return (-1, s)
  | some i =>
      let s ← (s.setTable current
        { files := Function.update table.files i (some file)
          count := u32 (table.count + 1) }).retain file
      return ((i : ℤ), s)

/-- The beginning of `vfs_file_open`: whether the path exists or is created. -/
def findOrCreate (ops : VfsOps Device) (device : Device) (path : CString)
    (flags : ℕ) : Outcome (Bool × Device) := do
  if ← ops.fileExists device path then return (true, device)
  else if flags &&& oCreat = 0 then return (false, device)
  else
    let (written, device) ← ops.write device path (fun _ => 0) 0 0
    return (decide (written ≠ 0), device)

def startPosition (ops : VfsOps Device) (device : Device) (path : CString)
    (flags : ℕ) : Outcome ℕ :=
  if flags &&& oAppend ≠ 0 then ops.size device path else return 0

/-- The object that `vfs_file_open` fills in.  `strcpy` writes into 256
bytes. -/
def newFile (ops : VfsOps Device) (device : Device) (path : CString)
    (flags : ℕ) : Outcome (VfsFile × Device) := do
  if 256 ≤ path.length then .error .outOfBounds
  else
    let position ← startPosition ops device path flags
    let size ← ops.size device path
    if flags &&& oTrunc ≠ 0 then
      let (_, device) ← ops.write device path (fun _ => 0) 0 0
      return (⟨path, 0, 0, flags, 1⟩, device)
    else return (⟨path, position, size, flags, 1⟩, device)

def vfsFileOpen (s : Vfs Device) (path : CString) (flags : ℕ)
    (allocated : Option ℕ) : Outcome (Option ℕ × Vfs Device) := do
  match s.vfsCurrentFs with
  | none => return (none, s)
  | some ops =>
      let (found, device) ← findOrCreate ops s.device path flags
      if found = false then return (none, { s with device := device })
      else
        match allocated with
        | none => return (none, { s with device := device })
        | some address =>
            let (file, device) ← newFile ops device path flags
            return (some address,
              { s with device := device }.setObject address file)

def vfsOpen (stdOutFile : ℕ) (s : Vfs Device) (path : Option CString)
    (flags : ℕ) (allocated : Option ℕ) : Outcome (ℤ × Vfs Device) := do
  match path, s.vfsFdTable with
  | some path, some current =>
      let (file, s) ← s.vfsFileOpen path flags allocated
      match file with
      | none => return (-1, s)
      | some file => s.vfsFdAlloc stdOutFile current file
  | _, _ => return (-1, s)

theorem vfsOpen_eq
    {s : Vfs Device} {stdOutFile current : ℕ}
    (hcurrent : s.vfsFdTable = some current) (path : CString) (flags : ℕ)
    (allocated : Option ℕ) :
    s.vfsOpen stdOutFile (some path) flags allocated = (do
      let (file, s) ← s.vfsFileOpen path flags allocated
      match file with
      | none => return (-1, s)
      | some file => s.vfsFdAlloc stdOutFile current file) := by
  unfold vfsOpen
  rw [hcurrent]

/-! ## Closing and seeking -/

/-- `vfs_fd_free` of an open descriptor. -/
def vfsFdFree (s : Vfs Device) (current : ℕ) (table : FdTable)
    (slot address : ℕ) : Outcome (Vfs Device) := do
  let s ← s.release address
  return s.setTable current
    { files := Function.update table.files slot none
      count := sub32 table.count 1 }

def vfsClose (s : Vfs Device) (fd : ℤ) : Outcome (ℤ × Vfs Device) := do
  match s.vfsFdTable, s.vfsFdGet fd with
  | some current, some address =>
      let table ← s.fdTable current
      return (0, ← s.vfsFdFree current table fd.toNat address)
  | _, _ => return (-1, s)

/-- The `switch` of `vfs_seek`. -/
def seekPosition (file : VfsFile) (offset whence : ℕ) : ℕ :=
  match whence with
  | 0 => u32 offset
  | 1 => u32 (file.position + offset)
  | 2 => sub32 file.size (u32 offset)
  | _ => file.position

def vfsSeek (s : Vfs Device) (fd : ℤ) (offset whence : ℕ) :
    Outcome (ℕ × Vfs Device) := do
  match s.vfsFdGet fd with
  | none => return (0, s)
  | some address =>
      let file ← s.object address
      let position := min (seekPosition file offset whence) file.size
      return (position, s.setObject address { file with position := position })

end Vfs

end ClOs
