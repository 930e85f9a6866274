import ClOs.ElfModel
import ClOs.HeapLimits
import ClOs.Processes
import ClOs.VfsDescriptors

/-!
# Creation of processes

`create_process` over the files, the paging state and the process list.  What
`kmalloc` gives to the call, and the pages by which the heap grows under way,
are arguments.  `process->name` is left out, and `deallocate_pid` is never
called.
-/

namespace ClOs

open Memory

variable {Device : Type}

def Vfs.vfsSize (s : Vfs Device) (fd : ℤ) : Outcome ℕ :=
  match s.vfsFdGet fd with
  | none => return 0
  | some address => do return (← s.object address).size

/-- The static data that `create_process` uses.  `page_dirs_used` and the
frames are part of the paging state. -/
structure Kernel (Device : Type) where
  vfs : Vfs Device
  kernelFdTable : Option ℕ
  vm : Vm
  isInitProcess : Bool
  processHead : ℕ
  currentProcessRunning : ℕ
  processes : ℕ → Option Process
  pidBitmap : ByteStore

/-- What the heap gives to a call: the file object, the buffer for the image,
the process and its descriptor table.  The pages are those that the heap maps
up to the end of `vfs_open`, up to the end of `vfs_read`, for the process and
for the table.  `memory` is what the buffer for the image holds, and what lies
behind it. -/
structure Allocations where
  file : Option ℕ
  image : Option ℕ
  process : Option ℕ
  table : Option ℕ
  openPages : List ℕ
  readPages : List ℕ
  processPages : List ℕ
  tablePages : List ℕ
  memory : ByteStore

def maxProcesses : ℕ := 4194304

def unusedPid (pidBitmap : ByteStore) : Option ℕ :=
  (List.range' 1 (maxProcesses - 1)).find? (fun i => !pidBitmap.bit i)

def allocatePid (pidBitmap : ByteStore) : ℕ × ByteStore :=
  match unusedPid pidBitmap with
  | none => (0, pidBitmap)
  | some i => (i, pidBitmap.setBit i)

def Vfs.oRdonly : ℕ := 0

namespace Kernel

/-- The part of the state that `schedule` works on. -/
def scheduler (k : Kernel Device) : Scheduler where
  isInitProcess := k.isInitProcess
  processHead := k.processHead
  currentProcessRunning := k.currentProcessRunning
  processes := k.processes
  cr3 := k.vm.cr3
  vfsFdTable := k.vfs.vfsFdTable

def useTable (k : Kernel Device) (table : Option ℕ) : Kernel Device :=
  { k with vfs := { k.vfs with vfsFdTable := table } }

def growHeap (k : Kernel Device) (pages : List ℕ) :
    Outcome (Kernel Device) := do
  return { k with vm := ← pages.foldlM Heap.mapHeapPage k.vm }

def openImage (k : Kernel Device) (stdOutFile : ℕ) (path : CString)
    (given : Allocations) : Outcome (ℤ × Kernel Device) := do
  let k ← (k.useTable k.kernelFdTable).growHeap given.openPages
  let (fd, vfs) ←
    k.vfs.vfsOpen stdOutFile (some path) Vfs.oRdonly given.file
  return (fd, { k with vfs := vfs })

/-- From `vfs_size` to `vfs_close`: the image, unless fewer bytes are read than
the file has.  `kmalloc(0)` gives `NULL`. -/
def readImage (k : Kernel Device) (fd : ℤ) (given : Allocations) :
    Outcome (Option ByteStore × Kernel Device) := do
  let fileSize ← k.vfs.vfsSize fd
  if fileSize = 0 ∨ given.image = none then .error .kernelPanic
  else
    let k ← k.growHeap given.readPages
    let (bytesRead, elfFile, vfs) ←
      k.vfs.vfsRead fd given.memory fileSize
    if bytesRead ≠ fileSize then return (none, { k with vfs := vfs })
    else
      let (_, vfs) ← vfs.vfsClose fd
      return (some elfFile, { k with vfs := vfs })

/-- The result of `elf_load`, which handles a missing frame itself. -/
def loadResult : Except Elf.Stop ℤ × Elf.Loader → Outcome (ℤ × ℕ × Vm)
  | (.ok result, l) => .ok (result, l.entryPoint, l.vm)
  | (.error (.halt halt), _) => .error halt
  | (.error .outOfMemory, _) => .error .kernelPanic

/-- The call of `elf_load`.  An accepted image is loaded through its page
directory: `mem_change_page_dir(NULL)` loads a CR3 in which the kernel is not
mapped, and the next instruction cannot be fetched. -/
def loadImage (image : ByteStore) (pageDir : ℕ) (vm : Vm) :
    Outcome (ℤ × ℕ × Vm) :=
  if pageDir = 0 ∧ (Elf.validateElf image ⟨vm, 0, []⟩).1 = .ok 0 then
    .error .pageFault
  else loadResult (Elf.elfLoad image pageDir ⟨vm, 0, []⟩)

def equip (k : Kernel Device) (given : Allocations) :
    Outcome (ℕ × Option ℕ × ℕ × Kernel Device) := do
  let k ← k.growHeap given.processPages
  let (pageDir, vm) := vmmNewPageDir k.vm
  let k ← { k with vm := vm }.growHeap given.tablePages
  let (table, vfs) := k.vfs.vfsFdTableCreate given.table
  let (pid, bitmap) := allocatePid k.pidBitmap
  return (pageDir, table, pid, { k with vfs := vfs, pidBitmap := bitmap })

/-- `create_process` from the allocation of the process on.  `memset` on `NULL`
is a page fault. -/
def startProcess (k : Kernel Device) (image : ByteStore)
    (given : Allocations) : Outcome (Option ℕ × Kernel Device) := do
  match given.process with
  | none => .error .pageFault
  | some address =>
      let (pageDir, table, pid, k) ← k.equip given
      let (result, entryPoint, vm) ← loadImage image pageDir k.vm
      let k := { k with vm := vm }
      if result = 0 then
        let s ← k.scheduler.appendProcess address
          (Scheduler.newProcess pid pageDir table (UInt32.ofNat entryPoint))
        return (some address, { k with processes := s.processes })
      else return (none, k)

def createProcess (k : Kernel Device) (stdOutFile : ℕ) (path : CString)
    (given : Allocations) : Outcome (Option ℕ × Kernel Device) := do
  if k.isInitProcess = false then return (none, k)
  else
    let (fd, opened) ← k.openImage stdOutFile path given
    if fd < 0 then return (none, opened)
    else
      let (image, read) ← opened.readImage fd given
      match image with
      | none => return (none, read)
      | some image =>
          (read.useTable k.vfs.vfsFdTable).startProcess image given

end Kernel

end ClOs
