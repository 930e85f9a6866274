import ClOs.PageWalks
import ClOs.Scripts

/-!
# Loading of ELF images

`elf_load` and `validate_elf`.  The bytes of a process are the words of the
frames that its pages are mapped to, and the kernel writes them through the
directory in CR3.  A load keeps a trace of the bytes of the image that it reads,
of the pages that it maps and of the bytes that it writes.
-/

namespace ClOs

namespace Memory

def Vm.byte (vm : Vm) (frame offset : ℕ) : ℕ :=
  vm.word frame (offset / 4) / 256 ^ (offset % 4) % 256

def Vm.setByte (vm : Vm) (frame offset value : ℕ) : Vm :=
  let word := vm.word frame (offset / 4)
  vm.setWord frame (offset / 4)
    (word - word / 256 ^ (offset % 4) % 256 * 256 ^ (offset % 4) +
      value * 256 ^ (offset % 4))

/-- Write a byte through the directory in CR3.  Write protection is off in the
kernel. -/
def storeByte (virtAddr value : ℕ) (vm : Vm) : Outcome Vm :=
  match translate vm.word (vm.cr3 / 0x1000) (virtAddr / 0x1000) with
  | none => .error .pageFault
  | some (frame, _) => .ok (vm.setByte frame (virtAddr % 0x1000) value)

end Memory

namespace Elf

open Memory

def eiMag0 : ℕ := 0x7F

/-- `EI_MAG1`, `EI_MAG2` and `EI_MAG3`. -/
def eiMag1 : ℕ := 0x45
def eiMag2 : ℕ := 0x4C
def eiMag3 : ℕ := 0x46

def eiClass : ℕ := 4

def elfClass32 : ℕ := 1

def em386 : ℕ := 3

def etExec : ℕ := 2

def ptLoad : ℕ := 1

/-- The flags of the pages of a process. -/
def pageFlags : ℕ := pageFlagPresent ||| pageFlagWrite ||| pageFlagUser

/-- What a load does to memory.  An offset counts from `elf_data` on. -/
inductive Access
  | read (offset : ℕ)
  | map (virtAddr : ℕ)
  | write (virtAddr value : ℕ)
  deriving DecidableEq, Repr

/-- The paging state during a load, `*entry_point` and the accesses made. -/
structure Loader where
  vm : Vm
  entryPoint : ℕ
  trace : List Access

/-- Why a load goes no further. -/
inductive Stop
  | halt (halt : Halt)
  | outOfMemory
  deriving DecidableEq, Repr

abbrev Load (Value : Type) := Stopping Loader Stop Value

/-! ## Memory -/

def note (access : Access) : Load Unit :=
  Stopping.change fun l => { l with trace := l.trace ++ [access] }

def changePageDir (pageDir : ℕ) : Load Unit :=
  Stopping.change fun l => { l with vm := memChangePageDir l.vm pageDir }

/-- A step of the paging state. -/
def onVm {Value : Type} (f : Vm → Outcome (Value × Vm)) : Load Value := fun l =>
  match f l.vm with
  | .ok (value, vm) => (.ok value, { l with vm := vm })
  | .error halt => (.error (.halt halt), l)

/-- `pmm_alloc_page_frame` and `mem_map_page`, or `out of memory`. -/
def mapNewPage (virtAddr : ℕ) : Load Unit := do
  let phys ← onVm fun vm => do
    let (phys, frames) ← pmmAllocPageFrame vm.frames
    return (phys, { vm with frames := frames })
  if phys = 0 then Stopping.stop .outOfMemory
  else
    onVm fun vm => do
      return ((), ← memMapPage virtAddr phys pageFlags vm)
    note (.map virtAddr)

/-- A byte of the image.  The address wraps, and what lies behind the buffer is
memory of the kernel. -/
def readByte (image : ByteStore) (offset : ℕ) : Load ℕ := do
  note (.read (u32 offset))
  return (image (u32 offset)).toNat

def read16 (image : ByteStore) (offset : ℕ) : Load ℕ := do
  let low ← readByte image offset
  let high ← readByte image (offset + 1)
  return low + 256 * high

def read32 (image : ByteStore) (offset : ℕ) : Load ℕ := do
  let low ← read16 image offset
  let high ← read16 image (offset + 2)
  return low + 65536 * high

def writeByte (virtAddr value : ℕ) : Load Unit := do
  onVm fun vm => do
    return ((), ← storeByte virtAddr value vm)
  note (.write virtAddr value)

/-! ## `validate_elf` -/

/-- One test of `validate_elf`; the next one is made when it holds. -/
def expects (value : Load ℕ) (expected : ℕ) (rest : Load ℤ) : Load ℤ := do
  if (← value) ≠ expected then return -1 else rest

def validateElf (image : ByteStore) : Load ℤ :=
  expects (readByte image 0) eiMag0 <|
  expects (readByte image 1) eiMag1 <|
  expects (readByte image 2) eiMag2 <|
  expects (readByte image 3) eiMag3 <|
  expects (readByte image eiClass) elfClass32 <|
  expects (read16 image 18) em386 <|
  expects (read16 image 16) etExec <|
  return 0

/-! ## `elf_load` -/

/-- The loop over the pages of a segment. -/
def mapPages (vaddr : ℕ) : ℕ → ℕ → Load Unit
  | 0, _ => return ()
  | count + 1, x => do
      mapNewPage (u32 (vaddr + x * 0x1000))
      mapPages vaddr count (x + 1)

/-- `memcpy` from the image. -/
def copyBytes (image : ByteStore) (vaddr offset : ℕ) : ℕ → ℕ → Load Unit
  | 0, _ => return ()
  | count + 1, i => do
      let byte ← readByte image (offset + i)
      writeByte (u32 (vaddr + i)) byte
      copyBytes image vaddr offset count (i + 1)

/-- `memset` to 0. -/
def zeroBytes (vaddr : ℕ) : ℕ → ℕ → Load Unit
  | 0, _ => return ()
  | count + 1, i => do
      writeByte (u32 (vaddr + i)) 0
      zeroBytes vaddr count (i + 1)

def loadSegment (image : ByteStore) (header : ℕ) : Load Unit := do
  if (← read32 image header) = ptLoad then
    let vaddr ← read32 image (header + 8)
    let memsz ← read32 image (header + 20)
    let filesz ← read32 image (header + 16)
    let offset ← read32 image (header + 4)
    mapPages vaddr (ceilDiv memsz 0x1000) 0
    copyBytes image vaddr offset filesz 0
    zeroBytes (u32 (vaddr + filesz)) (memsz - filesz) 0
  else return ()

/-- The loop over the program headers. -/
def loadSegments (image : ByteStore) (phoff : ℕ) : ℕ → ℕ → Load Unit
  | 0, _ => return ()
  | count + 1, i => do
      loadSegment image (u32 (phoff + 32 * i))
      loadSegments image phoff count (i + 1)

/-- The returns after `out of memory`. -/
def onOutOfMemory (computation handler : Load ℤ) : Load ℤ := fun l =>
  match computation l with
  | (.error .outOfMemory, l) => handler l
  | result => result

def mapStack (oldPageDir : ℕ) : Load ℤ :=
  onOutOfMemory
    (do
      mapNewPage (stackElfStart - 0x1000)
      changePageDir oldPageDir
      return 0)
    (return -1)

/-- `elf_load`.  A frame that is missing for the stack leaves the directory in
CR3. -/
def elfLoad (image : ByteStore) (pageDir : ℕ) : Load ℤ := do
  if (← validateElf image) < 0 then return -1
  else
    let entry ← read32 image 24
    Stopping.change fun l => { l with entryPoint := entry }
    let phoff ← read32 image 28
    let oldPageDir ← Stopping.read fun l => memGetCurrentPageDir l.vm
    changePageDir pageDir
    let phnum ← read16 image 44
    onOutOfMemory
      (do
        loadSegments image phoff phnum 0
        mapStack oldPageDir)
      (do
        changePageDir oldPageDir
        return -1)

end Elf

end ClOs
