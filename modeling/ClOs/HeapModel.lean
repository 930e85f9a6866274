import ClOs.PageTables

/-!
# The kernel heap

`heap.c` keeps its blocks in the heap memory itself: every block starts with a
packed `heap_block_t` header, and a pointer given to a client is the address
just behind a header.  The functions here read and write those headers in the
byte store, in the order of the source.
-/

namespace ClOs.Heap

open Memory

def heapThreshold : ℕ := 0x10000

def heapMagic : ℕ := 0xDEADBEEF

/-- `sizeof(heap_block_t)`: two words, one `bool` and two pointers, packed. -/
def headerSize : ℕ := 17

/-- The static data of `heap.c`, the memory it manages and the paging state
it grows by. -/
structure State where
  mem : ByteStore
  heapHead : ℕ
  heapStart : ℕ
  kmallocInitalized : Bool
  heapSize : ℕ
  vm : Vm

/-! ## Header fields -/

def magicOf (mem : ByteStore) (block : ℕ) : ℕ := mem.le32 block
def sizeOf (mem : ByteStore) (block : ℕ) : ℕ := mem.le32 (block + 4)
def usedOf (mem : ByteStore) (block : ℕ) : Bool := mem (block + 8) != 0
def nextOf (mem : ByteStore) (block : ℕ) : ℕ := mem.le32 (block + 9)
def prevOf (mem : ByteStore) (block : ℕ) : ℕ := mem.le32 (block + 13)

def setMagic (block value : ℕ) (mem : ByteStore) : ByteStore :=
  mem.put32 block value

def setSize (block value : ℕ) (mem : ByteStore) : ByteStore :=
  mem.put32 (block + 4) value

def setUsed (block : ℕ) (value : Bool) (mem : ByteStore) : ByteStore :=
  mem.put8 (block + 8) value.toNat

def setNext (block value : ℕ) (mem : ByteStore) : ByteStore :=
  mem.put32 (block + 9) value

def setPrev (block value : ℕ) (mem : ByteStore) : ByteStore :=
  mem.put32 (block + 13) value

def writeHeader (block size : ℕ) (used : Bool) (next prev : ℕ)
    (mem : ByteStore) : ByteStore :=
  setPrev block prev (setNext block next (setUsed block used
    (setSize block size (setMagic block heapMagic mem))))

def relink (via target : ℕ) (mem : ByteStore) : ByteStore :=
  if nextOf mem via ≠ 0 then setPrev (nextOf mem via) target mem else mem

/-! ## Growing the heap -/

/-- A 32-bit value read as `int`. -/
def toInt (n : ℕ) : ℤ := if n < 2 ^ 31 then n else (n : ℤ) - 2 ^ 32

/-- An `int` stored in an unsigned 32-bit object. -/
def ofInt (i : ℤ) : ℕ := (i % 4294967296).toNat

/-- The loop of `change_heap_size` over pages `i, ..., i + count - 1`. -/
def mapHeapPages (oldPageTop : ℤ) : ℕ → ℕ → Vm → Outcome Vm
  | 0, _, vm => .ok vm
  | count + 1, i, vm => do
      let (phys, frames) ← pmmAllocPageFrame vm.frames
      let vm := { vm with frames := frames }
      if phys = 0 then .error .kernelPanic
      else do
        let vm ← memMapPage
          (u32 (kernelMalloc + ofInt ((oldPageTop + i) * 0x1000))) phys
          (pageFlagPresent ||| pageFlagWrite ||| pageFlagOwner) vm
        mapHeapPages oldPageTop count (i + 1) vm

def changeHeapSize (newHeapSize : ℤ) (s : State) : Outcome State := do
  let oldPageTop := toInt (ceilDiv s.heapSize 0x1000)
  let newPageTop := (newHeapSize + 0x1000 - 1).tdiv 0x1000
  let vm ← mapHeapPages oldPageTop (newPageTop - oldPageTop).toNat 0 s.vm
  return { s with vm := vm, heapSize := ofInt (newPageTop * 0x1000) }

def kmallocInit (s : State) : Outcome State :=
  if s.kmallocInitalized then .ok s
  else do
    let s := { s with heapStart := kernelMalloc, heapSize := 0 }
    let s ← changeHeapSize heapThreshold s
    return { s with
      kmallocInitalized := true
      heapHead := s.heapStart
      mem := writeHeader s.heapStart (sub32 s.heapSize headerSize) false 0 0
        s.mem }

/-! ## `kmalloc` -/

/-- How the search loop of `kmalloc` ends. -/
inductive Search
  | found (current : ℕ)
  | missed (prev : ℕ)
  deriving DecidableEq

/-- The search loop of `kmalloc`. -/
def search (mem : ByteStore) (size : ℕ) : ℕ → ℕ → ℕ → Outcome Search
  | 0, _, _ => .error .endless
  | fuel + 1, current, prev =>
      if current = 0 then .ok (.missed prev)
      else if usedOf mem current = false ∧ size ≤ sizeOf mem current then
        .ok (.found current)
      else search mem size fuel (nextOf mem current) current

/-- The header of the block that is cut off `block`.  Its `next` is read from
`block` when the first three fields have been stored; near 2^32 the size wraps and
the two headers overlap. -/
def restHeader (block size : ℕ) (mem : ByteStore) : ByteStore :=
  let rest := u32 (block + headerSize + size)
  let mem := setUsed rest false (setSize rest
    (sub32 (sub32 (sizeOf mem block) size) headerSize)
    (setMagic rest heapMagic mem))
  setPrev rest block (setNext rest (nextOf mem block) mem)

/-- Cut a block of `size` payload bytes off `block` when the remainder can
hold a header and eight bytes.  The source has this code twice; the first
copy tests `block->next` and the second `rest->next`. -/
def splitBlock (throughRest : Bool) (block size : ℕ)
    (mem : ByteStore) : ByteStore :=
  if headerSize + 8 ≤ sub32 (sizeOf mem block) size then
    let rest := u32 (block + headerSize + size)
    let mem := restHeader block size mem
    let mem := relink (if throughRest then rest else block) rest mem
    setNext block rest (setSize block size mem)
  else mem

/-- A store of `count` bytes.  The pages of the heap are mapped as long as its size
is a positive `int`; elsewhere a page may be missing. -/
def touchBytes (address count : ℕ) (s : State) : Outcome Unit :=
  if s.heapSize < 2 ^ 31 ∧ kernelMalloc ≤ address ∧
      address + count ≤ kernelMalloc + s.heapSize then .ok ()
  else do
    touchPage address s.vm
    touchPage (u32 (address + count - 1)) s.vm

/-- The stores of a split outside of its block: the header of the block that is cut
off, and the back link of the block that this header names. -/
def touchSplit (block size : ℕ) (mem : ByteStore) (s : State) : Outcome Unit :=
  if headerSize + 8 ≤ sub32 (sizeOf mem block) size then do
    let rest := u32 (block + headerSize + size)
    touchBytes rest headerSize s
    let next := nextOf (restHeader block size mem) rest
    if next ≠ 0 then touchBytes (u32 (next + 13)) 4 s else .ok ()
  else .ok ()

/-- `expand_size`: the whole thresholds by which the heap must grow for a
payload of `size` bytes behind the last block `prev`. -/
def expandSize (mem : ByteStore) (size prev : ℕ) : ℕ :=
  let totalNeeded := u32 (size + headerSize)
  let totalNeeded :=
    if prev ≠ 0 ∧ usedOf mem prev = false then
      if sizeOf mem prev < totalNeeded then
        sub32 totalNeeded (sizeOf mem prev)
      else 0
    else totalNeeded
  let expand := u32 (ceilDiv totalNeeded heapThreshold * heapThreshold)
  if expand = 0 then heapThreshold else expand

/-- Join the new last block to the block `prev` before it when that one is
free; the result names the block that has absorbed the other. -/
def joinLast (newBlock prev : ℕ) (mem : ByteStore) : ℕ × ByteStore :=
  if prev ≠ 0 ∧ usedOf mem prev = false then
    let mem := setSize prev
      (u32 (sizeOf mem prev + headerSize + sizeOf mem newBlock)) mem
    let mem := setNext prev (nextOf mem newBlock) mem
    (prev, relink prev prev mem)
  else (newBlock, mem)

/-- The part of `kmalloc` behind the search loop: grow the heap, append the
new block, join it to a free last block and take `size` bytes of it.  The header
of the new block is the first thing that is written, and its page may be one
that `change_heap_size` has not mapped; so may those of the split.  The search
loop above only splits blocks that hold `size` bytes, within the heap. -/
def growAndTake (size prev : ℕ) (s : State) : Outcome (ℕ × State) := do
  let oldHeapSize := s.heapSize
  let s ← changeHeapSize
    (toInt (u32 (oldHeapSize + expandSize s.mem size prev))) s
  let newBlock := u32 (s.heapStart + oldHeapSize)
  touchPage newBlock s.vm
  let mem := writeHeader newBlock
    (sub32 (sub32 s.heapSize oldHeapSize) headerSize) false 0 prev s.mem
  let mem := if prev ≠ 0 then setNext prev newBlock mem else mem
  let heapHead := if prev ≠ 0 then s.heapHead else newBlock
  let (block, mem) := joinLast newBlock prev mem
  touchSplit block size mem s
  return (u32 (block + headerSize), { s with
    mem := setUsed block true (splitBlock true block size mem)
    heapHead := heapHead })

/-- `kmalloc`.  The search loop may visit at most one block for each byte of
the heap; a list that is longer is reported as endless. -/
def kmalloc (size : ℕ) (s : State) : Outcome (ℕ × State) := do
  let s ← kmallocInit s
  if size = 0 then return (0, s)
  else do
    let size := u32 (size + 7) / 8 * 8
    match ← search s.mem size (s.heapSize + 1) s.heapHead 0 with
    | .found current =>
        return (u32 (current + headerSize), { s with
          mem := setUsed current true (splitBlock false current size s.mem) })
    | .missed prev => growAndTake size prev s

/-! ## `kfree` -/

/-- Absorb the block behind `block` when it is free. -/
def mergeNext (block : ℕ) (mem : ByteStore) : ByteStore :=
  if nextOf mem block ≠ 0 ∧ usedOf mem (nextOf mem block) = false then
    let mem := setSize block
      (u32 (sizeOf mem block + headerSize +
        sizeOf mem (nextOf mem block))) mem
    let mem := setNext block (nextOf mem (nextOf mem block)) mem
    relink block block mem
  else mem

/-- Give `block` to the block before it when that one is free. -/
def mergePrev (block : ℕ) (mem : ByteStore) : ByteStore :=
  if prevOf mem block ≠ 0 ∧ usedOf mem (prevOf mem block) = false then
    let prev := prevOf mem block
    let mem := setSize prev
      (u32 (sizeOf mem prev + headerSize + sizeOf mem block)) mem
    let mem := setNext prev (nextOf mem block) mem
    if nextOf mem block ≠ 0 then
      setPrev (nextOf mem block) (prevOf mem block) mem
    else mem
  else mem

def kfree (ptr : ℕ) (s : State) : Outcome State := do
  let s ← kmallocInit s
  if ptr = 0 then return s
  else if ptr < kernelMalloc ∨ u32 (kernelMalloc + s.heapSize) ≤ ptr then
    return s
  else
    let block := sub32 ptr headerSize
    if magicOf s.mem block ≠ heapMagic then return s
    else if usedOf s.mem block = false then return s
    else
      return { s with
        mem := mergePrev block (mergeNext block (setUsed block false s.mem)) }

end ClOs.Heap
