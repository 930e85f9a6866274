import ClOs.PageFrames

/-!
# Page directories and page tables

The kernel edits page directories and page tables only through the recursive
mapping: entry `1023` of the directory in CR3 is read as a page table, and the
frame it names is read once more.  `tableFrame` performs exactly this walk, so
nothing here assumes that entry `1023` maps the directory itself.
-/

namespace ClOs

def stackElfStart : ℕ := 0xBFFFF000

namespace Memory

def kernelStart : ℕ := 0xC0000000

def kernelMalloc : ℕ := 0xD0000000

def pageFlagPresent : ℕ := 1
def pageFlagWrite : ℕ := 2
def pageFlagUser : ℕ := 4

def pageFlagFrame : ℕ := 0xFFFFF000

def pageFlagOwner : ℕ := 0x200

def numPageDirs : ℕ := 256

/-- Paging state.  `word` is the part of physical memory that holds page
directories and page tables: frame number, then entry index.  Directories are
named by their kernel virtual addresses, as in the source. -/
structure Vm where
  frames : Frames
  word : ℕ → ℕ → ℕ
  cr3 : ℕ
  initialPageDir : ℕ
  pageDirs : ℕ → ℕ
  pageDirsUsed : ℕ → Bool
  memNumVpages : ℕ

/-- The physical frame behind a kernel virtual address of a static page. -/
def staticFrame (pointer : ℕ) : ℕ := sub32 pointer kernelStart / 0x1000

def memGetCurrentPageDir (vm : Vm) : ℕ := u32 (kernelStart + vm.cr3)

def memChangePageDir (vm : Vm) (pageDir : ℕ) : Vm :=
  { vm with cr3 := sub32 pageDir kernelStart }

/-- Write one entry of a page directory or page table. -/
def Vm.setWord (vm : Vm) (frame index value : ℕ) : Vm :=
  { vm with
    word := Function.update vm.word frame
      (Function.update (vm.word frame) index value) }

/-- The frame seen through `REC_PAGE_TABLE(i)`; `REC_PAGE_DIR` is
`REC_PAGE_TABLE(1023)`. -/
def tableFrame (vm : Vm) (i : ℕ) : Outcome ℕ :=
  let outer := vm.word (vm.cr3 / 0x1000) 1023
  if outer % 2 = 0 then .error .pageFault
  else
    let inner := vm.word (outer / 0x1000) i
    if inner % 2 = 0 then .error .pageFault else .ok (inner / 0x1000)

/-- Read entry `index` through `REC_PAGE_TABLE(i)`. -/
def readEntry (vm : Vm) (i index : ℕ) : Outcome ℕ := do
  let frame ← tableFrame vm i
  return vm.word frame index

/-- Write entry `index` through `REC_PAGE_TABLE(i)`. -/
def writeEntry (vm : Vm) (i index value : ℕ) : Outcome Vm := do
  let frame ← tableFrame vm i
  return vm.setWord frame index value

/-- The loop that zeroes entries `index, ..., index + count - 1` of a page
table. -/
def zeroEntries (i : ℕ) : ℕ → ℕ → Vm → Outcome Vm
  | 0, _, vm => .ok vm
  | count + 1, index, vm => do
      let vm ← writeEntry vm i index 0
      zeroEntries i count (index + 1) vm

/-- `sync_page_dirs`: copy the kernel half of `initial_page_dir` to every
directory in use. -/
def syncPageDirs (vm : Vm) : Vm :=
  { vm with
    word := fun frame index =>
      if 768 ≤ index ∧ index < 1024 ∧
          ∃ i < numPageDirs, vm.pageDirsUsed i = true ∧
            staticFrame (vm.pageDirs i) = frame then
        vm.word (staticFrame vm.initialPageDir) index &&&
          (0xFFFFFFFF - pageFlagOwner)
      else vm.word frame index }

/-- The switch to `initial_page_dir` that precedes an edit of the kernel
half. -/
def enterKernelHalf (virtAddr : ℕ) (vm : Vm) : Vm :=
  if kernelStart ≤ virtAddr ∧ memGetCurrentPageDir vm ≠ vm.initialPageDir then
    memChangePageDir vm vm.initialPageDir
  else vm

/-- The copy to all directories and the switch back to `prevPageDir` that
follow an edit of the kernel half; `prevPageDir` is `0` when no switch was
made. -/
def leaveKernelHalf (prevPageDir : ℕ) (vm : Vm) : Vm :=
  if prevPageDir ≠ 0 ∧ prevPageDir ≠ vm.initialPageDir then
    memChangePageDir (syncPageDirs vm) prevPageDir
  else vm

/-- Give directory entry `pdIndex` a zeroed page table if it has none. -/
def ensurePageTable (pdIndex pdeFlags : ℕ) (vm : Vm) : Outcome Vm := do
  let pde ← readEntry vm 1023 pdIndex
  if pde % 2 = 0 then
    let (ptPaddr, frames) ← pmmAllocPageFrame vm.frames
    let vm ← writeEntry { vm with frames := frames } 1023 pdIndex
      (ptPaddr ||| pdeFlags ||| pageFlagPresent ||| pageFlagWrite)
    zeroEntries pdIndex 1024 0 vm
  else return vm

def memMapPage (virtAddr phyAddr flags : ℕ) (vm : Vm) : Outcome Vm := do
  let prevPageDir :=
    if kernelStart ≤ virtAddr then memGetCurrentPageDir vm else 0
  let pdIndex := virtAddr / 0x400000
  let ptIndex := virtAddr / 0x1000 % 0x400
  let pdeFlags := flags &&& 0x3FF
  let vm ← ensurePageTable pdIndex pdeFlags (enterKernelHalf virtAddr vm)
  let vm ← writeEntry vm pdIndex ptIndex
    ((phyAddr &&& pageFlagFrame) ||| pdeFlags)
  return leaveKernelHalf prevPageDir
    { vm with memNumVpages := u32 (vm.memNumVpages + 1) }

/-- What a page of an address space is translated to: the frame and the flags of
the two entries.  Bit 7 of a directory entry makes it a page of 4 MiB. -/
def translate (word : ℕ → ℕ → ℕ) (dir page : ℕ) : Option (ℕ × ℕ × ℕ) :=
  let pde := word dir (page / 1024)
  if pde % 2 = 0 then none
  else if pde.testBit 7 then
    some (pde / 0x400000 * 1024 + page % 1024, pde % 0x1000, pde % 0x1000)
  else
    let pte := word (pde / 0x1000) (page % 1024)
    if pte % 2 = 0 then none
    else some (pte / 0x1000, pde % 0x1000, pte % 0x1000)

def touchPage (virtAddr : ℕ) (vm : Vm) : Outcome Unit :=
  match translate vm.word (vm.cr3 / 0x1000) (virtAddr / 0x1000) with
  | none => .error .pageFault
  | some _ => .ok ()

theorem touchPage_ends (virtAddr : ℕ) (vm : Vm) :
    (touchPage virtAddr vm).Ends := by
  unfold touchPage
  cases translate vm.word (vm.cr3 / 0x1000) (virtAddr / 0x1000) with
  | none => simp [Outcome.Ends]
  | some frame => exact Outcome.ends_ok _

/-! ## Frame accounting -/

theorem writeEntry_frames
    {vm next : Vm} {i index value : ℕ}
    (hwrite : writeEntry vm i index value = .ok next) :
    next.frames = vm.frames := by
  obtain ⟨frame, -, hnext⟩ := Outcome.bind_eq_ok.mp hwrite
  cases hnext
  rfl

theorem zeroEntries_frames
    {vm next : Vm} {i count index : ℕ}
    (hzero : zeroEntries i count index vm = .ok next) :
    next.frames = vm.frames := by
  induction count generalizing index vm with
  | zero =>
      cases hzero
      rfl
  | succ count ih =>
      obtain ⟨middle, hwrite, hrest⟩ := Outcome.bind_eq_ok.mp hzero
      exact (ih hrest).trans (writeEntry_frames hwrite)

theorem ensurePageTable_card
    {vm next : Vm} {pdIndex pdeFlags : ℕ}
    (htable : ensurePageTable pdIndex pdeFlags vm = .ok next) :
    vm.frames.allocated.card ≤ next.frames.allocated.card := by
  obtain ⟨pde, -, htable⟩ := Outcome.bind_eq_ok.mp htable
  split_ifs at htable with hpde
  · obtain ⟨⟨ptPaddr, frames⟩, halloc, htable⟩ :=
      Outcome.bind_eq_ok.mp htable
    rw [Outcome.bind_eq_ok] at htable
    obtain ⟨entered, henter, hzero⟩ := htable
    rw [zeroEntries_frames hzero, writeEntry_frames henter]
    exact le_trans (Nat.le_add_right _ _) (pmmAllocPageFrame_card halloc)
  · cases htable
    exact le_rfl

@[simp] theorem memChangePageDir_frames (vm : Vm) (pageDir : ℕ) :
    (memChangePageDir vm pageDir).frames = vm.frames := by
  simp [memChangePageDir]

@[simp] theorem syncPageDirs_frames (vm : Vm) :
    (syncPageDirs vm).frames = vm.frames := by
  simp [syncPageDirs]

@[simp] theorem enterKernelHalf_frames (virtAddr : ℕ) (vm : Vm) :
    (enterKernelHalf virtAddr vm).frames = vm.frames := by
  unfold enterKernelHalf
  split_ifs <;> simp

@[simp] theorem leaveKernelHalf_frames (prevPageDir : ℕ) (vm : Vm) :
    (leaveKernelHalf prevPageDir vm).frames = vm.frames := by
  unfold leaveKernelHalf
  split_ifs <;> simp

/-- Mapping a page may take one frame for a page table; it releases none. -/
theorem memMapPage_card
    {vm next : Vm} {virtAddr phyAddr flags : ℕ}
    (hmap : memMapPage virtAddr phyAddr flags vm = .ok next) :
    vm.frames.allocated.card ≤ next.frames.allocated.card := by
  obtain ⟨tabled, htable, hmap⟩ := Outcome.bind_eq_ok.mp hmap
  obtain ⟨written, hwrite, hmap⟩ := Outcome.bind_eq_ok.mp hmap
  cases hmap
  have hcard := ensurePageTable_card htable
  rw [enterKernelHalf_frames] at hcard
  rw [leaveKernelHalf_frames]
  simpa [writeEntry_frames hwrite] using hcard

/-! ## Mapping a page ends -/

theorem tableFrame_ends (vm : Vm) (i : ℕ) : (tableFrame vm i).Ends := by
  unfold tableFrame
  dsimp only
  split_ifs <;> simp [Outcome.Ends]

theorem writeEntry_ends (vm : Vm) (i index value : ℕ) :
    (writeEntry vm i index value).Ends :=
  (tableFrame_ends vm i).bind fun _ _ => Outcome.ends_ok _

theorem zeroEntries_ends (i count index : ℕ) (vm : Vm) :
    (zeroEntries i count index vm).Ends := by
  induction count generalizing index vm with
  | zero => exact Outcome.ends_ok _
  | succ count ih =>
      exact (writeEntry_ends vm i index 0).bind fun vm _ => ih (index + 1) vm

theorem memMapPage_ends (virtAddr phyAddr flags : ℕ) (vm : Vm) :
    (memMapPage virtAddr phyAddr flags vm).Ends := by
  refine Outcome.Ends.bind ?_ fun vm _ =>
    (writeEntry_ends _ _ _ _).bind fun _ _ => Outcome.ends_ok _
  refine Outcome.Ends.bind
    ((tableFrame_ends _ _).bind fun _ _ => Outcome.ends_ok _) ?_
  intro pde _
  split_ifs
  · exact (pmmAllocPageFrame_ends _).bind fun _ _ =>
      (writeEntry_ends _ _ _ _).bind fun _ _ => zeroEntries_ends _ _ _ _
  · exact Outcome.ends_ok _

end Memory

end ClOs
