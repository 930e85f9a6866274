import ClOs.PageTables

/-!
# Unmapping and page directories

`mem_unmap_page`, `vmm_new_page_dir` and `init_memory`, and what an edit through
the recursive mapping does to the words of memory when entry `1023` of the
directory in CR3 leads to a directory that maps itself.
-/

namespace ClOs.Memory

/-! ## Unmapping -/

/-- The switch back of the early returns of `mem_unmap_page`. -/
def restorePageDir (prevPageDir : ℕ) (vm : Vm) : Vm :=
  if prevPageDir ≠ 0 ∧ prevPageDir ≠ vm.initialPageDir then
    memChangePageDir vm prevPageDir
  else vm

/-- `pmm_free_page_frame`, which keeps the rest of the paging state. -/
def freeFrame (address : ℕ) (vm : Vm) : Outcome Vm := do
  return { vm with frames := ← pmmFreePageFrame address vm.frames }

def tableEmpty (vm : Vm) (i : ℕ) : Outcome Bool := do
  let frame ← tableFrame vm i
  return (List.range 1024).all (fun index => vm.word frame index % 2 = 0)

def freePage (pte : ℕ) (vm : Vm) : Outcome Vm :=
  if pte &&& pageFlagFrame ≠ 0 then freeFrame (pte &&& pageFlagFrame) vm
  else .ok vm

def dropPageTable (pdIndex : ℕ) (vm : Vm) : Outcome Vm := do
  let pde ← readEntry vm 1023 pdIndex
  let vm ← writeEntry vm 1023 pdIndex 0
  freeFrame (pde &&& pageFlagFrame) vm

/-- The part of `mem_unmap_page` that follows the two tests. -/
def unmapPresent (virtAddr pdIndex ptIndex pte : ℕ) (vm : Vm) :
    Outcome Vm := do
  let vm ← freePage pte vm
  let vm ← writeEntry vm pdIndex ptIndex 0
  let vm := { vm with memNumVpages := sub32 vm.memNumVpages 1 }
  if (← tableEmpty vm pdIndex) ∧ virtAddr < kernelStart then
    dropPageTable pdIndex vm
  else return vm

def memUnmapPage (virtAddr : ℕ) (vm : Vm) : Outcome Vm := do
  let prevPageDir :=
    if kernelStart ≤ virtAddr then memGetCurrentPageDir vm else 0
  let pdIndex := virtAddr / 0x400000
  let ptIndex := virtAddr / 0x1000 % 0x400
  let vm := enterKernelHalf virtAddr vm
  let pde ← readEntry vm 1023 pdIndex
  if pde % 2 = 0 then return restorePageDir prevPageDir vm
  else
    let pte ← readEntry vm pdIndex ptIndex
    if pte % 2 = 0 then return restorePageDir prevPageDir vm
    else
      return leaveKernelHalf prevPageDir
        (← unmapPresent virtAddr pdIndex ptIndex pte vm)

/-! ## Page directories -/

/-- The first entry of `page_dirs_used` that is 0. -/
def unusedPageDir (vm : Vm) : Option ℕ :=
  (List.range numPageDirs).find? (fun i => !vm.pageDirsUsed i)

/-- Entry 1023 of the page directory at a kernel virtual address. -/
def selfEntry (pageDir : ℕ) : ℕ :=
  sub32 pageDir kernelStart ||| pageFlagPresent ||| pageFlagWrite

/-- `vmm_new_page_dir`: the new directory, or 0. -/
def vmmNewPageDir (vm : Vm) : ℕ × Vm :=
  match unusedPageDir vm with
  | none => (0, vm)
  | some i =>
      let pd := vm.pageDirs i
      let cleared := { vm with
        pageDirsUsed := Function.update vm.pageDirsUsed i true
        word := Function.update vm.word (staticFrame pd) (fun _ => 0) }
      (pd, (syncPageDirs cleared).setWord (staticFrame pd) 1023 (selfEntry pd))

/-- The words that `boot.s` gives `initial_page_dir`. -/
def bootPageDir (initialPageDir : ℕ) : ℕ → ℕ := fun index =>
  if index = 0 ∨ index = 768 then 0x83
  else if index = 1023 then sub32 initialPageDir kernelStart + 3
  else 0

/-- The paging state in which `kmain` starts.  `page_dirs` is an array of
pages, and `memory` is what the other frames hold. -/
def bootVm (initialPageDir pageDirs : ℕ) (memory : ℕ → ℕ → ℕ) : Vm where
  frames := ⟨0, 0, 0, fun _ => 0⟩
  word := Function.update memory (staticFrame initialPageDir)
    (bootPageDir initialPageDir)
  cr3 := sub32 initialPageDir kernelStart
  initialPageDir := initialPageDir
  pageDirs i := pageDirs + 0x1000 * i
  pageDirsUsed _ := false
  memNumVpages := 0

/-- `init_memory`.  The second `memset` clears a quarter of `page_dirs_used`. -/
def initMemory (memHigh physicalAllocStart : ℕ) (vm : Vm) : Vm :=
  let initial := staticFrame vm.initialPageDir
  let edited := (vm.setWord initial 0 0).setWord initial 1023
    (selfEntry vm.initialPageDir)
  let cleared : ℕ → ℕ → ℕ := fun frame =>
    if ∃ i < numPageDirs, staticFrame (vm.pageDirs i) = frame then fun _ => 0
    else edited.word frame
  { vm with
    frames := pmmInit physicalAllocStart memHigh
    word := Function.update cleared (staticFrame (vm.pageDirs 0))
      (cleared initial)
    pageDirsUsed := Function.update
      (fun i => decide (64 ≤ i) && vm.pageDirsUsed i) 0 true
    memNumVpages := 0 }

/-! ## Words -/

/-- Write one word of memory. -/
def setAt (word : ℕ → ℕ → ℕ) (frame index value : ℕ) : ℕ → ℕ → ℕ :=
  Function.update word frame (Function.update (word frame) index value)

def clearTable (word : ℕ → ℕ → ℕ) (frame : ℕ) : ℕ → ℕ → ℕ := fun g j =>
  if g = frame ∧ j < 1024 then 0 else word g j

@[simp] theorem setAt_same
    (word : ℕ → ℕ → ℕ) (frame index value : ℕ) :
    setAt word frame index value frame index = value := by
  simp [setAt]

theorem setAt_of_ne
    (word : ℕ → ℕ → ℕ) {frame index g j : ℕ} (value : ℕ)
    (h : g ≠ frame ∨ j ≠ index) :
    setAt word frame index value g j = word g j := by
  unfold setAt
  by_cases hg : g = frame
  · subst hg
    have hj : j ≠ index := by simpa using h
    simp [hj]
  · simp [hg]

theorem clearTable_same
    (word : ℕ → ℕ → ℕ) (frame : ℕ) {j : ℕ} (hj : j < 1024) :
    clearTable word frame frame j = 0 := by
  simp [clearTable, hj]

theorem clearTable_of_ne
    (word : ℕ → ℕ → ℕ) {frame g : ℕ} (j : ℕ) (hg : g ≠ frame) :
    clearTable word frame g j = word g j := by
  simp [clearTable, hg]

/-- The same state over other words. -/
def Vm.withWord (vm : Vm) (word : ℕ → ℕ → ℕ) : Vm := { vm with word := word }

@[simp] theorem Vm.withWord_word (vm : Vm) (word : ℕ → ℕ → ℕ) :
    (vm.withWord word).word = word := rfl

@[simp] theorem Vm.withWord_frames (vm : Vm) (word : ℕ → ℕ → ℕ) :
    (vm.withWord word).frames = vm.frames := rfl

@[simp] theorem Vm.withWord_cr3 (vm : Vm) (word : ℕ → ℕ → ℕ) :
    (vm.withWord word).cr3 = vm.cr3 := rfl

@[simp] theorem Vm.withWord_self (vm : Vm) : vm.withWord vm.word = vm := rfl

@[simp] theorem Vm.withWord_withWord
    (vm : Vm) (word word' : ℕ → ℕ → ℕ) :
    (vm.withWord word).withWord word' = vm.withWord word' := rfl

theorem Vm.setWord_eq (vm : Vm) (frame index value : ℕ) :
    vm.setWord frame index value =
      vm.withWord (setAt vm.word frame index value) := rfl

/-- An entry that is present and names a frame. -/
def Points (word : ℕ → ℕ → ℕ) (frame index target : ℕ) : Prop :=
  word frame index % 2 = 1 ∧ word frame index / 0x1000 = target

theorem Points.congr
    {word word' : ℕ → ℕ → ℕ} {frame index target : ℕ}
    (h : Points word frame index target)
    (hsame : word' frame index = word frame index) :
    Points word' frame index target := by
  unfold Points at h ⊢
  rwa [hsame]

theorem entry_frame (address : ℕ) {flags : ℕ} (hflags : flags < 0x1000) :
    (address ||| flags) / 0x1000 = address / 0x1000 := by
  have hdiv := Nat.or_div_two_pow (a := address) (b := flags) (n := 12)
  have hzero : flags / 2 ^ 12 = 0 := Nat.div_eq_of_lt hflags
  rw [hzero, Nat.or_zero] at hdiv
  exact hdiv

theorem tableEntry_spec (address : ℕ) {flags : ℕ} (hflags : flags < 0x400) :
    (address ||| flags ||| pageFlagPresent ||| pageFlagWrite) % 2 = 1 ∧
      (address ||| flags ||| pageFlagPresent ||| pageFlagWrite) / 0x1000 =
        address / 0x1000 := by
  constructor
  · have hbit : (address ||| flags ||| pageFlagPresent |||
        pageFlagWrite).testBit 0 = true := by
      simp [pageFlagPresent]
    simpa only [Nat.testBit_zero, decide_eq_true_eq] using hbit
  · unfold pageFlagWrite pageFlagPresent
    rw [entry_frame _ (by norm_num), entry_frame _ (by norm_num),
      entry_frame _ (by omega)]

/-! ## The recursive mapping -/

/-- Entry 1023 of the directory in CR3 leads to `dir`, which maps itself. -/
structure Window (vm : Vm) (dir : ℕ) : Prop where
  outer : Points vm.word (vm.cr3 / 0x1000) 1023 dir
  self : Points vm.word dir 1023 dir

section

variable {vm : Vm} {dir : ℕ}

theorem Window.tableFrame (h : Window vm dir) {i target : ℕ}
    (htable : Points vm.word dir i target) :
    tableFrame vm i = .ok target := by
  unfold Memory.tableFrame
  have houter : ¬vm.word (vm.cr3 / 0x1000) 1023 % 2 = 0 := by
    have := h.outer.1
    omega
  have hinner : ¬vm.word dir i % 2 = 0 := by
    have := htable.1
    omega
  simp [houter, h.outer.2, hinner, htable.2]

theorem Window.readDirectory (h : Window vm dir) (i : ℕ) :
    readEntry vm 1023 i = .ok (vm.word dir i) := by
  simp [readEntry, h.tableFrame h.self, bind, Except.bind, pure, Except.pure]

theorem Window.readTable (h : Window vm dir) {i target : ℕ}
    (htable : Points vm.word dir i target) (index : ℕ) :
    readEntry vm i index = .ok (vm.word target index) := by
  simp [readEntry, h.tableFrame htable, bind, Except.bind, pure, Except.pure]

theorem Window.writeDirectory (h : Window vm dir) (i value : ℕ) :
    writeEntry vm 1023 i value =
      .ok (vm.withWord (setAt vm.word dir i value)) := by
  simp [writeEntry, h.tableFrame h.self, bind, Except.bind, pure,
    Except.pure, Vm.setWord_eq]

theorem Window.writeTable (h : Window vm dir) {i target : ℕ}
    (htable : Points vm.word dir i target) (index value : ℕ) :
    writeEntry vm i index value =
      .ok (vm.withWord (setAt vm.word target index value)) := by
  simp [writeEntry, h.tableFrame htable, bind, Except.bind, pure,
    Except.pure, Vm.setWord_eq]

/-- Words that keep both entries 1023 keep the window. -/
theorem Window.congr
    (h : Window vm dir) {next : Vm} (hcr3 : next.cr3 = vm.cr3)
    (houter : next.word (vm.cr3 / 0x1000) 1023 =
      vm.word (vm.cr3 / 0x1000) 1023)
    (hself : next.word dir 1023 = vm.word dir 1023) :
    Window next dir where
  outer := by
    rw [hcr3]
    exact h.outer.congr houter
  self := h.self.congr hself

/-- Clearing a page table that is no directory clears exactly its words. -/
theorem Window.zeroEntries
    (h : Window vm dir) {i target : ℕ}
    (htable : Points vm.word dir i target)
    (hdir : target ≠ dir) (hcr3 : target ≠ vm.cr3 / 0x1000)
    (count index : ℕ) :
    zeroEntries i count index vm = .ok (vm.withWord (fun g j =>
      if g = target ∧ index ≤ j ∧ j < index + count then 0
      else vm.word g j)) := by
  induction count generalizing vm index with
  | zero =>
      have hsame : (fun g j => if g = target ∧ index ≤ j ∧ j < index + 0 then 0
          else vm.word g j) = vm.word := by
        funext g j
        rw [if_neg (by omega)]
      rw [hsame]
      rfl
  | succ count ih =>
      rw [Memory.zeroEntries, h.writeTable htable]
      simp only [bind, Except.bind]
      have hkeep : ∀ g ≠ target, ∀ j,
          setAt vm.word target index 0 g j = vm.word g j :=
        fun g hg j => setAt_of_ne _ _ (.inl hg)
      have hwindow : Window (vm.withWord
          (setAt vm.word target index 0)) dir :=
        h.congr rfl (hkeep _ hcr3.symm _) (hkeep _ hdir.symm _)
      rw [ih hwindow (htable.congr (hkeep _ hdir.symm _)) hcr3,
        Vm.withWord_withWord, Vm.withWord_word]
      congr 2
      funext g j
      by_cases hword : g = target ∧ j = index
      · obtain ⟨rfl, rfl⟩ := hword
        rw [if_neg (by omega), if_pos (by omega), setAt_same]
      · rw [setAt_of_ne _ _ (by omega)]
        by_cases hrow : g = target ∧ index ≤ j ∧ j < index + (count + 1)
        · rw [if_pos (by omega), if_pos hrow]
        · rw [if_neg (by omega), if_neg hrow]

def tableEntry (address flags : ℕ) : ℕ :=
  address ||| flags ||| pageFlagPresent ||| pageFlagWrite

theorem Window.ensurePageTable_present
    (h : Window vm dir) {pdIndex flags : ℕ}
    (hpresent : vm.word dir pdIndex % 2 = 1) :
    Memory.ensurePageTable pdIndex flags vm = .ok vm := by
  unfold Memory.ensurePageTable
  rw [h.readDirectory]
  simp only [bind, Except.bind]
  rw [if_neg (by omega)]
  rfl

/-- The words after a page table has been made. -/
def newTable (word : ℕ → ℕ → ℕ) (dir pdIndex address flags : ℕ) :
    ℕ → ℕ → ℕ :=
  clearTable (setAt word dir pdIndex (tableEntry address flags))
    (address / 0x1000)

theorem newTable_points
    (word : ℕ → ℕ → ℕ) {dir address flags : ℕ} (pdIndex : ℕ)
    (hflags : flags < 0x400) (hdir : address / 0x1000 ≠ dir) :
    Points (newTable word dir pdIndex address flags) dir pdIndex
      (address / 0x1000) := by
  unfold Points newTable
  rw [clearTable_of_ne _ _ hdir.symm, setAt_same]
  exact tableEntry_spec address hflags

theorem Window.newTable
    (h : Window vm dir) {pdIndex address flags : ℕ} (frames : Frames)
    (hpd : pdIndex < 1023) (hdir : address / 0x1000 ≠ dir)
    (hcr3 : address / 0x1000 ≠ vm.cr3 / 0x1000) :
    Window { vm with
      frames := frames
      word := Memory.newTable vm.word dir pdIndex address flags } dir := by
  have hkeep : ∀ g ≠ address / 0x1000,
      Memory.newTable vm.word dir pdIndex address flags g 1023 =
        vm.word g 1023 := by
    intro g hg
    unfold Memory.newTable
    rw [clearTable_of_ne _ _ hg, setAt_of_ne _ _ (.inr (by omega))]
  exact h.congr rfl (hkeep _ hcr3.symm) (hkeep _ hdir.symm)

theorem Window.ensurePageTable_absent
    (h : Window vm dir) {pdIndex flags address : ℕ} {frames : Frames}
    (hpd : pdIndex < 1023) (hflags : flags < 0x400)
    (hdir : address / 0x1000 ≠ dir)
    (hcr3 : address / 0x1000 ≠ vm.cr3 / 0x1000)
    (habsent : vm.word dir pdIndex % 2 = 0)
    (halloc : pmmAllocPageFrame vm.frames = .ok (address, frames)) :
    Memory.ensurePageTable pdIndex flags vm = .ok { vm with
      frames := frames
      word := Memory.newTable vm.word dir pdIndex address flags } := by
  have hallocated : Window { vm with frames := frames } dir :=
    ⟨h.outer, h.self⟩
  have hpoints : Points (setAt vm.word dir pdIndex
      (tableEntry address flags)) dir pdIndex (address / 0x1000) := by
    unfold Points
    rw [setAt_same]
    exact tableEntry_spec address hflags
  have hself : ∀ g, setAt vm.word dir pdIndex
      (tableEntry address flags) g 1023 = vm.word g 1023 :=
    fun g => setAt_of_ne _ _ (.inr (by omega))
  have hwindow : Window (Vm.withWord { vm with frames := frames }
      (setAt vm.word dir pdIndex (tableEntry address flags))) dir :=
    hallocated.congr rfl (hself _) (hself _)
  unfold Memory.ensurePageTable
  rw [h.readDirectory]
  simp only [bind, Except.bind]
  rw [if_pos habsent, halloc]
  simp only
  rw [hallocated.writeDirectory]
  change Memory.zeroEntries pdIndex 1024 0 (Vm.withWord
    { vm with frames := frames } (setAt vm.word dir pdIndex
      (tableEntry address flags))) = _
  rw [hwindow.zeroEntries hpoints hdir hcr3]
  simp only [Vm.withWord, Nat.zero_le, true_and, Nat.zero_add]
  rfl

theorem Window.ensurePageTable
    (h : Window vm dir) {pdIndex flags : ℕ} {next : Vm}
    (hpd : pdIndex < 1023) (hflags : flags < 0x400)
    (hfresh : ∀ address frames,
      pmmAllocPageFrame vm.frames = .ok (address, frames) →
        address / 0x1000 ≠ dir ∧ address / 0x1000 ≠ vm.cr3 / 0x1000)
    (hok : ensurePageTable pdIndex flags vm = .ok next) :
    (vm.word dir pdIndex % 2 = 1 ∧ next = vm) ∨
      vm.word dir pdIndex % 2 = 0 ∧ ∃ address frames,
        pmmAllocPageFrame vm.frames = .ok (address, frames) ∧
          next = { vm with
            frames := frames
            word := Memory.newTable vm.word dir pdIndex address flags } := by
  rcases Nat.mod_two_eq_zero_or_one (vm.word dir pdIndex) with
    habsent | hpresent
  · right
    refine ⟨habsent, ?_⟩
    cases halloc : pmmAllocPageFrame vm.frames with
    | error halt =>
        unfold Memory.ensurePageTable at hok
        rw [h.readDirectory] at hok
        simp [bind, Except.bind, habsent, halloc] at hok
    | ok taken =>
        obtain ⟨address, frames⟩ := taken
        obtain ⟨hdir, hcr3⟩ := hfresh address frames halloc
        rw [h.ensurePageTable_absent hpd hflags hdir hcr3 habsent halloc,
          Except.ok.injEq] at hok
        exact ⟨address, frames, rfl, hok.symm⟩
  · left
    rw [h.ensurePageTable_present hpresent, Except.ok.injEq] at hok
    exact ⟨hpresent, hok.symm⟩

/-- What mapping a page in a directory does: it sets one word of a page table,
which is a new one if the directory had none. -/
inductive MapsIn (vm : Vm) (dir pdIndex ptIndex flags entry : ℕ) : Vm → Prop
  | present {target count : ℕ} (htable : Points vm.word dir pdIndex target) :
      MapsIn vm dir pdIndex ptIndex flags entry { vm with
        word := setAt vm.word target ptIndex entry
        memNumVpages := count }
  | absent {address count : ℕ} {frames : Frames}
      (habsent : vm.word dir pdIndex % 2 = 0)
      (halloc : pmmAllocPageFrame vm.frames = .ok (address, frames)) :
      MapsIn vm dir pdIndex ptIndex flags entry { vm with
        frames := frames
        word := setAt (newTable vm.word dir pdIndex address flags)
          (address / 0x1000) ptIndex entry
        memNumVpages := count }

/-- The body of `mem_map_page` between the changes of CR3. -/
theorem Window.mapsIn
    (h : Window vm dir) {pdIndex ptIndex flags entry count : ℕ}
    {tabled written : Vm}
    (hpd : pdIndex < 1023) (hflags : flags < 0x400)
    (hfresh : ∀ address frames,
      pmmAllocPageFrame vm.frames = .ok (address, frames) →
        address / 0x1000 ≠ dir ∧ address / 0x1000 ≠ vm.cr3 / 0x1000)
    (htable : Memory.ensurePageTable pdIndex flags vm = .ok tabled)
    (hwrite : writeEntry tabled pdIndex ptIndex entry = .ok written) :
    MapsIn vm dir pdIndex ptIndex flags entry
      { written with memNumVpages := count } := by
  rcases h.ensurePageTable hpd hflags hfresh htable with
    ⟨hpresent, rfl⟩ | ⟨habsent, address, frames, halloc, rfl⟩
  · have hpoints : Points tabled.word dir pdIndex
        (tabled.word dir pdIndex / 0x1000) := ⟨hpresent, rfl⟩
    rw [h.writeTable hpoints, Except.ok.injEq] at hwrite
    rw [← hwrite]
    exact .present hpoints
  · obtain ⟨hdir, hcr3⟩ := hfresh address frames halloc
    rw [(h.newTable frames hpd hdir hcr3).writeTable
      (newTable_points vm.word pdIndex hflags hdir), Except.ok.injEq] at hwrite
    rw [← hwrite]
    exact .absent habsent halloc

/-- The body of `mem_map_page` returns when the frame allocator does. -/
theorem Window.maps_ok
    (h : Window vm dir) {pdIndex flags address : ℕ} {frames : Frames}
    (hpd : pdIndex < 1023) (hflags : flags < 0x400)
    (hdir : address / 0x1000 ≠ dir)
    (hcr3 : address / 0x1000 ≠ vm.cr3 / 0x1000)
    (halloc : pmmAllocPageFrame vm.frames = .ok (address, frames))
    (ptIndex entry : ℕ) :
    ∃ tabled written, Memory.ensurePageTable pdIndex flags vm = .ok tabled ∧
      writeEntry tabled pdIndex ptIndex entry = .ok written := by
  rcases Nat.mod_two_eq_zero_or_one (vm.word dir pdIndex) with
    habsent | hpresent
  · exact ⟨_, _,
      h.ensurePageTable_absent hpd hflags hdir hcr3 habsent halloc,
      (h.newTable frames hpd hdir hcr3).writeTable
        (newTable_points vm.word pdIndex hflags hdir) ptIndex entry⟩
  · have hpoints : Points vm.word dir pdIndex
        (vm.word dir pdIndex / 0x1000) := ⟨hpresent, rfl⟩
    exact ⟨_, _, h.ensurePageTable_present hpresent,
      h.writeTable hpoints ptIndex entry⟩

/-- What unmapping a page in a directory does: nothing, or it clears one word of
a page table, or it also removes the table, which is empty then. -/
inductive UnmapsIn (vm : Vm) (dir pdIndex ptIndex : ℕ) (user : Prop) : Vm → Prop
  | none
      (hnone : ∀ target, Points vm.word dir pdIndex target →
        vm.word target ptIndex % 2 = 0) :
      UnmapsIn vm dir pdIndex ptIndex user vm
  | page {target count : ℕ} {freed : Vm}
      (htable : Points vm.word dir pdIndex target)
      (hpage : vm.word target ptIndex % 2 = 1)
      (hfree : freePage (vm.word target ptIndex) vm = .ok freed) :
      UnmapsIn vm dir pdIndex ptIndex user { vm with
        frames := freed.frames
        word := setAt vm.word target ptIndex 0
        memNumVpages := count }
  | table {target count : ℕ} {freed : Vm} {frames : Frames}
      (huser : user)
      (htable : Points vm.word dir pdIndex target)
      (hpage : vm.word target ptIndex % 2 = 1)
      (hfree : freePage (vm.word target ptIndex) vm = .ok freed)
      (hempty : ∀ j < 1024, setAt vm.word target ptIndex 0 target j % 2 = 0)
      (hdrop : pmmFreePageFrame (vm.word dir pdIndex &&& pageFlagFrame)
        freed.frames = .ok frames) :
      UnmapsIn vm dir pdIndex ptIndex user { vm with
        frames := frames
        word := setAt (setAt vm.word target ptIndex 0) dir pdIndex 0
        memNumVpages := count }

theorem freePage_eq
    {vm freed : Vm} {pte : ℕ} (h : freePage pte vm = .ok freed) :
    freed = { vm with frames := freed.frames } := by
  unfold freePage freeFrame at h
  split_ifs at h
  · rw [Outcome.bind_eq_ok] at h
    obtain ⟨frames, -, h⟩ := h
    simp only [pure, Except.pure, Except.ok.injEq] at h
    rw [← h]
  · rw [Except.ok.injEq] at h
    rw [← h]

/-- The body of `mem_unmap_page` between the changes of CR3. -/
theorem Window.unmapPresent
    (h : Window vm dir) {virtAddr pdIndex ptIndex target : ℕ} {next : Vm}
    (htable : Points vm.word dir pdIndex target)
    (hdir : target ≠ dir) (hcr3 : target ≠ vm.cr3 / 0x1000)
    (hpage : vm.word target ptIndex % 2 = 1)
    (hok : Memory.unmapPresent virtAddr pdIndex ptIndex
      (vm.word target ptIndex) vm = .ok next) :
    UnmapsIn vm dir pdIndex ptIndex (virtAddr < kernelStart) next := by
  unfold Memory.unmapPresent at hok
  rw [Outcome.bind_eq_ok] at hok
  obtain ⟨freed, hfree, hok⟩ := hok
  have hsame := freePage_eq hfree
  have hword : freed.word = vm.word := by rw [hsame]
  have hcr3same : freed.cr3 = vm.cr3 := by rw [hsame]
  have hwindow : Window freed dir :=
    h.congr hcr3same (by rw [hword]) (by rw [hword])
  rw [hwindow.writeTable (by rwa [hword])] at hok
  simp only [bind, Except.bind] at hok
  rw [hword] at hok
  have hkeep : ∀ g ≠ target, ∀ j,
      setAt vm.word target ptIndex 0 g j = vm.word g j :=
    fun g hg j => setAt_of_ne _ _ (.inl hg)
  generalize hcount : sub32 _ 1 = count at hok
  have hcleared : Window { freed with
      word := setAt vm.word target ptIndex 0
      memNumVpages := count } dir :=
    h.congr hcr3same (hkeep _ hcr3.symm _) (hkeep _ hdir.symm _)
  have hpoints : Points (setAt vm.word target ptIndex 0) dir pdIndex target :=
    htable.congr (hkeep _ hdir.symm _)
  have hempty : tableEmpty { freed with
      word := setAt vm.word target ptIndex 0
      memNumVpages := count } pdIndex = .ok ((List.range 1024).all
        (fun j => setAt vm.word target ptIndex 0 target j % 2 = 0)) := by
    simp only [tableEmpty, hcleared.tableFrame hpoints, bind, Except.bind]
    rfl
  simp only [Vm.withWord, hempty] at hok
  split_ifs at hok with hdrop
  · obtain ⟨hall, huser⟩ := hdrop
    unfold dropPageTable freeFrame at hok
    rw [hcleared.readDirectory] at hok
    simp only [bind, Except.bind] at hok
    rw [hcleared.writeDirectory] at hok
    simp only [Vm.withWord, hkeep _ hdir.symm] at hok
    cases hframes : pmmFreePageFrame (vm.word dir pdIndex &&& pageFlagFrame)
        freed.frames with
    | error halt => simp [hframes] at hok
    | ok frames =>
        simp only [hframes, pure, Except.pure, Except.ok.injEq] at hok
        rw [← hok, hsame]
        exact .table huser htable hpage hfree (by simpa using hall) hframes
  · simp only [pure, Except.pure, Except.ok.injEq] at hok
    have hnext : next = { vm with
        frames := freed.frames
        word := setAt vm.word target ptIndex 0
        memNumVpages := count } := by
      rw [← hok, hsame]
    rw [hnext]
    exact .page htable hpage hfree

/-- The body of `mem_unmap_page` after the change of CR3, with its tests. -/
theorem Window.unmapsIn
    (h : Window vm dir) {virtAddr pdIndex ptIndex prevPageDir : ℕ} {next : Vm}
    (htables : ∀ target, Points vm.word dir pdIndex target →
      target ≠ dir ∧ target ≠ vm.cr3 / 0x1000)
    (hok : (do
      let pde ← readEntry vm 1023 pdIndex
      if pde % 2 = 0 then return restorePageDir prevPageDir vm
      else
        let pte ← readEntry vm pdIndex ptIndex
        if pte % 2 = 0 then return restorePageDir prevPageDir vm
        else
          return leaveKernelHalf prevPageDir
            (← Memory.unmapPresent virtAddr pdIndex ptIndex pte vm)) =
      Except.ok next) :
    ((∀ target, Points vm.word dir pdIndex target →
        vm.word target ptIndex % 2 = 0) ∧
          next = restorePageDir prevPageDir vm) ∨
      ∃ target unmapped, Points vm.word dir pdIndex target ∧
        vm.word target ptIndex % 2 = 1 ∧
        UnmapsIn vm dir pdIndex ptIndex (virtAddr < kernelStart) unmapped ∧
        next = leaveKernelHalf prevPageDir unmapped := by
  rw [h.readDirectory] at hok
  simp only [bind, Except.bind] at hok
  split_ifs at hok with habsent
  · simp only [pure, Except.pure, Except.ok.injEq] at hok
    refine .inl ⟨fun target htable => ?_, hok.symm⟩
    have := htable.1
    omega
  · have htable : Points vm.word dir pdIndex
        (vm.word dir pdIndex / 0x1000) := ⟨by omega, rfl⟩
    obtain ⟨hdir, hcr3⟩ := htables _ htable
    rw [h.readTable htable] at hok
    simp only at hok
    split_ifs at hok with hnone
    · simp only [pure, Except.pure, Except.ok.injEq] at hok
      refine .inl ⟨fun target hpoints => ?_, hok.symm⟩
      rwa [← hpoints.2]
    · cases hpresent : Memory.unmapPresent virtAddr pdIndex ptIndex
          (vm.word (vm.word dir pdIndex / 0x1000) ptIndex) vm with
      | error halt => simp [hpresent] at hok
      | ok unmapped =>
          simp only [hpresent, pure, Except.pure, Except.ok.injEq] at hok
          have hpage : vm.word (vm.word dir pdIndex / 0x1000) ptIndex % 2 =
              1 := by omega
          exact .inr ⟨_, unmapped, htable, hpage,
            h.unmapPresent htable hdir hcr3 hpage hpresent, hok.symm⟩

end

/-! ## The calls -/

section

variable {vm next : Vm} {dir virtAddr : ℕ}

theorem enterKernelHalf_user (vm : Vm) (huser : virtAddr < kernelStart) :
    enterKernelHalf virtAddr vm = vm := by
  unfold enterKernelHalf
  rw [if_neg (by omega)]

/-- A kernel pointer comes back from CR3. -/
theorem memGetCurrentPageDir_change
    (vm : Vm) {pageDir : ℕ} (hlow : kernelStart ≤ pageDir)
    (hhigh : pageDir < 4294967296) :
    memGetCurrentPageDir (memChangePageDir vm pageDir) = pageDir := by
  unfold memGetCurrentPageDir memChangePageDir
  simp only [sub32_of_le hlow hhigh]
  rw [Nat.add_sub_cancel' hlow, u32_of_lt hhigh]

theorem enterKernelHalf_kernel
    (vm : Vm) {pageDir : ℕ} (hlow : kernelStart ≤ pageDir)
    (hhigh : pageDir < 4294967296) (hkernel : kernelStart ≤ virtAddr) :
    enterKernelHalf virtAddr (memChangePageDir vm pageDir) =
      memChangePageDir vm vm.initialPageDir := by
  unfold enterKernelHalf
  rw [memGetCurrentPageDir_change vm hlow hhigh]
  split_ifs with hswitch
  · rfl
  · have hsame : pageDir = vm.initialPageDir := by
      by_contra hne
      exact hswitch ⟨hkernel, hne⟩
    rw [hsame]

theorem memMapPage_user
    (h : Window vm dir) {phyAddr flags : ℕ}
    (huser : virtAddr < kernelStart)
    (hfresh : ∀ address frames,
      pmmAllocPageFrame vm.frames = .ok (address, frames) →
        address / 0x1000 ≠ dir ∧ address / 0x1000 ≠ vm.cr3 / 0x1000)
    (hok : memMapPage virtAddr phyAddr flags vm = .ok next) :
    MapsIn vm dir (virtAddr / 0x400000) (virtAddr / 0x1000 % 0x400)
      (flags &&& 0x3FF) ((phyAddr &&& pageFlagFrame) ||| (flags &&& 0x3FF))
      next := by
  have hstart : kernelStart = 3221225472 := rfl
  unfold memMapPage at hok
  rw [if_neg (by omega), enterKernelHalf_user vm huser] at hok
  rw [Outcome.bind_eq_ok] at hok
  obtain ⟨tabled, htable, hok⟩ := hok
  rw [Outcome.bind_eq_ok] at hok
  obtain ⟨written, hwrite, hok⟩ := hok
  simp only [pure, Except.pure, Except.ok.injEq, leaveKernelHalf, ne_eq,
    not_true, false_and, if_false] at hok
  rw [← hok]
  exact h.mapsIn (by omega) (Nat.and_lt_two_pow flags (n := 10) (by norm_num))
    hfresh htable hwrite

/-- `mem_map_page` of an address of the kernel half below the recursive mapping
edits `initial_page_dir`. -/
theorem memMapPage_kernel
    {pageDir phyAddr flags : ℕ} (hlow : kernelStart ≤ pageDir)
    (hhigh : pageDir < 4294967296)
    (h : Window (memChangePageDir vm vm.initialPageDir) dir)
    (hkernel : kernelStart ≤ virtAddr) (hbelow : virtAddr < 0xFFC00000)
    (hfresh : ∀ address frames,
      pmmAllocPageFrame vm.frames = .ok (address, frames) →
        address / 0x1000 ≠ dir ∧
          address / 0x1000 ≠ staticFrame vm.initialPageDir)
    (hok : memMapPage virtAddr phyAddr flags (memChangePageDir vm pageDir) =
      .ok next) :
    ∃ mapped, MapsIn (memChangePageDir vm vm.initialPageDir) dir
        (virtAddr / 0x400000) (virtAddr / 0x1000 % 0x400) (flags &&& 0x3FF)
        ((phyAddr &&& pageFlagFrame) ||| (flags &&& 0x3FF)) mapped ∧
      next = leaveKernelHalf pageDir mapped := by
  unfold memMapPage at hok
  rw [if_pos hkernel, memGetCurrentPageDir_change vm hlow hhigh,
    enterKernelHalf_kernel vm hlow hhigh hkernel] at hok
  rw [Outcome.bind_eq_ok] at hok
  obtain ⟨tabled, htable, hok⟩ := hok
  rw [Outcome.bind_eq_ok] at hok
  obtain ⟨written, hwrite, hok⟩ := hok
  simp only [pure, Except.pure, Except.ok.injEq] at hok
  exact ⟨_, h.mapsIn (by omega)
    (Nat.and_lt_two_pow flags (n := 10) (by norm_num)) hfresh htable hwrite,
    hok.symm⟩

theorem memMapPage_user_ok
    (h : Window vm dir) {phyAddr flags address : ℕ} {frames : Frames}
    (huser : virtAddr < kernelStart)
    (hdir : address / 0x1000 ≠ dir)
    (hcr3 : address / 0x1000 ≠ vm.cr3 / 0x1000)
    (halloc : pmmAllocPageFrame vm.frames = .ok (address, frames)) :
    ∃ next, memMapPage virtAddr phyAddr flags vm = .ok next := by
  have hstart : kernelStart = 3221225472 := rfl
  have hindex : virtAddr / 0x400000 < 1023 := by omega
  have hflags : flags &&& 0x3FF < 0x400 :=
    Nat.and_lt_two_pow flags (n := 10) (by norm_num)
  obtain ⟨tabled, written, htable, hwrite⟩ := h.maps_ok hindex hflags hdir hcr3
    halloc (virtAddr / 0x1000 % 0x400)
    ((phyAddr &&& pageFlagFrame) ||| (flags &&& 0x3FF))
  unfold memMapPage
  rw [enterKernelHalf_user vm huser]
  simp only [htable, bind, Except.bind, hwrite]
  exact ⟨_, rfl⟩

theorem memMapPage_kernel_ok
    {pageDir phyAddr flags address : ℕ} {frames : Frames}
    (hlow : kernelStart ≤ pageDir) (hhigh : pageDir < 4294967296)
    (h : Window (memChangePageDir vm vm.initialPageDir) dir)
    (hkernel : kernelStart ≤ virtAddr) (hbelow : virtAddr < 0xFFC00000)
    (hdir : address / 0x1000 ≠ dir)
    (hcr3 : address / 0x1000 ≠ staticFrame vm.initialPageDir)
    (halloc : pmmAllocPageFrame vm.frames = .ok (address, frames)) :
    ∃ next, memMapPage virtAddr phyAddr flags (memChangePageDir vm pageDir) =
      .ok next := by
  have hindex : virtAddr / 0x400000 < 1023 := by omega
  have hflags : flags &&& 0x3FF < 0x400 :=
    Nat.and_lt_two_pow flags (n := 10) (by norm_num)
  obtain ⟨tabled, written, htable, hwrite⟩ := h.maps_ok hindex hflags hdir hcr3
    halloc (virtAddr / 0x1000 % 0x400)
    ((phyAddr &&& pageFlagFrame) ||| (flags &&& 0x3FF))
  unfold memMapPage
  rw [enterKernelHalf_kernel vm hlow hhigh hkernel]
  simp only [htable, bind, Except.bind, hwrite]
  exact ⟨_, rfl⟩

theorem memUnmapPage_user
    (h : Window vm dir) (huser : virtAddr < kernelStart)
    (htables : ∀ target, Points vm.word dir (virtAddr / 0x400000) target →
      target ≠ dir ∧ target ≠ vm.cr3 / 0x1000)
    (hok : memUnmapPage virtAddr vm = .ok next) :
    UnmapsIn vm dir (virtAddr / 0x400000) (virtAddr / 0x1000 % 0x400)
      (virtAddr < kernelStart) next := by
  unfold memUnmapPage at hok
  rw [if_neg (by omega), enterKernelHalf_user vm huser] at hok
  rcases h.unmapsIn htables hok with
    ⟨hnone, hnext⟩ | ⟨-, unmapped, -, -, hunmaps, hnext⟩
  · have hsame : next = vm := by
      rw [hnext]
      simp [restorePageDir]
    rw [hsame]
    exact .none hnone
  · have hsame : next = unmapped := by
      rw [hnext]
      simp [leaveKernelHalf]
    rwa [hsame]

theorem memUnmapPage_kernel
    {pageDir : ℕ} (hlow : kernelStart ≤ pageDir)
    (hhigh : pageDir < 4294967296)
    (h : Window (memChangePageDir vm vm.initialPageDir) dir)
    (hkernel : kernelStart ≤ virtAddr)
    (htables : ∀ target, Points vm.word dir (virtAddr / 0x400000) target →
      target ≠ dir ∧ target ≠ staticFrame vm.initialPageDir)
    (hok : memUnmapPage virtAddr (memChangePageDir vm pageDir) = .ok next) :
    ((∀ target, Points vm.word dir (virtAddr / 0x400000) target →
        vm.word target (virtAddr / 0x1000 % 0x400) % 2 = 0) ∧
          next = memChangePageDir vm pageDir) ∨
      ∃ target unmapped, Points vm.word dir (virtAddr / 0x400000) target ∧
        vm.word target (virtAddr / 0x1000 % 0x400) % 2 = 1 ∧
        UnmapsIn (memChangePageDir vm vm.initialPageDir) dir
          (virtAddr / 0x400000) (virtAddr / 0x1000 % 0x400)
          (virtAddr < kernelStart) unmapped ∧
        next = leaveKernelHalf pageDir unmapped := by
  unfold memUnmapPage at hok
  rw [if_pos hkernel, memGetCurrentPageDir_change vm hlow hhigh,
    enterKernelHalf_kernel vm hlow hhigh hkernel] at hok
  rcases h.unmapsIn htables hok with ⟨hnone, hnext⟩ | hunmaps
  · refine .inl ⟨hnone, ?_⟩
    rw [hnext]
    unfold restorePageDir
    split_ifs with hswitch
    · rfl
    · have hstart : kernelStart = 3221225472 := rfl
      have hsame : pageDir = vm.initialPageDir := by
        by_contra hne
        exact hswitch ⟨by omega, hne⟩
      rw [hsame]
  · exact .inr hunmaps

end

end ClOs.Memory
