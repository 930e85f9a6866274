import ClOs.ElfFailures
import ClOs.HeapLimits
import ClOs.PageDirFreeing

/-!
# Page tables without a free frame

`mem_map_page` takes a frame for a page table that is missing and does not look
whether it got one.  Without a free frame the directory entry leads to frame 0.
`elf_load` and `change_heap_size` map a page with the frame that they have just
taken, which can be the last one.
-/

namespace ClOs.Memory

/-! ## One call -/

/-- The frame of the directory that `mem_map_page` looks a page up in. -/
def shownFrame (vm : Vm) (pageDir virtAddr : ℕ) : ℕ :=
  vm.word (staticFrame (editedFrom vm pageDir virtAddr)) 1023 / 0x1000

/-- The entry of that directory for an address. -/
def shownEntry (vm : Vm) (pageDir virtAddr : ℕ) : ℕ :=
  vm.word (shownFrame vm pageDir virtAddr) (virtAddr / 0x400000)

/-- The page table for an address is there. -/
def HasPageTable (vm : Vm) (pageDir virtAddr : ℕ) : Prop :=
  shownEntry vm pageDir virtAddr % 2 = 1 ∧
    (shownEntry vm pageDir virtAddr).testBit 7 = false

/-- Every directory in use has the copy of the kernel half. -/
def KernelCopied (vm : Vm) : Prop :=
  ∀ i < numPageDirs, vm.pageDirsUsed i = true → ∀ x, 768 ≤ x → x < 1024 →
    vm.word (staticFrame (vm.pageDirs i)) x =
      withoutOwner (vm.word (staticFrame vm.initialPageDir) x)

/-- The address is one of a page of 4 MiB, and what `mem_map_page` writes is there
already. -/
def WrittenBefore (vm : Vm) (pageDir virtAddr entry : ℕ) : Prop :=
  shownEntry vm pageDir virtAddr % 2 = 1 ∧
    (shownEntry vm pageDir virtAddr).testBit 7 = true ∧
    vm.word (shownEntry vm pageDir virtAddr / 0x1000)
      (virtAddr / 0x1000 % 0x400) = entry ∧
    (kernelStart ≤ virtAddr → pageDir ≠ vm.initialPageDir → KernelCopied vm)

def setPageEntry (vm : Vm) (pageDir virtAddr table entry : ℕ) : Vm :=
  leaveKernelHalf (if kernelStart ≤ virtAddr then pageDir else 0)
    { memChangePageDir vm (editedFrom vm pageDir virtAddr) with
      word := setAt vm.word table (virtAddr / 0x1000 % 0x400) entry
      memNumVpages := u32 (vm.memNumVpages + 1) }

def pageEntry (phyAddr flags : ℕ) : ℕ :=
  (phyAddr &&& pageFlagFrame) ||| (flags &&& 0x3FF)

/-- `mem_map_page` completes the mapping in a page table that is there, or it
leaves memory alone. -/
def MapsOrKeeps (vm : Vm) (pageDir virtAddr phyAddr flags : ℕ) : Prop :=
  ∃ next, memMapPage virtAddr phyAddr flags (memChangePageDir vm pageDir) =
      .ok next ∧
    (next.word = vm.word ∨ HasPageTable vm pageDir virtAddr ∧
      next = setPageEntry vm pageDir virtAddr
        (shownEntry vm pageDir virtAddr / 0x1000) (pageEntry phyAddr flags))

section

variable {vm next : Vm} {live : List ℕ} {pageDir virtAddr phyAddr flags : ℕ}

theorem setAt_self
    (word : ℕ → ℕ → ℕ) (frame index : ℕ) :
    setAt word frame index (word frame index) = word := by
  funext g j
  by_cases hcell : g = frame ∧ j = index
  · obtain ⟨rfl, rfl⟩ := hcell
    exact setAt_same _ _ _ _
  · exact setAt_of_ne _ _ (by omega)

theorem KernelCopied.sync (h : KernelCopied vm) :
    (syncPageDirs vm).word = vm.word := by
  funext frame x
  unfold syncPageDirs
  dsimp only
  split_ifs with hcopy
  · obtain ⟨hlow, hhigh, i, hi, hused, rfl⟩ := hcopy
    exact (h i hi hused x hlow hhigh).symm
  · rfl

theorem Directories.edited (h : Directories vm live)
    (hactive : Active vm live pageDir) (virtAddr : ℕ) :
    Active vm live (editedFrom vm pageDir virtAddr) ∧
      enterKernelHalf virtAddr (memChangePageDir vm pageDir) =
        memChangePageDir vm (editedFrom vm pageDir virtAddr) := by
  have hstatic := h.static hactive
  unfold editedFrom
  split_ifs with hkernel
  · exact ⟨.inl rfl, enterKernelHalf_kernel vm (h.layout.low _ hstatic)
      (h.layout.high _ hstatic) hkernel⟩
  · exact ⟨hactive, enterKernelHalf_user _ (by omega)⟩

theorem Directories.shown (h : Directories vm live)
    (hactive : Active vm live pageDir) (virtAddr : ℕ) :
    ∃ owner, Active vm live owner ∧
      shownFrame vm pageDir virtAddr = staticFrame owner ∧
      Window (memChangePageDir vm (editedFrom vm pageDir virtAddr))
        (staticFrame owner) := by
  obtain ⟨owner, howner, hpoints, hwindow⟩ :=
    h.window (h.edited hactive virtAddr).1
  exact ⟨owner, howner, hpoints.2, hwindow⟩

theorem Directories.map_present (h : Directories vm live)
    (hactive : Active vm live pageDir)
    (hpresent : shownEntry vm pageDir virtAddr % 2 = 1) (phyAddr flags : ℕ) :
    memMapPage virtAddr phyAddr flags (memChangePageDir vm pageDir) =
      .ok (setPageEntry vm pageDir virtAddr
        (shownEntry vm pageDir virtAddr / 0x1000)
        (pageEntry phyAddr flags)) := by
  obtain ⟨owner, howner, hshown, hwindow⟩ := h.shown hactive virtAddr
  have hstatic := h.static hactive
  have hprev : memGetCurrentPageDir (memChangePageDir vm pageDir) = pageDir :=
    memGetCurrentPageDir_change vm (h.layout.low _ hstatic)
      (h.layout.high _ hstatic)
  unfold shownEntry at hpresent ⊢
  rw [hshown] at hpresent ⊢
  have hpoints : Points vm.word (staticFrame owner) (virtAddr / 0x400000)
      (vm.word (staticFrame owner) (virtAddr / 0x400000) / 0x1000) :=
    ⟨hpresent, rfl⟩
  unfold memMapPage
  rw [(h.edited hactive virtAddr).2, hprev]
  simp only [hwindow.ensurePageTable_present hpresent, bind, Except.bind,
    hwindow.writeTable hpoints]
  rfl

theorem Directories.entry_absent (h : Directories vm live)
    {owner ptIndex entry pdIndex : ℕ} (howner : Active vm live owner)
    (hpd : pdIndex < 1023)
    (habsent : ¬vm.word (staticFrame owner) pdIndex % 2 = 1)
    (hmaps : MapsIn vm (staticFrame owner) pdIndex ptIndex (flags &&& 0x3FF)
      entry next) :
    ∃ address frames, pmmAllocPageFrame vm.frames = .ok (address, frames) ∧
      Points next.word (staticFrame owner) pdIndex (address / 0x1000) := by
  rcases hmaps.directory
    (fun target hpoints => (h.table_ne howner hpd hpoints howner).symm)
    (fun address after halloc => (h.fresh howner halloc).symm) with
    ⟨hpresent, -, -⟩ | ⟨-, address, halloc, hvalue, -⟩
  · exact absurd hpresent habsent
  · refine ⟨address, _, halloc, ?_⟩
    unfold Points
    rw [hvalue]
    exact tableEntry_spec address
      (Nat.and_lt_two_pow flags (n := 10) (by norm_num))

theorem Directories.map_absent (h : Directories vm live)
    (hactive : Active vm live pageDir) (hhigh : virtAddr < 4294967296)
    (habsent : ¬shownEntry vm pageDir virtAddr % 2 = 1)
    (hok : memMapPage virtAddr phyAddr flags (memChangePageDir vm pageDir) =
      .ok next) :
    ∃ address frames, pmmAllocPageFrame vm.frames = .ok (address, frames) ∧
      Points next.word (shownFrame vm pageDir virtAddr) (virtAddr / 0x400000)
        (address / 0x1000) := by
  have hstart : kernelStart = 3221225472 := rfl
  unfold shownEntry shownFrame at *
  rcases Nat.lt_or_ge virtAddr kernelStart with huser | hkernel
  · rw [editedFrom, if_neg (by omega)] at habsent ⊢
    obtain ⟨owner, howner, hself, hmaps⟩ := h.map_user hactive huser hok
    rw [hself.2] at habsent ⊢
    exact (h.change pageDir).entry_absent howner (by omega) habsent hmaps
  · rw [editedFrom, if_pos hkernel, h.initial_self.2] at habsent ⊢
    have hbelow : virtAddr < 0xFFC00000 := by
      by_contra hlarge
      refine habsent ?_
      rw [show virtAddr / 0x400000 = 1023 by omega]
      exact h.initial_self.1
    obtain ⟨mapped, hmaps, rfl⟩ := h.map_kernel hactive hkernel hbelow hok
    obtain ⟨address, frames, halloc, hpoints⟩ :=
      (h.change vm.initialPageDir).entry_absent (.inl rfl) (by omega) habsent
        hmaps
    have hedit := (h.change vm.initialPageDir).map_edits (.inl rfl) (by omega)
      hmaps
    refine ⟨address, frames, halloc, ?_⟩
    unfold leaveKernelHalf
    split_ifs
    · refine hpoints.congr ?_
      have hsame := syncPageDirs_initial
        (hedit.statics.layout (h.change vm.initialPageDir).layout)
        (virtAddr / 0x400000)
      rwa [hedit.statics.initialPageDir] at hsame
    · exact hpoints

/-- The copies of the kernel half leave alone what an entry of the kernel half of
`initial_page_dir` leads to. -/
theorem Directories.notSlot (h : Directories vm live)
    {x target : ℕ} (hx : x < 1024)
    (hpoints : Points vm.word (staticFrame vm.initialPageDir) x target)
    {i : ℕ} (hi : i < numPageDirs) : staticFrame (vm.pageDirs i) ≠ target := by
  rintro rfl
  rcases Nat.lt_or_ge x 1023 with hbelow | hself
  · exact h.tables _ (.inl rfl) x hbelow _ hpoints ⟨_, .inr ⟨i, hi, rfl⟩, rfl⟩
  · obtain rfl : x = 1023 := by omega
    have hsame := hpoints.2
    rw [h.initial_self.2] at hsame
    exact h.layout.slot_ne_initial hi hsame.symm

theorem setAt_eq_iff
    (word : ℕ → ℕ → ℕ) (frame index value : ℕ) :
    setAt word frame index value = word ↔ word frame index = value := by
  constructor
  · intro hsame
    rw [← hsame]
    exact setAt_same _ _ _ _
  · rintro rfl
    exact setAt_self _ _ _

/-- When a write to what an entry leads to changes nothing. -/
theorem Directories.setPageEntry_keeps (h : Directories vm live)
    (hactive : Active vm live pageDir) (hhigh : virtAddr < 4294967296)
    (hpresent : shownEntry vm pageDir virtAddr % 2 = 1) (entry : ℕ) :
    (setPageEntry vm pageDir virtAddr
        (shownEntry vm pageDir virtAddr / 0x1000) entry).word = vm.word ↔
      vm.word (shownEntry vm pageDir virtAddr / 0x1000)
          (virtAddr / 0x1000 % 0x400) = entry ∧
        (kernelStart ≤ virtAddr → pageDir ≠ vm.initialPageDir →
          KernelCopied vm) := by
  have hstart : kernelStart = 3221225472 := rfl
  have hlow := h.layout.low _ (h.static hactive)
  unfold setPageEntry leaveKernelHalf
  by_cases hkernel : kernelStart ≤ virtAddr
  · by_cases hinitial : pageDir = vm.initialPageDir
    · rw [if_pos hkernel, if_neg (fun hswitch => hswitch.2 hinitial)]
      simp only [setAt_eq_iff, hinitial, ne_eq, not_true, false_imp_iff,
        imp_true_iff, and_true]
    · rw [if_pos hkernel, if_pos ⟨by omega, hinitial⟩]
      have hpoints : Points vm.word (staticFrame vm.initialPageDir)
          (virtAddr / 0x400000) (shownEntry vm pageDir virtAddr / 0x1000) := by
        have hframe : shownFrame vm pageDir virtAddr =
            staticFrame vm.initialPageDir := by
          unfold shownFrame editedFrom
          rw [if_pos hkernel, h.initial_self.2]
        unfold shownEntry at hpresent ⊢
        rw [hframe] at hpresent ⊢
        exact ⟨hpresent, rfl⟩
      generalize shownEntry vm pageDir virtAddr / 0x1000 = table at hpoints ⊢
      generalize virtAddr / 0x1000 % 0x400 = index
      constructor
      · intro hsame
        have hentry : vm.word table index = entry := by
          rw [← hsame]
          refine (syncPageDirs_notSlot _ (fun i hi => ?_) index).trans
            (setAt_same _ _ _ _)
          exact h.notSlot (by omega) hpoints hi
        refine ⟨hentry, fun _ _ i hi hused x hx hlast => ?_⟩
        rw [← hentry, setAt_self] at hsame
        have hcopy := congrFun (congrFun hsame (staticFrame (vm.pageDirs i))) x
        rw [← hcopy]
        exact syncPageDirs_slot _ hi hused hx hlast
      · rintro ⟨hentry, hcopied⟩
        rw [← hentry, setAt_self]
        exact KernelCopied.sync (hcopied hkernel hinitial)
  · rw [if_neg hkernel, if_neg (fun hswitch => hswitch.1 rfl)]
    simp only [setAt_eq_iff, hkernel, false_imp_iff, and_true]

/-- Without a free frame `mem_map_page` does what it should exactly when the page
table is there, up to entries of pages of 4 MiB that change nothing. -/
theorem Directories.mapsOrKeeps_iff (h : Directories vm live)
    (hactive : Active vm live pageDir) (hhigh : virtAddr < 4294967296)
    (phyAddr flags : ℕ) :
    MapsOrKeeps vm pageDir virtAddr phyAddr flags ↔
      HasPageTable vm pageDir virtAddr ∨
        WrittenBefore vm pageDir virtAddr (pageEntry phyAddr flags) := by
  by_cases hpresent : shownEntry vm pageDir virtAddr % 2 = 1
  · have hmap := h.map_present hactive hpresent phyAddr flags
    have hkeeps := h.setPageEntry_keeps hactive hhigh hpresent
      (pageEntry phyAddr flags)
    unfold MapsOrKeeps
    simp only [hmap, Except.ok.injEq, exists_eq_left', hkeeps]
    unfold WrittenBefore HasPageTable
    simp only [hpresent, true_and, and_true]
    cases hlarge : (shownEntry vm pageDir virtAddr).testBit 7
    · simp
    · simp
  · constructor
    · rintro ⟨next, hok, hkeeps | ⟨htable, -⟩⟩
      · obtain ⟨address, frames, -, hpoints⟩ :=
          h.map_absent hactive hhigh hpresent hok
        rw [hkeeps] at hpoints
        exact absurd hpoints.1 hpresent
      · exact absurd htable.1 hpresent
    · rintro (htable | hwritten)
      · exact absurd htable.1 hpresent
      · exact absurd hwritten.1 hpresent

end

/-! ## Pages and bytes -/

/-- The page tables and the mapped frames of the active directories. -/
structure Tabled (vm : Vm) (live : List ℕ) : Prop where
  apart : Apart vm live
  small : SmallEntries vm live

/-- The same with an active directory in CR3. -/
structure InDirectory (vm : Vm) (live : List ℕ) (pageDir : ℕ) : Prop where
  tabled : Tabled vm live
  active : Active vm live pageDir
  cr3 : vm.cr3 = sub32 pageDir kernelStart

/-- No entry of an active directory leads to a page table in frame 0. -/
def NoTableAtZero (vm : Vm) (live : List ℕ) : Prop :=
  ∀ pageDir, Active vm live pageDir → ∀ x < 1024, ¬TableAt vm pageDir x 0

def FindsTable (vm : Vm) (pageDir page : ℕ) : Prop :=
  ∀ phys frames, pmmAllocPageFrame vm.frames = .ok (phys, frames) →
    frames.free.card = 0 → HasPageTable vm pageDir page

section

variable {vm mid next : Vm} {live : List ℕ} {pageDir owner virtAddr : ℕ}

theorem Apart.noTableAtZero (h : Apart vm live) : NoTableAtZero vm live := by
  intro pageDir hactive x hx hat
  rcases Nat.lt_or_ge x 1023 with hbelow | hself
  · have hrange := (h.table 0 ⟨pageDir, hactive, x, hbelow, hat⟩).1
    have hmin := h.directories.min_pos
    omega
  · obtain rfl : x = 1023 := by omega
    obtain ⟨other, hother, hpoints, -⟩ := h.directories.window hactive
    have hpos := h.directories.layout.frame_pos _
      (h.directories.dirFrame hother)
    have hsame := hat.1.2
    rw [hpoints.2] at hsame
    omega

theorem Tabled.change (h : Tabled vm live) (pageDir : ℕ) :
    Tabled (memChangePageDir vm pageDir) live :=
  ⟨h.apart.change pageDir, h.small.congr rfl fun _ _ _ _ => rfl⟩

theorem Tabled.alloc (h : Tabled vm live)
    {address : ℕ} {frames : Frames}
    (halloc : pmmAllocPageFrame vm.frames = .ok (address, frames)) :
    Tabled { vm with frames := frames } live :=
  ⟨h.apart.alloc halloc, h.small.congr rfl fun _ _ _ _ => rfl⟩

theorem FindsTable.hasFree
    (h : FindsTable vm pageDir virtAddr) {phys : ℕ} {frames : Frames}
    (halloc : pmmAllocPageFrame vm.frames = .ok (phys, frames))
    (hshown : shownFrame vm pageDir virtAddr = staticFrame owner)
    (habsent : vm.word (staticFrame owner) (virtAddr / 0x400000) % 2 = 0) :
    HasFree frames := by
  by_contra hnone
  have hcard : frames.free.card = 0 := by
    by_contra hsome
    exact hnone (Frames.hasFree (by omega))
  have hpresent := (h phys frames halloc hcard).1
  unfold shownEntry at hpresent
  rw [hshown] at hpresent
  omega

theorem MapsIn.cr3
    {dir pdIndex ptIndex flags entry : ℕ}
    (h : MapsIn vm dir pdIndex ptIndex flags entry mid) : mid.cr3 = vm.cr3 := by
  cases h with
  | present htable => rfl
  | absent habsent halloc => rfl

theorem leaveKernelHalf_cr3
    (hpos : pageDir ≠ 0)
    (hsame : pageDir = vm.initialPageDir → vm.cr3 = sub32 pageDir kernelStart) :
    (leaveKernelHalf pageDir vm).cr3 = sub32 pageDir kernelStart := by
  unfold leaveKernelHalf
  split_ifs with hswitch
  · rfl
  · refine hsame ?_
    by_contra hne
    exact hswitch ⟨hpos, hne⟩

theorem InDirectory.alloc (h : InDirectory vm live pageDir)
    {address : ℕ} {frames : Frames}
    (halloc : pmmAllocPageFrame vm.frames = .ok (address, frames)) :
    InDirectory { vm with frames := frames } live pageDir :=
  ⟨h.tabled.alloc halloc, h.active, h.cr3⟩

theorem InDirectory.mapPage (h : InDirectory vm live pageDir)
    {phys flags : ℕ} {frames : Frames}
    (halloc : pmmAllocPageFrame vm.frames = .ok (phys, frames))
    (hphys : phys ≠ 0) (hflags : PageFlags flags)
    (hbelow : virtAddr < 0xFFC00000) (hplace : virtAddr / 0x400000 ≠ 768)
    (hfinds : FindsTable vm pageDir virtAddr)
    (hok : memMapPage virtAddr phys flags { vm with frames := frames } =
      .ok next) : InDirectory next live pageDir := by
  have hstart : kernelStart = 3221225472 := rfl
  have hactive := h.active
  have hself : { vm with frames := frames } =
      memChangePageDir { vm with frames := frames } pageDir :=
    (Elf.memChangePageDir_self (h.alloc halloc).cr3).symm
  rw [hself] at hok
  have htakes := pmmAllocPageFrame_takes halloc hphys
  have hunused := h.tabled.apart.unused htakes
  obtain ⟨hentry, hframe, -⟩ := pageEntry_spec (pmmAllocPageFrame_lt halloc)
    htakes.aligned hflags
  rw [← hframe] at hunused
  have hafter := h.tabled.alloc halloc
  have hdirs := hafter.apart.directories
  have hindex : virtAddr / 0x400000 < 1023 := by omega
  have hsmall := hflags.spec.2.1
  rcases Nat.lt_or_ge virtAddr kernelStart with huser | hkernel
  · obtain ⟨owner, howner, hself, hmaps⟩ := hdirs.map_user hactive huser hok
    have hshown : shownFrame vm pageDir virtAddr = staticFrame owner := by
      unfold shownFrame editedFrom
      rw [if_neg (by omega)]
      exact hself.2
    have hedit := (hdirs.change pageDir).map_edits howner hindex hmaps
    refine ⟨⟨?_, ?_⟩, hedit.statics.active.2 hactive, hmaps.cr3⟩
    · exact (hafter.apart.change pageDir).map howner hindex (fun _ => by omega)
        (hafter.small owner howner _ hindex hplace)
        (fun habsent => hfinds.hasFree halloc hshown habsent) hsmall hentry
        (hunused.change _) hmaps
    · exact (hafter.change pageDir).small.map (hdirs.change pageDir) howner hindex
        hsmall hmaps
  · obtain ⟨mapped, hmaps, rfl⟩ := hdirs.map_kernel hactive hkernel hbelow hok
    have hinitial : Active (memChangePageDir { vm with frames := frames }
        vm.initialPageDir) live vm.initialPageDir := .inl rfl
    have hshown : shownFrame vm pageDir virtAddr =
        staticFrame vm.initialPageDir := by
      unfold shownFrame editedFrom
      rw [if_pos hkernel]
      exact hdirs.initial_self.2
    have hmapped := (hafter.apart.change vm.initialPageDir).map hinitial hindex
      (fun _ => rfl) (hafter.small _ (.inl rfl) _ hindex hplace)
      (fun habsent => hfinds.hasFree halloc hshown habsent) hsmall hentry
      (hunused.change _) hmaps
    have hsmalls := (hafter.change vm.initialPageDir).small.map
      (hdirs.change _) hinitial hindex hsmall hmaps
    have hedit := (hdirs.change _).map_edits hinitial hindex hmaps
    have hleft : (leaveKernelHalf pageDir mapped).initialPageDir =
        mapped.initialPageDir := by
      unfold leaveKernelHalf
      split_ifs <;> rfl
    refine ⟨⟨hmapped.leave pageDir, hsmalls.leave hmapped.directories pageDir⟩,
      ?_, leaveKernelHalf_cr3 ?_ ?_⟩
    · unfold Active
      rw [hleft, hedit.statics.initialPageDir]
      exact hactive
    · have hlow := hdirs.layout.low _ (hdirs.static hactive)
      omega
    · intro hsame
      rw [hmaps.cr3, hsame, hedit.statics.initialPageDir]
      rfl

theorem InDirectory.storeByte (h : InDirectory vm live pageDir) {a value : ℕ}
    (ha : a < kernelStart) (hok : storeByte a value vm = .ok next) :
    InDirectory next live pageDir := by
  have hstart : kernelStart = 3221225472 := rfl
  unfold Memory.storeByte at hok
  cases hwalk : translate vm.word (vm.cr3 / 0x1000) (a / 0x1000) with
  | none =>
      rw [hwalk] at hok
      cases hok
  | some place =>
      obtain ⟨frame, pde, pte⟩ := place
      rw [hwalk] at hok
      cases hok
      rw [h.cr3] at hwalk
      change translate vm.word (staticFrame pageDir) (a / 0x1000) = _ at hwalk
      have hindex : a / 0x1000 / 1024 < 768 := by omega
      have hpresent : vm.word (staticFrame pageDir) (a / 0x1000 / 1024) % 2 =
          1 := by
        by_contra habsent
        rw [translate_absent (by omega)] at hwalk
        cases hwalk
      have hsmall := h.tabled.small pageDir h.active _ (by omega) (by omega)
        hpresent
      obtain ⟨table, htable, hpage, -, -⟩ := translate_some hsmall hwalk
      have his : IsTable vm live table :=
        ⟨pageDir, h.active, _, by omega, htable, hsmall⟩
      obtain ⟨hapart, hrow, -⟩ := h.tabled.apart.setByte
        ⟨table, his, _, by omega, hpage⟩ (a % 0x1000) value
      exact ⟨⟨hapart, h.tabled.small.congr rfl fun P hP x _ => by
        rw [hrow P hP]⟩, h.active, h.cr3⟩

end

/-! ## Runs -/

def LoadsInTables (image : ByteStore) (pageDir : ℕ) (l : Elf.Loader) : Prop :=
  Elf.Accepts image → ∀ performed access rest mid,
    Elf.loadScript image = performed ++ access :: rest →
    Stopping.runAll Elf.perform performed (l.entered image pageDir) =
      (.ok (), mid) →
    access.Inside 4294967296 ∧
      ∀ virtAddr, access = .map virtAddr → FindsTable mid.vm pageDir virtAddr

/-- The pages of the heap lie below the recursive mapping and find their page
tables. -/
def GrowsInTables (pages : List ℕ) (vm : Vm) (pageDir : ℕ) : Prop :=
  ∀ front page rest mid, pages = front ++ page :: rest →
    front.foldlM Heap.mapHeapPage (memChangePageDir vm pageDir) = .ok mid →
    kernelMalloc ≤ page ∧ page < 0xFFC00000 ∧ FindsTable mid pageDir page

/-- The states that `vmm_new_page_dir`, `elf_load` and `change_heap_size` reach,
also when they stop in the middle. -/
inductive MemoryRun (boot : Vm) : List ℕ → Vm → Prop
  | boot : MemoryRun boot [] boot
  | newPageDir {live : List ℕ} {vm next : Vm} {pageDir result : ℕ}
      (hrun : MemoryRun boot live vm)
      (hactive : Active vm live pageDir)
      (hcall : VmmCall.run (memChangePageDir vm pageDir) .newPageDir =
        .ok (result, next)) :
      MemoryRun boot (if result = 0 then live else result :: live) next
  | load {live : List ℕ} {vm : Vm} {pageDir oldPageDir entry : ℕ}
      {image : ByteStore} {outcome : Except Elf.Stop ℤ} {next : Elf.Loader}
      (hrun : MemoryRun boot live vm)
      (hactive : Active vm live pageDir)
      (hold : Active vm live oldPageDir)
      (hmay : LoadsInTables image pageDir
        ⟨memChangePageDir vm oldPageDir, entry, []⟩)
      (hload : Elf.elfLoad image pageDir
        ⟨memChangePageDir vm oldPageDir, entry, []⟩ = (outcome, next)) :
      MemoryRun boot live next.vm
  | grow {live : List ℕ} {vm next : Vm} {pageDir heapSize : ℕ}
      {newHeapSize : ℤ} {pages : List ℕ}
      (hrun : MemoryRun boot live vm)
      (hactive : Active vm live pageDir)
      (hpages : pages <+: Heap.heapPages newHeapSize heapSize)
      (hmay : GrowsInTables pages vm pageDir)
      (hgrow : pages.foldlM Heap.mapHeapPage (memChangePageDir vm pageDir) =
        .ok next) :
      MemoryRun boot live next

theorem MemoryRun.changeHeapSize
    {boot vm : Vm} {live : List ℕ} {pageDir : ℕ} {newHeapSize : ℤ}
    {s next : Heap.State} (hrun : MemoryRun boot live vm)
    (hactive : Active vm live pageDir) (hvm : s.vm = memChangePageDir vm pageDir)
    (hmay : GrowsInTables (Heap.heapPages newHeapSize s.heapSize) vm pageDir)
    (hgrow : Heap.changeHeapSize newHeapSize s = .ok next) :
    MemoryRun boot live next.vm := by
  have hmaps := Heap.changeHeapSize_maps hgrow
  rw [hvm] at hmaps
  exact .grow hrun hactive (List.prefix_refl _) hmay hmaps

section

variable {vm next : Vm} {live : List ℕ} {pageDir : ℕ}

theorem InDirectory.mapNewPage
    {l : Elf.Loader} {virtAddr : ℕ} (h : InDirectory l.vm live pageDir)
    (huser : virtAddr < kernelStart)
    (hfinds : FindsTable l.vm pageDir virtAddr) :
    InDirectory (Elf.mapNewPage virtAddr l).2.vm live pageDir := by
  have hstart : kernelStart = 3221225472 := rfl
  cases halloc : pmmAllocPageFrame l.vm.frames with
  | error halt =>
      rw [Elf.mapNewPage_halts halloc]
      exact h
  | ok taken =>
      obtain ⟨phys, frames⟩ := taken
      by_cases hphys : phys = 0
      · rw [hphys] at halloc
        rw [Elf.mapNewPage_zero halloc]
        exact h.alloc halloc
      · cases hmap : memMapPage virtAddr phys Elf.pageFlags
            { l.vm with frames := frames } with
        | error halt =>
            rw [Elf.mapNewPage_error halloc hphys hmap]
            exact h.alloc halloc
        | ok vm =>
            rw [Elf.mapNewPage_ok halloc hphys hmap]
            exact h.mapPage halloc hphys
              ⟨pageFlagWrite ||| pageFlagUser, by simp, .inl rfl⟩ (by omega)
              (by omega) hfinds hmap

theorem InDirectory.perform
    {l : Elf.Loader} {access : Elf.Access} (h : InDirectory l.vm live pageDir)
    (hinside : access.Inside 4294967296)
    (hfinds : ∀ virtAddr, access = .map virtAddr →
      FindsTable l.vm pageDir virtAddr) :
    InDirectory (Elf.perform access l).2.vm live pageDir := by
  cases access with
  | read offset => exact h
  | map virtAddr => exact h.mapNewPage hinside (hfinds virtAddr rfl)
  | write a value =>
      change InDirectory (Elf.writeByte a value l).2.vm live pageDir
      cases hstore : Memory.storeByte a value l.vm with
      | error halt =>
          rw [Elf.writeByte_error hstore]
          exact h
      | ok vm =>
          rw [Elf.writeByte_ok hstore]
          exact h.storeByte hinside hstore

/-- A load, however it ends. -/
theorem Tabled.load
    {oldPageDir entry : ℕ} {image : ByteStore} (h : Tabled vm live)
    (hactive : Active vm live pageDir)
    (hmay : LoadsInTables image pageDir
      ⟨memChangePageDir vm oldPageDir, entry, []⟩) :
    Tabled (Elf.elfLoad image pageDir
      ⟨memChangePageDir vm oldPageDir, entry, []⟩).2.vm live := by
  refine Elf.elfLoad_keeps (fun vm => InDirectory vm live pageDir)
    (fun vm => Tabled vm live) (fun _ => h.change oldPageDir)
    ⟨h.change pageDir, hactive, rfl⟩ ?_
    (fun vm hvm => ⟨hvm.tabled, hvm.tabled.change _⟩)
  intro haccepts performed access rest mid hsplit hrun hmid
  obtain ⟨hinside, hfinds⟩ :=
    hmay haccepts performed access rest mid hsplit hrun
  exact hmid.perform hinside hfinds

theorem InDirectory.grow
    {pages : List ℕ} (h : InDirectory vm live pageDir)
    (hmay : ∀ front page rest mid, pages = front ++ page :: rest →
      front.foldlM Heap.mapHeapPage vm = .ok mid →
      kernelMalloc ≤ page ∧ page < 0xFFC00000 ∧ FindsTable mid pageDir page)
    (hgrow : pages.foldlM Heap.mapHeapPage vm = .ok next) :
    InDirectory next live pageDir := by
  induction pages generalizing vm with
  | nil =>
      cases hgrow
      exact h
  | cons page pages ih =>
      obtain ⟨hlow, hhigh, hfinds⟩ := hmay [] page pages vm rfl rfl
      have hmalloc : kernelMalloc = 3489660928 := rfl
      rw [List.foldlM_cons, Outcome.bind_eq_ok] at hgrow
      obtain ⟨mid, hmap, hgrow⟩ := hgrow
      have hmid : InDirectory mid live pageDir := by
        have hstep := hmap
        unfold Heap.mapHeapPage at hstep
        rw [Outcome.bind_eq_ok] at hstep
        obtain ⟨⟨phys, frames⟩, halloc, hstep⟩ := hstep
        dsimp only at hstep
        split_ifs at hstep with hphys
        exact h.mapPage halloc hphys ⟨pageFlagWrite, by simp, .inr rfl⟩ hhigh
          (by omega) hfinds hstep
      refine ih hmid (fun front other rest last hsplit hfront => ?_) hgrow
      refine hmay (page :: front) other rest last ?_ ?_
      · rw [hsplit, List.cons_append]
      · rw [List.foldlM_cons, Outcome.bind_eq_ok]
        exact ⟨mid, hmap, hfront⟩

end

section

variable {initialPageDir pageDirs kernelEnd memHigh : ℕ}
  {memory : ℕ → ℕ → ℕ} {vm : Vm} {live : List ℕ}

theorem MemoryRun.tabled
    (himage : KernelImage initialPageDir pageDirs kernelEnd)
    (hrun : MemoryRun
      (bootState initialPageDir pageDirs kernelEnd memHigh memory) live vm) :
    Tabled vm live := by
  induction hrun with
  | boot => exact ⟨bootState_apart himage, bootState_small himage⟩
  | @newPageDir live vm next pageDir result hrun hactive hcall ih =>
      have hchanged := ih.change pageDir
      have hdirs := hchanged.apart.directories
      rcases VmmCall.run_newPageDir hcall with
        ⟨rfl, rfl⟩ | ⟨i, hi, hunused, rfl, rfl⟩
      · exact hchanged
      · rw [if_neg (hdirs.layout.slot_ne_zero hi)]
        exact ⟨hchanged.apart.newPageDir hi hunused,
          hchanged.small.newPageDir hdirs hi hunused⟩
  | load hrun hactive hold hmay hload ih =>
      have hloaded := ih.load hactive hmay
      rw [hload] at hloaded
      exact hloaded
  | @grow live vm next pageDir heapSize newHeapSize pages hrun hactive hpages
      hmay hgrow ih =>
      have hstart : InDirectory (memChangePageDir vm pageDir) live pageDir :=
        ⟨ih.change pageDir, hactive, rfl⟩
      exact (hstart.grow hmay hgrow).tabled

end

/-! ## The last frame -/

theorem loadsInTables_of_free
    {vm : Vm} {image : ByteStore} {pageDir oldPageDir entry : ℕ}
    (hinside : ∀ access ∈ Elf.loadScript image, access.Inside 4294967296)
    (henough : 2 * Elf.mapCount (Elf.loadScript image) ≤
      vm.frames.free.card) :
    LoadsInTables image pageDir
      ⟨memChangePageDir vm oldPageDir, entry, []⟩ := by
  intro _ performed access rest mid hsplit hrun
  refine ⟨hinside access (hsplit ▸ List.mem_append_right _
    (List.mem_cons_self ..)), ?_⟩
  rintro virtAddr rfl phys frames halloc hnone
  have hcount : Elf.mapCount (Elf.loadScript image) =
      Elf.mapCount performed + (Elf.mapCount rest + 1) := by
    rw [hsplit]
    unfold Elf.mapCount
    rw [List.countP_append, List.countP_cons_of_pos rfl]
  have htaken : vm.frames.free.card ≤
      mid.vm.frames.free.card + 2 * Elf.mapCount performed :=
    (Elf.runAll_takesFrames hrun).1.free_le
  have hlast := (Elf.pmmAllocPageFrame_takesFrames halloc).free_le
  omega

end ClOs.Memory
