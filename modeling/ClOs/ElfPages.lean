import ClOs.ElfLoading

/-!
# Pages of a process without enough frames

A directory is loaded with any number of free frames.  When the last frame has
become a page, the page table of this page is put into frame 0.  No write to a
page of the user half reaches a page table or a page directory.
-/

namespace ClOs

namespace Memory

/-! ## Frames -/

theorem pmmAllocFrom_none
    {frames : Frames} {count first : ℕ}
    (hset : ∀ frame, first ≤ frame → frame < first + count →
      frame < numPageFrames → frames.physicalMemoryBitmap.bit frame = true) :
    (first + count ≤ numPageFrames →
        pmmAllocFrom frames count first = .ok (0, frames)) ∧
      (numPageFrames < first + count → 0 < count →
        pmmAllocFrom frames count first = .error .outOfBounds) := by
  have hnum : numPageFrames = 65536 := by norm_num [numPageFrames]
  induction count generalizing first with
  | zero => exact ⟨fun _ => rfl, fun _ hpos => absurd hpos (by omega)⟩
  | succ count ih =>
      have hrest : ∀ frame, first + 1 ≤ frame → frame < first + 1 + count →
          frame < numPageFrames →
            frames.physicalMemoryBitmap.bit frame = true :=
        fun frame hlow hhigh => hset frame (by omega) (by omega)
      obtain ⟨hzero, hout⟩ := ih hrest
      simp only [pmmAllocFrom]
      rcases Nat.lt_or_ge first numPageFrames with hlt | hge
      · rw [if_neg (by omega),
          if_pos (hset first le_rfl (by omega) hlt)]
        exact ⟨fun hle => hzero (by omega),
          fun hgt _ => hout (by omega) (by omega)⟩
      · rw [if_pos (by omega)]
        exact ⟨fun hle => absurd hle (by omega), fun _ _ => rfl⟩

theorem pmmAllocPageFrame_none
    {frames : Frames} (hnone : frames.free.card = 0)
    (hrange : frames.pageFrameMin < frames.pageFrameMax) :
    (frames.pageFrameMax ≤ numPageFrames →
        pmmAllocPageFrame frames = .ok (0, frames)) ∧
      (numPageFrames < frames.pageFrameMax →
        pmmAllocPageFrame frames = .error .outOfBounds) := by
  have hset : ∀ frame, frames.pageFrameMin ≤ frame →
      frame < frames.pageFrameMin +
        (frames.pageFrameMax - frames.pageFrameMin) →
      frame < numPageFrames →
        frames.physicalMemoryBitmap.bit frame = true := by
    intro frame hlow hhigh hbound
    by_contra hclear
    have hmem : frame ∈ frames.free :=
      Frames.mem_free.2 ⟨hbound, hlow, by omega, by simpa using hclear⟩
    rw [Finset.card_eq_zero.1 hnone] at hmem
    exact Finset.notMem_empty _ hmem
  obtain ⟨hzero, hout⟩ := pmmAllocFrom_none hset
  exact ⟨fun hle => hzero (by omega),
    fun hgt => hout (by omega) (by omega)⟩

theorem pmmAllocPageFrame_same
    {frames next : Frames} {address : ℕ} (hnone : frames.free.card = 0)
    (halloc : pmmAllocPageFrame frames = .ok (address, next)) :
    next = frames := by
  rcases pmmAllocFrom_spec halloc with
    ⟨-, hsame⟩ | ⟨taken, hlow, hhigh, hbound, hclear, -, -⟩
  · exact hsame
  · have hmem : taken ∈ frames.free :=
      Frames.mem_free.2 ⟨hbound, hlow, by omega, hclear⟩
    rw [Finset.card_eq_zero.1 hnone] at hmem
    exact absurd hmem (Finset.notMem_empty _)

/-- A frame that is given is no directory and no frame that is in use. -/
theorem pmmAllocPageFrame_new
    {frames next : Frames} {address frame : ℕ}
    (halloc : pmmAllocPageFrame frames = .ok (address, next))
    (hmin : 0 < frames.pageFrameMin)
    (hlow : frames.pageFrameMin ≤ frame)
    (hset : frames.physicalMemoryBitmap.bit frame = true) :
    frame ≠ address / 0x1000 := by
  rintro rfl
  rcases (pmmAllocPageFrame_cases halloc).2 with
    rfl | ⟨taken, -, -, hclear, rfl⟩
  · omega
  · rw [Nat.mul_div_cancel _ (by norm_num)] at hset
    rw [hclear] at hset
    cases hset

theorem pmmAllocPageFrame_aligned
    {frames next : Frames} {address : ℕ}
    (halloc : pmmAllocPageFrame frames = .ok (address, next)) :
    address % 0x1000 = 0 := by
  rcases (pmmAllocPageFrame_cases halloc).2 with
    rfl | ⟨taken, -, -, -, rfl⟩
  · rfl
  · exact Nat.mul_mod_left _ _

/-! ## Pages of the kernel half -/

section

variable {vm : Vm} {live : List ℕ} {pageDir virtAddr : ℕ}

theorem Window.ensurePageTable_error
    {dir pdIndex flags : ℕ} {halt : Halt} (h : Window vm dir)
    (habsent : vm.word dir pdIndex % 2 = 0)
    (halloc : pmmAllocPageFrame vm.frames = .error halt) :
    Memory.ensurePageTable pdIndex flags vm = .error halt := by
  unfold Memory.ensurePageTable
  rw [h.readDirectory]
  simp only [bind, Except.bind, if_pos habsent, halloc]

theorem memMapPage_user_error
    {dir phyAddr flags : ℕ} {halt : Halt} (h : Window vm dir)
    (huser : virtAddr < kernelStart)
    (habsent : vm.word dir (virtAddr / 0x400000) % 2 = 0)
    (halloc : pmmAllocPageFrame vm.frames = .error halt) :
    memMapPage virtAddr phyAddr flags vm = .error halt := by
  unfold memMapPage
  rw [enterKernelHalf_user vm huser]
  simp only [h.ensurePageTable_error habsent halloc, bind, Except.bind]

theorem Directories.map_kernel_ok
    (h : Directories vm live) (hactive : Active vm live pageDir)
    (hkernel : kernelStart ≤ virtAddr) (hhigh : virtAddr < 4294967296)
    (htable : vm.word (staticFrame vm.initialPageDir) (virtAddr / 0x400000) % 2 =
        1 ∨ ∃ address frames,
      pmmAllocPageFrame vm.frames = .ok (address, frames))
    (phyAddr flags : ℕ) :
    ∃ next, memMapPage virtAddr phyAddr flags (memChangePageDir vm pageDir) =
      .ok next := by
  have hstatic := h.static hactive
  have hpresent : vm.word (staticFrame vm.initialPageDir)
      (virtAddr / 0x400000) % 2 = 1 →
      ∃ next, memMapPage virtAddr phyAddr flags (memChangePageDir vm pageDir) =
        .ok next := by
    intro hpresent
    have hwindow : Window (memChangePageDir vm vm.initialPageDir)
        (staticFrame vm.initialPageDir) := ⟨h.initial_self, h.initial_self⟩
    have hpoints : Points (memChangePageDir vm vm.initialPageDir).word
        (staticFrame vm.initialPageDir) (virtAddr / 0x400000) _ :=
      ⟨hpresent, rfl⟩
    unfold memMapPage
    rw [enterKernelHalf_kernel vm (h.layout.low _ hstatic)
      (h.layout.high _ hstatic) hkernel]
    simp only [hwindow.ensurePageTable_present hpresent, bind, Except.bind,
      hwindow.writeTable hpoints]
    exact ⟨_, rfl⟩
  rcases htable with hset | ⟨address, frames, halloc⟩
  · exact hpresent hset
  · rcases Nat.lt_or_ge virtAddr 0xFFC00000 with hbelow | habove
    · exact h.map_ok hactive hbelow halloc phyAddr flags
    · refine hpresent ?_
      rw [show virtAddr / 0x400000 = 1023 by omega]
      exact h.initial_self.1

theorem Directories.map_kernel_error
    (h : Directories vm live) (hactive : Active vm live pageDir)
    (hkernel : kernelStart ≤ virtAddr)
    (habsent : vm.word (staticFrame vm.initialPageDir) (virtAddr / 0x400000) % 2 =
      0)
    {halt : Halt} (halloc : pmmAllocPageFrame vm.frames = .error halt)
    (phyAddr flags : ℕ) :
    memMapPage virtAddr phyAddr flags (memChangePageDir vm pageDir) =
      .error halt := by
  have hstatic := h.static hactive
  have hwindow : Window (memChangePageDir vm vm.initialPageDir)
      (staticFrame vm.initialPageDir) := ⟨h.initial_self, h.initial_self⟩
  unfold memMapPage
  rw [enterKernelHalf_kernel vm (h.layout.low _ hstatic)
    (h.layout.high _ hstatic) hkernel]
  simp only [hwindow.ensurePageTable_error habsent halloc, bind, Except.bind]

end

end Memory

namespace Elf

open Memory Stopping

/-- A page has a page table, which is one of `initial_page_dir` in the kernel
half. -/
def HasTable (vm : Vm) (tables : Finset ℕ) (virtAddr : ℕ) : Prop :=
  if virtAddr < kernelStart then virtAddr / 0x400000 ∈ tables
  else vm.word (staticFrame vm.initialPageDir) (virtAddr / 0x400000) % 2 = 1

instance (vm : Vm) (tables : Finset ℕ) (virtAddr : ℕ) :
    Decidable (HasTable vm tables virtAddr) :=
  inferInstanceAs (Decidable (if virtAddr < kernelStart then _ else _))
def pageCost (vm : Vm) (tables : Finset ℕ) (virtAddr : ℕ) : ℕ :=
  1 + if HasTable vm tables virtAddr then 0 else 1
/-- A page of the kernel half that is mapped.  The recursive mapping shows the
page tables that have been made. -/
def KernelPage (vm : Vm) (dir : ℕ) (tables : Finset ℕ) (page : ℕ) : Prop :=
  translate vm.word dir page ≠ none ∨ ∃ x ∈ tables, page = 0xFFC00 + x
theorem pageCost_user
    {vm : Vm} {tables : Finset ℕ} {virtAddr : ℕ} (huser : virtAddr < kernelStart) :
    pageCost vm tables virtAddr =
      1 + if virtAddr / 0x400000 ∈ tables then 0 else 1 := by
  unfold pageCost HasTable
  simp only [if_pos huser]

theorem pageCost_kernel
    {vm : Vm} {tables : Finset ℕ} {virtAddr : ℕ}
    (hkernel : kernelStart ≤ virtAddr) :
    pageCost vm tables virtAddr = 1 +
      if vm.word (staticFrame vm.initialPageDir) (virtAddr / 0x400000) % 2 = 1
        then 0 else 1 := by
  unfold pageCost HasTable
  simp only [if_neg (Nat.not_lt.2 hkernel)]
/-! ## The directory that is loaded -/

/-- What stays true of the directories and of the walks of the one that is
loaded, also when a page table has been put into frame 0. -/
structure Confining (start : Vm) (live : List ℕ) (pageDir : ℕ) (cells : ℕ → Cell)
    (tables : Finset ℕ) (vm : Vm) : Prop where
  cr3 : vm.cr3 = sub32 pageDir kernelStart
  statics : SameStatics start vm
  max : vm.frames.pageFrameMax = start.frames.pageFrameMax
  halves : ∀ other, IsStatic start other → ∀ x, 768 ≤ x → x < 1024 →
    vm.word (staticFrame other) x = start.word (staticFrame other) x
  user : ∀ a < kernelStart,
    translate vm.word (staticFrame pageDir) (a / 0x1000) = none ↔
      cells a = .unmapped
  kernel : ∀ page, 0xC0000 ≤ page → page < 0x100000 →
    (translate vm.word (staticFrame pageDir) page ≠ none ↔
      KernelPage start (staticFrame pageDir) tables page)
  data : ∀ page < 0xC0000, ∀ frame flags,
    translate vm.word (staticFrame pageDir) page = some (frame, flags) →
      vm.frames.pageFrameMin ≤ frame ∧ ∀ x < 1024, ∀ table,
        TableAt vm pageDir x table → frame ≠ table
  loading : 0 < vm.frames.free.card →
    Loading start live pageDir cells tables vm

section

variable {start vm next : Vm} {live : List ℕ} {pageDir : ℕ} {cells : ℕ → Cell}
  {tables : Finset ℕ}

theorem Loading.walks
    (h : Loading start live pageDir cells tables vm) {virtAddr phyAddr : ℕ}
    {frames : Frames} (huser : virtAddr < kernelStart)
    (htakes : Takes vm.frames frames phyAddr) (hphy : phyAddr < 4294967296)
    (halloc : pmmAllocPageFrame vm.frames = .ok (phyAddr, frames))
    (hmaps : MapsIn { vm with frames := frames } (staticFrame pageDir)
      (virtAddr / 0x400000) (virtAddr / 0x1000 % 0x400) (pageFlags &&& 0x3FF)
      ((phyAddr &&& pageFlagFrame) ||| (pageFlags &&& 0x3FF)) next) :
    MapsPage vm.word next.word (staticFrame pageDir) virtAddr
      (phyAddr / 0x1000) pageFlags := by
  have hstart : kernelStart = 3221225472 := rfl
  have hpd : virtAddr / 0x400000 < 768 := by omega
  have hafter := h.apart.alloc halloc
  have hactive : Active { vm with frames := frames } live pageDir := h.active
  have hflags : PageFlags pageFlags :=
    ⟨pageFlagWrite ||| pageFlagUser, by simp, .inl rfl⟩
  obtain ⟨hmask, hsmall, hpresent, hlt⟩ := hflags.spec
  obtain ⟨-, hframe, hlow⟩ := pageEntry_spec hphy htakes.aligned hflags
  cases hmaps with
  | present htable =>
      exact hafter.maps_present hactive h.self (by omega)
        ⟨htable, h.small hpd htable.1⟩ hpresent hframe hlow
  | @absent address count after habsent htaken =>
      have hdir := hafter.directories.fresh hactive htaken
      have hnot : ¬IsTable { vm with frames := frames } live
          (address / 0x1000) := by
        intro htable
        obtain ⟨hrange, hbit⟩ := hafter.table _ htable
        exact pmmAllocPageFrame_new htaken hafter.directories.min_pos hrange
          hbit rfl
      refine (hafter.maps_absent hactive h.self (by omega) habsent
        (pmmAllocPageFrame_aligned htaken) hlt hsmall hpresent hnot hframe hlow
        hdir ?_).2
      refine newTable_words hdir ?_
      rw [hmask]

/-- The entries of the directories after a page has been mapped. -/
theorem Loading.rows
    (h : Loading start live pageDir cells tables vm) {virtAddr phyAddr : ℕ}
    {frames : Frames} {entry : ℕ} (huser : virtAddr < kernelStart)
    (halloc : pmmAllocPageFrame vm.frames = .ok (phyAddr, frames))
    (hmaps : MapsIn { vm with frames := frames } (staticFrame pageDir)
      (virtAddr / 0x400000) (virtAddr / 0x1000 % 0x400) (pageFlags &&& 0x3FF)
      entry next) :
    SameStatics vm next ∧ next.frames.pageFrameMax = vm.frames.pageFrameMax ∧
      ∀ other, IsStatic vm other → ∀ x,
        ¬(staticFrame other = staticFrame pageDir ∧ x = virtAddr / 0x400000) →
          next.word (staticFrame other) x = vm.word (staticFrame other) x := by
  have hstart : kernelStart = 3221225472 := rfl
  have hafter := h.apart.alloc halloc
  have hedit := hafter.directories.map_edits h.active
    (by omega : virtAddr / 0x400000 < 1023) hmaps
  have hmax : ∀ {frames after : Frames} {address : ℕ},
      pmmAllocPageFrame frames = .ok (address, after) →
        after.pageFrameMax = frames.pageFrameMax := by
    intro frames after address halloc
    rcases pmmAllocFrom_spec halloc with ⟨-, rfl⟩ | ⟨_, -, -, -, -, -, rfl⟩ <;> rfl
  refine ⟨⟨hedit.statics.initialPageDir, hedit.statics.pageDirs, ?_⟩, ?_, ?_⟩
  · exact hedit.statics.pageFrameMin.trans (pmmAllocPageFrame_cases halloc).1
  · refine Eq.trans ?_ (hmax halloc)
    cases hmaps with
    | present htable => rfl
    | absent habsent htaken => exact hmax htaken
  · exact fun other hstatic x hcell =>
      hedit.rows _ ⟨other, hstatic, rfl⟩ x hcell

theorem Loading.card
    (h : Loading start live pageDir cells tables vm) {virtAddr phyAddr : ℕ}
    {frames : Frames} {entry : ℕ} (huser : virtAddr < kernelStart)
    (htakes : Takes vm.frames frames phyAddr)
    (hmaps : MapsIn { vm with frames := frames } (staticFrame pageDir)
      (virtAddr / 0x400000) (virtAddr / 0x1000 % 0x400) (pageFlags &&& 0x3FF)
      entry next) :
    next.frames.free.card =
      vm.frames.free.card - pageCost start tables virtAddr := by
  have hstart : kernelStart = 3221225472 := rfl
  have hcard := htakes.card_free
  have hindex := h.tables (virtAddr / 0x400000) (by omega)
  have hmin : 0 < frames.pageFrameMin := by
    rw [htakes.min]
    exact h.apart.directories.min_pos
  rw [pageCost_user huser]
  cases hmaps with
  | present htable =>
      rw [if_pos (hindex.2 htable.1)]
      simp only
      omega
  | @absent address count after habsent htaken =>
      have habsent : vm.word (staticFrame pageDir) (virtAddr / 0x400000) % 2 =
        0 := habsent
      have htaken : pmmAllocPageFrame frames = .ok (address, after) := htaken
      rw [if_neg fun hmem => by
        have hpresent := hindex.1 hmem
        omega]
      simp only
      by_cases hzero : address = 0
      · subst hzero
        have hnone : frames.free.card = 0 := by
          by_contra hpos
          exact (Frames.hasFree (by omega)).alloc_ne_zero hmin htaken rfl
        rw [pmmAllocPageFrame_same hnone htaken]
        omega
      · have hleft := (pmmAllocPageFrame_takes htaken hzero).card_free
        omega

theorem Loading.tableAt
    (h : Loading start live pageDir cells tables vm) {virtAddr phyAddr : ℕ}
    {frames : Frames} {entry x table : ℕ} (huser : virtAddr < kernelStart)
    (halloc : pmmAllocPageFrame vm.frames = .ok (phyAddr, frames))
    (hmaps : MapsIn { vm with frames := frames } (staticFrame pageDir)
      (virtAddr / 0x400000) (virtAddr / 0x1000 % 0x400) (pageFlags &&& 0x3FF)
      entry next) (hat : TableAt next pageDir x table) :
    TableAt vm pageDir x table ∨ ∃ address after,
      pmmAllocPageFrame frames = .ok (address, after) ∧
        table = address / 0x1000 := by
  obtain ⟨-, -, hrows⟩ := h.rows huser halloc hmaps
  have hstatic := h.apart.directories.static h.active
  have hafter := h.apart.alloc halloc
  have hpd : virtAddr / 0x400000 < 768 := by
    have hstart : kernelStart = 3221225472 := rfl
    omega
  by_cases hx : x = virtAddr / 0x400000
  · subst hx
    have hdir : ∀ target, Points vm.word (staticFrame pageDir)
        (virtAddr / 0x400000) target → staticFrame pageDir ≠ target :=
      fun target hpoints => ((h.table_ne hpd hpoints).ne_dir
        h.apart.directories h.active).symm
    have hfresh : ∀ address after, pmmAllocPageFrame frames =
        .ok (address, after) → staticFrame pageDir ≠ address / 0x1000 :=
      fun address after htaken =>
        (hafter.directories.fresh h.active htaken).symm
    rcases hmaps.directory hdir hfresh with
      ⟨-, -, hsame⟩ | ⟨-, address, htaken, hvalue, -⟩
    · refine .inl ?_
      unfold TableAt Points at hat ⊢
      rwa [hsame] at hat
    · refine .inr ⟨address, _, htaken, ?_⟩
      obtain ⟨⟨-, hframe⟩, -⟩ := hat
      rw [hvalue, tableEntry] at hframe
      rw [← hframe]
      exact (tableEntry_spec address (by decide)).2
  · refine .inl ?_
    have hsame := hrows pageDir hstatic x fun hcell => hx hcell.2
    unfold TableAt Points at hat ⊢
    rwa [hsame] at hat

theorem translate_window
    {word : ℕ → ℕ → ℕ} {dir x : ℕ} (hself : Points word dir 1023 dir)
    (hx : x < 1024) (hpresent : word dir x % 2 = 1) :
    translate word dir (0xFFC00 + x) ≠ none := by
  have hrow : (0xFFC00 + x) / 1024 = 1023 := by omega
  have hentry : (0xFFC00 + x) % 1024 = x := by omega
  obtain ⟨hset, hframe⟩ := hself
  unfold Memory.translate
  simp only [hrow, hentry, hframe]
  rw [if_neg (by omega), if_neg (by omega : ¬word dir x % 2 = 0)]
  split_ifs <;> simp

theorem KernelPage.insert_iff
    {dir page x : ℕ} (hx : page = 0xFFC00 + x → x ∈ tables) :
    KernelPage vm dir (insert x tables) page ↔ KernelPage vm dir tables page := by
  unfold KernelPage
  constructor
  · rintro (hwalk | ⟨y, hy, hpage⟩)
    · exact .inl hwalk
    · rcases Finset.mem_insert.1 hy with rfl | hy
      · exact .inr ⟨y, hx hpage, hpage⟩
      · exact .inr ⟨y, hy, hpage⟩
  · rintro (hwalk | ⟨y, hy, hpage⟩)
    · exact .inl hwalk
    · exact .inr ⟨y, Finset.mem_insert_of_mem hy, hpage⟩

theorem Confining.mapped
    (hc : Confining start live pageDir cells tables vm)
    (h : Loading start live pageDir cells tables vm) {virtAddr phyAddr : ℕ}
    {frames : Frames} (huser : virtAddr < kernelStart)
    (htakes : Takes vm.frames frames phyAddr) (hphy : phyAddr < 4294967296)
    (halloc : pmmAllocPageFrame vm.frames = .ok (phyAddr, frames))
    (hmaps : MapsIn { vm with frames := frames } (staticFrame pageDir)
      (virtAddr / 0x400000) (virtAddr / 0x1000 % 0x400) (pageFlags &&& 0x3FF)
      ((phyAddr &&& pageFlagFrame) ||| (pageFlags &&& 0x3FF)) next) :
    Confining start live pageDir (Cell.step cells (.map virtAddr))
      (insert (virtAddr / 0x400000) tables) next := by
  have hstart : kernelStart = 3221225472 := rfl
  obtain ⟨hstatics, hmax, hrows⟩ := h.rows huser halloc hmaps
  have hwalks := h.walks huser htakes hphy halloc hmaps
  have hcard := h.card huser htakes hmaps
  have hcr3 : next.cr3 = vm.cr3 := by
    cases hmaps <;> rfl
  have hindex := h.tables (virtAddr / 0x400000) (by omega)
  have hstatic := h.apart.directories.static h.active
  have hself : Points next.word (staticFrame pageDir) 1023
      (staticFrame pageDir) :=
    h.self.congr (hrows pageDir hstatic 1023 fun hcell => by omega)
  obtain ⟨pde, hwalk⟩ := hwalks.mapped
  have hpresent : next.word (staticFrame pageDir) (virtAddr / 0x400000) % 2 =
      1 := by
    by_contra habsent
    rw [translate_absent (by
      rw [show virtAddr / 0x1000 / 1024 = virtAddr / 0x400000 by omega]
      omega)] at hwalk
    cases hwalk
  exact {
    cr3 := hcr3.trans hc.cr3
    statics := hc.statics.trans hstatics
    max := hmax.trans hc.max
    halves := fun other hother x hlow hhigh =>
      (hrows other (hc.statics.isStatic.2 hother) x
        fun hcell => by omega).trans (hc.halves other hother x hlow hhigh)
    user := fun a ha => by
      rw [Cell.step_map]
      by_cases hpage : a / 0x1000 = virtAddr / 0x1000
      · rw [hpage, hwalk]
        simp
      · rw [if_neg hpage, hwalks.others _ (by omega) hpage fun hshown => by omega]
        exact hc.user a ha
    kernel := fun page hlow hhigh => by
      by_cases hshown : vm.word (staticFrame pageDir) (virtAddr / 0x400000) % 2 =
          0 ∧ page = 0xFFC00 + virtAddr / 0x400000
      · obtain ⟨-, rfl⟩ := hshown
        exact iff_of_true (translate_window hself (by omega) hpresent)
          (.inr ⟨_, Finset.mem_insert_self _ _, rfl⟩)
      · rw [hwalks.others page hhigh (by omega) hshown, hc.kernel page hlow hhigh]
        refine (KernelPage.insert_iff fun hpage => ?_).symm
        refine hindex.2 ?_
        by_contra habsent
        exact hshown ⟨by omega, hpage⟩
    data := fun page hpage frame flags hframe => by
      rw [hstatics.pageFrameMin]
      have hself' : ∀ table, TableAt vm pageDir 1023 table →
          table = staticFrame pageDir :=
        fun table hat => hat.1.2.symm.trans h.self.2
      by_cases hsame : page = virtAddr / 0x1000
      · rw [hsame, hwalk] at hframe
        obtain rfl : phyAddr / 0x1000 = frame :=
          congrArg Prod.fst (Option.some.inj hframe)
        refine ⟨htakes.low, fun x hx table hat => ?_⟩
        rcases h.tableAt huser halloc hmaps hat with hold | ⟨address, after, htaken, rfl⟩
        · by_cases hlast : x = 1023
          · subst hlast
            rw [hself' table hold]
            exact h.frame_ne htakes.low
          · rintro rfl
            have hset := (h.apart.table _
              ⟨pageDir, h.active, x, by omega, hold⟩).2
            rw [htakes.clear] at hset
            cases hset
        · refine pmmAllocPageFrame_new htaken ?_ htakes.owned.low
            htakes.owned.set
          rw [htakes.min]
          exact h.apart.directories.min_pos
      · rw [hwalks.others page (by omega) hsame fun hshown => by omega] at hframe
        obtain ⟨hrange, hne⟩ := hc.data page hpage frame flags hframe
        refine ⟨hrange, fun x hx table hat => ?_⟩
        rcases h.tableAt huser halloc hmaps hat with hold | ⟨address, after, htaken, rfl⟩
        · exact hne x hx table hold
        · obtain ⟨-, -, -, -, hreferenced⟩ := h.page (by omega) hframe
          refine pmmAllocPageFrame_new htaken ?_ ?_ ?_
          · rw [htakes.min]
            exact h.apart.directories.min_pos
          · rwa [htakes.min]
          · rw [htakes.bits, (h.apart.page _ hreferenced).2.1]
            rfl
    loading := fun hpos => by
      refine (h.mapped huser htakes hphy halloc (fun habsent => ?_) hmaps).1
      have hnot : virtAddr / 0x400000 ∉ tables := by
        intro hmem
        have := hindex.1 hmem
        omega
      have hleft := htakes.card_free
      rw [hcard, pageCost_user huser, if_neg hnot] at hpos
      exact Frames.hasFree (by omega) }

/-- A byte written into a page of the user half. -/
theorem Confining.setByte
    (h : Confining start live pageDir cells tables vm) (hlayout : Layout start)
    (hstatic : IsStatic start pageDir) {a frame value : ℕ} {flags : ℕ × ℕ}
    (ha : a < kernelStart) (hvalue : value < 256)
    (hwalk : translate vm.word (staticFrame pageDir) (a / 0x1000) =
      some (frame, flags)) :
    Confining start live pageDir (Cell.step cells (.write a value)) tables
      (vm.setByte frame (a % 0x1000) value) := by
  have hstart : kernelStart = 3221225472 := rfl
  obtain ⟨hrange, htables⟩ := h.data _ (by omega) _ _ hwalk
  have hcell : cells a ≠ .unmapped := by
    intro hcell
    rw [(h.user a ha).2 hcell] at hwalk
    cases hwalk
  have hrow : ∀ other, IsStatic start other →
      (vm.setByte frame (a % 0x1000) value).word (staticFrame other) =
        vm.word (staticFrame other) := by
    intro other hother
    refine vm.setByte_word _ _ ?_
    have hlt := hlayout.frame_lt _ ⟨other, hother, rfl⟩
    rw [h.statics.pageFrameMin] at hrange
    omega
  have hown := hrow pageDir hstatic
  have hkeep : ∀ page < 0x100000,
      translate (vm.setByte frame (a % 0x1000) value).word
        (staticFrame pageDir) page =
          translate vm.word (staticFrame pageDir) page := by
    intro page hpage
    refine translate_keep (by rw [hown]) fun target hpoints hsmall => ?_
    rw [vm.setByte_word _ _
      (htables _ (by omega) target ⟨hpoints, hsmall⟩).symm]
  exact {
    cr3 := h.cr3
    statics := h.statics.trans ⟨rfl, rfl, rfl⟩
    max := h.max
    halves := fun other hother x hlow hhigh => by
      rw [hrow other hother]
      exact h.halves other hother x hlow hhigh
    user := fun b hb => by
      rw [hkeep _ (by omega), h.user b hb]
      by_cases hsame : b = a
      · subst hsame
        rw [Cell.step_write_same]
        simp [hcell]
      · rw [Cell.step_write_of_ne _ hsame]
    kernel := fun page hlow hhigh => by
      rw [hkeep page hhigh]
      exact h.kernel page hlow hhigh
    data := fun page hpage other flags' hother => by
      rw [hkeep page (by omega)] at hother
      obtain ⟨hlow, hne⟩ := h.data page hpage other flags' hother
      refine ⟨hlow, fun x hx table hat => hne x hx table ?_⟩
      unfold TableAt Points at hat ⊢
      rwa [hown] at hat
    loading := fun hpos => by
      have hloading := h.loading hpos
      obtain ⟨other, hother⟩ := (hloading.cells a ha).mapped hcell
      rw [hwalk] at hother
      obtain rfl : frame = other := congrArg Prod.fst (Option.some.inj hother)
      exact hloading.setByte ha hvalue (hwalk.trans hother) }

end

end Elf

end ClOs
